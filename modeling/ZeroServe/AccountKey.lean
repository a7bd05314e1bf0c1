import ZeroServe.EventRun
import Mathlib.Logic.Function.Basic

/-! The account key of processes that share one directory. Each call of `account_key` looks for the file, waits for
the advisory lock, looks again and writes a new key through a temporary file. -/
namespace ZeroServe.AccountKey
open EventRun

variable {Call Key : Type} [DecidableEq Call]

/- Where a call stands: before its first read, waiting for the lock, under it before the second read, with a new key
before the temporary file is there, before its rename and behind it; and how it ended. -/
inductive Place (Key : Type) where
  | start
  | locking
  | locked
  | generated (key : Key)
  | written (key : Key)
  | renamed (key : Key)
  | returned (key : Key)
  | failed
  deriving DecidableEq

structure Directory (Call Key : Type) where
  accountKey : Option Key
  lock : Option Call
  place : Call → Place Key

/- A step takes the next operation of a call; `key` is what a call generates if it does. A crash and an error of an
operation both end a call and give up its lock. -/
inductive Event (Call Key : Type) where
  | step (c : Call) (key : Key)
  | fail (c : Call)
  deriving DecidableEq

variable (Call Key) in
def emptyDirectory : Directory Call Key := ⟨none,none,fun _ => .start⟩

def Directory.move (d : Directory Call Key) (c : Call) (p : Place Key) : Directory Call Key :=
  { d with place := Function.update d.place c p }

def Directory.finish (d : Directory Call Key) (c : Call) (p : Place Key) : Directory Call Key :=
  { d.move c p with lock := if d.lock = some c then none else d.lock }

def step (d : Directory Call Key) : Event Call Key → Directory Call Key
  | .step c fresh => match d.place c with
    | .start => match d.accountKey with
      | some key => d.finish c (.returned key)
      | none => d.move c .locking
    | .locking => if d.lock = none then { d.move c .locked with lock := some c } else d
    | .locked => match d.accountKey with
      | some key => d.finish c (.returned key)
      | none => d.move c (.generated fresh)
    | .generated key => d.move c (.written key)
    | .written key => { d.move c (.renamed key) with accountKey := some key }
    | .renamed key => d.finish c (.returned key)
    | .returned _ => d
    | .failed => d
  | .fail c => match d.place c with
    | .returned _ => d
    | _ => d.finish c .failed

/- What a place says of the directory: a call in the critical section has the lock, and one that is about to write has
found no key. -/
def Holds (d : Directory Call Key) (c : Call) : Place Key → Prop
  | .locked => d.lock = some c
  | .generated _ => d.lock = some c ∧ d.accountKey = none
  | .written _ => d.lock = some c ∧ d.accountKey = none
  | .renamed key => d.lock = some c ∧ d.accountKey = some key
  | .returned key => d.accountKey = some key
  | _ => True

def Agreed (d : Directory Call Key) : Prop := ∀ c, Holds d c (d.place c)

variable {d : Directory Call Key} {c : Call}

theorem otherHolds {d' : Directory Call Key} {p} (agreed : Agreed d) (places : d'.place = Function.update d.place c p)
    (others : ∀ g, g ≠ c → Holds d g (d.place g) → Holds d' g (d.place g)) (here : Holds d' c p) : Agreed d' := by
  intro g
  rw [places]
  by_cases same : g = c
  · subst same
    rwa [Function.update_self]
  · rw [Function.update_of_ne same]
    exact others g same (agreed g)

theorem moveAgreed {p} (agreed : Agreed d) (here : Holds (d.move c p) c p) : Agreed (d.move c p) :=
  otherHolds agreed rfl (fun g _ holds => by cases place : d.place g <;> rw [place] at holds <;> exact holds) here

theorem finishAgreed {p} (agreed : Agreed d) (here : Holds (d.finish c p) c p) : Agreed (d.finish c p) := by
  refine otherHolds agreed rfl (fun g other holds => ?_) here
  have kept : d.lock = some g → (d.finish c p).lock = some g := by
    intro mine
    rw [Directory.finish,mine,if_neg (by simpa using other)]
  cases place : d.place g <;> rw [place] at holds
  case locked => exact kept holds
  case generated => exact ⟨kept holds.1,holds.2⟩
  case written => exact ⟨kept holds.1,holds.2⟩
  case renamed => exact ⟨kept holds.1,holds.2⟩
  all_goals exact holds

theorem stepAgreed (e : Event Call Key) (agreed : Agreed d) : Agreed (step d e) := by
  cases e with
  | fail c =>
    rw [step]
    split
    · exact agreed
    · exact finishAgreed agreed trivial
  | step c fresh =>
    have here := agreed c
    cases place : d.place c <;> rw [place] at here <;> simp only [step,place]
    case start =>
      cases found : d.accountKey with
      | some key => exact finishAgreed agreed found
      | none => exact moveAgreed agreed trivial
    case locking =>
      split
      · rename_i free
        refine otherHolds agreed rfl (fun g _ holds => ?_) rfl
        cases place : d.place g <;> simp_all [Holds,Directory.move]
      · exact agreed
    case locked =>
      cases found : d.accountKey with
      | some key => exact finishAgreed agreed found
      | none => exact moveAgreed agreed ⟨here,found⟩
    case generated => exact moveAgreed agreed here
    case written =>
      refine otherHolds agreed rfl (fun g other holds => ?_) ⟨here.1,rfl⟩
      cases place : d.place g <;> simp_all [Holds]
    case renamed => exact finishAgreed agreed here.2
    all_goals exact agreed

/- In every interleaving of any calls, with crashes, what a call returns is the key in the file. -/
theorem keysAgree (events : List (Event Call Key)) :
    let d := run step (emptyDirectory Call Key) events
    (∀ c key, d.place c = .returned key → d.accountKey = some key) ∧
    ∀ c g key other, d.place c = .returned key → d.place g = .returned other → key = other := by
  have start : Agreed (emptyDirectory Call Key) := fun _ => trivial
  have agreed := runKeeps (fun d e agreed => stepAgreed e agreed) start events
  intro d
  have stored : ∀ c key, d.place c = .returned key → d.accountKey = some key := by
    intro c key place
    have here := agreed c
    rwa [place] at here
  refine ⟨stored,fun c g key other mine theirs => ?_⟩
  exact Option.some.inj ((stored c key mine).symm.trans (stored g other theirs))

def Place.critical : Place Key → Bool
  | locked => true
  | generated _ => true
  | written _ => true
  | renamed _ => true
  | _ => false

theorem keyStays {key} (e : Event Call Key) (agreed : Agreed d) (stored : d.accountKey = some key) :
    (step d e).accountKey = some key := by
  cases e with
  | fail c =>
    rw [step]
    split <;> exact stored
  | step c fresh =>
    have here := agreed c
    cases place : d.place c <;> rw [place] at here <;> simp only [step,place]
    case start | locked =>
      rw [stored]
      exact stored
    case locking => split <;> exact stored
    case written => cases here.2.symm.trans stored
    all_goals exact stored

/- At most one call is between its lock and its return, and a stored key is never replaced. -/
theorem storedKeyFinal (initial : Option Key) (before after : List (Event Call Key)) :
    let d := run step { emptyDirectory Call Key with accountKey := initial } before
    (∀ c g, (d.place c).critical = true → (d.place g).critical = true → c = g) ∧
    ∀ key, d.accountKey = some key → (run step d after).accountKey = some key := by
  have start : Agreed { emptyDirectory Call Key with accountKey := initial } := fun _ => trivial
  intro d
  have agreed : Agreed d := runKeeps (fun d e agreed => stepAgreed e agreed) start before
  have held c (inside : (d.place c).critical = true) : d.lock = some c := by
    have here := agreed c
    cases place : d.place c <;> simp_all [Place.critical,Holds]
  refine ⟨fun c g mine theirs => ?_,fun key stored => ?_⟩
  · exact Option.some.inj ((held c mine).symm.trans (held g theirs))
  · exact (@runKeeps _ _ step (fun d => Agreed d ∧ d.accountKey = some key)
      (fun d e both => ⟨stepAgreed e both.1,keyStays e both.1 both.2⟩) d ⟨agreed,stored⟩ after).2

end ZeroServe.AccountKey
