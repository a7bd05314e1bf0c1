import ZeroServe.EventRun
import Mathlib.Logic.Function.Basic

/-! The hang-up watcher on its kqueue path: hooks by the number of a descriptor, each with the generation of the
`wait` call it belongs to, and a thread that harvests events and delivers them later. -/
namespace ZeroServe.HupHooks
open EventRun Function

structure KEvent where
  fd : Nat
  generation : Nat
  hangup : Bool
  deriving DecidableEq

/- Why a future ends: its event was delivered, or its sender was dropped with the hook that another call replaced. -/
inductive Cause where
  | delivered (e : KEvent)
  | replaced (newer : Nat)
  deriving DecidableEq

/- `calls` has the numbers of all calls of `wait`, by generation, and `knotes` the kernel's registrations. -/
structure Watcher where
  calls : List Nat
  hooks : Nat → Option Nat
  knotes : Nat → Option Nat
  batch : List KEvent
  completed : List (Nat × Cause)

def newWatcher : Watcher := ⟨[],fun _ => none,fun _ => none,[],[]⟩

/- Between the parts of a call, and before its future is dropped, anything else may happen. -/
inductive Event where
  | wait (fd : Nat)
  | register (g : Nat) (ok : Bool)
  | drop (g : Nat)
  | close (fd : Nat)
  | harvest (fd : Nat) (hangup : Bool)
  | deliver
  deriving DecidableEq

def removeHookIfGeneration (hooks : Nat → Option Nat) (fd g : Nat) : Nat → Option Nat :=
  if hooks fd = some g then update hooks fd none else hooks

def step (w : Watcher) : Event → Watcher
  | .wait fd =>
    { w with
      calls := w.calls ++ [fd]
      hooks := update w.hooks fd (some w.calls.length)
      completed := w.completed ++ (w.hooks fd).toList.map (·,.replaced w.calls.length) }
  | .register g ok => match w.calls[g]? with
    | none => w
    | some fd =>
      if ok then { w with knotes := update w.knotes fd (some g) }
      else { w with hooks := removeHookIfGeneration w.hooks fd g }
  | .drop g => match w.calls[g]? with
    | none => w
    | some fd => { w with hooks := removeHookIfGeneration w.hooks fd g }
  | .close fd => { w with knotes := update w.knotes fd none }
  | .harvest fd hangup => { w with batch := w.batch ++ (w.knotes fd).toList.map (⟨fd,·,hangup⟩) }
  | .deliver => match w.batch with
    | [] => w
    | e::later =>
      if e.hangup && w.hooks e.fd == some e.generation then
        { w with
          batch := later
          hooks := update w.hooks e.fd none
          completed := w.completed ++ (w.hooks e.fd).toList.map (·,.delivered e) }
      else { w with batch := later }

structure Sound (w : Watcher) : Prop where
  hooks : ∀ fd g, w.hooks fd = some g → w.calls[g]? = some fd
  knotes : ∀ fd g, w.knotes fd = some g → w.calls[g]? = some fd
  batch : ∀ e ∈ w.batch, w.calls[e.generation]? = some e.fd
  completed : ∀ g e, (g,.delivered e) ∈ w.completed → e.hangup = true ∧ e.generation = g ∧ w.calls[g]? = some e.fd

variable {w : Watcher}

theorem callKept {calls : List Nat} {g fd : Nat} (more : List Nat) (made : calls[g]? = some fd) : (calls ++ more)[g]? = some fd := by
  obtain ⟨bound,_⟩ := List.getElem?_eq_some_iff.mp made
  rw [List.getElem?_append_left bound,made]

theorem updated {f : Nat → Option Nat} {a b v g} (is : update f a v b = some g) : f b = some g ∨ a = b ∧ v = some g := by
  by_cases same : b = a
  · subst same
    exact .inr ⟨rfl,by simpa using is⟩
  · exact .inl (by simpa [same] using is)

theorem cleared {f : Nat → Option Nat} {a b g} (is : update f a none b = some g) : f b = some g := by
  rcases updated is with old | ⟨_,empty⟩
  · exact old
  · cases empty

theorem removedHook {hooks fd g b other} (is : removeHookIfGeneration hooks fd g b = some other) : hooks b = some other := by
  rw [removeHookIfGeneration] at is
  split at is
  · exact cleared is
  · exact is

theorem waitSound (sound : Sound w) (fd : Nat) : Sound (step w (.wait fd)) where
  hooks b g is := by
    rcases updated is with old | ⟨rfl,new⟩
    · exact callKept _ (sound.hooks b g old)
    · cases new
      exact List.getElem?_concat_length
  knotes b g is := callKept _ (sound.knotes b g is)
  batch e mem := callKept _ (sound.batch e mem)
  completed g e mem := by
    rcases List.mem_append.mp mem with old | new
    · obtain ⟨hangup,same,made⟩ := sound.completed g e old
      exact ⟨hangup,same,callKept _ made⟩
    · obtain ⟨_,_,other⟩ := List.mem_map.mp new
      cases other

theorem stepSound (sound : Sound w) (e : Event) : Sound (step w e) := by
  cases e with
  | wait fd => exact waitSound sound fd
  | register g ok =>
    rw [step]
    split
    · exact sound
    · rename_i fd made
      split
      · refine { sound with knotes := fun b h is => ?_ }
        rcases updated is with old | ⟨rfl,new⟩
        · exact sound.knotes b h old
        · cases new
          exact made
      · exact { sound with hooks := fun b h is => sound.hooks b h (removedHook is) }
  | drop g =>
    rw [step]
    split
    · exact sound
    · exact { sound with hooks := fun b h is => sound.hooks b h (removedHook is) }
  | close fd => exact { sound with knotes := fun b h is => sound.knotes b h (cleared is) }
  | harvest fd hangup =>
    refine { sound with batch := fun e mem => ?_ }
    rcases List.mem_append.mp mem with old | new
    · exact sound.batch e old
    · obtain ⟨g,note,rfl⟩ := List.mem_map.mp new
      exact sound.knotes fd g (Option.mem_toList.mp note)
  | deliver =>
    rw [step]
    split
    · exact sound
    · rename_i e later front
      have mine := sound.batch
      rw [front,List.forall_mem_cons] at mine
      split
      · rename_i hit
        simp only [Bool.and_eq_true,beq_iff_eq] at hit
        refine ⟨fun b h is => sound.hooks b h (cleared is),sound.knotes,mine.2,fun g f mem => ?_⟩
        rcases List.mem_append.mp mem with old | new
        · exact sound.completed g f old
        · obtain ⟨_,hook,same⟩ := List.mem_map.mp new
          cases same
          cases hit.2.symm.trans (Option.mem_toList.mp hook)
          exact ⟨hit.1,rfl,mine.1⟩
      · exact { sound with batch := mine.2 }

/- No call of `wait` finds a hook at its number. -/
def Fresh (w : Watcher) : Event → Prop
  | .wait fd => w.hooks fd = none
  | _ => True

def Delivered (w : Watcher) : Prop := ∀ p ∈ w.completed, ∃ e, p.2 = .delivered e

theorem stepDelivered (e : Event) : Delivered (step w e) ↔ Delivered w ∧ Fresh w e := by
  cases e with
  | wait fd =>
    simp only [Delivered,step,Fresh,List.forall_mem_append]
    cases w.hooks fd <;> simp
  | deliver =>
    rw [step]
    split
    · exact (and_iff_left trivial).symm
    · split
      · simp only [Delivered,Fresh,List.forall_mem_append,and_true]
        refine and_iff_left fun p mem => ?_
        obtain ⟨g,_,rfl⟩ := List.mem_map.mp mem
        exact ⟨_,rfl⟩
      · exact (and_iff_left trivial).symm
  | register g ok =>
    rw [step]
    repeat' split
    all_goals exact (and_iff_left trivial).symm
  | drop g =>
    rw [step]
    split <;> exact (and_iff_left trivial).symm
  | close fd => exact (and_iff_left trivial).symm
  | harvest fd hangup => exact (and_iff_left trivial).symm

theorem runDelivered (events : List Event) : Delivered (run step w events) ↔ Delivered w ∧ Guarded step Fresh w events := by
  induction events generalizing w with
  | nil => exact (and_iff_left trivial).symm
  | cons e later ih => exact ih.trans ((and_congr_left' (stepDelivered e)).trans and_assoc)

/- A future ends by nothing but its own hang-up event exactly in the runs in which no call finds a hook at its number;
dropping one keeps the hooks of all others in every run. -/
theorem hooksUncrossed (events : List Event) :
    let w := run step newWatcher events
    ((∀ p ∈ w.completed, ∃ e, p.2 = .delivered e ∧ e.hangup = true ∧ e.generation = p.1 ∧ w.calls[p.1]? = some e.fd) ↔
      Guarded step Fresh newWatcher events) ∧
    ∀ g fd other, w.hooks fd = some other → other ≠ g → (step w (.drop g)).hooks fd = some other := by
  have sound := @runKeeps _ _ step Sound (fun w e sound => stepSound sound e) newWatcher ⟨nofun,nofun,nofun,nofun⟩ events
  intro w
  constructor
  · have plain := (runDelivered events).trans (and_iff_right (nofun : Delivered newWatcher))
    rw [← plain]
    constructor
    · intro own p mem
      obtain ⟨e,is,_⟩ := own p mem
      exact ⟨e,is⟩
    · intro delivered p mem
      obtain ⟨e,is⟩ := delivered p mem
      exact ⟨e,is,sound.completed p.1 e (is ▸ mem)⟩
  · intro g fd other hook differ
    rw [step]
    split
    · exact hook
    · dsimp only [removeHookIfGeneration]
      split
      · rename_i place
        have apart : fd ≠ _ := fun same => differ (Option.some.inj ((same ▸ hook).symm.trans place))
        rw [update_of_ne apart,hook]
      · exact hook

/- The number is closed and used again while the first future is still there: it ends without any event. -/
theorem reusedNumberEnds :
    (0,.replaced 1) ∈ (run step newWatcher [.wait 5,.register 0 true,.close 5,.wait 5]).completed := by decide

end ZeroServe.HupHooks
