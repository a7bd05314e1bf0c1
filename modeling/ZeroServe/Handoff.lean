import Mathlib.Algebra.BigOperators.Group.Finset.Basic
import Mathlib.Data.Int.CardIntervalMod
import Mathlib.Data.List.Perm.Basic
import ZeroServe.EventRun

/-! The workers of a shared listening socket. A shared counter says who serves an accepted connection; one for a
sibling goes through its channel. Other workers run between the fetch_add and the send of a call of route. -/
namespace ZeroServe.Handoff
open EventRun

structure Call (n : Nat) (α : Type) where
  worker : Fin n
  target : Fin n
  conn : α
  deriving DecidableEq

/- `log` has every call in the order of the fetch_add; no step reads it. -/
structure Group (n : Nat) (α : Type) where
  next : Nat
  calls : List (Call n α)
  queues : Fin n → List α
  kept : Fin n → List α
  received : Fin n → List α
  closed : List α
  log : List (Call n α)

def handoffGroups (n : Nat) (α : Type) : Group n α := ⟨0,[],fun _ => [],fun _ => [],fun _ => [],[],[]⟩

inductive Event (n : Nat) (α : Type) where
  | accept (worker : Fin n) (conn : α)
  | finish (position : Nat) (reclaims : Bool)
  | receive (worker : Fin n)

variable {n : Nat} {α : Type}

def push (f : Fin n → List α) (w : Fin n) (conn : α) : Fin n → List α := Function.update f w (f w ++ [conn])

def assign (s : Group n α) (worker : Fin n) (conn : α) : Group n α :=
  let call : Call n α := ⟨worker,⟨s.next % n,Nat.mod_lt _ worker.pos⟩,conn⟩
  { s with next := (s.next + 1) % 2 ^ 64, calls := s.calls ++ [call], log := s.log ++ [call] }

def dispatch (live : Fin n → Bool) (reclaims : Bool) (s : Group n α) (call : Call n α) : Group n α :=
  if call.target = call.worker then { s with kept := push s.kept call.worker call.conn }
  else if live call.target then { s with queues := push s.queues call.target call.conn }
  else if reclaims then { s with kept := push s.kept call.worker call.conn }
  else { s with closed := s.closed ++ [call.conn] }

def step (live : Fin n → Bool) (s : Group n α) : Event n α → Group n α
  | .accept worker conn => assign s worker conn
  | .finish position reclaims => match s.calls[position]? with
    | none => s
    | some call => dispatch live reclaims { s with calls := s.calls.eraseIdx position } call
  | .receive worker => match s.queues worker with
    | [] => s
    | conn::rest =>
      { s with queues := Function.update s.queues worker rest, received := push s.received worker conn }

def own (w : Fin n) (call : Call n α) : Bool := call.target = w && call.worker = w

def fromSibling (w : Fin n) (call : Call n α) : Bool := call.target = w && call.worker ≠ w

def conns (p : Call n α → Bool) (calls : List (Call n α)) : List α := (calls.filter p).map Call.conn

def accepted : Event n α → Option (Fin n × α)
  | .accept worker conn => some (worker,conn)
  | _ => none

structure Sound (s : Group n α) : Prop where
  counter : s.next = s.log.length % 2 ^ 64
  turns : s.log.map (·.target.val) = (List.range s.log.length).map (· % 2 ^ 64 % n)
  kept : ∀ w, (conns (own w) s.log).Perm (conns (own w) s.calls ++ s.kept w)
  sent : ∀ w, (conns (fromSibling w) s.log).Perm (conns (fromSibling w) s.calls ++ (s.queues w ++ s.received w))
  closed : s.closed = []

theorem connsAppend (p : Call n α → Bool) (a b) : conns p (a ++ b) = conns p a ++ conns p b := by
  simp [conns]

theorem connsTaken (p : Call n α → Bool) {calls} {i call} (found : calls[i]? = some call) :
    (conns p calls).Perm (conns p [call] ++ conns p (calls.eraseIdx i)) := by
  obtain ⟨inside,rfl⟩ := List.getElem?_eq_some_iff.mp found
  rw [← connsAppend]
  exact ((List.getElem_cons_eraseIdx_perm inside).symm.filter p).map Call.conn

theorem pushAt (f : Fin n → List α) (v w : Fin n) (c : α) : push f v c w = f w ++ if v = w then [c] else [] := by
  by_cases same : v = w
  · subst same
    simp [push]
  · simp [push,same,Function.update_of_ne (Ne.symm same)]

theorem permGrown {a b c} (x : List α) (same : a.Perm (b ++ c)) : (a ++ x).Perm (b ++ x ++ c) := by
  refine (same.append_right x).trans ?_
  rw [List.append_assoc,List.append_assoc]
  exact List.perm_append_comm.append_left b

theorem permEnded {a e k x : List α} (same : a.Perm (x ++ e ++ k)) : a.Perm (e ++ (k ++ x)) := by
  rw [List.append_assoc] at same
  rw [← List.append_assoc]
  exact same.trans List.perm_append_comm

theorem assignSound {s} (sound : Sound s) (w : Fin n) (c : α) : Sound (assign s w c) where
  counter := by
    simp only [assign,List.length_append,List.length_singleton,sound.counter,Nat.mod_add_mod]
  turns := by
    simp only [assign,List.map_append,List.length_append,List.length_singleton,List.range_succ,sound.turns,sound.counter]
    rfl
  kept v := by
    simp only [assign,connsAppend]
    exact permGrown _ (sound.kept v)
  sent v := by
    simp only [assign,connsAppend]
    exact permGrown _ (sound.sent v)
  closed := sound.closed

theorem dispatchSound {live : Fin n → Bool} (alive : ∀ w, live w = true) {s : Group n α} (sound : Sound s) {i call}
    (found : s.calls[i]? = some call) (reclaims : Bool) :
    Sound (dispatch live reclaims { s with calls := s.calls.eraseIdx i } call) := by
  have keptFrom w := (sound.kept w).trans ((connsTaken (own w) found).append_right _)
  have sentFrom w := (sound.sent w).trans ((connsTaken (fromSibling w) found).append_right _)
  rw [dispatch]
  split
  · rename_i here
    refine ⟨sound.counter,sound.turns,?_,?_,sound.closed⟩
    · intro w
      have one : conns (own w) [call] = if call.worker = w then [call.conn] else [] := by
        by_cases same : call.worker = w <;> simp [conns,own,here,same]
      dsimp only
      rw [pushAt,← one]
      exact permEnded (keptFrom w)
    · intro w
      have empty : conns (fromSibling w) [call] = [] := by
        simp [conns,fromSibling,here]
      have same := sentFrom w
      rwa [empty] at same
  · rename_i away
    rw [if_pos (alive _)]
    refine ⟨sound.counter,sound.turns,?_,?_,sound.closed⟩
    · intro w
      have empty : conns (own w) [call] = [] := by
        have apart : call.target = w → ¬ call.worker = w := fun target worker => away (target.trans worker.symm)
        simpa [conns,own] using apart
      have same := keptFrom w
      rwa [empty] at same
    · intro w
      have one : conns (fromSibling w) [call] = if call.target = w then [call.conn] else [] := by
        by_cases same : call.target = w
        · have apart : call.worker ≠ w := fun worker => away (same.trans worker.symm)
          simp [conns,fromSibling,same,apart]
        · simp [conns,fromSibling,same]
      dsimp only
      rw [pushAt,← one,List.append_assoc (s.queues w)]
      have same := permEnded (sentFrom w)
      rw [List.append_assoc (s.queues w)] at same
      exact same.trans ((List.perm_append_comm.append_left _).append_left _)

theorem receiveSound {s : Group n α} (sound : Sound s) {w c rest} (waiting : s.queues w = c::rest) :
    Sound { s with queues := Function.update s.queues w rest, received := push s.received w c } := by
  refine ⟨sound.counter,sound.turns,sound.kept,?_,sound.closed⟩
  intro v
  refine (sound.sent v).trans (List.Perm.append_left _ ?_)
  dsimp only
  rw [pushAt]
  by_cases same : w = v
  · subst same
    rw [waiting,Function.update_self,if_pos rfl,← List.append_assoc]
    exact (List.perm_append_singleton c (rest ++ s.received w)).symm
  · rw [Function.update_of_ne (Ne.symm same),if_neg same,List.append_nil]

theorem stepSound {live : Fin n → Bool} (alive : ∀ w, live w = true) (s : Group n α) (e : Event n α) (sound : Sound s) :
    Sound (step live s e) := by
  cases e with
  | accept w c => exact assignSound sound w c
  | finish i r =>
    rw [step]
    split
    · exact sound
    · rename_i found
      exact dispatchSound alive sound found r
  | receive w =>
    rw [step]
    split
    · exact sound
    · rename_i waiting
      exact receiveSound sound waiting

theorem newSound : Sound (handoffGroups n α) := ⟨rfl,rfl,fun _ => .nil,fun _ => .nil,rfl⟩

theorem runSound {live : Fin n → Bool} (alive : ∀ w, live w = true) (events : List (Event n α)) :
    Sound (run (step live) (handoffGroups n α) events) :=
  runKeeps (stepSound alive) newSound events

theorem runLog (live : Fin n → Bool) (s : Group n α) (events : List (Event n α)) :
    (run (step live) s events).log.map (fun call => (call.worker,call.conn)) =
      s.log.map (fun call => (call.worker,call.conn)) ++ events.filterMap accepted := by
  induction events generalizing s with
  | nil => simp [run]
  | cons e later ih =>
    refine (ih (step live s e)).trans ?_
    cases e with
    | accept w c => simp [step,assign,accepted]
    | finish i r =>
      have same : (step live s (.finish i r)).log = s.log := by
        rw [step]
        split
        · rfl
        · simp only [dispatch,apply_ite Group.log,ite_self]
      rw [same]
      rfl
    | receive w =>
      have same : (step live s (.receive w)).log = s.log := by
        rw [step]
        split <;> rfl
      rw [same]
      rfl

def assigned (w : Fin n) (log : List (Call n α)) : Nat := log.countP (·.target = w)

theorem turnsCount {w : Fin n} {k} (short : k ≤ 2 ^ 64) :
    ((List.range k).map (· % 2 ^ 64 % n)).countP (· = w.val) = k.count (· ≡ w.val [MOD n]) := by
  induction k with
  | zero => rfl
  | succ k ih =>
    rw [List.range_succ,List.map_append,List.countP_append,ih (by omega),Nat.count_succ]
    simp only [List.map_cons,List.map_nil,List.countP_singleton,Nat.mod_eq_of_lt (show k < 2 ^ 64 by omega),
      Nat.ModEq,Nat.mod_eq_of_lt w.isLt,decide_eq_true_eq]

theorem soundBalanced {s : Group n α} (sound : Sound s) (short : s.log.length ≤ 2 ^ 64) (w : Fin n) :
    assigned w s.log = s.log.length / n ∨ assigned w s.log = (s.log.length + n - 1) / n := by
  have count : assigned w s.log = (s.log.map (·.target.val)).countP (· = w.val) := by
    rw [List.countP_map]
    exact List.countP_congr fun call _ => by simp [Fin.ext_iff]
  rw [count,sound.turns,turnsCount short,Nat.count_modEq_card _ w.pos]
  split
  · rename_i less
    refine .inr ?_
    have whole := Nat.div_add_mod s.log.length n
    have up : s.log.length + n - 1 = (s.log.length % n - 1) + n * (s.log.length / n + 1) := by
      rw [Nat.mul_add]
      omega
    have small : s.log.length % n - 1 < n := (Nat.sub_le _ _).trans_lt (Nat.mod_lt _ w.pos)
    rw [up,Nat.add_mul_div_left _ _ w.pos,Nat.div_eq_of_lt small,Nat.zero_add]
  · exact .inl rfl

theorem handedOffOnce {live : Fin n → Bool} (alive : ∀ w, live w = true) (events : List (Event n α))
    {s : Group n α} (ran : run (step live) (handoffGroups n α) events = s) :
    s.log.map (fun call => (call.worker,call.conn)) = events.filterMap accepted ∧ s.closed = [] ∧
    (∀ w, (conns (own w) s.log).Perm (conns (own w) s.calls ++ s.kept w) ∧
      (conns (fromSibling w) s.log).Perm (conns (fromSibling w) s.calls ++ (s.queues w ++ s.received w))) ∧
    (s.log.length ≤ 2 ^ 64 → ∀ w, assigned w s.log = s.log.length / n ∨ assigned w s.log = (s.log.length + n - 1) / n) := by
  subst ran
  have sound := runSound alive events
  exact ⟨runLog live _ events,sound.closed,fun w => ⟨sound.kept w,sound.sent w⟩,soundBalanced sound⟩

theorem updateSum (g : List α → Nat) (f : Fin n → List α) (w : Fin n) (rest : List α) :
    ∑ v, g (f v) + g rest = ∑ v, g (Function.update f w rest v) + g (f w) := by
  have others : ∀ v ∈ Finset.univ.erase w, g (Function.update f w rest v) = g (f v) := by
    intro v other
    rw [Function.update_of_ne (Finset.ne_of_mem_erase other)]
  rw [← Finset.add_sum_erase _ _ (Finset.mem_univ w),← Finset.add_sum_erase _ _ (Finset.mem_univ w),
    Finset.sum_congr rfl others,Function.update_self]
  omega

theorem callsFinish (live : Fin n → Bool) {k} {s : Group n α} (size : s.calls.length = k) :
    ∃ more, more.filterMap accepted = [] ∧ (run (step live) s more).calls = [] := by
  induction k generalizing s with
  | zero => exact ⟨[],rfl,List.eq_nil_of_length_eq_zero size⟩
  | succ k ih =>
    obtain ⟨call,later,calls⟩ := List.exists_cons_of_length_eq_add_one size
    have less : (step live s (.finish 0 false)).calls.length = k := by
      simp only [step,calls,List.getElem?_cons_zero,dispatch,apply_ite Group.calls,ite_self]
      simpa [calls] using size
    obtain ⟨more,quiet,done⟩ := ih less
    exact ⟨.finish 0 false::more,quiet,done⟩

theorem queuesDrain (live : Fin n → Bool) {k} {s : Group n α} (size : ∑ w, (s.queues w).length = k)
    (finished : s.calls = []) : ∃ more, more.filterMap accepted = [] ∧ (run (step live) s more).calls = [] ∧
      ∀ w, (run (step live) s more).queues w = [] := by
  induction k generalizing s with
  | zero =>
    refine ⟨[],rfl,finished,fun w => ?_⟩
    exact List.eq_nil_of_length_eq_zero (Finset.sum_eq_zero_iff.mp size w (Finset.mem_univ w))
  | succ k ih =>
    obtain ⟨w,-,waits⟩ := Finset.exists_ne_zero_of_sum_ne_zero (size.trans_ne k.succ_ne_zero)
    obtain ⟨conn,rest,waiting⟩ := List.exists_cons_of_length_pos (Nat.pos_of_ne_zero waits)
    have moved := updateSum List.length s.queues w rest
    rw [waiting,List.length_cons] at moved
    obtain ⟨more,quiet,done⟩ := ih (s := step live s (.receive w)) (by simp only [step,waiting]; omega)
      (by simpa only [step,waiting] using finished)
    exact ⟨.receive w::more,quiet,done⟩

/- Every run goes on to one in which all calls have finished and all channels are empty, without another connection;
there each worker has exactly the connections that fell to it. -/
theorem drainedOnce {live : Fin n → Bool} (alive : ∀ w, live w = true) (events : List (Event n α)) :
    ∃ more, more.filterMap accepted = [] ∧ ∀ s, run (step live) (handoffGroups n α) (events ++ more) = s →
      s.calls = [] ∧ ∀ w, (conns (own w) s.log).Perm (s.kept w) ∧ (conns (fromSibling w) s.log).Perm (s.received w) := by
  obtain ⟨first,quiet,finished⟩ := callsFinish live (s := run (step live) (handoffGroups n α) events) rfl
  obtain ⟨later,still,calls,queues⟩ := queuesDrain live rfl finished
  refine ⟨first ++ later,by rw [List.filterMap_append,quiet,still]; rfl,?_⟩
  intro s ran
  have sound := runSound alive (events ++ (first ++ later))
  rw [ran] at sound
  simp only [run,List.foldl_append] at ran calls queues
  rw [ran] at calls queues
  refine ⟨calls,fun w => ⟨?_,?_⟩⟩
  · simpa [calls,conns] using sound.kept w
  · simpa [calls,queues,conns] using sound.sent w

def handingOver : List (Event 2 Nat) := [.accept 0 7,.accept 0 8,.finish 1 false,.receive 1,.finish 0 false]

theorem handedOverOnce : (run (step fun _ => true) (handoffGroups 2 Nat) handingOver).received 1 = [8] ∧
    (run (step fun _ => true) (handoffGroups 2 Nat) handingOver).closed = [] :=
  ⟨by decide +kernel,(handedOffOnce (fun _ => rfl) handingOver rfl).2.1⟩

/- A worker that exits drops its receiver: its siblings' sends fail from then on, and what waits in its channel is
closed with it. -/
structure Workers (n : Nat) (α : Type) where
  live : Fin n → Bool
  group : Group n α

def stepOrExit (s : Workers n α) : Event n α ⊕ Fin n → Workers n α
  | .inl e => { s with group := step s.live s.group e }
  | .inr w => ⟨Function.update s.live w false,{ s.group with
      queues := Function.update s.group.queues w [], closed := s.group.closed ++ s.group.queues w }⟩

def connection : Event n α ⊕ Fin n → Option α
  | .inl e => (accepted e).map Prod.snd
  | .inr _ => none

section
variable [DecidableEq α] (c : α)

/- How often a connection is anywhere: in a call that has not sent it, served, in a channel, or closed. -/
def places (s : Group n α) : Nat :=
  (s.calls.map Call.conn).count c + ∑ w, ((s.kept w).count c + (s.queues w).count c + (s.received w).count c) +
    s.closed.count c

theorem pushCount (f : Fin n → List α) (w : Fin n) (x : α) :
    ∑ v, (push f w x v).count c = ∑ v, (f v).count c + [x].count c := by
  have pushed := updateSum (List.count c) f w (f w ++ [x])
  rw [List.count_append] at pushed
  simp only [push]
  omega

theorem dispatchPlaces (live : Fin n → Bool) (reclaims : Bool) (s : Group n α) (call : Call n α) :
    places c (dispatch live reclaims s call) = places c s + [call.conn].count c := by
  rw [dispatch]
  split_ifs <;> simp only [places,Finset.sum_add_distrib,pushCount,List.count_append] <;> omega

theorem stepPlaces (s : Workers n α) (e : Event n α ⊕ Fin n) :
    places c (stepOrExit s e).group = places c s.group + (connection e).toList.count c := by
  rcases e with (⟨w,x⟩ | ⟨i,r⟩ | w) | w <;> simp only [stepOrExit,step]
  · simp only [assign,places,List.map_append,List.count_append]
    change _ + [x].count c + _ + _ = _ + _ + _ + [x].count c
    omega
  · split
    · rfl
    · rename_i found
      obtain ⟨inside,rfl⟩ := List.getElem?_eq_some_iff.mp found
      have taken := ((List.getElem_cons_eraseIdx_perm inside).map Call.conn).count_eq c
      rw [List.map_cons,← List.singleton_append,List.count_append] at taken
      rw [dispatchPlaces]
      simp only [places,← taken]
      change _ = _ + 0
      omega
  · split
    · rfl
    · rename_i x rest waiting
      have moved := updateSum (List.count c) s.group.queues w rest
      rw [waiting,← List.singleton_append,List.count_append] at moved
      simp only [places,Finset.sum_add_distrib,pushCount]
      change _ = _ + 0
      omega
  · have moved := updateSum (List.count c) s.group.queues w []
    simp only [places,Finset.sum_add_distrib,List.count_append]
    change _ = _ + 0
    rw [List.count_nil] at moved
    omega

/- Whichever workers exit, and whenever, no accepted connection is lost or there twice. -/
theorem acceptedConserved (events : List (Event n α ⊕ Fin n)) :
    places c (run stepOrExit ⟨fun _ => true,handoffGroups n α⟩ events).group = (events.filterMap connection).count c := by
  have grown : ∀ s, places c (run stepOrExit s events).group = places c s.group + (events.filterMap connection).count c := by
    induction events with
    | nil => exact fun s => rfl
    | cons e later ih =>
      intro s
      refine (ih (stepOrExit s e)).trans ?_
      rw [stepPlaces,List.filterMap_cons]
      cases connection e <;> simp [List.count_cons]
      omega
  rw [grown]
  simp [places,handoffGroups]

end

end ZeroServe.Handoff
