import Mathlib.Logic.Basic

/-! Runs of a system that takes one event at a time, and the rule by which an invariant
that every admissible step keeps holds along the whole run. -/
namespace ZeroServe.EventRun

variable {σ ε : Type} (step : σ → ε → σ)

def run (s : σ) (events : List ε) : σ := events.foldl step s

def Guarded (admissible : σ → ε → Prop) : σ → List ε → Prop
  | _,[] => True
  | s,e::later => admissible s e ∧ Guarded admissible (step s e) later

instance guardedDecidable (admissible : σ → ε → Prop) [∀ s e, Decidable (admissible s e)] :
    ∀ s events, Decidable (Guarded step admissible s events)
  | _,[] => isTrue trivial
  | s,e::later =>
    have := guardedDecidable admissible (step s e) later
    inferInstanceAs (Decidable (admissible s e ∧ Guarded step admissible (step s e) later))

variable {step} {admissible : σ → ε → Prop}

theorem guardedAnd {s events} {p : ε → Prop} (guarded : Guarded step admissible s events) (all : ∀ e ∈ events, p e) :
    Guarded step (fun s e => admissible s e ∧ p e) s events := by
  induction events generalizing s with
  | nil => trivial
  | cons e later ih =>
    obtain ⟨here,rest⟩ := List.forall_mem_cons.mp all
    exact ⟨⟨guarded.1,here⟩,ih guarded.2 rest⟩

theorem runInvariant {Good : σ → Prop} (keeps : ∀ s e, Good s → admissible s e → Good (step s e)) {s events}
    (start : Good s) (guarded : Guarded step admissible s events) : Good (run step s events) := by
  induction events generalizing s with
  | nil => exact start
  | cons e later ih => exact ih (keeps s e start guarded.1) guarded.2

theorem runKeeps {Good : σ → Prop} (keeps : ∀ s e, Good s → Good (step s e)) {s} (start : Good s) (events : List ε) :
    Good (run step s events) := by
  induction events generalizing s with
  | nil => exact start
  | cons e later ih => exact ih (keeps s e start)

end ZeroServe.EventRun
