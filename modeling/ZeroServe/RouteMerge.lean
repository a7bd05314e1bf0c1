import ZeroServe.RouteOrder

/-! Neighbouring routes with the same matchers, terminal flag and group become one route. In a group, or with the
terminal flag, only the first of them would have run. -/
namespace ZeroServe.RouteMerge
open ByteText
open RouteOrder (Route)

variable {M H σ : Type}

/- What the matchers look at and what the handlers do; a handler that does not go on ends the request. -/
structure Meaning (M H σ : Type) where
  holds : M → σ → Bool
  act : H → σ → σ × Bool

inductive Outcome (σ : Type) where
  | ended (s : σ)
  | through (taken : List Bytes) (s : σ)
  deriving DecidableEq

section
variable (m : Meaning M H σ)

def runHandlers : List H → σ → σ × Bool
  | [],s => (s,true)
  | h::rest,s => if (m.act h s).2 then runHandlers rest (m.act h s).1 else ((m.act h s).1,false)

def matched (sets : List M) (s : σ) : Bool := sets.isEmpty || sets.any (m.holds · s)

def skipped (r : Route M H) (taken : List Bytes) (s : σ) : Bool :=
  (r.group ≠ [] && r.group ∈ taken) || ! matched m r.matcherSets s

def runRoutes : List (Route M H) → List Bytes → σ → Outcome σ
  | [],taken,s => .through taken s
  | r::rest,taken,s =>
    if skipped m r taken s then runRoutes rest taken s
    else
      let out := runHandlers m r.handlers s
      if ! out.2 || r.terminal then .ended out.1
      else runRoutes rest (if r.group = [] then taken else r.group::taken) out.1

end

def Steady (m : Meaning M H σ) (sets : List M) : Prop := ∀ h s, ∀ set ∈ sets, m.holds set (m.act h s).1 = m.holds set s

section
variable {m : Meaning M H σ}

theorem handlersAppend (a b : List H) (s : σ) : runHandlers m (a ++ b) s =
    if (runHandlers m a s).2 then runHandlers m b (runHandlers m a s).1 else ((runHandlers m a s).1,false) := by
  induction a generalizing s with
  | nil => rfl
  | cons h a ih =>
    rw [List.cons_append,runHandlers,runHandlers]
    split
    · exact ih _
    · rfl

theorem matchedAfter {sets} (steady : Steady m sets) (hs : List H) (s : σ) :
    matched m sets (runHandlers m hs s).1 = matched m sets s := by
  induction hs generalizing s with
  | nil => rfl
  | cons h hs ih =>
    have once : matched m sets (m.act h s).1 = matched m sets s := by
      refine congrArg (sets.isEmpty || ·) ?_
      rw [Bool.eq_iff_iff,List.any_eq_true,List.any_eq_true]
      exact exists_congr fun set => and_congr_right fun mem => by rw [steady h s set mem]
    rw [runHandlers]
    split
    · exact (ih _).trans once
    · exact once

end

def counting : Meaning M H Nat := ⟨fun _ _ => true,fun _ n => (n + 1,true)⟩

theorem countingHandlers (hs : List H) (n : Nat) : runHandlers (counting (M := M)) hs n = (n + hs.length,true) := by
  induction hs generalizing n with
  | nil => rfl
  | cons h hs ih =>
    refine (ih (n + 1)).trans ?_
    rw [List.length_cons]
    exact congrArg (·,true) (by omega)

variable [DecidableEq M]

def sameKey (a b : Route M H) : Bool :=
  a.matcherSets = b.matcherSets && a.terminal = b.terminal && a.group = b.group

def consolidateFrom (a : Route M H) : List (Route M H) → List (Route M H)
  | [] => [a]
  | b::rest =>
    if sameKey a b then consolidateFrom { a with handlers := a.handlers ++ b.handlers } rest
    else a::consolidateFrom b rest

def consolidateRoutes : List (Route M H) → List (Route M H)
  | [] => []
  | a::rest => consolidateFrom a rest

def Lone (a b : Route M H) : Prop := sameKey a b = true → a.terminal = true ∨ a.group ≠ [] → b.handlers = []

def Unmoved (m : Meaning M H σ) (a b : Route M H) : Prop := sameKey a b = true → Steady m a.matcherSets

section
variable {m : Meaning M H σ}

theorem mergePair {a b} (same : sameKey a b = true) (steady : Steady m a.matcherSets) (lone : Lone a b)
    (rest : List (Route M H)) (taken : List Bytes) (s : σ) :
    runRoutes m ({ a with handlers := a.handlers ++ b.handlers }::rest) taken s = runRoutes m (a::b::rest) taken s := by
  have key := same
  simp only [sameKey,Bool.and_eq_true,decide_eq_true_eq] at key
  obtain ⟨⟨sets,terminal⟩,group⟩ := key
  have skips : skipped m { a with handlers := a.handlers ++ b.handlers } taken s = skipped m a taken s := rfl
  have skipsB (taken : List Bytes) (s : σ) : skipped m b taken s = skipped m a taken s := by
    rw [skipped,skipped,sets,group]
  rw [runRoutes,runRoutes,skips]
  split
  · rename_i skip
    rw [runRoutes,skipsB,if_pos skip]
  · rename_i met
    have still : matched m a.matcherSets (runHandlers m a.handlers s).1 = true := by
      rw [matchedAfter steady]
      simp only [skipped,Bool.or_eq_true,not_or,Bool.not_eq_true',Bool.not_eq_false] at met
      exact met.2
    dsimp only
    rw [handlersAppend]
    cases goes : (runHandlers m a.handlers s).2 with
    | false => rfl
    | true =>
      cases stops : a.terminal with
      | true =>
        rw [lone same (.inl stops)]
        simp [runHandlers]
      | false =>
        by_cases grouped : a.group = []
        · rw [runRoutes,skipsB]
          simp only [skipped,grouped,still,← terminal,stops,← group]
          simp
        · rw [runRoutes,skipsB,lone same (.inr grouped)]
          simp [runHandlers,skipped,grouped]

theorem keyTaken {a b} (same : sameKey a b = true) (hs : List H) (c : Route M H) :
    (Lone b c → Lone { a with handlers := hs } c) ∧ (Unmoved m b c → Unmoved m { a with handlers := hs } c) := by
  simp only [sameKey,Bool.and_eq_true,decide_eq_true_eq] at same
  obtain ⟨⟨sets,terminal⟩,group⟩ := same
  simp only [Lone,Unmoved,sameKey,sets,terminal,group,imp_self,and_self]

theorem consolidateRuns (a : Route M H) (l : List (Route M H))
    (chain : (a::l).IsChain fun a b => Lone a b ∧ Unmoved m a b) (taken : List Bytes) (s : σ) :
    runRoutes m (consolidateFrom a l) taken s = runRoutes m (a::l) taken s := by
  induction l generalizing a taken s with
  | nil => rfl
  | cons b rest ih =>
    obtain ⟨here,later⟩ := List.isChain_cons_cons.mp chain
    rw [consolidateFrom]
    split
    · rename_i same
      rw [← mergePair same (here.2 same) here.1]
      refine ih _ ?_ taken s
      cases rest with
      | nil => exact .singleton _
      | cons c rest =>
        obtain ⟨next,linked⟩ := List.isChain_cons_cons.mp later
        have kept := keyTaken (m := m) same (a.handlers ++ b.handlers) c
        exact .cons_cons ⟨kept.1 next.1,kept.2 next.2⟩ linked
    · rw [runRoutes,runRoutes]
      split
      · exact ih b later taken s
      · dsimp only
        split
        · rfl
        · exact ih b later _ _

end

theorem pairCounts {a b : Route M H} (same : sameKey a b = true)
    (equal : runRoutes counting (consolidateRoutes [a,b]) [] 0 = runRoutes counting [a,b] [] 0) :
    a.terminal = true ∨ a.group ≠ [] → b.handlers = [] := by
  intro guarded
  have key := same
  simp only [sameKey,Bool.and_eq_true,decide_eq_true_eq] at key
  have accepted (sets : List M) (n : Nat) : matched (H := H) counting sets n = true := by
    cases sets <;> simp [matched,counting]
  have group := key.2.symm
  rw [consolidateRoutes,consolidateFrom,if_pos same] at equal
  simp only [consolidateFrom,runRoutes,skipped,accepted,countingHandlers,group] at equal
  cases stops : a.terminal with
  | true => simpa [stops] using equal
  | false =>
    have grouped := guarded.resolve_left (by simp [stops])
    simpa [stops,grouped] using equal

theorem consolidationExact (routes : List (Route M H)) :
    (∀ (σ : Type) (m : Meaning M H σ), routes.IsChain (Unmoved m) → ∀ part, part <:+: routes → ∀ taken s,
      runRoutes m (consolidateRoutes part) taken s = runRoutes m part taken s) ↔ routes.IsChain Lone := by
  constructor
  · intro kept
    rw [List.isChain_iff_forall_rel_of_append_cons_cons]
    intro a b front rest split same
    have still : routes.IsChain (Unmoved (counting (M := M) (H := H))) :=
      List.isChain_iff_forall_rel_of_append_cons_cons.mpr fun _ _ _ _ _ _ _ _ _ _ => rfl
    exact pairCounts same (kept Nat counting still [a,b] ⟨front,rest,by simp [split]⟩ [] 0)
  · intro lone σ m unmoved part inside taken s
    cases part with
    | nil => rfl
    | cons a l =>
      refine consolidateRuns a l ?_ taken s
      have both : routes.IsChain fun a b => Lone a b ∧ Unmoved m a b := by
        rw [List.isChain_iff_forall_rel_of_append_cons_cons] at lone unmoved ⊢
        exact fun _ _ _ _ split => ⟨lone split,unmoved split⟩
      exact both.infix inside

def rewritten : Meaning Unit Nat Nat := ⟨fun _ _ => true,fun uri _ => (uri,true)⟩

def twoRewrites : List (Route Unit Nat) := [⟨[],[1],ascii "group0",false⟩,⟨[],[2],ascii "group0",false⟩]

theorem bothRewritesRun : runRoutes rewritten twoRewrites [] 0 = .through [ascii "group0"] 1 ∧
    runRoutes rewritten (consolidateRoutes twoRewrites) [] 0 = .through [ascii "group0"] 2 := by
  decide +kernel

end ZeroServe.RouteMerge
