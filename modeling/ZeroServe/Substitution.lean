import Mathlib.Data.List.Basic
import Mathlib.Tactic.Linarith

/-! Placeholders of a text and their values, put in at once or one after the other. A placeholder begins and ends with
marks that it does not hold inside, so two occurrences never overlap. -/
namespace ZeroServe.Substitution

variable {α : Type} [DecidableEq α]

def replaceFrom (pat value : List α) : Nat → List α → List α
  | _,[] => []
  | skip + 1,_::s => replaceFrom pat value skip s
  | 0,c::s => if pat <+: c::s then value ++ replaceFrom pat value (pat.length - 1) s else c::replaceFrom pat value 0 s

def replaceAll (pat value : List α) (s : List α) : List α := replaceFrom pat value 0 s

theorem replaceSkipped (pat value l rest : List α) : replaceFrom pat value l.length
    (l ++ rest) = replaceAll pat value rest := by
  induction l with
  | nil => rfl
  | cons c l ih => exact ih

theorem replaceHit {pat} (value rest : List α) (filled : pat ≠ []) :
    replaceAll pat value (pat ++ rest) = value ++ replaceAll pat value rest := by
  cases pat with
  | nil => exact absurd rfl filled
  | cons c pat =>
    have hit : c::pat <+: c::(pat ++ rest) := List.prefix_append (c::pat) rest
    rw [List.cons_append,replaceAll,replaceFrom,if_pos hit]
    exact congrArg (value ++ ·) (replaceSkipped (c::pat) value pat rest)

theorem replaceMiss {pat c s} (value : List α) (miss : ¬ pat <+: c::s) :
    replaceAll pat value (c::s) = c::replaceAll pat value s := if_neg miss

def startsIn (pat : List α) : List α → List α → Nat
  | [],_ => 0
  | c::t,rest => (if pat <+: c::(t ++ rest) then 1 else 0) + startsIn pat t rest

def occurrences (pat s : List α) : Nat := startsIn pat s []

theorem startsAppend (pat t u rest : List α) : startsIn pat (t ++ u) rest = startsIn pat t
    (u ++ rest) + startsIn pat u rest := by
  induction t with
  | nil => simp [startsIn]
  | cons c t ih => rw [List.cons_append,startsIn,startsIn,ih,List.append_assoc,Nat.add_assoc]

theorem occurrencesAppend (pat t rest : List α) : occurrences pat
    (t ++ rest) = startsIn pat t rest + occurrences pat rest := by
  rw [occurrences,startsAppend,List.append_nil]
  rfl

theorem replaceFree {pat t} (value rest : List α) (free : startsIn pat t rest = 0) :
    replaceAll pat value (t ++ rest) = t ++ replaceAll pat value rest := by
  induction t with
  | nil => rfl
  | cons c t ih =>
    rw [startsIn] at free
    have miss : ¬ pat <+: c::(t ++ rest) := by
      intro hit
      rw [if_pos hit] at free
      omega
    rw [List.cons_append,replaceMiss value miss,ih (by omega)]
    rfl

theorem firstStart {pat t rest : List α} (found : startsIn pat t rest ≠ 0) :
    ∃ front back, t = front ++ back ∧ back ≠ [] ∧ startsIn pat front (back ++ rest) = 0 ∧ pat <+: back ++ rest := by
  induction t with
  | nil => exact absurd rfl found
  | cons c t ih =>
    by_cases hit : pat <+: c::(t ++ rest)
    · exact ⟨[],c::t,rfl,List.cons_ne_nil c t,rfl,hit⟩
    · rw [startsIn,if_neg hit,Nat.zero_add] at found
      obtain ⟨front,back,rfl,given,empty,hit'⟩ := ih found
      refine ⟨c::front,back,rfl,given,?_,hit'⟩
      rw [startsIn,if_neg (by rwa [List.append_assoc] at hit),empty]

section

/- A text between two marks that do not stand inside it. -/
structure Marked (opening closing : α) (q : List α) : Prop where
  shape : ∃ mid, q = opening::(mid ++ [closing]) ∧ opening ∉ mid ∧ closing ∉ mid
  apart : opening ≠ closing

variable {opening closing : α} {q q' rest : List α} (marked : Marked opening closing q)
include marked

omit [DecidableEq α] in
theorem Marked.nonempty : q ≠ [] := by
  obtain ⟨mid,rfl,-⟩ := marked.shape
  exact List.cons_ne_nil _ _

theorem Marked.upTo {s} (start : q <+: s) :
    q = s.takeWhile (· ≠ closing) ++ [closing] := by
  obtain ⟨mid,rfl,-,free⟩ := marked.shape
  obtain ⟨more,rfl⟩ := start
  have plain : ∀ c ∈ opening::mid, decide (c ≠ closing) = true := by
    intro c mem
    rw [decide_eq_true_eq]
    rintro rfl
    rcases List.mem_cons.mp mem with same | inside
    · exact marked.apart same.symm
    · exact free inside
  have shape : opening::(mid ++ [closing]) ++ more = (opening::mid) ++ closing::more := by simp
  rw [shape,List.takeWhile_append_of_pos plain]
  simp

theorem Marked.same (marked' : Marked opening closing q') {s} (start : q <+: s)
    (start' : q' <+: s) : q = q' := (marked.upTo start).trans (marked'.upTo start').symm

theorem startsFree {t} (free : opening ∉ t) : startsIn q t rest = 0 := by
  induction t with
  | nil => rfl
  | cons c t ih =>
    rw [List.mem_cons,not_or] at free
    rw [startsIn,ih free.2,if_neg]
    obtain ⟨mid,rfl,-⟩ := marked.shape
    intro start
    exact free.1 (List.cons_prefix_cons.mp start).1

theorem startsMarked (marked' : Marked opening closing q') :
    startsIn q q' rest = if q = q' then 1 else 0 := by
  obtain ⟨mid,shape,free,-⟩ := marked'.shape
  have tail : startsIn q (mid ++ [closing]) rest = 0 := by
    apply startsFree marked
    rw [List.mem_append,List.mem_singleton,not_or]
    exact ⟨free,marked.apart⟩
  rw [shape,startsIn,tail,← List.cons_append,← shape]
  by_cases same : q = q'
  · rw [if_pos same,same,if_pos (List.prefix_append q' rest)]
  · rw [if_neg same,if_neg]
    exact fun start => same (marked.same marked' start (List.prefix_append q' rest))

end

section

inductive Piece (α : Type) where
  | letter (c : α)
  | hole (k : Nat)
  deriving DecidableEq

variable (stages : List (List α × List α))

def holeText (k : Nat) : List α := (stages[k]?.map Prod.fst).getD []
def holeValue (k : Nat) : List α := (stages[k]?.map Prod.snd).getD []

def piecesFrom : Nat → List α → List (Piece α)
  | _,[] => []
  | skip + 1,_::s => piecesFrom skip s
  | 0,c::s => match stages.findIdx? fun stage => stage.1.isPrefixOf (c::s) with
    | some k => .hole k::piecesFrom ((holeText stages k).length - 1) s
    | none => .letter c::piecesFrom 0 s

def pieces (s : List α) : List (Piece α) := piecesFrom stages 0 s

def pieceText (n : Nat) : Piece α → List α
  | .letter c => [c]
  | .hole k => if k < n then holeValue stages k else holeText stages k

def filled (n : Nat) (ps : List (Piece α)) : List α := ps.flatMap (pieceText stages n)

def simultaneous (s : List α) : List α := filled stages stages.length (pieces stages s)

def oneByOne (n : Nat) (s : List α) : List α := (stages.take n).foldl (fun s stage => replaceAll stage.1 stage.2 s) s

def holes (k : Nat) (ps : List (Piece α)) : Nat := ps.count (.hole k)

/- The text a pass works on has the placeholder only where the text itself has it, or the pass changes nothing. -/
def Apart (s : List α) (k : Nat) : Prop :=
  holeValue stages k = holeText stages k ∨
    occurrences (holeText stages k) (filled stages k (pieces stages s)) = occurrences (holeText stages k) s

structure Placeholders (opening closing : α) : Prop where
  marked : ∀ stage ∈ stages, Marked opening closing stage.1
  distinct : (stages.map Prod.fst).Nodup

end

section
variable {stages : List (List α × List α)} {opening closing : α} {k : Nat} {q : List α}

theorem matchInduction {P : List α → Prop} (filled : q ≠ []) (nil : P []) (hit : ∀ rest, P rest → P (q ++ rest))
    (miss : ∀ c t, ¬ q <+: c::t → P t → P (c::t)) (s : List α) : P s := by
  induction n : s.length using Nat.strong_induction_on generalizing s with
  | _ n ih =>
    cases s with
    | nil => exact nil
    | cons c t =>
      by_cases start : q <+: c::t
      · obtain ⟨rest,same⟩ := start
        rw [← same] at n ⊢
        have length := List.length_pos_iff.mpr filled
        rw [List.length_append] at n
        exact hit rest (ih rest.length (by omega) rest rfl)
      · rw [List.length_cons] at n
        exact miss c t start (ih t.length (by omega) t rfl)

theorem replaceSelf (filled : q ≠ []) (s : List α) : replaceAll q q s = s := by
  induction s using matchInduction filled with
  | nil => rfl
  | hit rest ih => rw [replaceHit q rest filled,ih]
  | miss c t absent ih => rw [replaceMiss q absent,ih]

theorem occurrencesHit (marked : Marked opening closing q) (rest : List α) :
    occurrences q (q ++ rest) = 1 + occurrences q rest := by
  rw [occurrencesAppend,startsMarked marked marked,if_pos rfl]

theorem occurrencesMiss {c t} (absent : ¬ q <+: c::t) : occurrences q (c::t) = occurrences q t := by
  rw [occurrences,startsIn,List.append_nil,if_neg absent,Nat.zero_add]
  rfl

theorem replaceLength (marked : Marked opening closing q) (value s : List α) :
    (replaceAll q value s).length + occurrences q s * q.length = s.length + occurrences q s * value.length := by
  induction s using matchInduction marked.nonempty with
  | nil =>
    change 0 + 0 * _ = 0 + 0 * _
    rw [Nat.zero_mul,Nat.zero_mul]
  | hit rest ih =>
    rw [replaceHit value rest marked.nonempty,occurrencesHit marked,List.length_append,List.length_append,Nat.add_mul,
      Nat.add_mul]
    omega
  | miss c t absent ih =>
    rw [replaceMiss value absent,occurrencesMiss absent,List.length_cons,List.length_cons]
    omega

omit [DecidableEq α] in
theorem holeAt (given : Placeholders stages opening closing) (low : k < stages.length) :
    Marked opening closing (holeText stages k) := by
  rw [holeText,List.getElem?_eq_getElem low]
  exact given.marked _ (List.getElem_mem low)

omit [DecidableEq α] in
theorem holeInj (given : Placeholders stages opening closing) {j} (lowJ : j < stages.length) (lowK : k < stages.length)
    (same : holeText stages j = holeText stages k) : j = k := by
  rw [holeText,holeText,List.getElem?_eq_getElem lowJ,List.getElem?_eq_getElem lowK] at same
  apply (List.getElem?_inj (by rwa [List.length_map]) given.distinct).mp
  rw [List.getElem?_map,List.getElem?_map,List.getElem?_eq_getElem lowJ,List.getElem?_eq_getElem lowK]
  exact congrArg some same

omit [DecidableEq α] in
theorem filledCons (n : Nat) (p : Piece α) (ps : List (Piece α)) :
    filled stages n (p::ps) = pieceText stages n p ++ filled stages n ps := List.flatMap_cons

omit [DecidableEq α] in
theorem pieceHole (k : Nat) : pieceText stages k (.hole k) = holeText stages k ∧
    pieceText stages (k + 1) (.hole k) = holeValue stages k :=
  ⟨if_neg (Nat.lt_irrefl k),if_pos (Nat.lt_succ_self k)⟩

omit [DecidableEq α] in
theorem pieceOther {p} (other : p ≠ .hole k) : pieceText stages (k + 1) p = pieceText stages k p := by
  cases p with
  | letter c => rfl
  | hole j =>
    have ne : j ≠ k := fun same => other (by rw [same])
    rw [pieceText,pieceText]
    by_cases less : j < k
    · rw [if_pos less,if_pos (by omega)]
    · rw [if_neg less,if_neg (by omega)]

theorem holesCons (p : Piece α) (ps : List (Piece α)) :
    holes k (p::ps) = (if p = .hole k then 1 else 0) + holes k ps := by
  rw [holes,holes,List.count_cons,Nat.add_comm]
  simp only [beq_iff_eq]

theorem holesLe (marked : Marked opening closing (holeText stages k)) (ps : List (Piece α)) : holes k ps ≤ occurrences
    (holeText stages k) (filled stages k ps) := by
  induction ps with
  | nil => exact Nat.zero_le _
  | cons p ps ih =>
    rw [holesCons,filledCons,occurrencesAppend]
    split
    · rename_i here
      rw [here,(pieceHole k).1,startsMarked marked marked,if_pos rfl]
      omega
    · omega

theorem passFills (marked : Marked opening closing (holeText stages k)) (ps : List (Piece α))
    (same : occurrences (holeText stages k) (filled stages k ps) = holes k ps) :
    replaceAll (holeText stages k) (holeValue stages k) (filled stages k ps) = filled stages (k + 1) ps := by
  induction ps with
  | nil => rfl
  | cons p ps ih =>
    have rest := holesLe marked ps
    rw [holesCons,filledCons,occurrencesAppend] at same
    rw [filledCons,filledCons]
    by_cases here : p = .hole k
    · rw [here,(pieceHole k).1,startsMarked marked marked,if_pos rfl,if_pos rfl] at same
      rw [here,(pieceHole k).1,(pieceHole k).2,replaceHit _ _ marked.nonempty,ih (by omega)]
    · rw [if_neg here] at same
      rw [replaceFree _ _ (by omega),ih (by omega),pieceOther here]

theorem filledLength (ps : List (Piece α)) :
    (filled stages (k + 1) ps).length + holes k ps * (holeText stages k).length =
      (filled stages k ps).length + holes k ps * (holeValue stages k).length := by
  induction ps with
  | nil =>
    change 0 + 0 * _ = 0 + 0 * _
    rw [Nat.zero_mul,Nat.zero_mul]
  | cons p ps ih =>
    rw [holesCons,filledCons,filledCons,List.length_append,List.length_append,Nat.add_mul,Nat.add_mul]
    split
    · rename_i here
      rw [here,(pieceHole k).1,(pieceHole k).2]
      omega
    · rename_i other
      rw [pieceOther other]
      omega

omit [DecidableEq α] in
theorem prefixCases {z t rest : List α} (start : z <+: t ++ rest) : z <+: t ∨ ∃ z', z = t ++ z' ∧ z' <+: rest := by
  obtain ⟨more,same⟩ := start
  rcases List.append_eq_append_iff.mp same with ⟨a,rfl,-⟩ | ⟨z',rfl,behind⟩
  · exact .inl (List.prefix_append z a)
  · exact .inr ⟨z',rfl,more,behind.symm⟩

omit [DecidableEq α] in
theorem prefixFilled (marked : Marked opening closing (holeText stages k)) {z} (free : opening ∉ z)
    (ps : List (Piece α)) (start : z <+: filled stages k ps) : z <+: filled stages (k + 1) ps := by
  induction ps generalizing z with
  | nil => exact start
  | cons p ps ih =>
    rw [filledCons] at start ⊢
    by_cases here : p = .hole k
    · obtain ⟨mid,shape,-⟩ := marked.shape
      rw [here,(pieceHole k).1,shape] at start
      cases z with
      | nil => exact List.nil_prefix
      | cons c z =>
        have first := (List.cons_prefix_cons.mp start).1
        exact absurd (by rw [first]; exact List.mem_cons_self) free
    · rw [pieceOther here]
      rcases prefixCases start with inside | ⟨z',rfl,behind⟩
      · exact inside.trans (List.prefix_append _ _)
      · rw [List.mem_append,not_or] at free
        exact (List.prefix_append_right_inj _).mpr (ih free.2 behind)

theorem passOwn (marked : Marked opening closing (holeText stages k)) (other : holeValue stages k ≠ holeText stages k)
    (length : (holeValue stages k).length = (holeText stages k).length) (ps : List (Piece α))
    (fills : replaceAll (holeText stages k) (holeValue stages k) (filled stages k ps) = filled stages (k + 1) ps) :
    occurrences (holeText stages k) (filled stages k ps) = holes k ps := by
  induction ps with
  | nil => rfl
  | cons p ps ih =>
    rw [filledCons,filledCons] at fills
    rw [filledCons,occurrencesAppend,holesCons]
    by_cases here : p = .hole k
    · rw [here,(pieceHole k).1,(pieceHole k).2,replaceHit _ _ marked.nonempty,List.append_cancel_left_eq] at fills
      rw [here,(pieceHole k).1,startsMarked marked marked,if_pos rfl,if_pos rfl,ih fills]
    · rw [pieceOther here] at fills
      by_cases empty : startsIn (holeText stages k) (pieceText stages k p) (filled stages k ps) = 0
      · rw [replaceFree _ _ empty,List.append_cancel_left_eq] at fills
        rw [empty,if_neg here,ih fills]
      · -- the first occurrence in the piece stays as it is where the holes are filled
        obtain ⟨front,back,shape,given,free,start⟩ := firstStart empty
        have kept : holeText stages k <+: back ++ filled stages (k + 1) ps := by
          rcases prefixCases start with inside | ⟨z,whole,behind⟩
          · exact inside.trans (List.prefix_append _ _)
          · rw [whole]
            refine (List.prefix_append_right_inj _).mpr (prefixFilled marked ?_ ps behind)
            obtain ⟨mid,marks,absent,-⟩ := marked.shape
            rw [whole] at marks
            cases back with
            | nil => exact absurd rfl given
            | cons c back =>
              have tail := (List.cons.inj marks).2
              intro mem
              have inTail : opening ∈ mid ++ [closing] := by
                rw [← tail]
                exact List.mem_append_right back mem
              rw [List.mem_append,List.mem_singleton] at inTail
              exact inTail.elim absent marked.apart
        obtain ⟨more,whole⟩ := start
        rw [shape,List.append_assoc,replaceFree _ _ free,← whole,replaceHit _ _ marked.nonempty,List.append_assoc,
          List.append_cancel_left_eq] at fills
        obtain ⟨more',whole'⟩ := kept
        rw [← whole'] at fills
        exact absurd (List.append_inj_left fills length) other

theorem passExact (marked : Marked opening closing (holeText stages k)) (ps : List (Piece α)) :
    replaceAll (holeText stages k) (holeValue stages k) (filled stages k ps) = filled stages (k + 1) ps ↔
      holeValue stages k = holeText stages k ∨ occurrences (holeText stages k) (filled stages k ps) = holes k ps := by
  constructor
  · intro fills
    by_cases same : holeValue stages k = holeText stages k
    · exact .inl same
    by_cases length : (holeValue stages k).length = (holeText stages k).length
    · exact .inr (passOwn marked same length ps fills)
    · right
      have replaced := replaceLength marked (holeValue stages k) (filled stages k ps)
      have filled_ := @filledLength α _ stages k ps
      rw [fills] at replaced
      generalize (filled stages (k + 1) ps).length = a at replaced filled_
      generalize (filled stages k ps).length = b at replaced filled_
      generalize occurrences (holeText stages k) (filled stages k ps) = m at replaced ⊢
      generalize holes k ps = n at filled_ ⊢
      generalize (holeValue stages k).length = v at *
      generalize (holeText stages k).length = t at *
      have product : ((m : Int) - n) * ((v : Int) - t) = 0 := by
        linarith
      rcases mul_eq_zero.mp product with zero | zero <;> omega
  · rintro (same | own)
    · rw [same,replaceSelf marked.nonempty]
      induction ps with
      | nil => rfl
      | cons p ps ih =>
        rw [filledCons,filledCons,ih]
        by_cases here : p = .hole k
        · rw [here,(pieceHole k).1,(pieceHole k).2,same]
        · rw [pieceOther here]
    · exact passFills marked ps own

end

variable {stages : List (List α × List α)} {opening closing : α}

theorem piecesSkipped (l rest : List α) : piecesFrom stages l.length (l ++ rest) = pieces stages rest := by
  induction l with
  | nil => rfl
  | cons c l ih => exact ih

theorem piecesHit (given : Placeholders stages opening closing) {k} (low : k < stages.length) (rest : List α) :
    pieces stages (holeText stages k ++ rest) = .hole k::pieces stages rest := by
  have marked := holeAt given low
  obtain ⟨mid,shape,-⟩ := marked.shape
  have found : stages.findIdx? (fun stage => stage.1.isPrefixOf (holeText stages k ++ rest)) = some k := by
    rw [List.findIdx?_eq_some_iff_getElem]
    refine ⟨low,?_,fun j less => ?_⟩
    · rw [List.isPrefixOf_iff_prefix]
      have here : holeText stages k = stages[k].1 := by
        rw [holeText,List.getElem?_eq_getElem low]
        rfl
      rw [← here]
      exact List.prefix_append _ _
    · intro hit
      rw [List.isPrefixOf_iff_prefix] at hit
      have lowJ : j < stages.length := by omega
      have there : holeText stages j = stages[j].1 := by
        rw [holeText,List.getElem?_eq_getElem lowJ]
        rfl
      rw [← there] at hit
      have same := (holeAt given lowJ).same marked hit (List.prefix_append _ _)
      exact absurd (holeInj given lowJ low same) (by omega)
  rw [shape,List.cons_append] at found ⊢
  rw [pieces,piecesFrom,found]
  refine congrArg (Piece.hole k::·) ?_
  rw [shape]
  exact piecesSkipped (mid ++ [closing]) rest

theorem piecesMiss {c s} (miss : ∀ stage ∈ stages, ¬ stage.1 <+: c::s) :
    pieces stages (c::s) = .letter c::pieces stages s := by
  have empty : stages.findIdx? (fun stage => stage.1.isPrefixOf (c::s)) = none := by
    rw [List.findIdx?_eq_none_iff]
    intro stage mem
    rw [← Bool.not_eq_true,List.isPrefixOf_iff_prefix]
    exact miss stage mem
  rw [pieces,piecesFrom,empty]
  rfl

theorem piecesInduction (given : Placeholders stages opening closing) {P : List α → Prop} (nil : P [])
    (hit : ∀ k rest, k < stages.length → P rest → P (holeText stages k ++ rest))
    (miss : ∀ c s, (∀ stage ∈ stages, ¬ stage.1 <+: c::s) → P s → P (c::s)) (s : List α) : P s := by
  induction n : s.length using Nat.strong_induction_on generalizing s with
  | _ n ih =>
    cases s with
    | nil => exact nil
    | cons c s =>
      by_cases present : ∃ stage ∈ stages, stage.1 <+: c::s
      · obtain ⟨stage,mem,rest,same⟩ := present
        obtain ⟨k,low,rfl⟩ := List.mem_iff_getElem.mp mem
        have here : holeText stages k = stages[k].1 := by
          rw [holeText,List.getElem?_eq_getElem low]
          rfl
        rw [← here] at same
        rw [← same] at n ⊢
        have length := List.length_pos_iff.mpr (holeAt given low).nonempty
        rw [List.length_append] at n
        exact hit k rest low (ih rest.length (by omega) rest rfl)
      · rw [List.length_cons] at n
        refine miss c s (fun stage mem start => present ⟨stage,mem,start⟩) (ih s.length (by omega) s rfl)

theorem filledNone (given : Placeholders stages opening closing) (s : List α) : filled stages 0
    (pieces stages s) = s := by
  induction s using piecesInduction given with
  | nil => rfl
  | hit k rest low ih =>
    rw [piecesHit given low,filledCons,ih]
    rfl
  | miss c s absent ih =>
    rw [piecesMiss absent,filledCons,ih]
    rfl

theorem holesOccur (given : Placeholders stages opening closing) {k} (low : k < stages.length) (s : List α) :
    holes k (pieces stages s) = occurrences (holeText stages k) s := by
  induction s using piecesInduction given with
  | nil => rfl
  | hit j rest lowJ ih =>
    rw [piecesHit given lowJ,holesCons,occurrencesAppend,startsMarked (holeAt given low) (holeAt given lowJ),ih]
    by_cases same : j = k
    · rw [same,if_pos rfl,if_pos rfl]
    · rw [if_neg fun eq => same (Piece.hole.inj eq),if_neg fun eq => same (holeInj given lowJ low eq.symm)]
  | miss c s absent ih =>
    have here : ¬ holeText stages k <+: c::s := by
      have mem := absent stages[k] (List.getElem_mem low)
      rwa [holeText,List.getElem?_eq_getElem low]
    rw [piecesMiss absent,holesCons,occurrencesMiss here,ih,if_neg (by simp),Nat.zero_add]

theorem oneByOneNext {n} (low : n < stages.length) (s : List α) :
    oneByOne stages (n + 1) s = replaceAll (holeText stages n) (holeValue stages n) (oneByOne stages n s) := by
  rw [oneByOne,holeText,holeValue,List.take_add_one,List.getElem?_eq_getElem low,List.foldl_append]
  rfl

theorem oneByOneExact (given : Placeholders stages opening closing) (s : List α) :
    (∀ n ≤ stages.length, oneByOne stages n s = filled stages n (pieces stages s)) ↔
      ∀ k < stages.length, Apart stages s k := by
  have pass {k : Nat} (low : k < stages.length) (here : oneByOne stages k s = filled stages k (pieces stages s)) :
      oneByOne stages (k + 1) s = filled stages (k + 1) (pieces stages s) ↔ Apart stages s k := by
    rw [oneByOneNext low,here,passExact (holeAt given low),holesOccur given low]
    rfl
  constructor
  · intro passes k low
    exact (pass low (passes k (Nat.le_of_lt low))).mp (passes (k + 1) low)
  · intro apart n
    induction n with
    | zero => exact fun _ => (filledNone given s).symm
    | succ n ih => exact fun low => (pass low (ih (Nat.le_of_lt low))).mpr (apart n low)

theorem oneByOneSimultaneous (given : Placeholders stages opening closing) {s}
    (apart : ∀ k < stages.length, Apart stages s k) : oneByOne stages stages.length s = simultaneous stages s :=
  (oneByOneExact given s).mpr apart stages.length (Nat.le_refl _)

end ZeroServe.Substitution
