import ZeroServe.FileMatcher

/-! The patterns of a file matcher: segments of text and placeholders. The value of a
placeholder is escaped when it is filled in, and an escaped value matches itself alone. -/
namespace ZeroServe.FileMatcher
open ByteText RequestPath SiteFiles

section

variable (b : UInt8) (fuel : Nat)

theorem globByByte (b : UInt8) (rest : Bytes) (v : UInt8) (later : Bytes) :
    globMatchInner (fuel + 1) (b::rest) (v::later) =
      if b = 42 then globMatchInner fuel rest (v::later) || globMatchInner fuel (b::rest) later
      else if b = 63 then globMatchInner fuel rest later
      else if b = 91 then
        match globClassMatch rest v with
        | some (matched,next) => matched && globMatchInner fuel next later
        | none => false
      else if b = 92 then
        match rest with
        | [] => false
        | c::next => v == c && globMatchInner fuel next later
      else v == b && globMatchInner fuel rest later := rfl

theorem globPlain {b} (plain : special b = false) (fuel : Nat) (rest : Bytes) (v : UInt8) (later : Bytes) :
    globMatchInner (fuel + 1) (b::rest) (v::later) = (v == b && globMatchInner fuel rest later) := by
  simp only [special,globByte,backslash,Bool.or_eq_false_iff,beq_eq_false_iff_ne] at plain
  rw [globByByte,if_neg plain.1.1.1,if_neg plain.1.1.2,if_neg plain.1.2,if_neg plain.2]

theorem globPlainEnd {b} (plain : special b = false) (fuel : Nat) (rest : Bytes) :
    globMatchInner (fuel + 1) (b::rest) [] = false := by
  simp only [special,globByte,backslash,Bool.or_eq_false_iff,beq_eq_false_iff_ne] at plain
  rw [globMatchInner]
  simp [plain.1.1.1]

variable (rest : Bytes)

theorem globQuoted (v : UInt8) (later : Bytes) :
    globMatchInner (fuel + 1) ((if special b then [backslash,b] else [b]) ++ rest) (v::later) =
      (v == b && globMatchInner fuel rest later) := by
  cases hit : special b with
  | true => rfl
  | false => exact globPlain hit fuel rest v later

theorem globQuotedEnd :
    globMatchInner (fuel + 1) ((if special b then [backslash,b] else [b]) ++ rest) [] = false := by
  cases hit : special b with
  | true => rfl
  | false => exact globPlainEnd hit fuel rest

theorem escapeCons : caddyFileGlobEscape (b::rest) =
    (if special b then [backslash,b] else [b]) ++ caddyFileGlobEscape rest := rfl

theorem classByteShorter {s b next} (read : globClassByte s = some (b,next)) : next.length < s.length := by
  cases s with
  | nil => cases read
  | cons c rest =>
    cases rest with
    | nil =>
      cases read
      simp
    | cons d later =>
      rw [globClassByte] at read
      split at read <;> cases read <;> simp

theorem classLoopShorter {v negated fuel terms matched hasTerm hit next}
    (read : globClassLoop v negated fuel terms matched hasTerm = some (hit,next)) : next.length < terms.length := by
  induction fuel generalizing terms matched hasTerm with
  | zero => cases read
  | succ fuel ih =>
    cases terms with
    | nil => cases read
    | cons b rest =>
      rw [globClassLoop] at read
      split at read
      · cases read
        simp
      · split at read
        · cases read
        · obtain ⟨⟨start,after⟩,first,read⟩ := Option.bind_eq_some_iff.mp read
          have shorter := classByteShorter first
          dsimp only at read
          split at read
          · split at read
            · cases read
            · obtain ⟨⟨last,behind⟩,second,read⟩ := Option.bind_eq_some_iff.mp read
              have less := classByteShorter second
              have inner := ih read
              rw [List.length_tail] at less
              dsimp only at inner
              omega
          · exact (ih read).trans shorter

theorem classShorter {pattern v hit next} (read : globClassMatch pattern v = some (hit,next)) :
    next.length ≤ pattern.length := by
  have inner := classLoopShorter read
  split at inner
  · rw [List.length_tail] at inner
    omega
  · omega

theorem globEnough {fuel other pattern value} (enough : pattern.length + value.length < fuel)
    (too : pattern.length + value.length < other) :
    globMatchInner fuel pattern value = globMatchInner other pattern value := by
  induction fuel generalizing other pattern value with
  | zero => cases enough
  | succ fuel ih =>
    obtain ⟨other,rfl⟩ : ∃ k, other = k + 1 := ⟨other - 1,by omega⟩
    cases pattern with
    | nil => rfl
    | cons b rest =>
      simp only [List.length_cons] at enough too
      cases value with
      | nil =>
        have same : globMatchInner fuel rest [] = globMatchInner other rest [] := ih (by simp; omega) (by simp; omega)
        simp [globMatchInner,same]
      | cons v later =>
        simp only [List.length_cons] at enough too
        have skip : globMatchInner fuel rest (v::later) = globMatchInner other rest (v::later) :=
          ih (by simp; omega) (by simp; omega)
        have stay : globMatchInner fuel (b::rest) later = globMatchInner other (b::rest) later :=
          ih (by simp; omega) (by simp; omega)
        have both : ∀ next : Bytes, next.length ≤ rest.length →
            globMatchInner fuel next later = globMatchInner other next later :=
          fun next shorter => ih (by omega) (by omega)
        rw [globByByte,globByByte,skip,stay,both rest le_rfl]
        cases read : globClassMatch rest v with
        | none => cases rest with
          | nil => rfl
          | cons c next => simp only [both next (by simp)]
        | some p =>
          have shorter := classShorter read
          cases rest with
          | nil => simp only [both p.2 shorter]
          | cons c next => simp only [both p.2 shorter,both next (by simp)]

theorem globMatchIs {fuel pattern value} (enough : pattern.length + value.length < fuel) :
    globMatchInner fuel pattern value = globMatch pattern value := globEnough enough (Nat.lt_succ_self _)

theorem escapeInner {fuel v q w} (enough : (caddyFileGlobEscape v ++ q).length + w.length < fuel) :
    globMatchInner fuel (caddyFileGlobEscape v ++ q) w = true ↔ ∃ rest, w = v ++ rest ∧ globMatch q rest = true := by
  induction v generalizing fuel w with
  | nil =>
    rw [globMatchIs enough]
    simp [caddyFileGlobEscape]
  | cons b v ih =>
    obtain ⟨fuel,rfl⟩ : ∃ k, fuel = k + 1 := ⟨fuel - 1,by omega⟩
    rw [escapeCons] at enough ⊢
    cases w with
    | nil => simp [globQuotedEnd]
    | cons c w =>
      have inner := ih (w := w) (by split at enough <;> simp at enough ⊢ <;> omega : _ < fuel)
      rw [List.append_assoc,globQuoted,Bool.and_eq_true,inner]
      simp [and_assoc]

theorem escapeMatches (value name : Bytes) : globMatch (caddyFileGlobEscape value) name = true ↔ name = value := by
  have whole := escapeInner (q := []) (v := value) (w := name) (Nat.lt_succ_self _)
  rw [List.append_nil] at whole
  refine whole.trans ?_
  simp [globMatch,globMatchInner]

theorem escapePlain {value} (plain : ∀ b ∈ value, special b = false) : caddyFileGlobEscape value = value := by
  induction value with
  | nil => rfl
  | cons b rest ih =>
    obtain ⟨here,later⟩ := List.forall_mem_cons.mp plain
    rw [escapeCons,here,ih later]
    rfl

theorem matchesSelf {segment} (plain : ∀ b ∈ segment, special b = false) : globMatch segment segment = true := by
  have itself := (escapeMatches segment segment).mpr rfl
  rwa [escapePlain plain] at itself

theorem unescapeEscape (v : Bytes) : caddyFileUnescapeGlobLiterals (caddyFileGlobEscape v) = v := by
  induction v with
  | nil => rfl
  | cons b v ih =>
    rw [escapeCons]
    cases hit : special b with
    | true =>
      rw [if_pos rfl,List.cons_append,List.singleton_append,caddyFileUnescapeGlobLiterals,if_pos rfl,if_pos hit,ih]
    | false =>
      have other : b ≠ backslash := by
        rintro rfl
        cases hit
      rw [if_neg (by simp),List.singleton_append]
      cases rest : caddyFileGlobEscape v with
      | nil =>
        rw [rest] at ih
        exact congrArg (b::·) ih
      | cons c rest' => rw [caddyFileUnescapeGlobLiterals,if_neg other,← rest,ih]

theorem unescapePlain {s} (plain : ∀ b ∈ s, special b = false) : caddyFileUnescapeGlobLiterals s = s := by
  have back := unescapeEscape s
  rwa [escapePlain plain] at back

theorem globEscapeExact (v q w : Bytes) :
    (globMatch (caddyFileGlobEscape v ++ q) w = true ↔ ∃ rest, w = v ++ rest ∧ globMatch q rest = true) ∧
    caddyFileUnescapeGlobLiterals (caddyFileGlobEscape v) = v :=
  ⟨escapeInner (Nat.lt_succ_self _),unescapeEscape v⟩

theorem displayPlain {s} (plain : backslash ∉ s) : displayPath s = s := by
  have same : s.map (fun b => if b = backslash then slash else b) = s.map id :=
    List.map_congr_left fun b mem => if_neg fun (is : b = backslash) => plain (is ▸ mem)
  rw [displayPath,same,List.map_id]

theorem globLoopPlain {s} (plain : ∀ b ∈ s, special b = false) (inPlaceholder : Bool) :
    globLoop inPlaceholder false s = false := by
  induction s generalizing inPlaceholder with
  | nil => rfl
  | cons b rest ih =>
    obtain ⟨here,later⟩ := List.forall_mem_cons.mp plain
    simp only [special,Bool.or_eq_false_iff,beq_eq_false_iff_ne] at here
    rw [globLoop,if_neg here.2]
    split
    · exact ih later true
    · split
      · exact ih later false
      · simp [here.1,ih later]

end

/- A piece of a pattern's segment: text, glob characters among it, or a placeholder. -/
inductive Piece where
  | text (t : Bytes)
  | placeholder (key : Bytes)
  deriving DecidableEq

namespace Piece

def render : Piece → Bytes
  | text t => t
  | placeholder key => 123::key ++ [125]

def Ok : Piece → Prop
  | text t => ∀ b ∈ t, b ≠ 123 ∧ b ≠ 125 ∧ b ≠ backslash
  | placeholder key => ∀ b ∈ key, b ≠ 125 ∧ b ≠ backslash

def quoted (resolve : Bytes → Option Bytes) : Piece → Bytes
  | text t => t
  | placeholder key => caddyFileGlobEscape ((resolve key).getD [])

def filled (resolve : Bytes → Option Bytes) : Piece → Bytes
  | text t => t
  | placeholder key => (resolve key).getD []

end Piece

variable {resolve : Bytes → Option Bytes}

theorem takeUntil {stop s} (plain : ∀ b ∈ s, b ≠ stop) (rest : Bytes) :
    (s ++ stop::rest).takeWhile (· != stop) = s := by
  rw [List.takeWhile_append_of_pos (by simpa using plain)]
  simp

theorem expandPieces {pieces : List Piece} {before : Bytes} {fuel} (ok : ∀ piece ∈ pieces, piece.Ok)
    (plain : ∀ b ∈ before, b ≠ 123) (enough : (before ++ pieces.flatMap Piece.render).length ≤ fuel) :
    expandLoop (fun key => (resolve key).map caddyFileGlobEscape) fuel (before ++ pieces.flatMap Piece.render) =
      before ++ pieces.flatMap (Piece.quoted resolve) := by
  induction pieces generalizing before fuel with
  | nil =>
    have whole : before.takeWhile (· != 123) = before := by
      simpa using plain
    cases fuel with
    | zero => simp [expandLoop]
    | succ fuel => simp [expandLoop,whole]
  | cons piece later ih =>
    obtain ⟨here,rest⟩ := List.forall_mem_cons.mp ok
    cases piece with
    | text t =>
      have joined : ∀ b ∈ before ++ t, b ≠ 123 := by
        intro b mem
        rcases List.mem_append.mp mem with old | new
        · exact plain b old
        · exact (here b new).1
      have inner := ih rest joined (by simpa [Piece.render,List.append_assoc] using enough)
      simpa [Piece.render,Piece.quoted,List.append_assoc] using inner
    | placeholder key =>
      have shape : before ++ (Piece.placeholder key::later).flatMap Piece.render =
          before ++ 123::(key ++ 125::later.flatMap Piece.render) := by simp [Piece.render]
      rw [shape] at enough ⊢
      obtain ⟨k,rfl⟩ : ∃ k, fuel = k + 1 := ⟨fuel - 1,by simp at enough; omega⟩
      have inner : expandLoop (fun key => (resolve key).map caddyFileGlobEscape) k
          ([] ++ later.flatMap Piece.render) = [] ++ later.flatMap (Piece.quoted resolve) :=
        ih rest (by simp) (by simp at enough ⊢; omega)
      rw [List.nil_append,List.nil_append] at inner
      have value : ((resolve key).map caddyFileGlobEscape).getD [] = caddyFileGlobEscape ((resolve key).getD []) := by
        cases resolve key <;> rfl
      have keyEnds : ∀ b ∈ key, b ≠ 125 := fun b mem => (here b mem).1
      simp only [expandLoop,takeUntil plain,List.drop_left,takeUntil keyEnds,inner,value,List.flatMap_cons,
        Piece.quoted,List.append_assoc]

abbrev Pattern := List (List Piece)

def Pattern.render (pattern : Pattern) : Bytes := join (pattern.map (·.flatMap Piece.render))

def flatPieces (pattern : Pattern) : List Piece := [Piece.text [slash]].intercalate pattern

theorem flatMapJoin (pattern : Pattern) (f : Piece → Bytes) (slashes : f (.text [slash]) = [slash]) :
    (flatPieces pattern).flatMap f = join (pattern.map (·.flatMap f)) := by
  induction pattern with
  | nil => rfl
  | cons segment later ih =>
    cases later with
    | nil => simp [flatPieces,join]
    | cons next others =>
      simp only [flatPieces,join,List.intercalate,List.map_cons,List.intersperse_cons_cons,List.flatten_cons,
        List.flatMap_append,List.flatMap_cons,List.flatMap_nil,slashes,List.append_nil] at ih ⊢
      rw [ih]

theorem memFlatPieces {pattern piece} : (∃ segment ∈ pattern, piece ∈ segment) → piece ∈ flatPieces pattern := by
  rintro ⟨segment,mem,inside⟩
  induction pattern with
  | nil => cases mem
  | cons first later ih =>
    cases later with
    | nil =>
      cases List.mem_singleton.mp mem
      simpa [flatPieces] using inside
    | cons next others =>
      simp only [flatPieces,List.intercalate,List.intersperse_cons_cons,List.flatten_cons,List.mem_append]
      rcases List.mem_cons.mp mem with rfl | after
      · exact .inl inside
      · exact .inr (.inr (ih after))

theorem flatPiecesOk {pattern} (ok : ∀ segment ∈ pattern, ∀ piece ∈ segment, piece.Ok) :
    ∀ piece ∈ flatPieces pattern, piece.Ok := by
  induction pattern with
  | nil => simp [flatPieces]
  | cons first later ih =>
    obtain ⟨here,rest⟩ := List.forall_mem_cons.mp ok
    cases later with
    | nil => simpa [flatPieces] using here
    | cons next others =>
      intro piece mem
      simp only [flatPieces,List.intercalate,List.intersperse_cons_cons,List.flatten_cons,List.mem_append,
        List.mem_singleton] at mem
      rcases mem with front | sep | back
      · exact here piece front
      · rw [sep]
        simp only [Piece.Ok,List.mem_singleton,forall_eq]
        decide
      · exact ih rest piece back

theorem globLoopText {t} (ok : (Piece.text t).Ok) (rest : Bytes) :
    globLoop false false (t ++ rest) = (t.any globByte || globLoop false false rest) := by
  induction t with
  | nil => rfl
  | cons b later ih =>
    obtain ⟨here,others⟩ := List.forall_mem_cons.mp ok
    rw [List.cons_append,globLoop,if_neg here.2.2,if_neg here.1,if_neg here.2.1,ih others,List.any_cons]
    cases globByte b <;> simp

theorem globLoopKey {key} (ok : (Piece.placeholder key).Ok) (rest : Bytes) :
    globLoop true false (key ++ 125::rest) = globLoop false false rest := by
  induction key with
  | nil => rfl
  | cons b later ih =>
    obtain ⟨here,others⟩ := List.forall_mem_cons.mp ok
    rw [List.cons_append,globLoop,if_neg here.2]
    split
    · exact ih others
    · rw [if_neg here.1]
      simpa using ih others

theorem globFreeTexts {pieces : List Piece} (ok : ∀ piece ∈ pieces, piece.Ok)
    (empty : globLoop false false (pieces.flatMap Piece.render) = false) {t : Bytes} (mem : Piece.text t ∈ pieces) :
    ∀ b ∈ t, globByte b = false := by
  induction pieces with
  | nil => cases mem
  | cons piece later ih =>
    obtain ⟨here,rest⟩ := List.forall_mem_cons.mp ok
    cases piece with
    | text u =>
      rw [List.flatMap_cons,Piece.render,globLoopText here,Bool.or_eq_false_iff] at empty
      rcases List.mem_cons.mp mem with same | after
      · cases same
        simpa using empty.1
      · exact ih rest empty.2 after
    | placeholder key =>
      have inner : globLoop false false (later.flatMap Piece.render) = false := by
        rw [← globLoopKey here]
        rw [List.flatMap_cons,Piece.render] at empty
        simpa [globLoop,backslash] using empty
      rcases List.mem_cons.mp mem with same | after
      · cases same
      · exact ih rest inner after

end ZeroServe.FileMatcher
