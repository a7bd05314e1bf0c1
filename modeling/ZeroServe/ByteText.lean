import Mathlib

/-! Byte strings as the wire carries them: search, cutting at separators, case folding and number syntax. A Rust `str`
is its UTF-8 bytes, so text operations at ASCII separators are operations on bytes. -/
namespace ZeroServe.ByteText

abbrev Bytes := List UInt8

instance lawfulBytes : LawfulBEq Bytes := inferInstance

def ascii (s : String) : Bytes := s.toList.map (fun c => UInt8.ofNat c.toNat)

def crlf : Bytes := [13,10]

def lowerByte (b : UInt8) : UInt8 := if 65 ≤ b ∧ b ≤ 90 then b + 32 else b
def lower (s : Bytes) : Bytes := s.map lowerByte
def eqIgnoreAsciiCase (a b : Bytes) : Bool := lower a == lower b

variable (s : Bytes) (b : UInt8)

theorem lowerByteIdem : lowerByte (lowerByte b) = lowerByte b := by
  revert b; decide +kernel

theorem lowerIdem : lower (lower s) = lower s := by
  simp only [lower,List.map_map]
  congr 1
  funext b
  exact lowerByteIdem b

/- First position at which a pattern starts: `windows(k).position(..)`. -/
def find (pat : Bytes) : Bytes → Option Nat
  | [] => if pat = [] then some 0 else none
  | b::rest => if pat.isPrefixOf (b::rest) then some 0 else (find pat rest).map (· + 1)

theorem findNil (pat : Bytes) : find pat [] = if pat = [] then some 0 else none := rfl

theorem findCons (pat : Bytes) (b : UInt8) (rest : Bytes) : find pat (b::rest) =
    if pat.isPrefixOf (b::rest) then some 0 else (find pat rest).map (· + 1) := rfl

theorem findSound {pat s i} (h : find pat s = some i) : s = s.take i ++ pat ++ s.drop (i + pat.length) := by
  induction s generalizing i with
  | nil =>
    rw [findNil] at h
    split at h
    · rename_i empty
      cases Option.some.inj h
      simp [empty]
    · contradiction
  | cons b rest ih =>
    rw [findCons] at h
    split at h
    · rename_i here
      cases Option.some.inj h
      obtain ⟨tail,same⟩ := List.isPrefixOf_iff_prefix.mp here
      rw [← same]; simp
    · obtain ⟨j,hj,same⟩ := Option.map_eq_some_iff.mp h
      subst same
      have inner := ih hj
      rw [show j + 1 + pat.length = (j + pat.length) + 1 from by omega]
      exact congrArg (List.cons b) inner

theorem findBound {pat s i} (h : find pat s = some i) : i + pat.length ≤ s.length := by
  induction s generalizing i with
  | nil =>
    rw [findNil] at h
    split at h
    · rename_i empty
      cases Option.some.inj h
      simp [empty]
    · contradiction
  | cons b rest ih =>
    rw [findCons] at h
    split at h
    · rename_i here
      cases Option.some.inj h
      simpa using (List.isPrefixOf_iff_prefix.mp here).length_le
    · obtain ⟨j,hj,same⟩ := Option.map_eq_some_iff.mp h
      have := ih hj
      simp only [List.length_cons]; omega

theorem findAppend {pat s i} (h : find pat s = some i) {t} : find pat (s ++ t) = some i := by
  induction s generalizing i with
  | nil =>
    rw [findNil] at h
    split at h <;> try contradiction
    rename_i empty
    cases Option.some.inj h
    cases t <;> simp [find,empty]
  | cons b rest ih =>
    rw [findCons] at h
    rw [List.cons_append,findCons]
    split at h
    · rename_i here
      have further : pat.isPrefixOf (b::(rest ++ t)) = true := by
        rw [List.isPrefixOf_iff_prefix] at here ⊢
        exact here.trans (List.prefix_append (b::rest) t)
      rw [if_pos further]; exact h
    · rename_i away
      obtain ⟨j,hj,same⟩ := Option.map_eq_some_iff.mp h
      have inside := findBound hj
      have further : ¬ pat.isPrefixOf (b::(rest ++ t)) = true := by
        intro start
        apply away
        rw [List.isPrefixOf_iff_prefix] at start ⊢
        apply List.prefix_of_prefix_length_le start (List.prefix_append (b::rest) t)
        simp only [List.length_cons]; omega
      rw [if_neg further,ih hj]
      exact congrArg some same

def splitCrlf : Bytes → List Bytes
  | [] => [[]]
  | 13::10::rest => [] :: splitCrlf rest
  | b::rest =>
    match splitCrlf rest with
    | [] => [[b]]
    | line::lines => (b::line)::lines

def CrlfFree (s : Bytes) : Prop := splitCrlf s = [s]
instance (s : Bytes) : Decidable (CrlfFree s) := inferInstanceAs (Decidable (_ = _))

theorem splitCrlfNeNil : splitCrlf s ≠ [] := by
  fun_cases splitCrlf s <;> simp_all

theorem splitCrlfCons (rest : Bytes) (other : ¬ (b = 13 ∧ rest.head? = some 10)) :
    ∃ line lines, splitCrlf rest = line::lines ∧ splitCrlf (b::rest) = (b::line)::lines := by
  obtain ⟨line,lines,h⟩ := List.exists_cons_of_ne_nil (splitCrlfNeNil rest)
  refine ⟨line,lines,h,?_⟩
  rw [splitCrlf]
  · rw [h]
  · intro tail hb hr
    exact other ⟨hb,by simp [hr]⟩

theorem crlfFreeCons {b rest} (h : CrlfFree (b::rest)) : CrlfFree rest ∧ ¬ (b = 13 ∧ rest.head? = some 10) := by
  have other : ¬ (b = 13 ∧ rest.head? = some 10) := by
    rintro ⟨rfl,hr⟩
    cases rest with
    | nil => simp at hr
    | cons c tail =>
      cases Option.some.inj hr
      simp [CrlfFree,splitCrlf] at h
  obtain ⟨line,lines,hs,hc⟩ := splitCrlfCons b rest other
  rw [CrlfFree,hc] at h
  simp only [List.cons.injEq,true_and] at h
  exact ⟨by rw [CrlfFree,hs,h.1,h.2],other⟩

theorem splitCrlfLine {line} (rest : Bytes) (free : CrlfFree line) :
    splitCrlf (line ++ crlf ++ rest) = line :: splitCrlf rest := by
  induction line with
  | nil => simp [crlf,splitCrlf]
  | cons b tail ih =>
    obtain ⟨inner,other⟩ := crlfFreeCons free
    have next : ¬ (b = 13 ∧ (tail ++ crlf ++ rest).head? = some 10) := by
      rintro ⟨hb,hr⟩
      cases tail with
      | nil => simp [crlf] at hr
      | cons c t => exact other ⟨hb,by simpa using hr⟩
    obtain ⟨line,lines,hs,hc⟩ := splitCrlfCons b (tail ++ crlf ++ rest) next
    rw [ih inner] at hs
    cases hs
    simpa [List.append_assoc] using hc

theorem crlfFreeOfNoCr {s} (h : (13 : UInt8) ∉ s) : CrlfFree s := by
  induction s with
  | nil => rfl
  | cons b rest ih =>
    have inner := ih (fun mem => h (by simp [mem]))
    have other : ¬ (b = 13 ∧ rest.head? = some 10) := fun hb => h (by simp [hb.1])
    obtain ⟨line,lines,hs,hc⟩ := splitCrlfCons b rest other
    rw [CrlfFree,hs] at inner
    cases inner
    exact hc

theorem findCrlfFree {s i} (h : find crlf s = some i) : CrlfFree (s.take i) := by
  induction s generalizing i with
  | nil => simp [find,crlf] at h
  | cons b rest ih =>
    rw [findCons] at h
    split at h
    · cases Option.some.inj h; rfl
    · rename_i away
      obtain ⟨j,hj,same⟩ := Option.map_eq_some_iff.mp h
      subst same
      have inner := ih hj
      have other : ¬ (b = 13 ∧ (rest.take j).head? = some 10) := by
        intro start
        apply away
        cases rest with
        | nil => simp at start
        | cons c tail =>
          cases j with
          | zero => simp at start
          | succ j => simp_all [crlf,List.isPrefixOf]
      obtain ⟨line,lines,hs,hc⟩ := splitCrlfCons b (rest.take j) other
      rw [CrlfFree,hs] at inner
      cases inner
      exact hc

theorem splitCrlfFree : ∀ line ∈ splitCrlf s, CrlfFree line := by
  fun_induction splitCrlf s with
  | case1 => simp [CrlfFree,splitCrlf]
  | case2 rest ih =>
    intro line mem
    rcases List.mem_cons.mp mem with rfl | h
    · rfl
    · exact ih line h
  | case3 b rest other nil ih => exact absurd nil (splitCrlfNeNil rest)
  | case4 b rest other line lines hs ih =>
    intro l mem
    rcases List.mem_cons.mp mem with rfl | h
    · have inner := ih line (by simp [hs])
      have next : ¬ (b = 13 ∧ line.head? = some 10) := by
        rintro ⟨rfl,hl⟩
        cases rest with
        | nil =>
          cases hs
          simp at hl
        | cons c tail =>
          by_cases start : c = 13 ∧ tail.head? = some 10
          · obtain ⟨rfl,ht⟩ := start
            cases tail with
            | nil => simp at ht
            | cons d t =>
              cases Option.some.inj ht
              cases hs
              simp at hl
          · obtain ⟨l',ls',_,hc⟩ := splitCrlfCons c tail start
            rw [hs] at hc
            cases hc
            have hcten : c = 10 := by simpa using hl
            exact other tail rfl (by rw [hcten])
      obtain ⟨l',ls',hl,hc⟩ := splitCrlfCons b line next
      rw [inner] at hl
      cases hl
      exact hc
    · exact ih l (by simp [hs,h])

theorem findFirst {pat s i j} (h : find pat s = some i) (start : pat <+: s.drop j) (inside : j < s.length) : i ≤ j := by
  induction s generalizing i j with
  | nil => simp at inside
  | cons b rest ih =>
    rw [findCons] at h
    split at h
    · cases h; omega
    · rename_i away
      cases inner : find pat rest with
      | none =>
        rw [inner] at h
        cases h
      | some k =>
        rw [inner] at h
        cases h
        cases j with
        | zero => exact absurd (List.isPrefixOf_iff_prefix.mpr start) (by simpa using away)
        | succ j =>
          exact Nat.succ_le_succ (ih inner start (by simpa using inside))

theorem emptyFirst {s lines} (h : splitCrlf s = []::lines) : crlf <+: s ++ crlf := by
  cases s with
  | nil => exact List.prefix_rfl
  | cons b rest =>
    by_cases start : b = 13 ∧ rest.head? = some 10
    · obtain ⟨rfl,next⟩ := start
      cases rest with
      | nil => cases next
      | cons c rest =>
        cases Option.some.inj next
        exact ⟨rest ++ crlf,by simp [crlf]⟩
    · obtain ⟨line,lines',_,same⟩ := splitCrlfCons b rest start
      rw [same] at h
      cases h

theorem emptyLine {s} (h : [] ∈ (splitCrlf s).tail) : ∃ j, j + 2 ≤ s.length ∧ crlf ++ crlf <+: (s ++ crlf).drop j := by
  fun_induction splitCrlf s with
  | case1 => simp at h
  | case2 rest ih =>
    obtain ⟨first,lines,same⟩ := List.exists_cons_of_ne_nil (splitCrlfNeNil rest)
    rw [same] at h
    rcases List.mem_cons.mp h with empty | later
    · obtain ⟨more,start⟩ := emptyFirst (empty ▸ same)
      exact ⟨0,by simp,more,by simp [crlf] at start ⊢; exact start⟩
    · obtain ⟨j,bound,start⟩ := ih (by rw [same]; exact later)
      exact ⟨j + 2,by simpa using bound,by simpa using start⟩
  | case3 b rest other none ih => simp at h
  | case4 b rest other line lines tail ih =>
    obtain ⟨j,bound,start⟩ := ih (by rw [tail]; exact h)
    exact ⟨j + 1,by simp; omega,by simpa using start⟩

theorem noEmptyLine {s raw rest} (h : find (crlf ++ crlf) s = some raw.length)
    (cut : s = raw ++ (crlf ++ crlf) ++ rest) : [] ∉ (splitCrlf raw).tail := by
  intro mem
  obtain ⟨j,bound,more,start⟩ := emptyLine mem
  have early : crlf ++ crlf <+: s.drop j := by
    refine ⟨more ++ crlf ++ rest,?_⟩
    have whole : s = (raw ++ crlf) ++ (crlf ++ rest) := by rw [cut]; simp
    rw [whole,List.drop_append_of_le_length (by simp; omega),← start]
    simp
  have first := findFirst h early (by rw [cut]; simp [crlf]; omega)
  omega

def splitOnce (sep : UInt8) (s : Bytes) : Option (Bytes × Bytes) :=
  (s.findIdx? (· == sep)).map (fun i => (s.take i,s.drop (i+1)))

theorem splitOnceAppend {sep a} (b : Bytes) (absent : sep ∉ a) : splitOnce sep (a ++ sep::b) = some (a,b) := by
  have here : (a ++ sep::b).findIdx? (· == sep) = some a.length := by
    induction a with
    | nil => simp [List.findIdx?_cons]
    | cons c rest ih =>
      have other : c ≠ sep := fun same => absent (by simp [same])
      have tail := ih (fun mem => absent (by simp [mem]))
      simp [List.findIdx?_cons,other,tail]
  simp [splitOnce,here]

theorem splitOnceNone {sep s} (absent : sep ∉ s) : splitOnce sep s = none := by
  simp only [splitOnce,Option.map_eq_none_iff,List.findIdx?_eq_none_iff,beq_eq_false_iff_ne]
  exact fun b mem same => absent (same ▸ mem)

theorem splitOnCut {sep : UInt8} {s a : Bytes} {l : List Bytes} (h : s.splitOn sep = a::l) :
    sep ∉ a ∧ ((l = [] ∧ s = a) ∨ ∃ t, s = a ++ sep::t ∧ l = t.splitOn sep) := by
  induction s generalizing a l with
  | nil =>
    cases h
    exact ⟨by simp,Or.inl ⟨rfl,rfl⟩⟩
  | cons b rest ih =>
    rw [List.splitOn,List.splitOnP_cons_eq_if_modifyHead] at h
    split at h
    · rename_i same
      cases h
      exact ⟨by simp,Or.inr ⟨rest,by simp [eq_of_beq same],rfl⟩⟩
    · rename_i other
      cases inner : List.splitOnP (· == sep) rest with
      | nil => rw [inner] at h; cases h
      | cons a' l' =>
        rw [inner] at h
        cases h
        obtain ⟨absent,tail⟩ := ih inner
        have away : sep ≠ b := fun same => other (by simp [same])
        refine ⟨by simp [away,absent],?_⟩
        rcases tail with ⟨none,rfl⟩ | ⟨t,rfl,rfl⟩
        · exact Or.inl ⟨none,rfl⟩
        · exact Or.inr ⟨t,rfl,rfl⟩

theorem splitOnFree {sep : UInt8} {s w : Bytes} (mem : w ∈ s.splitOn sep) : sep ∉ w := by
  generalize pieces : s.splitOn sep = l at mem
  induction l generalizing s with
  | nil => cases mem
  | cons a l ih =>
    obtain ⟨absent,tail⟩ := splitOnCut pieces
    rcases List.mem_cons.mp mem with rfl | later
    · exact absent
    · rcases tail with ⟨rfl,_⟩ | ⟨t,_,rfl⟩
      · cases later
      · exact ih rfl later

theorem splitOnMem {sep b : UInt8} {s part : Bytes} (mem : part ∈ s.splitOn sep) (inner : b ∈ part) : b ∈ s := by
  generalize pieces : s.splitOn sep = l at mem
  induction l generalizing s with
  | nil => cases mem
  | cons a l ih =>
    obtain ⟨_,⟨rfl,rfl⟩ | ⟨t,rfl,rfl⟩⟩ := splitOnCut pieces
    · cases List.mem_singleton.mp mem
      exact inner
    · rcases List.mem_cons.mp mem with rfl | later
      · simp [inner]
      · simp [ih rfl later]

theorem memIntercalate {sep b : UInt8} {l : List Bytes} (mem : b ∈ [sep].intercalate l) : b = sep ∨ ∃ w ∈ l, b ∈ w := by
  induction l with
  | nil => simp [List.intercalate] at mem
  | cons w l ih =>
    cases l with
    | nil => exact .inr ⟨w,by simp,by simpa [List.intercalate] using mem⟩
    | cons v l =>
      rw [List.intercalate,List.intersperse_cons_cons,List.flatten_cons,List.flatten_cons,
        List.mem_append,List.mem_append] at mem
      rcases mem with first | between | later
      · exact .inr ⟨w,by simp,first⟩
      · exact .inl (List.mem_singleton.mp between)
      · rcases ih later with same | ⟨x,inside,here⟩
        · exact .inl same
        · exact .inr ⟨x,List.mem_cons_of_mem w inside,here⟩

theorem joinInjective {sep : UInt8} {l m : List Bytes} (freeL : ∀ part ∈ l, sep ∉ part) (freeM : ∀ part ∈ m, sep ∉ part)
    (length : l.length = m.length) (same : [sep].intercalate l = [sep].intercalate m) : l = m := by
  cases l with
  | nil => exact (List.length_eq_zero_iff.mp length.symm).symm
  | cons a l =>
    cases m with
    | nil => cases length
    | cons b m =>
      have split := congrArg (List.splitOn sep) same
      rwa [List.splitOn_intercalate _ freeL (List.cons_ne_nil a l),
        List.splitOn_intercalate _ freeM (List.cons_ne_nil b m)] at split

theorem firstWord {sep : UInt8} {s w : Bytes} (h : (s.splitOn sep).find? (· ≠ []) = some w) :
    ∃ k more, s = List.replicate k sep ++ w ++ more ∧ (more = [] ∨ ∃ t, more = sep::t) ∧ sep ∉ w ∧ w ≠ [] := by
  induction s with
  | nil => simp [List.splitOn_nil] at h
  | cons b rest ih =>
    cases pieces : (b::rest).splitOn sep with
    | nil => rw [pieces] at h; cases h
    | cons a l =>
      rw [pieces] at h
      obtain ⟨absent,tail⟩ := splitOnCut pieces
      by_cases empty : a = []
      · subst empty
        rcases tail with ⟨_,none⟩ | ⟨t,same,rfl⟩
        · cases none
        · cases same
          obtain ⟨k,more,same,stop,free,some⟩ := ih (by simpa using h)
          exact ⟨k + 1,more,by simp [same,List.replicate_succ],stop,free,some⟩
      · have word : a = w := by simpa [empty] using h
        subst word
        rcases tail with ⟨_,same⟩ | ⟨t,same,_⟩
        · exact ⟨0,[],by simpa using same,Or.inl rfl,absent,empty⟩
        · exact ⟨0,sep::t,by simpa using same,Or.inr ⟨t,rfl⟩,absent,empty⟩

def digitVal (radix : Nat) (b : UInt8) : Option Nat :=
  let v := if 48 ≤ b ∧ b ≤ 57 then b.toNat - 48
    else if 97 ≤ b ∧ b ≤ 122 then b.toNat - 87
    else if 65 ≤ b ∧ b ≤ 90 then b.toNat - 55 else radix
  if v < radix then some v else none

def readDigits (radix bound : Nat) : Nat → Bytes → Option Nat
  | acc, [] => some acc
  | acc, b::rest => do
      let d ← digitVal radix b
      if acc * radix + d < bound then readDigits radix bound (acc * radix + d) rest else none

/- `from_str_radix` of an unsigned type with values below `bound`: one leading plus
sign is accepted, no digits at all and an overflow are not. -/
def fromStrRadix (radix bound : Nat) (s : Bytes) : Option Nat :=
  let digits := if s.head? = some 43 then s.tail else s
  if digits = [] then none else readDigits radix bound 0 digits

theorem readDigitsBad {radix bound} {s b} (mem : b ∈ s) (bad : digitVal radix b = none) (acc : Nat) :
    readDigits radix bound acc s = none := by
  induction s generalizing acc with
  | nil => simp at mem
  | cons c rest ih =>
    rw [readDigits]
    rcases List.mem_cons.mp mem with same | inner
    · rw [← same,bad]; rfl
    · cases digitVal radix c with
      | none => rfl
      | some d =>
        simp only [bind,Option.bind]
        split
        · exact ih inner _
        · rfl

theorem fromStrRadixBad {radix bound} {s b} (mem : b ∈ s) (bad : digitVal radix b = none) (sign : b ≠ 43) :
    fromStrRadix radix bound s = none := by
  have inner : b ∈ (if s.head? = some 43 then s.tail else s) := by
    split
    · rename_i plus
      cases s with
      | nil => simp at mem
      | cons c rest =>
        cases Option.some.inj plus
        simpa [sign] using mem
    · exact mem
  simp only [fromStrRadix,readDigitsBad inner bad,ite_self]

def continuation (b : UInt8) : Bool := 0x80 ≤ b && b ≤ 0xBF

def validUtf8 : Bytes → Bool
  | [] => true
  | a::s1 =>
    if a < 0x80 then validUtf8 s1 else
    match s1 with
    | [] => false
    | b::s2 =>
      if 0xC2 ≤ a && a ≤ 0xDF then continuation b && validUtf8 s2 else
      match s2 with
      | [] => false
      | c::s3 =>
        if (a == 0xE0 && 0xA0 ≤ b && b ≤ 0xBF) || (a == 0xED && 0x80 ≤ b && b ≤ 0x9F) ||
            (0xE1 ≤ a && a ≤ 0xEF && a != 0xED && continuation b) then
          continuation c && validUtf8 s3 else
        match s3 with
        | [] => false
        | d::s4 =>
          ((a == 0xF0 && 0x90 ≤ b && b ≤ 0xBF) || (a == 0xF4 && 0x80 ≤ b && b ≤ 0x8F) ||
            (0xF1 ≤ a && a ≤ 0xF3 && continuation b)) &&
          continuation c && continuation d && validUtf8 s4

/- The length of a character by its first byte. -/
def charLen (a : UInt8) : Nat := if a < 0x80 then 1 else if a < 0xE0 then 2 else if a < 0xF0 then 3 else 4

structure Glyph (c : Bytes) : Prop where
  read : ∀ s, validUtf8 (c ++ s) = validUtf8 s
  tail : ∀ b ∈ c.tail, continuation b = true
  head : ∃ a ∈ c.head?, continuation a = false ∧ charLen a = c.length

theorem continuationIff {b} : continuation b = true ↔ 0x80 ≤ b.toNat ∧ b.toNat ≤ 0xBF := by
  simp [continuation,UInt8.le_iff_toNat_le]

theorem continuationLow {b} (low : b < 0x80) : continuation b = false := by
  revert b; decide +kernel

theorem charLenIs {a n} (range : n = 2 ∧ 0xC2 ≤ a.toNat ∧ a.toNat < 0xE0 ∨ n = 3 ∧ 0xE0 ≤ a.toNat ∧ a.toNat < 0xF0 ∨
    n = 4 ∧ 0xF0 ≤ a.toNat) : continuation a = false ∧ charLen a = n := by
  rw [← Bool.not_eq_true,continuationIff,charLen]
  simp only [UInt8.lt_iff_toNat_lt,UInt8.toNat_ofNat]
  split <;> [skip;split <;> [skip;split]] <;> omega

inductive Glyphs : Bytes → Prop
  | nil : Glyphs []
  | cons {c s} : Glyph c → Glyphs s → Glyphs (c ++ s)

theorem glyphsComplete {s} (text : validUtf8 s = true) : Glyphs s := by
  fun_induction validUtf8 s with
  | case1 => exact .nil
  | case2 a rest low ih =>
    refine .cons (c := [a]) ⟨fun s => ?_,nofun,a,rfl,continuationLow low,if_pos low⟩ (ih text)
    rw [List.cons_append,validUtf8.eq_def]
    simp only [if_pos low,List.nil_append]
  | case3 | case5 | case7 => contradiction
  | case4 a high b rest two ih =>
    rw [Bool.and_eq_true] at text
    refine .cons (c := [a,b]) ⟨fun s => ?_,?_,a,rfl,charLenIs ?_⟩ (ih text.2)
    · rw [validUtf8.eq_def]
      simp [high,two,text.1]
    · simpa using text.1
    · simp [UInt8.le_iff_toNat_le] at two ⊢
      omega
  | case6 a high b two c rest three ih =>
    rw [Bool.and_eq_true] at text
    refine .cons (c := [a,b,c]) ⟨fun s => ?_,?_,a,rfl,charLenIs ?_⟩ (ih text.2)
    · rw [validUtf8.eq_def]
      simp only [List.cons_append,if_neg high,if_neg two,if_pos three,text.1,Bool.true_and,List.nil_append]
    · simp only [List.tail_cons,List.forall_mem_cons]
      refine ⟨?_,text.1,nofun⟩
      simp [UInt8.le_iff_toNat_le,continuationIff] at three ⊢
      omega
    · simp [UInt8.le_iff_toNat_le,← UInt8.toNat_inj] at three ⊢
      omega
  | case8 a high b two c three d rest ih =>
    rw [Bool.and_eq_true] at text
    refine .cons (c := [a,b,c,d]) ⟨fun s => ?_,?_,a,rfl,charLenIs ?_⟩ (ih text.2)
    · rw [validUtf8.eq_def]
      simp only [List.cons_append,if_neg high,if_neg two,if_neg three,text.1,Bool.true_and,List.nil_append]
    · simp only [List.tail_cons,List.forall_mem_cons,Bool.and_eq_true] at text ⊢
      refine ⟨?_,text.1.1.2,text.1.2,nofun⟩
      have four := text.1.1.1
      simp [UInt8.le_iff_toNat_le,continuationIff] at four ⊢
      omega
    · simp [UInt8.le_iff_toNat_le,← UInt8.toNat_inj] at text ⊢
      omega

theorem validUtf8Low {s} (low : ∀ b ∈ s, b < 128) : validUtf8 s = true := by
  induction s with
  | nil => rfl
  | cons b rest ih =>
    have head := low b (by simp)
    rw [validUtf8.eq_def]
    simp only [if_pos head]
    exact ih (fun c hc => low c (by simp [hc]))

theorem validUtf8Append {a b} (first : validUtf8 a = true) (second : validUtf8 b = true) :
    validUtf8 (a ++ b) = true := by
  induction glyphsComplete first with
  | nil => exact second
  | cons glyph _ ih =>
    rw [glyph.read] at first
    rw [List.append_assoc,glyph.read]
    exact ih first

theorem validUtf8Rest {a b} (first : validUtf8 a = true) (whole : validUtf8 (a ++ b) = true) : validUtf8 b = true := by
  induction glyphsComplete first with
  | nil => exact whole
  | cons glyph _ ih =>
    rw [glyph.read] at first
    rw [List.append_assoc,glyph.read] at whole
    exact ih first whole

theorem validUtf8Split {a b c} (start : continuation c = false) (whole : validUtf8 (a ++ c::b) = true) :
    validUtf8 a = true ∧ validUtf8 (c::b) = true := by
  generalize same : a ++ c::b = s at whole
  induction glyphsComplete whole generalizing a with
  | nil => simp at same
  | cons glyph _ ih =>
    cases a with
    | nil =>
      rw [← same] at whole
      exact ⟨rfl,whole⟩
    | cons x a =>
      rw [glyph.read] at whole
      rcases List.append_eq_append_iff.mp same with ⟨inside,rfl,rest⟩ | ⟨later,shape,rest⟩
      · cases inside with
        | nil =>
          have alone := glyph.read []
          rw [List.append_nil] at alone
          rw [List.append_nil] at alone
          rw [List.nil_append] at rest
          exact ⟨alone,by rw [rest,whole]⟩
        | cons y inside =>
          cases rest
          have middle := glyph.tail c (by simp)
          rw [start] at middle
          cases middle
      · obtain ⟨front,back⟩ := ih rest.symm whole
        rw [shape,glyph.read]
        exact ⟨front,back⟩

theorem validUtf8Cut {a b c} (low : c < 0x80) (whole : validUtf8 (a ++ c::b) = true) :
    validUtf8 a = true ∧ validUtf8 b = true := by
  obtain ⟨front,back⟩ := validUtf8Split (continuationLow low) whole
  exact ⟨front,validUtf8Rest (a := [c]) (validUtf8Low (by simpa using low)) back⟩

theorem glyphLow {c a} (glyph : Glyph c) (mem : a ∈ c) (low : a < 0x80) : c = [a] := by
  obtain ⟨x,head,-,size⟩ := glyph.head
  cases c with
  | nil => cases mem
  | cons y t =>
    cases Option.some.inj head
    rcases List.mem_cons.mp mem with rfl | inside
    · rw [charLen,if_pos low,List.length_cons] at size
      rw [List.eq_nil_of_length_eq_zero (by omega : t.length = 0)]
    · have middle := glyph.tail a inside
      rw [continuationLow low] at middle
      cases middle

theorem validUtf8Alike {l : List (UInt8 × UInt8)} (alike : ∀ p ∈ l, p.1 = p.2 ∨ p.1 < 0x80 ∧ p.2 < 0x80)
    (text : validUtf8 (l.map (·.1)) = true) : validUtf8 (l.map (·.2)) = true := by
  generalize same : l.map (·.1) = s at text
  induction glyphsComplete text generalizing l with
  | nil => rw [List.map_eq_nil_iff.mp same,List.map_nil,validUtf8]
  | cons glyph _ ih =>
    obtain ⟨first,later,rfl,rfl,rfl⟩ := List.map_eq_append_iff.mp same
    rw [glyph.read] at text
    have rest := ih (fun p mem => alike p (List.mem_append_right _ mem)) rfl text
    by_cases plain : ∃ p ∈ first, p.1 < 0x80 ∧ p.2 < 0x80
    · obtain ⟨p,mem,low,here⟩ := plain
      obtain ⟨q,rfl,-⟩ := List.map_eq_singleton_iff.mp (glyphLow glyph (List.mem_map_of_mem mem) low)
      cases List.mem_singleton.mp mem
      exact validUtf8Append (a := [p.2]) (validUtf8Low (by simpa using here)) rest
    · have equal := List.map_congr_left fun p mem =>
        ((alike p (List.mem_append_left _ mem)).resolve_right fun low => plain ⟨p,mem,low⟩).symm
      rwa [List.map_append,equal,glyph.read]

theorem lowerByteAlike : b = lowerByte b ∨ b < 0x80 ∧ lowerByte b < 0x80 := by
  revert b; decide +kernel

theorem validUtf8Lower : validUtf8 (lower s) = validUtf8 s := by
  rw [Bool.eq_iff_iff]
  constructor
  · intro text
    have back := validUtf8Alike (l := s.map fun b => (lowerByte b,b)) (by
      simp only [List.forall_mem_map]
      exact fun b _ => (lowerByteAlike b).imp Eq.symm And.symm)
    simpa [lower,Function.comp_def] using back (by simpa [lower,Function.comp_def] using text)
  · intro text
    have down := validUtf8Alike (l := s.map fun b => (b,lowerByte b)) (by
      simp only [List.forall_mem_map]
      exact fun b _ => lowerByteAlike b)
    simpa [lower,Function.comp_def] using down (by simpa [Function.comp_def] using text)

end ZeroServe.ByteText
