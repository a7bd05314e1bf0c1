import ZeroServe.ByteText

/-! Texts as lists of characters, for code that walks a string character by character, and their bytes.
Strings are compared by their bytes. -/
namespace ZeroServe.CharText
open ByteText

abbrev Str := List Char

def utf8 (s : Str) : Bytes := s.flatMap String.utf8EncodeChar

def str (s : String) : Str := s.toList

@[simp] theorem utf8Nil : utf8 [] = [] := rfl
@[simp] theorem utf8Cons (c : Char) (s : Str) : utf8 (c::s) = String.utf8EncodeChar c ++ utf8 s := List.flatMap_cons
@[simp] theorem utf8Append (a b : Str) : utf8 (a ++ b) = utf8 a ++ utf8 b := List.flatMap_append

def plainChar (c : Char) : Prop := c.toNat < 128
instance (c : Char) : Decidable (plainChar c) := Nat.decLt c.toNat 128

theorem plainEncoded {c} (plain : plainChar c) : String.utf8EncodeChar c = [UInt8.ofNat c.toNat] :=
  if_pos (by
    have small := plain
    exact Nat.le_of_lt_succ small)

theorem encodedLength (c : Char) : (String.utf8EncodeChar c).length = 1 ↔ plainChar c := by
  rw [String.length_utf8EncodeChar,Char.utf8Size_eq_one_iff]
  exact Nat.lt_succ_iff.symm

theorem encodedSome (c : Char) : 0 < (String.utf8EncodeChar c).length := by
  rw [String.length_utf8EncodeChar]
  exact Char.utf8Size_pos c

def isWhitespace (c : Char) : Bool :=
  let n := c.toNat
  (9 ≤ n && n ≤ 13) || n == 0x20 || n == 0x85 || n == 0xA0 || n == 0x1680 || (0x2000 ≤ n && n ≤ 0x200A) ||
    n == 0x2028 || n == 0x2029 || n == 0x202F || n == 0x205F || n == 0x3000

def trim (s : Str) : Str := (s.dropWhile isWhitespace).rdropWhile isWhitespace

/- Slices of a string at byte offsets. An offset behind the end or inside a character gives none. -/

def strLen (s : Str) : Nat := (s.map Char.utf8Size).sum

@[simp] theorem strLenNil : strLen [] = 0 := rfl
@[simp] theorem strLenCons (c : Char) (s : Str) : strLen (c::s) = c.utf8Size + strLen s := List.sum_cons
@[simp] theorem strLenAppend (a b : Str) : strLen (a ++ b) = strLen a + strLen b := by
  rw [strLen,List.map_append,List.sum_append]
  rfl

def splitBytes : Str → Nat → Option (Str × Str)
  | s,0 => some ([],s)
  | [],_ + 1 => none
  | c::s,n + 1 => if c.utf8Size ≤ n + 1 then (splitBytes s (n + 1 - c.utf8Size)).map fun p => (c::p.1,p.2) else none

theorem splitBytesAppend (a b : Str) : splitBytes (a ++ b) (strLen a) = some (a,b) := by
  induction a with
  | nil => cases b <;> rfl
  | cons c a ih =>
    obtain ⟨n,positive⟩ := Nat.exists_eq_succ_of_ne_zero (Nat.pos_iff_ne_zero.mp (Char.utf8Size_pos c))
    have size : strLen (c::a) = (n + strLen a) + 1 := by
      rw [strLenCons]
      omega
    rw [size,List.cons_append,splitBytes,if_pos (by omega),show n + strLen a + 1 - c.utf8Size = strLen a by omega,ih]
    rfl

theorem splitBytesIff {s a b n} : splitBytes s n = some (a,b) ↔ s = a ++ b ∧ strLen a = n := by
  constructor
  · intro split
    induction s generalizing a n with
    | nil =>
      cases n with
      | zero =>
        cases split
        exact ⟨rfl,rfl⟩
      | succ n => cases split
    | cons c s ih =>
      cases n with
      | zero =>
        cases split
        exact ⟨rfl,rfl⟩
      | succ n =>
        rw [splitBytes] at split
        split at split
        · obtain ⟨⟨front,back⟩,inner,same⟩ := Option.map_eq_some_iff.mp split
          cases same
          obtain ⟨rfl,length⟩ := ih inner
          refine ⟨rfl,?_⟩
          change strLen (c::front) = n + 1
          rw [strLenCons]
          omega
        · cases split
  · rintro ⟨rfl,rfl⟩
    exact splitBytesAppend a b

def findStr (pat : Str) : Str → Option Nat
  | [] => if pat = [] then some 0 else none
  | c::s => if pat <+: c::s then some 0 else (findStr pat s).map (c.utf8Size + ·)

theorem findStrSome {pat s n} (found : findStr pat s = some n) : ∃ a b, s = a ++ pat ++ b ∧ strLen a = n := by
  induction s generalizing n with
  | nil =>
    rw [findStr] at found
    split at found
    · rename_i empty
      cases found
      exact ⟨[],[],by simp [empty],rfl⟩
    · cases found
  | cons c s ih =>
    rw [findStr] at found
    split at found
    · rename_i start
      cases found
      obtain ⟨b,same⟩ := start
      exact ⟨[],b,by simp [same],rfl⟩
    · obtain ⟨m,inner,rfl⟩ := Option.map_eq_some_iff.mp found
      obtain ⟨a,b,rfl,rfl⟩ := ih inner
      exact ⟨c::a,b,by simp,strLenCons c a⟩

theorem findStrNone {pat s} (absent : ¬ pat <:+: s) : findStr pat s = none := by
  induction s with
  | nil =>
    rw [findStr,if_neg]
    rintro rfl
    exact absent (List.nil_infix)
  | cons c s ih =>
    rw [findStr,if_neg fun start => absent start.isInfix,ih fun inner => absent (inner.trans (List.infix_cons List.infix_rfl))]
    rfl

end ZeroServe.CharText
