import ZeroServe.CharText
import ZeroServe.RequestPath

/-! The escapes of a signed request. The encoder walks characters and writes one percent sign for each
escaped character, whatever the number of its bytes. -/
namespace ZeroServe.Aws
open ByteText CharText RequestPath

def unreservedChar (c : Char) : Bool :=
  ('a' ≤ c && c ≤ 'z') || ('A' ≤ c && c ≤ 'Z') || ('0' ≤ c && c ≤ '9') || c == '_' || c == '-' || c == '~' || c == '.'

def upperDigit (n : UInt8) : UInt8 := if n < 10 then 48 + n else 55 + n
def hexPair (b : UInt8) : Bytes := [upperDigit (b / 16),upperDigit (b % 16)]

def encodeChar (encodeSlash : Bool) (c : Char) : Bytes :=
  if unreservedChar c || c == '%' then String.utf8EncodeChar c
  else if c = '/' ∧ encodeSlash = false then [slash]
  else percent::(String.utf8EncodeChar c).flatMap hexPair

def uriEncode (string : Str) (encodeSlash : Bool) : Bytes := string.flatMap (encodeChar encodeSlash)

def unreservedByte (b : UInt8) : Bool :=
  (97 ≤ b && b ≤ 122) || (65 ≤ b && b ≤ 90) || (48 ≤ b && b ≤ 57) || b == 95 || b == 45 || b == 126 || b == 46

def upperHexDigit (b : UInt8) : Bool := (48 ≤ b && b ≤ 57) || (65 ≤ b && b ≤ 70)

inductive Escaped (slashes : Bool) : Bytes → Prop where
  | nil : Escaped slashes []
  | plain {b rest} (unreserved : unreservedByte b = true) (next : Escaped slashes rest) : Escaped slashes (b::rest)
  | slash {rest} (allowed : slashes = true) (next : Escaped slashes rest) : Escaped slashes (slash::rest)
  | triplet {h l rest} (high : upperHexDigit h = true) (low : upperHexDigit l = true) (next : Escaped slashes rest) :
      Escaped slashes (percent::h::l::rest)

theorem unreservedPlain {c} (unreserved : unreservedChar c = true) :
    plainChar c ∧ c ≠ '%' ∧ c ≠ '/' ∧ unreservedByte (UInt8.ofNat c.toNat) = true := by
  have small : c.toNat < 128 := by
    simp only [unreservedChar,Bool.or_eq_true,Bool.and_eq_true,decide_eq_true_eq,beq_iff_eq,Char.le_def,
      UInt32.le_iff_toNat_le] at unreserved
    rcases unreserved with (((((((⟨_,h⟩ | ⟨_,h⟩) | ⟨_,h⟩) | rfl) | rfl) | rfl) | rfl))
    · exact lt_of_le_of_lt h (by decide)
    · exact lt_of_le_of_lt h (by decide)
    · exact lt_of_le_of_lt h (by decide)
    · decide
    · decide
    · decide
    · decide
  have all : ∀ n < 128, unreservedChar (Char.ofNat n) = true →
      Char.ofNat n ≠ '%' ∧ Char.ofNat n ≠ '/' ∧ unreservedByte (UInt8.ofNat (Char.ofNat n).toNat) = true := by
    decide +kernel
  have here := all c.toNat small
  rw [Char.ofNat_toNat] at here
  exact ⟨small,here unreserved⟩

theorem pairDigits : ∀ b : UInt8, upperHexDigit (upperDigit (b / 16)) = true ∧ upperHexDigit
    (upperDigit (b % 16)) = true ∧
    hexVal (upperDigit (b / 16)) = some (b / 16) ∧ hexVal (upperDigit (b % 16)) = some (b % 16) ∧
    ((b / 16) <<< 4 ||| b % 16) = b := by decide +kernel

theorem digitUnreserved : ∀ b : UInt8, upperHexDigit b = true → unreservedByte b = true ∧ b ≠ percent := by
  decide +kernel

/- What stands for a character in the decoded text: its first byte, and the digits of the others. -/
def readChar (c : Char) : Bytes :=
  match String.utf8EncodeChar c with
  | [] => []
  | b::more => b::more.flatMap hexPair

theorem readPlain {c} (plain : plainChar c) : readChar c = String.utf8EncodeChar c := by
  rw [readChar,plainEncoded plain]
  rfl

theorem pairsEscaped {slashes rest} (next : Escaped slashes rest) (bytes : Bytes) :
    Escaped slashes (bytes.flatMap hexPair ++ rest) := by
  induction bytes with
  | nil => exact next
  | cons b bytes ih =>
    obtain ⟨high,low,-⟩ := pairDigits b
    exact .plain (digitUnreserved _ high).1 (.plain (digitUnreserved _ low).1 ih)

theorem pairsDecoded (bytes rest : Bytes) :
    decodeTriplets (bytes.flatMap hexPair ++ rest) = (decodeTriplets rest).map (bytes.flatMap hexPair ++ ·) := by
  induction bytes with
  | nil => simp
  | cons b bytes ih =>
    obtain ⟨high,low,-⟩ := pairDigits b
    have first := decodePlain (digitUnreserved _ high).2 (upperDigit (b % 16)::(bytes.flatMap hexPair ++ rest))
    have second := decodePlain (digitUnreserved _ low).2 (bytes.flatMap hexPair ++ rest)
    change decodeTriplets (upperDigit (b / 16)::upperDigit (b % 16)::(bytes.flatMap hexPair ++ rest)) = _
    rw [first,second,ih,Option.map_map,Option.map_map]
    rfl

theorem charEscaped {c} (other : c ≠ '%') (encodeSlash : Bool) {rest} (next : Escaped (!encodeSlash) rest) :
    Escaped (!encodeSlash) (encodeChar encodeSlash c ++ rest) := by
  rw [encodeChar]
  split
  · rename_i kept
    have unreserved : unreservedChar c = true := by simpa [other] using kept
    obtain ⟨plain,-,-,byte⟩ := unreservedPlain unreserved
    rw [plainEncoded plain]
    exact .plain byte next
  · split
    · rename_i kept
      exact .slash (by rw [kept.2]; rfl) next
    · cases bytes : String.utf8EncodeChar c with
      | nil =>
        have given := encodedSome c
        rw [bytes] at given
        cases given
      | cons b more =>
        obtain ⟨high,low,-⟩ := pairDigits b
        exact .triplet high low (pairsEscaped next more)

theorem charDecoded {c} (other : c ≠ '%') (encodeSlash : Bool) (rest : Bytes) :
    decodeTriplets (encodeChar encodeSlash c ++ rest) = (decodeTriplets rest).map (readChar c ++ ·) := by
  rw [encodeChar]
  split
  · rename_i kept
    have unreserved : unreservedChar c = true := by simpa [other] using kept
    obtain ⟨plain,-,-,byte⟩ := unreservedPlain unreserved
    have sign : UInt8.ofNat c.toNat ≠ percent := by
      intro same
      rw [same] at byte
      exact absurd byte (by decide)
    rw [readPlain plain,plainEncoded plain]
    exact decodePlain sign rest
  · split
    · rename_i kept
      rw [kept.1]
      exact decodePlain (by decide) rest
    · rw [readChar]
      cases bytes : String.utf8EncodeChar c with
      | nil =>
        have given := encodedSome c
        rw [bytes] at given
        cases given
      | cons b more =>
        obtain ⟨-,-,high,low,whole⟩ := pairDigits b
        change decodeTriplets (percent::upperDigit (b / 16)::upperDigit (b % 16)::(more.flatMap hexPair ++ rest)) = _
        rw [decodeEscape,pairsDecoded,high,low,Option.bind_some,Option.bind_some,Option.map_map,whole]
        rfl

theorem stringEscaped {s} (free : '%' ∉ s) (encodeSlash : Bool) : Escaped (!encodeSlash) (uriEncode s encodeSlash) := by
  induction s with
  | nil => exact .nil
  | cons c s ih =>
    rw [List.mem_cons,not_or] at free
    exact charEscaped (Ne.symm free.1) encodeSlash (ih free.2)

theorem stringDecoded {s} (free : '%' ∉ s) (encodeSlash : Bool) :
    decodeTriplets (uriEncode s encodeSlash) = some (s.flatMap readChar) := by
  induction s with
  | nil => rfl
  | cons c s ih =>
    rw [List.mem_cons,not_or] at free
    have rest := ih free.2
    rw [uriEncode] at rest ⊢
    rw [List.flatMap_cons,charDecoded (Ne.symm free.1),rest]
    rfl

theorem readLonger (c : Char) : (String.utf8EncodeChar c).length ≤ (readChar c).length ∧
    ((readChar c).length = (String.utf8EncodeChar c).length → plainChar c) := by
  rw [← encodedLength,readChar]
  have pairs (bytes : Bytes) : (bytes.flatMap hexPair).length = 2 * bytes.length := by
    induction bytes with
    | nil => rfl
    | cons b bytes ih =>
      rw [List.flatMap_cons,List.length_append,ih,List.length_cons]
      change 2 + 2 * bytes.length = _
      omega
  cases bytes : String.utf8EncodeChar c with
  | nil =>
    have given := encodedSome c
    rw [bytes] at given
    cases given
  | cons b more =>
    simp only [List.length_cons,pairs]
    omega

theorem readsLonger (s : Str) : (utf8 s).length ≤ (s.flatMap readChar).length ∧
    ((s.flatMap readChar).length = (utf8 s).length → ∀ c ∈ s, plainChar c) := by
  induction s with
  | nil => simp
  | cons c s ih =>
    obtain ⟨longer,equal⟩ := readLonger c
    rw [utf8Cons,List.flatMap_cons,List.length_append,List.length_append]
    refine ⟨by omega,fun same => ?_⟩
    rw [List.forall_mem_cons]
    exact ⟨equal (by omega),ih.2 (by omega)⟩

theorem readsPlain {s} (plain : ∀ c ∈ s, plainChar c) : s.flatMap readChar = utf8 s :=
  List.flatMap_congr fun c mem => readPlain (plain c mem)

theorem uriEncodeExact (s : Str) (encodeSlash : Bool) (free : '%' ∉ s) :
    (Escaped (!encodeSlash) (uriEncode s encodeSlash) ∧
      decodeTriplets (uriEncode s encodeSlash) = some (utf8 s)) ↔ ∀ c ∈ s, plainChar c := by
  rw [stringDecoded free,Option.some_inj]
  constructor
  · rintro ⟨-,same⟩
    exact (readsLonger s).2 (congrArg List.length same)
  · intro plain
    exact ⟨stringEscaped free encodeSlash,readsPlain plain⟩

theorem plainEscaped : Escaped false (uriEncode (str "a b/~") true) ∧
    decodeTriplets (uriEncode (str "a b/~") true) = some (utf8 (str "a b/~")) :=
  (uriEncodeExact (str "a b/~") true (by decide +kernel)).mpr (by simp [str,plainChar])

theorem accentMisread : uriEncode (str "é") true = ascii "%C3A9" ∧
    decodeTriplets (uriEncode (str "é") true) = some [0xC3,65,57] ∧ utf8 (str "é") = [0xC3,0xA9] := by
  decide +kernel

end ZeroServe.Aws
