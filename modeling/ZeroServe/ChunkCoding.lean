import ZeroServe.ByteTrim

/-! Chunked transfer coding over a byte stream, as a relation between the stream, the payload it carries and what
follows it. The syntax of a size line is a parameter. -/
namespace ZeroServe.ChunkCoding
open ByteText

inductive Trailers : Bytes → Bytes → Prop where
  | done (rest : Bytes) : Trailers (crlf ++ rest) rest
  | line {l s rest : Bytes} (free : CrlfFree l) (nonempty : l ≠ []) (tail : Trailers s rest) :
      Trailers (l ++ crlf ++ s) rest

inductive Coded (size : Bytes → Option Nat) : Bytes → Bytes → Bytes → Prop where
  | last {line s rest : Bytes} (free : CrlfFree line) (zero : size line = some 0)
      (trailers : Trailers s rest) : Coded size (line ++ crlf ++ s) [] rest
  | chunk {line data s payload rest : Bytes} (free : CrlfFree line)
      (length : size line = some data.length) (nonempty : data ≠ [])
      (tail : Coded size s payload rest) :
      Coded size (line ++ crlf ++ (data ++ crlf ++ s)) (data ++ payload) rest

theorem lineUnique {a b s t} (ha : CrlfFree a) (hb : CrlfFree b) (same : a ++ crlf ++ s = b ++ crlf ++ t) :
    a = b ∧ s = t := by
  have cut := congrArg splitCrlf same
  rw [splitCrlfLine s ha,splitCrlfLine t hb] at cut
  obtain ⟨rfl,_⟩ := List.cons.inj cut
  exact ⟨rfl,List.append_cancel_left same⟩

theorem trailersUnique {s r r'} (h : Trailers s r) (h' : Trailers s r') : r = r' := by
  induction h generalizing r' with
  | done rest =>
    generalize hs : crlf ++ rest = s at h'
    cases h' with
    | done rest' => exact List.append_cancel_left hs
    | @line l s _ free nonempty tail =>
      have cut := lineUnique (a := []) rfl free (by simpa using hs)
      exact absurd cut.1.symm nonempty
  | @line l s rest free nonempty tail ih =>
    generalize hs : l ++ crlf ++ s = t at h'
    cases h' with
    | done rest' =>
      have cut := lineUnique (b := []) free rfl (by simpa using hs)
      exact absurd cut.1 nonempty
    | line free' some' tail' =>
      obtain ⟨-,rfl⟩ := lineUnique free free' hs
      exact ih tail'

theorem codedUnique {size : Bytes → Option Nat} {s p r p' r'} (h : Coded size s p r) (h' : Coded size s p' r') :
    p = p' ∧ r = r' := by
  induction h generalizing p' r' with
  | @last line s rest free zero trailers =>
    generalize hs : line ++ crlf ++ s = t at h'
    cases h' with
    | last free' zero' trailers' =>
      obtain ⟨-,rfl⟩ := lineUnique free free' hs
      exact ⟨rfl,trailersUnique trailers trailers'⟩
    | chunk free' length' some' tail' =>
      obtain ⟨rfl,-⟩ := lineUnique free free' hs
      rw [zero] at length'
      exact absurd (List.length_eq_zero_iff.mp (Option.some.inj length').symm) some'
  | @chunk line data s payload rest free length nonempty tail ih =>
    generalize hs : line ++ crlf ++ (data ++ crlf ++ s) = t at h'
    cases h' with
    | last free' zero' trailers' =>
      obtain ⟨rfl,-⟩ := lineUnique free free' hs
      rw [zero'] at length
      exact absurd (List.length_eq_zero_iff.mp (Option.some.inj length).symm) nonempty
    | @chunk line' data' s' payload' _ free' length' some' tail' =>
      obtain ⟨rfl,body⟩ := lineUnique free free' hs
      have sizes := Option.some.inj (length.symm.trans length')
      simp only [List.append_assoc] at body
      obtain ⟨rfl,after⟩ := List.append_inj body sizes
      have next := List.append_cancel_left after
      obtain ⟨same,rest⟩ := ih (next ▸ tail')
      exact ⟨by rw [same],rest⟩

theorem trailersShorter {s r} (h : Trailers s r) : r.length < s.length := by
  induction h with
  | done rest => simp [crlf]
  | line _ _ _ ih => simp only [List.length_append]; omega

theorem codedShorter {size : Bytes → Option Nat} {s p r} (h : Coded size s p r) : r.length < s.length := by
  induction h with
  | last _ _ trailers =>
    have := trailersShorter trailers
    simp only [List.length_append]
    omega
  | chunk _ _ _ _ ih => simp only [List.length_append]; omega

def digitByte (d : Nat) : UInt8 := UInt8.ofNat (if d < 10 then 48 + d else 55 + d)

def toRadix (radix n : Nat) : Bytes :=
  if n = 0 then [48] else (Nat.digits radix n).reverse.map digitByte

theorem digitByteVal (radix d : Nat) (small : d < radix) (wide : radix ≤ 16) :
    digitVal radix (digitByte d) = some d := by
  have cases16 : d < 16 := by omega
  interval_cases d <;> simp [digitVal,digitByte] <;> omega

theorem readDigitsMap (radix bound : Nat) (wide : radix ≤ 16) (ds : List Nat) (small : ∀ d ∈ ds, d < radix) (acc : Nat)
    (fits : ds.foldl (fun a d => a * radix + d) acc < bound) :
    readDigits radix bound acc (ds.map digitByte) = some (ds.foldl (fun a d => a * radix + d) acc) := by
  induction ds generalizing acc with
  | nil => rfl
  | cons d ds ih =>
    have grows : ∀ (ds : List Nat) (acc : Nat) , 0 < radix →
        acc ≤ ds.foldl (fun a d => a * radix + d) acc := by
      intro ds
      induction ds with
      | nil => simp
      | cons e es inner =>
        intro acc pos
        have step : acc ≤ acc * radix + e := by nlinarith
        exact step.trans (inner _ pos)
    have head := small d (by simp)
    have now :=
      lt_of_le_of_lt (grows ds _ (by omega)) fits
    simp only [List.map_cons,readDigits,digitByteVal radix d head wide,bind,Option.bind,if_pos now]
    exact ih (fun e he => small e (by simp [he])) _ fits

theorem readDigitsToRadix (radix bound n : Nat) (base : 2 ≤ radix) (wide : radix ≤ 16)
    (fits : n < bound) : readDigits radix bound 0 (toRadix radix n) = some n := by
  unfold toRadix
  split
  · rename_i zero
    subst zero
    have digit : digitVal radix 48 = some 0 := digitByteVal radix 0 (by omega) wide
    simp [readDigits,digit,fits]
  · have value : (Nat.digits radix n).reverse.foldl (fun a d => a * radix + d) 0 = n := by
      have h := Nat.ofDigits_digits radix n
      rw [Nat.ofDigits_eq_foldr] at h
      simpa [Nat.mul_comm,Nat.add_comm] using h
    have small : ∀ d ∈ (Nat.digits radix n).reverse, d < radix := by
      intro d mem
      exact Nat.digits_lt_base (by omega) (List.mem_reverse.mp mem)
    have h := readDigitsMap radix bound wide _ small 0 (by rw [value]; exact fits)
    rwa [value] at h

theorem toRadixNeNil (radix n : Nat) : toRadix radix n ≠ [] := by
  unfold toRadix
  split
  · simp
  · rename_i pos
    simpa using Nat.digits_ne_nil_iff_ne_zero.mpr pos

theorem toRadixBytes (radix n : Nat) (base : 2 ≤ radix) (wide : radix ≤ 16) :
    ∀ b ∈ toRadix radix n, ∃ d < radix, b = digitByte d := by
  intro b mem
  unfold toRadix at mem
  split at mem
  · exact ⟨0,by omega,by simpa [digitByte] using mem⟩
  · obtain ⟨d,hd,rfl⟩ := List.mem_map.mp mem
    exact ⟨d,Nat.digits_lt_base (by omega) (List.mem_reverse.mp hd),rfl⟩

theorem digitByteRange {d} (small : d < 16) : 48 ≤ digitByte d ∧ digitByte d ≤ 70 := by
  interval_cases d <;> decide

def chunkOf (data : Bytes) : Bytes :=
  if data = [] then [] else toRadix 16 data.length ++ crlf ++ data ++ crlf
def lastChunk : Bytes := [48] ++ crlf ++ crlf

def framePiece (chunked : Bool) (data : Bytes) : Bytes := if chunked then chunkOf data else data
def frameEnd (chunked : Bool) : Bytes := if chunked then lastChunk else []
def wireBody (chunked : Bool) (pieces : List Bytes) : Bytes :=
  pieces.flatMap (framePiece chunked) ++ frameEnd chunked

theorem wireBodyPlain (pieces : List Bytes) : wireBody false pieces = pieces.flatten := by
  have same : framePiece false = id := rfl
  simp [wireBody,frameEnd,same]

theorem toRadixFree (n : Nat) : CrlfFree (toRadix 16 n) := by
  apply crlfFreeOfNoCr
  intro mem
  obtain ⟨d,hd,same⟩ := toRadixBytes 16 n (by omega) (by omega) 13 mem
  have range := digitByteRange hd
  rw [← same] at range
  exact absurd range.1 (by decide)

theorem encodedPieces {size : Bytes → Option Nat} (pieces : List Bytes) (rest : Bytes)
    (sizes : ∀ d ∈ pieces, size (toRadix 16 d.length) = some d.length) (zero : size [48] = some 0) :
    Coded size (pieces.flatMap chunkOf ++ lastChunk ++ rest) pieces.flatten rest := by
  induction pieces with
  | nil =>
    have h : Coded size ([48] ++ crlf ++ (crlf ++ rest)) [] rest :=
      .last (by decide) zero (.done rest)
    simpa [lastChunk,List.append_assoc] using h
  | cons d ds ih =>
    have tail := ih (fun e he => sizes e (by simp [he]))
    by_cases empty : d = []
    · simpa [chunkOf,empty] using tail
    · have h := Coded.chunk (toRadixFree d.length) (sizes d (by simp)) empty tail
      simpa [chunkOf,empty,List.append_assoc] using h

theorem wireBodyCoded {size : Bytes → Option Nat} {pieces}
    (sizes : ∀ d ∈ pieces, size (toRadix 16 d.length) = some d.length) (zero : size [48] = some 0) :
    Coded size (wireBody true pieces) pieces.flatten [] := by
  have same : framePiece true = chunkOf := rfl
  simpa [wireBody,frameEnd,same] using encodedPieces pieces [] sizes zero

end ZeroServe.ChunkCoding
