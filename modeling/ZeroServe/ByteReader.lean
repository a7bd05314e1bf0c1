import ZeroServe.ByteText

/-! Reading length-prefixed binary data from the front of a byte string, big-endian, and
the encoders the readers undo. -/
namespace ZeroServe.ByteReader
open ByteText

def number (s : Bytes) : Nat := s.foldl (fun n b => n * 256 + b.toNat) 0

def u8 : Bytes → Option (UInt8 × Bytes)
  | [] => none
  | b::rest => some (b,rest)

def bytes (n : Nat) (s : Bytes) : Option (Bytes × Bytes) :=
  if s.length < n then none else some (s.take n,s.drop n)

def u16 (s : Bytes) : Option (Nat × Bytes) := (bytes 2 s).map fun (b,rest) => (number b,rest)

def be8 (n : Nat) : Bytes := [UInt8.ofNat n]
def be16 (n : Nat) : Bytes := [UInt8.ofNat (n / 256),UInt8.ofNat n]
def be24 (n : Nat) : Bytes := [UInt8.ofNat (n / 65536),UInt8.ofNat (n / 256),UInt8.ofNat n]

def vec8 (body : Bytes) : Bytes := be8 body.length ++ body
def vec16 (body : Bytes) : Bytes := be16 body.length ++ body

theorem bytesAppend {n} {s} (size : s.length = n) (rest : Bytes) : bytes n (s ++ rest) = some (s,rest) := by
  subst size
  simp [bytes]

theorem bytesWhole (s : Bytes) : bytes s.length s = some (s,[]) := by simp [bytes]

theorem bytesShort {n} {s} (short : s.length < n) : bytes n s = none := if_pos short

theorem numberBe16 {n} (bound : n < 65536) : number (be16 n) = n := by
  simp only [number,be16,List.foldl_cons,List.foldl_nil,UInt8.toNat_ofNat']
  omega

theorem numberBe24 {n} (bound : n < 16777216) : number (be24 n) = n := by
  simp only [number,be24,List.foldl_cons,List.foldl_nil,UInt8.toNat_ofNat']
  omega

theorem u16Append {n} (bound : n < 65536) (rest : Bytes) : u16 (be16 n ++ rest) = some (n,rest) := by
  have two : bytes 2 (be16 n ++ rest) = some (be16 n,rest) := bytesAppend rfl rest
  simp only [u16,two,Option.map_some,numberBe16 bound]

theorem u8Vec {body} (bound : body.length < 256) (rest : Bytes) :
    ∃ n, u8 (vec8 body ++ rest) = some (n,body ++ rest) ∧ n.toNat = body.length := by
  refine ⟨UInt8.ofNat body.length,rfl,?_⟩
  rw [UInt8.toNat_ofNat']
  omega

theorem u16Vec {body} (bound : body.length < 65536) (rest : Bytes) :
    u16 (vec16 body ++ rest) = some (body.length,body ++ rest) := by
  rw [vec16,List.append_assoc,u16Append bound]

theorem bytesSome {n} {s a rest} (h : bytes n s = some (a,rest)) : s = a ++ rest ∧ a.length = n := by
  unfold bytes at h
  split at h
  · cases h
  · cases h
    exact ⟨(List.take_append_drop n s).symm,List.length_take_of_le (by omega)⟩

theorem numberPair (a b : UInt8) : number [a,b] < 65536 ∧ be16 (number [a,b]) = [a,b] := by
  have first := a.toNat_lt
  have second := b.toNat_lt
  have value : number [a,b] = a.toNat * 256 + b.toNat := by simp [number]
  refine ⟨by omega,?_⟩
  have high : (a.toNat * 256 + b.toNat) / 256 = a.toNat := by omega
  have low : UInt8.ofNat (a.toNat * 256 + b.toNat) = b := by
    apply UInt8.toNat_inj.mp
    rw [UInt8.toNat_ofNat']
    omega
  rw [value,be16,high,low,UInt8.ofNat_toNat]

theorem u16Some {s rest n} (h : u16 s = some (n,rest)) : s = be16 n ++ rest ∧ n < 65536 := by
  obtain ⟨⟨pair,tail⟩,read,same⟩ := Option.map_eq_some_iff.mp h
  obtain ⟨whole,two⟩ := bytesSome read
  cases same
  match pair,two with
  | [a,b],_ =>
    obtain ⟨bound,back⟩ := numberPair a b
    exact ⟨by rw [back]; exact whole,bound⟩

theorem bindOk {ε α β : Type} {x} {f : α → Except ε β} {b} (h : x >>= f = .ok b) : ∃ a, x = .ok a ∧ f a = .ok b := by
  cases x with
  | error e => cases h
  | ok a => exact ⟨a,rfl,h⟩

end ZeroServe.ByteReader
