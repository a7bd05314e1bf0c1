import ZeroServe.ByteText

/-! Base64 text with padding. What a user of the encoding relies on is a record; the standard
alphabet is one instance. -/
namespace ZeroServe.Base64
open ByteText

def alphabet (b : UInt8) : Bool :=
  65 ≤ b && b ≤ 90 || 97 ≤ b && b ≤ 122 || 48 ≤ b && b ≤ 57 || b == 43 || b == 47 || b == 61

structure Codec where
  encode : Bytes → Bytes
  decode : Bytes → Option Bytes
  inverts : ∀ body, decode (encode body) = some body
  letters : ∀ body, ∀ b ∈ encode body, alphabet b = true

def sextet (n : Nat) : UInt8 :=
  if n < 26 then UInt8.ofNat (n + 65) else
  if n < 52 then UInt8.ofNat (n + 71) else
  if n < 62 then UInt8.ofNat (n - 4) else
  if n = 62 then 43 else 47

def sextetValue (b : UInt8) : Option Nat :=
  if 65 ≤ b && b ≤ 90 then some (b.toNat - 65) else
  if 97 ≤ b && b ≤ 122 then some (b.toNat - 71) else
  if 48 ≤ b && b ≤ 57 then some (b.toNat + 4) else
  if b = 43 then some 62 else
  if b = 47 then some 63 else none

def encode : Bytes → Bytes
  | [] => []
  | [a] => [sextet (a.toNat / 4),sextet (a.toNat % 4 * 16),61,61]
  | [a,b] => [sextet (a.toNat / 4),sextet (a.toNat % 4 * 16 + b.toNat / 16),sextet (b.toNat % 16 * 4),61]
  | a::b::c::rest =>
    sextet (a.toNat / 4)::sextet (a.toNat % 4 * 16 + b.toNat / 16)::
      sextet (b.toNat % 16 * 4 + c.toNat / 64)::sextet (c.toNat % 64)::encode rest

def decode : Bytes → Option Bytes
  | [] => some []
  | [p,q,61,61] => do
    let p ← sextetValue p
    let q ← sextetValue q
    if q % 16 = 0 then some [UInt8.ofNat (p * 4 + q / 16)] else none
  | [p,q,r,61] => do
    let p ← sextetValue p
    let q ← sextetValue q
    let r ← sextetValue r
    if r % 4 = 0 then some [UInt8.ofNat (p * 4 + q / 16),UInt8.ofNat (q % 16 * 16 + r / 4)] else none
  | p::q::r::s::rest => do
    let p ← sextetValue p
    let q ← sextetValue q
    let r ← sextetValue r
    let s ← sextetValue s
    let out ← decode rest
    some (UInt8.ofNat (p * 4 + q / 16)::UInt8.ofNat (q % 16 * 16 + r / 4)::UInt8.ofNat (r % 4 * 64 + s)::out)
  | _ => none

theorem sextetRead {n} (bound : n < 64) :
    sextetValue (sextet n) = some n ∧ alphabet (sextet n) = true ∧ sextet n ≠ 61 := by
  revert n
  decide +kernel

theorem firstByte (a b : UInt8) : UInt8.ofNat (a.toNat / 4 * 4 + (a.toNat % 4 * 16 + b.toNat / 16) / 16) = a := by
  have second := b.toNat_lt
  have whole : a.toNat / 4 * 4 + (a.toNat % 4 * 16 + b.toNat / 16) / 16 = a.toNat := by omega
  rw [whole,UInt8.ofNat_toNat]

theorem secondByte (a b c : UInt8) :
    UInt8.ofNat ((a.toNat % 4 * 16 + b.toNat / 16) % 16 * 16 + (b.toNat % 16 * 4 + c.toNat / 64) / 4) = b := by
  have bound := b.toNat_lt
  have third := c.toNat_lt
  have whole : (a.toNat % 4 * 16 + b.toNat / 16) % 16 * 16 + (b.toNat % 16 * 4 + c.toNat / 64) / 4 = b.toNat := by
    omega
  rw [whole,UInt8.ofNat_toNat]

theorem thirdByte (b c : UInt8) : UInt8.ofNat ((b.toNat % 16 * 4 + c.toNat / 64) % 4 * 64 + c.toNat % 64) = c := by
  have third := c.toNat_lt
  have whole : (b.toNat % 16 * 4 + c.toNat / 64) % 4 * 64 + c.toNat % 64 = c.toNat := by omega
  rw [whole,UInt8.ofNat_toNat]

theorem groupBounds (a b c : UInt8) : a.toNat / 4 < 64 ∧ a.toNat % 4 * 16 + b.toNat / 16 < 64 ∧
    b.toNat % 16 * 4 + c.toNat / 64 < 64 ∧ c.toNat % 64 < 64 := by
  have first := a.toNat_lt
  have second := b.toNat_lt
  have third := c.toNat_lt
  omega

theorem decodeEncode (body : Bytes) : decode (encode body) = some body := by
  fun_induction encode body with
  | case1 => rfl
  | case2 a =>
    obtain ⟨one,two,-,-⟩ := groupBounds a 0 0
    have first := firstByte a 0
    simp only [UInt8.toNat_zero,Nat.zero_div,Nat.add_zero] at two first
    simp only [decode,(sextetRead one).1,(sextetRead two).1,bind,Option.bind_some,first]
    rw [if_pos (by omega)]
  | case3 a b =>
    obtain ⟨one,two,three,-⟩ := groupBounds a b 0
    have first := firstByte a b
    have second := secondByte a b 0
    simp only [UInt8.toNat_zero,Nat.zero_div,Nat.add_zero] at three second
    rw [decode]
    · simp only [(sextetRead one).1,(sextetRead two).1,(sextetRead three).1,bind,Option.bind_some,first,second]
      rw [if_pos (by omega)]
    · exact (sextetRead three).2.2
  | case4 a b c rest ih =>
    obtain ⟨one,two,three,four⟩ := groupBounds a b c
    rw [decode]
    · simp only [(sextetRead one).1,(sextetRead two).1,(sextetRead three).1,(sextetRead four).1,ih,bind,
        Option.bind_some,firstByte,secondByte,thirdByte]
    · exact fun third _ _ => absurd third (sextetRead three).2.2
    · exact fun fourth _ => absurd fourth (sextetRead four).2.2

theorem encodeLetters (body : Bytes) : ∀ b ∈ encode body, alphabet b = true := by
  fun_induction encode body with
  | case1 => simp
  | case2 a =>
    obtain ⟨one,two,-,-⟩ := groupBounds a 0 0
    simp only [UInt8.toNat_zero,Nat.zero_div,Nat.add_zero] at two
    simp [(sextetRead one).2.1,(sextetRead two).2.1]
    decide
  | case3 a b =>
    obtain ⟨one,two,three,-⟩ := groupBounds a b 0
    simp only [UInt8.toNat_zero,Nat.zero_div,Nat.add_zero] at three
    simp [(sextetRead one).2.1,(sextetRead two).2.1,(sextetRead three).2.1]
    decide
  | case4 a b c rest ih =>
    obtain ⟨one,two,three,four⟩ := groupBounds a b c
    simp only [List.forall_mem_cons]
    exact ⟨(sextetRead one).2.1,(sextetRead two).2.1,(sextetRead three).2.1,(sextetRead four).2.1,ih⟩

def standard : Codec := ⟨encode,decode,decodeEncode,encodeLetters⟩

end ZeroServe.Base64
