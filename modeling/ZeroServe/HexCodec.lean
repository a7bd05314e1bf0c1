import ZeroServe.RequestPath

/-! Hexadecimal text of scripts: written from one buffer into another, and decoded inside the buffer it stands in. -/
namespace ZeroServe.HexCodec
open ByteText RequestPath

def hexChars : Nat → Option Bytes
  | 0 => some (ascii "0123456789abcdef")
  | 1 => some (ascii "0123456789ABCDEF")
  | _ => none

def encodeLoop (chars : Bytes) : Nat → Bytes → Bytes → Bytes
  | _,[],out => out
  | i,b::data,out =>
    let out := out.set (i * 2) (chars.getD (b >>> 4).toNat 0)
    encodeLoop chars (i + 1) data (out.set (i * 2 + 1) (chars.getD (b &&& 0x0f).toNat 0))

def hHexEncode (data out : Bytes) (case : Nat) : Option (Nat × Bytes) :=
  let requiredLen := data.length * 2
  if out.length = 0 then some (requiredLen,out)
  else if out.length < requiredLen then none
  else (hexChars case).map fun chars => (requiredLen,encodeLoop chars 0 data out)

def hexCharToNibble : UInt8 → Option UInt8 := hexVal

def decodeLoop : Nat → Nat → Bytes → Bool × Bytes
  | 0,_,buf => (true,buf)
  | n + 1,i,buf =>
    match hexCharToNibble (buf.getD (i * 2) 0) with
    | none => (false,buf)
    | some high =>
    match hexCharToNibble (buf.getD (i * 2 + 1) 0) with
    | none => (false,buf)
    | some low => decodeLoop n (i + 1) (buf.set i (high <<< 4 ||| low))

/- The result and the buffer it leaves; the error is none. -/
def hexDecodeInPlace (buf : Bytes) : Option Nat × Bytes :=
  let outLen := buf.length / 2
  let done := decodeLoop outLen 0 buf
  (if done.1 then some outLen else none,done.2)

/- Decoding from a separate copy. -/
def decodeCopy : Bytes → Option Bytes
  | h::l::later => do
    let high ← hexCharToNibble h
    let low ← hexCharToNibble l
    let out ← decodeCopy later
    some ((high <<< 4 ||| low)::out)
  | _ => some []

theorem setBehind (front : Bytes) (y : UInt8) (tail : Bytes) (v : UInt8) :
    (front ++ y::tail).set front.length v = front ++ v::tail := by
  rw [List.set_append_right _ _ (Nat.le_refl _),Nat.sub_self,List.set_cons_zero]

/- What is decoded stands in front, as much that is read and not yet overwritten behind it, and then what is unread. -/
theorem decodeLoopCopy {n done stale rest out} (read : decodeCopy rest = some out) (even : rest.length = n * 2)
    (half : stale.length = done.length) :
    decodeLoop n done.length (done ++ (stale ++ rest)) = (true,done ++ (out ++ (stale ++ rest).drop n)) ∧ out.length = n := by
  induction n generalizing done stale rest out with
  | zero =>
    cases List.eq_nil_of_length_eq_zero (by omega : rest.length = 0)
    cases read
    exact ⟨rfl,rfl⟩
  | succ n ih =>
    rcases rest with _ | ⟨h,_ | ⟨l,later⟩⟩
    · simp at even
    · simp at even
      omega
    simp only [decodeCopy,bind,Option.bind_eq_some_iff,Option.some.injEq] at read
    obtain ⟨high,first,low,second,more,copied,rfl⟩ := read
    obtain ⟨y,kept,shape,same⟩ : ∃ y kept, stale ++ h::l::later = y::(kept ++ later) ∧ kept.length = done.length + 1 := by
      cases stale with
      | nil => exact ⟨h,[l],rfl,by rw [← half]; rfl⟩
      | cons s more => exact ⟨s,more ++ [h,l],by simp,by simp at half ⊢; omega⟩
    have place : done.length * 2 = (done ++ stale).length := by
      simp [half]
      omega
    have high_ : (done ++ (stale ++ h::l::later)).getD (done.length * 2) 0 = h := by
      rw [place]
      simp
    have low_ : (done ++ (stale ++ h::l::later)).getD (done.length * 2 + 1) 0 = l := by
      rw [← List.append_assoc,place,List.getD_append_right _ _ _ _ (Nat.le_add_right _ _),Nat.add_sub_cancel_left]
      rfl
    have next := @ih (done ++ [high <<< 4 ||| low]) kept later more copied (by simp at even; omega) (by simpa using same)
    refine ⟨?_,by simp [next.2]⟩
    rw [decodeLoop,high_,low_,first,second]
    rw [shape]
    simpa using next.1

theorem hexDecodeInPlaceCopy {buf out} (read : decodeCopy buf = some out) (even : buf.length % 2 = 0) :
    hexDecodeInPlace buf = (some (buf.length / 2),out ++ buf.drop (buf.length / 2)) ∧ out.length = buf.length / 2 := by
  have whole := @decodeLoopCopy (buf.length / 2) [] [] buf out read (by omega) rfl
  simp only [List.nil_append,List.length_nil] at whole
  rw [hexDecodeInPlace,whole.1]
  exact ⟨rfl,whole.2⟩

theorem digitsRead {buf : Bytes} (digits : ∀ b ∈ buf, (hexCharToNibble b).isSome) : ∃ out, decodeCopy buf = some out := by
  induction buf using decodeCopy.induct with
  | case1 h l later ih =>
    obtain ⟨high,first⟩ := Option.isSome_iff_exists.mp (digits h (by simp))
    obtain ⟨low,second⟩ := Option.isSome_iff_exists.mp (digits l (by simp))
    obtain ⟨out,rest⟩ := ih fun b mem => digits b (by simp [mem])
    exact ⟨(high <<< 4 ||| low)::out,by simp [decodeCopy,first,second,rest]⟩
  | case2 buf short => exact ⟨[],by rw [decodeCopy]; exact short⟩

def hexPair (chars : Bytes) (b : UInt8) : Bytes := [chars.getD (b >>> 4).toNat 0,chars.getD (b &&& 0x0f).toNat 0]

theorem encodeLoopPairs (chars : Bytes) {i front tail} (data : Bytes) (place : front.length = i * 2)
    (room : data.length * 2 ≤ tail.length) :
    encodeLoop chars i data (front ++ tail) = front ++ (data.flatMap (hexPair chars) ++ tail.drop (data.length * 2)) := by
  induction data generalizing i front tail with
  | nil => rfl
  | cons b data ih =>
    rcases tail with _ | ⟨x,_ | ⟨y,tail⟩⟩
    · simp at room
    · simp at room
      omega
    have second := setBehind (front ++ [chars.getD (b >>> 4).toNat 0]) y tail (chars.getD (b &&& 0x0f).toNat 0)
    simp only [List.length_append,List.length_singleton,List.append_assoc,List.singleton_append] at second
    have next := @ih (i + 1) (front ++ hexPair chars b) tail (by simp [hexPair]; omega) (by simp at room; omega)
    simp only [hexPair,List.append_assoc,List.cons_append,List.nil_append] at next
    rw [encodeLoop,← place,setBehind,second,next]
    simp [hexPair,Nat.add_mul]

theorem pairsRead {chars case} (known : hexChars case = some chars) (data : Bytes) :
    decodeCopy (data.flatMap (hexPair chars)) = some data := by
  have pair : ∀ b : UInt8, hexCharToNibble (chars.getD (b >>> 4).toNat 0) = some (b >>> 4) ∧
      hexCharToNibble (chars.getD (b &&& 0x0f).toNat 0) = some (b &&& 0x0f) ∧ b >>> 4 <<< 4 ||| b &&& 0x0f = b := by
    rcases case with _ | _ | _ <;> cases known <;> decide +kernel
  induction data with
  | nil => rfl
  | cons b data ih =>
    obtain ⟨high,low,joined⟩ := pair b
    simp only [List.flatMap_cons,hexPair,List.cons_append,List.nil_append,decodeCopy,high,low,ih,bind,Option.bind_some,joined]

/- What is written for a buffer with room is read back, and a buffer of digits is decoded as a copy of it would be. -/
theorem hexReadBack {chars case} (data out : Bytes) (known : hexChars case = some chars) (room : data.length * 2 ≤ out.length) :
    (∃ text rest, hHexEncode data out case = some (data.length * 2,text ++ rest) ∧ text.length = data.length * 2 ∧
      ∃ left, hexDecodeInPlace text = (some data.length,data ++ left)) ∧
    ∀ buf : Bytes, buf.length % 2 = 0 → (∀ b ∈ buf, (hexCharToNibble b).isSome) →
      ∃ copy, decodeCopy buf = some copy ∧ copy.length = buf.length / 2 ∧
        hexDecodeInPlace buf = (some (buf.length / 2),copy ++ buf.drop (buf.length / 2)) := by
  constructor
  · have text := @encodeLoopPairs chars 0 [] out data rfl room
    have size : (data.flatMap (hexPair chars)).length = data.length * 2 := by
      simp [hexPair]
    have back := hexDecodeInPlaceCopy (pairsRead known data) (by omega)
    rw [size,Nat.mul_div_cancel _ (by decide)] at back
    refine ⟨data.flatMap (hexPair chars),out.drop (data.length * 2),?_,size,_,back.1⟩
    rw [hHexEncode]
    split
    · rename_i empty
      cases List.eq_nil_of_length_eq_zero empty
      cases List.eq_nil_of_length_eq_zero (by simpa using room : data.length = 0)
      rfl
    · rw [if_neg (Nat.not_lt.mpr room),known]
      simpa using text
  · intro buf even digits
    obtain ⟨copy,read⟩ := digitsRead digits
    have whole := hexDecodeInPlaceCopy read even
    exact ⟨copy,read,whole.2,whole.1⟩

theorem letterReadBack : ∃ text rest, hHexEncode [0x7a,0x4f] (List.replicate 5 0) 1 = some (4,text ++ rest) ∧
    text.length = 4 ∧ ∃ left, hexDecodeInPlace text = (some 2,0x7a::0x4f::left) :=
  (hexReadBack [0x7a,0x4f] (List.replicate 5 0) (rfl : hexChars 1 = some (ascii "0123456789ABCDEF")) (by decide)).1

end ZeroServe.HexCodec
