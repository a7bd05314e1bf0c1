import ZeroServe.ByteText

/-! C source as ISO C reads it, as far as string literals and comments go. Trigraphs are not translated; characters
are UTF-8 on both sides. -/
namespace ZeroServe.CSource
open ByteText

/- Phase 2: a backslash right before a line end goes, and the line end with it. One pass,
what has come together is not looked at again. -/
def splice : Bytes → Bytes
  | 92::10::rest => splice rest
  | b::rest => b::splice rest
  | [] => []

/- Where the reading of a literal stands: between characters, behind a backslash, or in a
number of an escape sequence. -/
inductive Mode where
  | plain
  | escape
  | octal (digits value : Nat)
  | hex (digits value : Nat)
  | universal (left value : Nat)
  deriving DecidableEq

def simpleEscape (c : UInt8) : Option UInt8 :=
  if c = 39 ∨ c = 34 ∨ c = 63 ∨ c = 92 then some c
  else if c = 97 then some 7 else if c = 98 then some 8 else if c = 102 then some 12
  else if c = 110 then some 10 else if c = 114 then some 13 else if c = 116 then some 9
  else if c = 118 then some 11 else none

def emit (value : Bytes) (read : Option (Bytes × Bytes)) : Option (Bytes × Bytes) :=
  read.map fun r => (value ++ r.1,r.2)

@[simp] def readChars : Mode → Bytes → Option (Bytes × Bytes)
  | _, [] => none
  | mode, c::rest =>
    let plain :=
      if c = 34 then some ([],rest) else if c = 10 then none
      else if c = 92 then readChars .escape rest else emit [c] (readChars .plain rest)
    match mode with
    | .plain => plain
    | .escape =>
      match digitVal 8 c with
      | some d => readChars (.octal 1 d) rest
      | none =>
        if c = 120 then readChars (.hex 0 0) rest
        else if c = 117 then readChars (.universal 4 0) rest
        else if c = 85 then readChars (.universal 8 0) rest
        else (simpleEscape c).bind fun v => emit [v] (readChars .plain rest)
    | .octal digits value =>
      -- at most three digits, and as many as there are
      match if digits < 3 then digitVal 8 c else none with
      | some d => readChars (.octal (digits + 1) (8 * value + d)) rest
      | none => if value < 256 then emit [UInt8.ofNat value] plain else none
    | .hex digits value =>
      match digitVal 16 c with
      | some d => readChars (.hex (digits + 1) (16 * value + d)) rest
      | none => if 0 < digits ∧ value < 256 then emit [UInt8.ofNat value] plain else none
    | .universal left value =>
      match digitVal 16 c with
      | none => none
      | some d =>
        if 1 < left then readChars (.universal (left - 1) (16 * value + d)) rest
        else if (16 * value + d).isValidChar then
          emit (String.utf8EncodeChar (Char.ofNat (16 * value + d))) (readChars .plain rest)
        else none

def readString : Bytes → Option (Bytes × Bytes)
  | 34::rest => readChars .plain rest
  | _ => none

def closeComment : Bytes → Option Bytes
  | 42::47::rest => some rest
  | _::rest => closeComment rest
  | [] => none

def readComment : Bytes → Option Bytes
  | 47::42::rest => closeComment rest
  | _ => none

inductive Blank where
  | between
  | block
  | line
  deriving DecidableEq

def whiteSpace (b : UInt8) : Bool := b == 32 || (9 ≤ b && b ≤ 12)

def skipBlanks : Blank → Bytes → Bytes
  | .between, 47::42::rest => skipBlanks .block rest
  | .between, 47::47::rest => skipBlanks .line rest
  | .between, b::rest => if whiteSpace b then skipBlanks .between rest else b::rest
  | .block, 42::47::rest => skipBlanks .between rest
  | .block, _::rest => skipBlanks .block rest
  | .line, 10::rest => skipBlanks .between rest
  | .line, _::rest => skipBlanks .line rest
  | _, [] => []

def dropEncoding : Bytes → Bytes
  | 117::56::34::rest => 34::rest
  | 117::34::rest => 34::rest
  | 85::34::rest => 34::rest
  | 76::34::rest => 34::rest
  | s => s

def nextString (s : Bytes) : Option (Bytes × Bytes) :=
  readString (dropEncoding (skipBlanks .between s))

def joinFollowing : Nat → Bytes × Bytes → Bytes × Bytes
  | 0, read => read
  | fuel + 1, (value,rest) =>
    match nextString rest with
    | none => (value,rest)
    | some (more,rest) => joinFollowing fuel (value ++ more,rest)

def readLiteral (source : Bytes) : Option (Bytes × Bytes) :=
  (readString (splice source)).map fun r => joinFollowing r.2.length r

theorem spliceCons {b rest} (kept : ¬ (b = 92 ∧ rest.head? = some 10)) : splice (b::rest) = b::splice rest := by
  rw [splice]
  intro tail hb hr
  exact kept ⟨hb,by simp [hr]⟩

theorem spliceAppend (x : Bytes) {y} (z : Bytes) (other : y ≠ 10) : splice (x ++ y::z) = splice x ++ splice (y::z) := by
  fun_induction splice x with
  | case1 rest ih => exact ih
  | case2 b rest away ih =>
    rw [List.cons_append,spliceCons,ih,List.cons_append]
    rintro ⟨rfl,next⟩
    cases rest with
    | nil => exact other (by simpa using next)
    | cons c tail => exact away tail rfl (by simpa using next)
  | case3 => rfl

theorem spliceOneLine {x} (oneLine : (10 : UInt8) ∉ x) : splice x = x := by
  induction x with
  | nil => rfl
  | cons b rest ih =>
    rw [List.mem_cons,not_or] at oneLine
    rw [spliceCons,ih oneLine.2]
    rintro ⟨_,next⟩
    exact oneLine.2 (List.mem_of_mem_head? next)

theorem readCharsEscape (rest : Bytes) : readChars .plain (92::rest) = readChars .escape rest := by
  simp [readChars]

theorem readCharsPlain {c} (quote : c ≠ 34) (line : c ≠ 10) (escape : c ≠ 92) (rest : Bytes) :
    readChars .plain (c::rest) = emit [c] (readChars .plain rest) := by
  simp [readChars,quote,line,escape]

theorem readCharsSimple {c v} (number : digitVal 8 c = none) (known : simpleEscape c = some v) (rest : Bytes) :
    readChars .plain (92::c::rest) = emit [v] (readChars .plain rest) := by
  have letter : c ≠ 120 ∧ c ≠ 117 ∧ c ≠ 85 := by
    refine ⟨?_,?_,?_⟩ <;> (rintro rfl; cases known)
  simp [readChars,number,known,letter]

theorem readCharsOctal {a b c i j k} (first : digitVal 8 a = some i) (second : digitVal 8 b = some j)
    (third : digitVal 8 c = some k) (small : 64 * i + 8 * j + k < 256) (rest : Bytes) :
    readChars .plain (92::a::b::c::rest) = emit [UInt8.ofNat (64 * i + 8 * j + k)] (readChars .plain rest) := by
  rw [readCharsEscape]
  have whole : 8 * (8 * i + j) + k = 64 * i + 8 * j + k := by omega
  have digits : readChars .escape (a::b::c::rest) =
      readChars (.octal 3 (64 * i + 8 * j + k)) rest := by
    simp [readChars,first,second,third,whole]
  rw [digits]
  cases rest with
  | nil => rfl
  | cons d rest => simp [readChars,small]

theorem closeCommentAppend (x y : Bytes) : closeComment (x ++ 32::y) = match closeComment x with
      | some rest => some (rest ++ 32::y)
      | none => closeComment (32::y) := by
  fun_induction closeComment x with
  | case1 rest => rfl
  | case2 b rest away ih =>
    rw [List.cons_append,closeComment]
    · exact ih
    · intro tail hb hr
      cases rest with
      | nil => simp at hr
      | cons c rest' => exact away rest' hb (by simpa using (List.cons.inj hr).1)
  | case3 => rfl

end ZeroServe.CSource
