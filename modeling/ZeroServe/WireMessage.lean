import ZeroServe.ChunkCoding

/-! A message as its receiver reads it off the wire: lines up to the empty one, fields cut at the first colon, and the
framing they announce. The number and chunk size syntax are parameters. -/
namespace ZeroServe.WireMessage
open ByteText ChunkCoding

structure Head where
  start : Bytes
  fields : List (Bytes × Bytes)
  deriving DecidableEq

def cutLine (s : Bytes) : Option (Bytes × Bytes) :=
  (find crlf s).map (fun i => (s.take i,s.drop (i + 2)))

def readLines : Nat → Bytes → Option (List Bytes × Bytes)
  | 0, _ => none
  | fuel+1, s => do
      let (line,rest) ← cutLine s
      if line = [] then some ([],rest) else
      let (lines,rest) ← readLines fuel rest
      some (line::lines,rest)

def readField (line : Bytes) : Option (Bytes × Bytes) :=
  (splitOnce 58 line).map (fun f => (lower f.1,trimAscii f.2))

def readHead (s : Bytes) : Option (Head × Bytes) := do
  let (lines,rest) ← readLines (s.length + 1) s
  match lines with
  | [] => none
  | start::lines =>
    let fields ← lines.mapM readField
    some (⟨start,fields⟩,rest)

def valuesOf (fields : List (Bytes × Bytes)) (name : Bytes) : List Bytes :=
  (fields.filter (·.1 = name)).map (·.2)

inductive Framing where
  | none
  | chunked
  | length (n : Nat)
  deriving DecidableEq

/- No framing field; or a single Transfer-Encoding of chunked; or Content-Length lines that agree. -/
def framing (number : Bytes → Option Nat) (codings lengths : List Bytes) : Option Framing :=
  match codings,lengths with
  | [],[] => some .none
  | [coding],[] => if lower coding = ascii "chunked" then some .chunked else none
  | [],v::vs =>
    match number v with
    | some n => if vs.all (number · = some n) then some (.length n) else none
    | none => none
  | _,_ => none

def headFraming (number : Bytes → Option Nat) (h : Head) : Option Framing :=
  framing number (valuesOf h.fields (ascii "transfer-encoding"))
    (valuesOf h.fields (ascii "content-length"))

def Framing.Carries (size : Bytes → Option Nat) (body payload : Bytes) : Framing → Prop
  | .none => body = [] ∧ payload = []
  | .chunked => Coded size body payload []
  | .length n => body = payload ∧ body.length = n

def Complete (number size : Bytes → Option Nat) (wire payload : Bytes) : Prop :=
  ∃ head body f, readHead wire = some (head,body) ∧ headFraming number head = some f ∧
    f.Carries size body payload

theorem framingLengths {number : Bytes → Option Nat} {lengths f} (present : lengths ≠ []) :
    framing number [] lengths = some f ↔ ∃ n, f = .length n ∧ ∀ v ∈ lengths, number v = some n := by
  obtain ⟨v,vs,rfl⟩ := List.exists_cons_of_ne_nil present
  simp only [framing]
  cases first : number v with
  | none =>
    simp only [reduceCtorEq,false_iff]
    rintro ⟨n,-,all⟩
    have := all v (by simp)
    rw [first] at this
    cases this
  | some n =>
    simp only [List.all_eq_true,decide_eq_true_eq]
    constructor
    · intro h
      split at h <;> try contradiction
      rename_i same
      cases h
      exact ⟨n,rfl,by simpa [first] using same⟩
    · rintro ⟨m,kind,all⟩
      have same : n = m := by
        have := all v (by simp)
        rw [first] at this
        exact Option.some.inj this
      subst same
      rw [if_pos (fun w mem => all w (by simp [mem])),kind]

section
variable {number size : Bytes → Option Nat} {wire body : Bytes} {head : Head}

theorem completeLength (read : readHead wire = some (head,body))
    (codings : valuesOf head.fields (ascii "transfer-encoding") = [])
    (lengths : valuesOf head.fields (ascii "content-length") ≠ []) : (∃ payload, Complete number size wire payload) ↔
      ∀ v ∈ valuesOf head.fields (ascii "content-length"), number v = some body.length := by
  constructor
  · rintro ⟨payload,h,b,f,found,kind,carried⟩
    cases Option.some.inj (read.symm.trans found)
    rw [headFraming,codings] at kind
    obtain ⟨n,rfl,all⟩ := (framingLengths lengths).mp kind
    rw [carried.2]
    exact all
  · intro all
    refine ⟨body,head,body,.length body.length,read,?_,rfl,rfl⟩
    rw [headFraming,codings]
    exact (framingLengths lengths).mpr ⟨_,rfl,all⟩

theorem completeNone (read : readHead wire = some (head,body))
    (codings : valuesOf head.fields (ascii "transfer-encoding") = [])
    (lengths : valuesOf head.fields (ascii "content-length") = []) :
    (∃ payload, Complete number size wire payload) ↔ body = [] := by
  have none : headFraming number head = some .none := by rw [headFraming,codings,lengths]; rfl
  constructor
  · rintro ⟨payload,h,b,f,found,kind,carried⟩
    cases Option.some.inj (read.symm.trans found)
    cases Option.some.inj (none.symm.trans kind)
    exact carried.1
  · intro empty
    exact ⟨[],head,body,.none,read,none,empty,rfl⟩

theorem completeChunked (read : readHead wire = some (head,body))
    (codings : valuesOf head.fields (ascii "transfer-encoding") = [ascii "chunked"])
    (lengths : valuesOf head.fields (ascii "content-length") = []) :
    (∃ payload, Complete number size wire payload) ↔ ∃ payload, Coded size body payload [] := by
  have chunked : headFraming number head = some .chunked := by
    have name : lower (ascii "chunked") = ascii "chunked" := by decide +kernel
    rw [headFraming,codings,lengths]
    simp [framing,name]
  constructor
  · rintro ⟨payload,h,b,f,found,kind,carried⟩
    cases Option.some.inj (read.symm.trans found)
    cases Option.some.inj (chunked.symm.trans kind)
    exact ⟨payload,carried⟩
  · rintro ⟨payload,coded⟩
    exact ⟨payload,head,body,.chunked,read,chunked,coded⟩

end

variable (rest : Bytes)

theorem findLine {line} (free : CrlfFree line) :
    find crlf (line ++ crlf ++ rest) = some line.length := by
  induction line with
  | nil => simp [find,crlf]
  | cons b tail ih =>
    obtain ⟨inner,other⟩ := crlfFreeCons free
    have away : crlf.isPrefixOf (b::(tail ++ crlf ++ rest)) = false := by
      apply Bool.eq_false_iff.mpr
      intro start
      obtain ⟨more,same⟩ := List.isPrefixOf_iff_prefix.mp start
      simp only [crlf,List.cons_append,List.nil_append,List.cons.injEq] at same
      obtain ⟨hb,next⟩ := same
      cases tail with
      | nil => simp at next
      | cons c t =>
        apply other
        simp only [List.cons_append,List.cons.injEq] at next
        exact ⟨hb.symm,by simp [next.1.symm]⟩
    simp only [List.cons_append,find,away,ih inner]
    rfl

theorem cutLineAppend {line} (free : CrlfFree line) :
    cutLine (line ++ crlf ++ rest) = some (line,rest) := by
  have after : (line ++ crlf ++ rest).drop (line.length + 2) = rest := by
    simp [crlf]
  rw [cutLine,findLine rest free,Option.map_some,after,List.append_assoc,List.take_left]

theorem readLinesEncoded {lines} (proper : ∀ l ∈ lines, l ≠ [] ∧ CrlfFree l) (fuel : Nat)
    (enough : lines.length < fuel) :
    readLines fuel (lines.flatMap (· ++ crlf) ++ crlf ++ rest) = some (lines,rest) := by
  induction lines generalizing fuel with
  | nil =>
    obtain ⟨n,rfl⟩ : ∃ n, fuel = n + 1 := ⟨fuel - 1,by omega⟩
    have empty : CrlfFree [] := rfl
    have cut : cutLine (crlf ++ rest) = some ([],rest) := cutLineAppend rest empty
    simp [readLines,cut]
  | cons l ls ih =>
    obtain ⟨n,rfl⟩ : ∃ n, fuel = n + 1 := ⟨fuel - 1,by omega⟩
    obtain ⟨some,free⟩ := proper l (by simp)
    have cut := cutLineAppend (ls.flatMap (· ++ crlf) ++ crlf ++ rest) free
    have tail := ih (fun x hx => proper x (by simp [hx])) n (by simp at enough; omega)
    simp only [List.flatMap_cons,List.append_assoc] at cut tail ⊢
    simp [readLines,cut,some,tail]

def fieldLine (f : Bytes × Bytes) : Bytes := f.1 ++ [58,32] ++ f.2

theorem readFieldLine {f} (colon : 58 ∉ f.1) : readField (fieldLine f) = some (lower f.1,trimAscii f.2) := by
  have cut := splitOnceAppend (32::f.2) colon
  have blank : trimAscii (32::f.2) = trimAscii f.2 := by
    simp [trimAscii,trimAsciiStart,asciiWhitespace]
  simp [readField,fieldLine,cut,blank]

theorem readFieldLines {fields : List (Bytes × Bytes)} (colons : ∀ f ∈ fields, (58 : UInt8) ∉ f.1) :
    (fields.map fieldLine).mapM readField = some (fields.map (fun f => (lower f.1,trimAscii f.2))) := by
  induction fields with
  | nil => rfl
  | cons f fs ih =>
    have tail := ih (fun g hg => colons g (by simp [hg]))
    simp [List.mapM_cons,readFieldLine (colons f (by simp)),tail]

theorem lineCount (lines : List Bytes) : lines.length ≤ (lines.flatMap (· ++ crlf)).length := by
  induction lines with
  | nil => simp
  | cons l ls ih =>
    simp only [List.flatMap_cons,List.length_append,List.length_cons,crlf]
    simp only [crlf] at ih
    omega

theorem readHeadEncoded (start : Bytes) (fields : List (Bytes × Bytes)) (rest : Bytes)
    (first : start ≠ [] ∧ (13 : UInt8) ∉ start)
    (proper : ∀ f ∈ fields, (58 : UInt8) ∉ f.1 ∧ (13 : UInt8) ∉ f.1 ∧ (13 : UInt8) ∉ f.2) :
    readHead (start ++ crlf ++ fields.flatMap (fun f => fieldLine f ++ crlf) ++ crlf ++ rest) =
      some (⟨start,fields.map (fun f => (lower f.1,trimAscii f.2))⟩,rest) := by
  have lines : start ++ crlf ++ fields.flatMap (fun f => fieldLine f ++ crlf) ++ crlf ++ rest =
      (start::fields.map fieldLine).flatMap (· ++ crlf) ++ crlf ++ rest := by
    simp [List.flatMap_map]
  have each : ∀ l ∈ start::fields.map fieldLine, l ≠ [] ∧ CrlfFree l := by
    intro l mem
    rcases List.mem_cons.mp mem with rfl | mem
    · exact ⟨first.1,crlfFreeOfNoCr first.2⟩
    · obtain ⟨f,hf,rfl⟩ := List.mem_map.mp mem
      obtain ⟨_,name,value⟩ := proper f hf
      exact ⟨by simp [fieldLine],crlfFreeOfNoCr (by simp [fieldLine,name,value])⟩
  have read := readLinesEncoded rest each
    (((start::fields.map fieldLine).flatMap (· ++ crlf) ++ crlf ++ rest).length + 1) (by
      have := lineCount (start::fields.map fieldLine)
      simp only [List.length_append]; omega)
  rw [lines,readHead,read]
  simp [readFieldLines (fun f hf => (proper f hf).1)]

end ZeroServe.WireMessage
