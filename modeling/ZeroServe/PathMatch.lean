import ZeroServe.RequestPath

/-! Path matchers on a normalised request path. A matcher without escapes and double slashes is evaluated on the
cleaned, decoded path. -/
namespace ZeroServe.RequestPath
open ByteText

def globClassByte : Bytes → Option (UInt8 × Bytes)
  | [] => none
  | b::rest =>
    match rest with
    | c::later => if b = 92 then some (c,later) else some (b,rest)
    | [] => some (b,[])

def globClassLoop (value : UInt8) (negated : Bool) : Nat → Bytes → Bool → Bool → Option (Bool × Bytes)
  | 0,_,_,_ => none
  | _+1,[],_,_ => none
  | fuel+1,b::rest,matched,hasTerm =>
    if b = 93 && hasTerm then some (if negated then ! matched else matched,rest)
    else if b = 45 then none
    else do
      let (start,next) ← globClassByte (b::rest)
      if next.head? = some 45 then
        let after := next.tail
        if after.isEmpty || after.head? = some 93 then none else do
        let (last,afterEnd) ← globClassByte after
        globClassLoop value negated fuel afterEnd (matched || (start ≤ value && value ≤ last)) true
      else globClassLoop value negated fuel next (matched || value == start) true

def globClassMatch (pattern : Bytes) (value : UInt8) : Option (Bool × Bytes) :=
  let negated := pattern.head? = some 94
  let terms := if negated then pattern.tail else pattern
  globClassLoop value negated (terms.length + 1) terms false false

def globMatchInner : Nat → Bytes → Bytes → Bool
  | 0,_,_ => false
  | _+1,[],value => value.isEmpty
  | fuel+1,b::rest,value =>
    if b = 42 then
      globMatchInner fuel rest value ||
        (! value.isEmpty && globMatchInner fuel (b::rest) value.tail)
    else match value with
    | [] => false
    | v::later =>
      if b = 63 then globMatchInner fuel rest later
      else if b = 91 then
        match globClassMatch rest v with
        | some (matched,next) => matched && globMatchInner fuel next later
        | none => false
      else if b = 92 then
        match rest with
        | [] => false
        | c::next => v == c && globMatchInner fuel next later
      else v == b && globMatchInner fuel rest later

def globMatch (pattern value : Bytes) : Bool :=
  globMatchInner (pattern.length + value.length + 1) pattern value

def caddyHttpPathGlobMatch (pattern value : Bytes) : Bool :=
  let patternParts := pattern.splitOn slash
  let valueParts := value.splitOn slash
  patternParts.length == valueParts.length &&
    (patternParts.zip valueParts).all fun (pattern,value) => globMatch pattern value

def caddyMatchCleanedPath (path pattern : Bytes) : Bool :=
  let starCount := pattern.count 42
  let starts := pattern.head? == some 42
  let ends := pattern.getLast? == some 42
  if starCount == 2 && starts && ends then (find (pattern.tail.dropLast) path).isSome
  else if starCount == 1 && starts then pattern.tail.isSuffixOf path
  else if starCount == 1 && ends then pattern.dropLast.isPrefixOf path
  else caddyHttpPathGlobMatch pattern path

structure PlainPattern where
  text : Bytes
  noEscape : percent ∉ text
  noDoubleSlash : find [slash,slash] text = none

def caddyMatchPath (encodedPath : Bytes) (pattern : PlainPattern) : Bool :=
  if pattern.text = ascii "*" then true else
  match caddyCleanedPathSubject encodedPath true with
  | none => false
  | some cleanedPath => caddyMatchCleanedPath cleanedPath pattern.text

def PlainPattern.covers (pattern : PlainPattern) (path : Bytes) : Bool :=
  pattern.text == ascii "*" || caddyMatchCleanedPath path pattern.text

/- The matching subject is the served path exactly when no escape is cut short by the end of
its segment; a matcher goes wrong on no other path, and on such a path whenever the served
path is one it covers. -/
theorem matchersSeeServed {raw : Bytes} {n : NormalizedPath} (h : normalizeRequestPath raw = some n) :
    (caddyCleanedPathSubject n.encodedPathWithDirHint true = some n.served ↔ n.WholeEscapes) ∧ ∀ pattern : PlainPattern,
      caddyMatchPath (lower n.encodedPathWithDirHint) pattern = pattern.covers n.served ↔
        n.WholeEscapes ∨ pattern.text = ascii "*" ∨ caddyMatchCleanedPath n.served pattern.text = false := by
  obtain ⟨good,bad⟩ := subjectServed h
  constructor
  · constructor
    · intro seen
      by_contra cut
      rw [bad cut] at seen
      cases seen
    · exact good
  · intro pattern
    unfold caddyMatchPath PlainPattern.covers
    rw [subjectLower]
    by_cases star : pattern.text = ascii "*"
    · simp [star]
    · by_cases whole : n.WholeEscapes
      · simp [good whole,star,whole]
      · simp only [bad whole,star,whole,if_false,beq_eq_false_iff_ne.mpr star,Bool.false_or,false_or]
        exact eq_comm

theorem encodedPathMatched :
    ∃ n, normalizeRequestPath (ascii "/Docs/./a%20B/") = some n ∧ n.served = ascii "/docs/a b/" ∧
      caddyCleanedPathSubject n.encodedPathWithDirHint true = some n.served :=
  have normal : normalizeRequestPath (ascii "/Docs/./a%20B/") =
      some ⟨ascii "Docs/a B",ascii "Docs/a%20B",true⟩ := by decide +kernel
  ⟨_,normal,by decide +kernel,(matchersSeeServed normal).1.mpr (by
    unfold NormalizedPath.WholeEscapes
    decide +kernel)⟩

theorem cutEscapeUnmatched : ¬∀ raw n, normalizeRequestPath raw = some n →
      caddyCleanedPathSubject n.encodedPathWithDirHint true = some n.served := by
  intro always
  have seen := always (ascii "/admin%") ⟨ascii "admin%",ascii "admin%",false⟩ (by decide +kernel)
  exact absurd seen (by decide +kernel)

end ZeroServe.RequestPath
