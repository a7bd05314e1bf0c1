import ZeroServe.RequestPath

/-! Regular-expression matchers of the generated middleware. The subject is copied into a fixed buffer of the script.
-/
namespace ZeroServe.RegexMatch
open ByteText
open RequestPath

/- A buffer of the generated code after a load: its bytes and the helper's return value. -/
structure Loaded where
  bytes : Bytes
  raw : Int
  deriving DecidableEq

def writeCstrSnprintf (input : Bytes) (room : Nat) : Bytes × Nat :=
  if room = 0 then ([],input.length) else (input.take (room - 1) ++ [0],input.length)

def writeCstr (input : Bytes) (room : Nat) : Loaded :=
  let (bytes,written) := writeCstrSnprintf input room
  ⟨bytes,(min written room : Nat)⟩

def zsCaddyClampLen (len : Int) (cap : Nat) : Nat :=
  if len ≤ 0 ∨ cap = 0 then 0
  else if cap ≤ len.toNat then cap - 1
  else len.toNat

def cBufferFitsCap (raw : Int) (cap : Nat) : Bool := 0 ≤ raw && decide (raw.toNat < cap)

def readUtf8 (buffer : Bytes) (len : Nat) : Option Bytes :=
  if len = 0 then some []
  else if validUtf8 (buffer.take len) then some (buffer.take len) else none

/- An expression that compiled is a predicate on text; `none` is a failed helper, which ends
the script. -/
def hCaddyRegexMatch (regex : Bytes → Bool) (buffer : Bytes) (len : Nat) : Option Bool :=
  (readUtf8 buffer len).map regex

def generatedCap : Nat := 512

def bufferedMatch (regex : Bytes → Bool) (value : Bytes) : Option Bool :=
  let buffer := writeCstr value generatedCap
  let len := zsCaddyClampLen buffer.raw generatedCap
  if cBufferFitsCap buffer.raw generatedCap then hCaddyRegexMatch regex buffer.bytes len
  else some false

def caddyPathNeedsDecodeOrClean (path : Bytes) : Bool :=
  path.contains percent || (find [slash,slash] path).isSome ||
    (path.splitOn slash).any fun segment => segment == ascii "." || segment == ascii ".."

def pathRegexpSubject (path : Bytes) : Option Bytes :=
  if ! caddyPathNeedsDecodeOrClean path then some path
  else (caddyPercentDecodePath path).map fun decoded => cleanPathCaddy decoded true

def pathRegexpCondition (regex : Bytes → Bool) (path : Bytes) : Option Bool := do
  let subject ← pathRegexpSubject path
  bufferedMatch regex subject

def backslash : UInt8 := 92
def openBrace : UInt8 := 123
def closeBrace : UInt8 := 125

def containsPlaceholder (text : Bytes) : Bool := text.contains openBrace || text.contains closeBrace

def slice (s : Bytes) (i j : Nat) : Bytes := (s.take j).drop i

def position (p : UInt8 → Bool) (s : Bytes) (i : Nat) : Option Nat :=
  ((s.drop i).findIdx? p).map (i + ·)

def escaped (s : Bytes) (i : Nat) : Bool := 0 < i && s[i - 1]? == some backslash

def placeholderEnd (input : Bytes) : Nat → Nat → Option Nat
  | 0,_ => none
  | fuel+1,endCursor => do
    let end_ ← position (· == closeBrace) input endCursor
    if escaped input end_ then placeholderEnd input fuel (end_ + 1) else some end_

/- The loop of `expand_caddy_placeholders_inner` for unknown keys read as empty. Every turn
moves the cursor, so the length of the input bounds the turns. -/
def expandLoop (resolve : Bytes → Option Bytes) (input : Bytes) : Nat → Nat → Nat → Bytes → Bytes
  | 0,last,_,out => out ++ input.drop last
  | fuel+1,last,cursor,out =>
    match position (fun b => b == openBrace || b == closeBrace) input cursor with
    | none => out ++ input.drop last
    | some start =>
      if escaped input start then
        expandLoop resolve input fuel start (start + 1) (out ++ slice input last (start - 1))
      else if input[start]? != some openBrace then
        expandLoop resolve input fuel last (start + 1) out
      else
        match placeholderEnd input (input.length + 1) (start + 1) with
        | none => out ++ input.drop last
        | some end_ =>
          let value := (resolve (slice input (start + 1) end_)).getD []
          expandLoop resolve input fuel (end_ + 1) (end_ + 1) (out ++ slice input last start ++ value)

def expandCaddyPlaceholders (resolve : Bytes → Option Bytes) (input : Bytes) : Bytes :=
  expandLoop resolve input (input.length + 1) 0 0 []

def expressionStringMatches (regex : Bytes → Bool) (resolve : Bytes → Option Bytes) (left : Bytes) :
    Option Bool :=
  bufferedMatch regex (expandCaddyPlaceholders resolve left)

def cleanedRequestPath (path : Bytes) : Option Bytes :=
  (caddyPercentDecodePath path).map fun decoded => cleanPathCaddy decoded true

theorem fitsExact {len cap} : cBufferFitsCap (min len cap : Nat) cap = decide (len < cap) := by
  have inner : min len cap < cap ↔ len < cap := by omega
  simp only [cBufferFitsCap,Int.toNat_natCast,inner,Int.natCast_nonneg,decide_true,Bool.true_and]

theorem clampFits {len cap} (fits : len < cap) : zsCaddyClampLen (min len cap : Nat) cap = len := by
  have inner : min len cap = len := by omega
  rw [inner,zsCaddyClampLen]
  split
  · omega
  · rw [Int.toNat_natCast,if_neg (by omega)]

theorem readWritten {value cap} (fits : value.length < cap) (text : validUtf8 value = true) :
    readUtf8 (writeCstr value cap).bytes value.length = some value := by
  have room : cap ≠ 0 := by omega
  have whole : (writeCstr value cap).bytes = value ++ [0] := by
    rw [writeCstr,writeCstrSnprintf,if_neg room,List.take_of_length_le (by omega)]
  rw [readUtf8,whole]
  split
  · rename_i empty
    rw [List.length_eq_zero_iff.mp empty]
  · rw [List.take_left' rfl,if_pos text]

variable (regex : Bytes → Bool)

theorem bufferedMatchIs {value} (text : validUtf8 value = true) :
    bufferedMatch regex value = some (decide (value.length < generatedCap) && regex value) := by
  have raw : (writeCstr value generatedCap).raw = (min value.length generatedCap : Nat) := rfl
  simp only [bufferedMatch,raw,fitsExact]
  by_cases fits : value.length < generatedCap
  · rw [clampFits fits,hCaddyRegexMatch,readWritten fits text]
    simp [fits]
  · simp [fits]

theorem findNone {pat s} (absent : find pat s = none) (before after : Bytes) : s ≠ before ++ pat ++ after := by
  intro same
  induction s generalizing before with
  | nil =>
    obtain ⟨rest,-⟩ := List.append_eq_nil_iff.mp same.symm
    simp [find,(List.append_eq_nil_iff.mp rest).2] at absent
  | cons b rest ih =>
    rw [find] at absent
    split at absent
    · contradiction
    · rename_i away
      cases before with
      | nil =>
        apply away
        rw [same]
        exact List.isPrefixOf_iff_prefix.mpr (List.prefix_append pat after)
      | cons c later =>
        exact ih (Option.map_eq_none_iff.mp absent) later (List.cons.inj same).2

theorem joinCons {part parts} (filled : parts ≠ []) : join (part::parts) = part ++ slash::join parts := by
  have whole := slashedJoin (List.cons_ne_nil part parts)
  rw [slashed,List.flatMap_cons,← slashed,← slashedJoin filled] at whole
  exact List.tail_eq_of_cons_eq whole

theorem singleSlashes {path} (filled : path ≠ []) (first : path.head? ≠ some slash)
    (single : find [slash,slash] path = none) :
    ∃ kept tail, kept ≠ [] ∧ (tail = [] ∨ tail = [slash]) ∧ path = join kept ++ tail ∧
      (∀ part ∈ kept, part ≠ [] ∧ part ∈ path.splitOn slash) := by
  generalize pieces : path.splitOn slash = l
  induction l generalizing path with
  | nil => exact (List.splitOn_ne_nil _ _ pieces).elim
  | cons part later ih =>
    obtain ⟨-,cut⟩ := splitOnCut pieces
    have nonempty : part ≠ [] := by
      rintro rfl
      rcases cut with ⟨-,same⟩ | ⟨t,same,-⟩
      · exact filled same
      · exact first (by rw [same]; rfl)
    rcases cut with ⟨-,same⟩ | ⟨rest,same,tail⟩
    · exact ⟨[part],[],by simp,.inl rfl,by simp [join,same],by simp [nonempty]⟩
    · by_cases ended : rest = []
      · refine ⟨[part],[slash],by simp,.inr rfl,?_,by simp [nonempty]⟩
        simp [join,same,ended]
      · have next : rest.head? ≠ some slash := by
          intro twice
          obtain ⟨t,shape⟩ := List.head?_eq_some_iff.mp twice
          exact findNone single part t (by simp [same,shape])
        have inner : find [slash,slash] rest = none := by
          cases found : find [slash,slash] rest with
          | none => rfl
          | some i =>
            exact (findNone single (part ++ slash::rest.take i) (rest.drop (i + 2)) (by
              have shape := findSound found
              rw [same]
              conv => lhs; rw [shape]
              simp)).elim
        obtain ⟨kept,last,more,ends,shape,all⟩ := ih ended next inner tail.symm
        refine ⟨part::kept,last,by simp,ends,?_,?_⟩
        · rw [same,shape,joinCons more]
          simp
        · intro p mem
          rcases List.mem_cons.mp mem with rfl | old
          · exact ⟨nonempty,List.mem_cons_self⟩
          · exact ⟨(all p old).1,List.mem_cons_of_mem _ (all p old).2⟩

theorem cleanJoined {parts} (clean : ∀ part ∈ parts, Clean part) (filled : parts ≠ []) {tail}
    (ends : tail = [] ∨ tail = [slash]) : cleanPathPreserveTrailing (join parts ++ tail) = join parts ++ tail := by
  obtain ⟨part,later,shape⟩ := List.exists_cons_of_ne_nil filled
  have here := clean part (by rw [shape]; exact List.mem_cons_self)
  obtain ⟨b,rest,text⟩ := List.exists_cons_of_ne_nil here.nonempty
  have other : b ≠ slash := fun same => here.plain (by rw [text,same]; exact List.mem_cons_self)
  have starts : ∃ more, join parts = b::more := by
    rw [shape,text]
    by_cases alone : later = []
    · exact ⟨rest,by simp [join,alone]⟩
    · exact ⟨rest ++ slash::join later,by rw [joinCons alone]; rfl⟩
  obtain ⟨more,starts⟩ := starts
  have plain : ∀ part ∈ parts, slash ∉ part := fun p mem => (clean p mem).plain
  have last : (join parts).getLast? ≠ some slash := by
    obtain ⟨init,part,ended⟩ := (List.eq_nil_or_concat parts).resolve_left filled
    have here := clean part (by rw [ended]; simp)
    have whole : slash::join parts = slashed init ++ [slash] ++ part := by
      rw [slashedJoin filled]
      simp [ended,slashed]
    have same : (slash::join parts).getLast? = part.getLast? := by
      rw [whole,List.getLast?_append_of_ne_nil _ here.nonempty]
    rw [starts] at same ⊢
    rw [List.getLast?_cons_cons] at same
    rw [same]
    exact fun is => here.plain (List.mem_of_getLast? is)
  have pieces : cleanParts ((join parts ++ tail).splitOn slash) = parts := by
    rcases ends with rfl | rfl
    · rw [List.append_nil,splitJoin plain filled,cleanParts,cleanPartsKeep clean]
      rfl
    · have ended : join parts ++ [slash] = join (parts ++ [[]]) := by
        have whole : slash::(join parts ++ [slash]) = slash::join (parts ++ [[]]) := by
          rw [slashedJoin (by simp),← List.cons_append,slashedJoin filled]
          simp [slashed]
        exact List.tail_eq_of_cons_eq whole
      rw [ended,splitJoin (plainEnded plain) (by simp),cleanParts,List.foldl_append,cleanPartsKeep clean]
      rfl
  unfold cleanPathPreserveTrailing
  rw [pieces]
  rcases ends with rfl | rfl
  · simp [starts,other,starts ▸ last]
  · have closed : (b::(more ++ [slash])).getLast? = some slash := by
      rw [← List.cons_append,List.getLast?_concat]
    simp [starts,other,closed]

/- Where nothing needs decoding or cleaning, cleaning changes nothing; the empty path apart. -/
theorem cleanTidy {path} (filled : path ≠ []) (tidy : caddyPathNeedsDecodeOrClean path = false) :
    percent ∉ path ∧ cleanPathCaddy path true = path := by
  simp only [caddyPathNeedsDecodeOrClean,Bool.or_eq_false_iff] at tidy
  obtain ⟨⟨noEscape,single⟩,noDots⟩ := tidy
  have single : find [slash,slash] path = none := by simpa using single
  refine ⟨by simpa using noEscape,?_⟩
  have dots : ∀ part ∈ path.splitOn slash, part ≠ ascii "." ∧ part ≠ ascii ".." := by
    intro part mem
    simpa using List.any_eq_false.mp noDots part mem
  show cleanPathPreserveTrailing path = path
  by_cases first : path.head? = some slash
  · obtain ⟨rest,shape⟩ := List.head?_eq_some_iff.mp first
    have cut : path.splitOn slash = []::rest.splitOn slash := by
      rw [shape]
      exact splitSlash rest
    by_cases root : rest = []
    · rw [shape,root]
      decide
    · have next : rest.head? ≠ some slash := by
        intro twice
        obtain ⟨t,again⟩ := List.head?_eq_some_iff.mp twice
        exact findNone single [] t (by simp [shape,again])
      have inner : find [slash,slash] rest = none := by
        rw [shape,find] at single
        split at single
        · contradiction
        · exact Option.map_eq_none_iff.mp single
      obtain ⟨kept,tail,more,ends,same,all⟩ := singleSlashes root next inner
      have clean : ∀ part ∈ kept, Clean part := by
        intro part mem
        obtain ⟨nonempty,piece⟩ := all part mem
        have old := dots part (by rw [cut]; exact List.mem_cons_of_mem _ piece)
        exact ⟨nonempty,old.1,old.2,splitOnFree piece⟩
      obtain ⟨bare,trailing⟩ := cleanSlashed clean more
      have whole : path = slashed kept ++ tail := by
        rw [shape,same,← slashedJoin more]
        rfl
      rw [whole]
      rcases ends with rfl | rfl
      · simpa using bare
      · exact trailing
  · obtain ⟨kept,tail,more,ends,same,all⟩ := singleSlashes filled first single
    have clean : ∀ part ∈ kept, Clean part := by
      intro part mem
      obtain ⟨nonempty,piece⟩ := all part mem
      exact ⟨nonempty,(dots part piece).1,(dots part piece).2,splitOnFree piece⟩
    rw [same]
    exact cleanJoined clean more ends

theorem splitOnText {sep} (low : sep < 0x80) {s part} (text : validUtf8 s = true) (mem : part ∈ s.splitOn sep) :
    validUtf8 part = true := by
  generalize pieces : s.splitOn sep = l at mem
  induction l generalizing s with
  | nil => cases mem
  | cons first later ih =>
    rcases (splitOnCut pieces).2 with ⟨rfl,rfl⟩ | ⟨rest,same,tail⟩
    · cases List.mem_singleton.mp mem
      exact text
    · rw [same] at text
      rcases List.mem_cons.mp mem with rfl | old
      · exact (validUtf8Cut low text).1
      · exact ih (validUtf8Cut low text).2 tail.symm old

theorem cleanPartsMem {parts part} (mem : part ∈ cleanParts parts) : part ∈ parts := by
  have step : ∀ (parts before : List Bytes), part ∈ parts.foldl (fun out part =>
      if part = [] ∨ part = ascii "." then out
      else if part = ascii ".." then out.dropLast
      else out ++ [part]) before → part ∈ before ∨ part ∈ parts := by
    intro parts
    induction parts with
    | nil => exact fun before mem => .inl mem
    | cons next later ih =>
      intro before mem
      rcases ih _ mem with old | new
      · dsimp only at old
        split at old
        · exact .inl old
        · split at old
          · exact .inl (List.mem_of_mem_dropLast old)
          · rcases List.mem_append.mp old with old | here
            · exact .inl old
            · exact .inr (List.mem_cons.mpr (.inl (List.mem_singleton.mp here)))
      · exact .inr (List.mem_cons_of_mem _ new)
  exact (step parts [] mem).resolve_left List.not_mem_nil

theorem joinText {parts} (text : ∀ part ∈ parts, validUtf8 part = true) : validUtf8 (join parts) = true := by
  cases parts with
  | nil => rfl
  | cons part later =>
    have whole := slashedText text (rfl : validUtf8 [] = true)
    rw [List.append_nil,← slashedJoin (List.cons_ne_nil part later)] at whole
    exact validUtf8Rest (by decide : validUtf8 [slash] = true) whole

theorem eitherText {p : Prop} [Decidable p] {a b} (first : validUtf8 a = true) (second : validUtf8 b = true) :
    validUtf8 (if p then a else b) = true := by
  split
  · exact first
  · exact second

theorem cleanText {path} (text : validUtf8 path = true) : validUtf8 (cleanPathCaddy path true) = true := by
  have slashText : validUtf8 [slash] = true := by decide
  have dotText : validUtf8 (ascii ".") = true := by decide
  have kept : validUtf8 (join (cleanParts (path.splitOn slash))) = true :=
    joinText fun part mem => splitOnText (by decide) text (cleanPartsMem mem)
  have start := validUtf8Append (eitherText (p := (path.head? == some slash) = true) slashText (b := []) rfl) kept
  show validUtf8 (cleanPathPreserveTrailing path) = true
  exact eitherText (validUtf8Append (eitherText slashText (eitherText dotText start)) slashText)
    (eitherText slashText (eitherText dotText start))

def Cut (input : Bytes) (i : Nat) : Prop :=
  validUtf8 (input.take i) = true ∧ validUtf8 (input.drop i) = true

theorem cutAtLow {input i} {b} (text : validUtf8 input = true) (here : input[i]? = some b) (low : b < 0x80) :
    Cut input i ∧ Cut input (i + 1) := by
  obtain ⟨inside,same⟩ := List.getElem?_eq_some_iff.mp here
  have shape : input = input.take i ++ b::input.drop (i + 1) := by
    rw [← same,List.getElem_cons_drop,List.take_append_drop]
  have single : validUtf8 [b] = true := validUtf8Low (by simpa using low)
  have parts := validUtf8Cut low (shape ▸ text)
  have after : input.drop i = [b] ++ input.drop (i + 1) := by
    rw [← same]
    exact (List.getElem_cons_drop inside).symm
  have upTo : input.take (i + 1) = input.take i ++ [b] := by
    rw [List.take_add_one,here]
    rfl
  exact ⟨⟨parts.1,after ▸ validUtf8Append single parts.2⟩,⟨upTo ▸ validUtf8Append parts.1 single,parts.2⟩⟩

theorem sliceText {input i j} (first : Cut input i) (second : Cut input j) : validUtf8 (slice input i j) = true := by
  by_cases ordered : i ≤ j
  · have shape : input.take j = input.take i ++ slice input i j := by
      have front : (input.take j).take i = input.take i := by
        rw [List.take_take,Nat.min_eq_left ordered]
      rw [slice,← front,List.take_append_drop]
    exact validUtf8Rest first.1 (shape ▸ second.1)
  · rw [slice,List.drop_eq_nil_of_le (by simp; omega)]
    rfl

theorem positionFound {p : UInt8 → Bool} {s i j} (h : position p s i = some j) : ∃ b, s[j]? = some b ∧ p b = true := by
  obtain ⟨k,found,same⟩ := Option.map_eq_some_iff.mp h
  obtain ⟨inside,holds,-⟩ := List.findIdx?_eq_some_iff_getElem.mp found
  refine ⟨(s.drop i)[k],?_,holds⟩
  rw [← same,← List.getElem?_drop,List.getElem?_eq_getElem inside]

theorem placeholderEndFound {input fuel cursor end_} (h : placeholderEnd input fuel cursor = some end_) :
    input[end_]? = some closeBrace := by
  induction fuel generalizing cursor with
  | zero => cases h
  | succ fuel ih =>
    simp only [placeholderEnd,bind,Option.bind_eq_some_iff] at h
    obtain ⟨place,found,h⟩ := h
    split at h
    · exact ih h
    · cases Option.some.inj h
      obtain ⟨b,here,brace⟩ := positionFound found
      rw [here,eq_of_beq brace]

/- Everything is cut at braces and backslashes, so the expansion of a text is a text. -/
theorem expandText {resolve : Bytes → Option Bytes} {input} (text : validUtf8 input = true)
    (resolved : ∀ key value, resolve key = some value → validUtf8 value = true) :
    validUtf8 (expandCaddyPlaceholders resolve input) = true := by
  have loop : ∀ fuel last cursor out, Cut input last → validUtf8 out = true →
      validUtf8 (expandLoop resolve input fuel last cursor out) = true := by
    intro fuel
    induction fuel with
    | zero =>
      intro last cursor out cut valid
      exact validUtf8Append valid cut.2
    | succ fuel ih =>
      intro last cursor out cut valid
      rw [expandLoop]
      cases found : position (fun b => b == openBrace || b == closeBrace) input cursor with
      | none => exact validUtf8Append valid cut.2
      | some start =>
        obtain ⟨b,here,brace⟩ := positionFound found
        have low : b < 0x80 := by
          rcases Bool.or_eq_true_iff.mp brace with same | same <;> rw [eq_of_beq same] <;> decide
        have startCut := (cutAtLow text here low).1
        simp only
        split
        · rename_i escape
          simp only [escaped,Bool.and_eq_true] at escape
          have before := (cutAtLow text (eq_of_beq escape.2) (by decide)).1
          exact ih _ _ _ startCut (validUtf8Append valid (sliceText cut before))
        · split
          · exact ih _ _ _ cut valid
          · cases closed : placeholderEnd input (input.length + 1) (start + 1) with
            | none => exact validUtf8Append valid cut.2
            | some end_ =>
              have after := (cutAtLow text (placeholderEndFound closed) (by decide)).2
              refine ih _ _ _ after (validUtf8Append (validUtf8Append valid (sliceText cut startCut)) ?_)
              cases value : resolve (slice input (start + 1) end_) with
              | none => rfl
              | some found => exact resolved _ _ value
  exact loop _ _ _ _ ⟨rfl,text⟩ rfl

theorem decodeFree {path} (free : percent ∉ path) : decodeTriplets path = some path := by
  induction path with
  | nil => rfl
  | cons b rest ih =>
    rw [decodePlain (fun same => free (by rw [same]; exact List.mem_cons_self)),
      ih fun mem => free (List.mem_cons_of_mem _ mem)]
    rfl

theorem subjectIsCleaned {path} (text : validUtf8 path = true) (filled : path ≠ []) :
    pathRegexpSubject path = cleanedRequestPath path := by
  unfold pathRegexpSubject
  cases tidy : caddyPathNeedsDecodeOrClean path with
  | true => rfl
  | false =>
    obtain ⟨free,same⟩ := cleanTidy filled tidy
    have read : caddyPercentDecodePath path = some path := by
      simp [caddyPercentDecodePath,decodeFree free,text]
    simp [cleanedRequestPath,read,same]

theorem cleanedText {path subject} (h : cleanedRequestPath path = some subject) : validUtf8 subject = true := by
  obtain ⟨decoded,read,same⟩ := Option.map_eq_some_iff.mp h
  simp only [caddyPercentDecodePath,bind,Option.bind_eq_some_iff] at read
  obtain ⟨out,-,checked⟩ := read
  split at checked
  · rename_i valid
    cases Option.some.inj checked
    exact same ▸ cleanText valid
  · cases checked

theorem pathCondition {path} (text : validUtf8 path = true) (filled : path ≠ []) :
    pathRegexpCondition regex path = (cleanedRequestPath path).map fun subject =>
        decide (subject.length < generatedCap) && regex subject := by
  rw [pathRegexpCondition,subjectIsCleaned text filled]
  cases cleaned : cleanedRequestPath path with
  | none => rfl
  | some subject => exact bufferedMatchIs regex (cleanedText cleaned)

def PathInRange (regex : Bytes → Bool) (path : Bytes) : Prop :=
  (∀ subject, cleanedRequestPath path = some subject → regex subject = true →
    subject.length < generatedCap) ∧ (path = [] → regex [] = regex (ascii "."))

def ValueInRange (regex : Bytes → Bool) (value : Bytes) : Prop :=
  regex value = true → value.length < generatedCap

theorem valueExact {value} (text : validUtf8 value = true) :
    (bufferedMatch regex value = some true ↔ regex value = true) ↔ ValueInRange regex value := by
  rw [bufferedMatchIs regex text]
  simp only [Option.some.injEq,Bool.and_eq_true,decide_eq_true_eq]
  tauto

theorem pathExact {path} (text : validUtf8 path = true) :
    (pathRegexpCondition regex path = some true ↔
      ∃ subject, cleanedRequestPath path = some subject ∧ regex subject = true) ↔ PathInRange regex path := by
  by_cases given : path = []
  · subst given
    have cleaned : cleanedRequestPath [] = some (ascii ".") := by decide +kernel
    have condition : pathRegexpCondition regex [] = some (regex []) := by
      exact bufferedMatchIs regex (rfl : validUtf8 [] = true)
    simp only [PathInRange,cleaned,condition,Option.some.injEq,exists_eq_left',forall_eq',forall_const,
      ← Bool.eq_iff_iff]
    exact ⟨fun same => ⟨fun _ => by decide,same⟩,fun h => h.2⟩
  · rw [pathCondition regex text given]
    cases cleaned : cleanedRequestPath path with
    | none => simp [PathInRange,cleaned,given]
    | some subject =>
      simp only [PathInRange,cleaned,Option.map_some,Option.some.injEq,exists_eq_left',
        forall_eq',Bool.and_eq_true,decide_eq_true_eq]
      tauto

theorem regexConditionsExact (regex : Bytes → Bool) {path left : Bytes} {resolve : Bytes → Option Bytes}
    (pathText : validUtf8 path = true) (leftText : validUtf8 left = true)
    (resolved : ∀ key value, resolve key = some value → validUtf8 value = true) :
    ((pathRegexpCondition regex path = some true ↔
        ∃ subject, cleanedRequestPath path = some subject ∧ regex subject = true) ↔ PathInRange regex path) ∧
    ((expressionStringMatches regex resolve left = some true ↔ regex (expandCaddyPlaceholders resolve left) = true) ↔
      ValueInRange regex (expandCaddyPlaceholders resolve left)) :=
  ⟨pathExact regex pathText,valueExact regex (expandText leftText resolved)⟩

def secretPrefixed (path : Bytes) : Bool := (ascii "/secret/").isPrefixOf path

theorem shortPathMatched : PathInRange secretPrefixed (ascii "/secret/%61") ∧
    pathRegexpCondition secretPrefixed (ascii "/secret/%61") = some true ∧
    ((pathRegexpCondition secretPrefixed (ascii "/secret/%61") = some true ↔
        ∃ subject, cleanedRequestPath (ascii "/secret/%61") = some subject ∧ secretPrefixed subject = true) ↔
      PathInRange secretPrefixed (ascii "/secret/%61")) := by
  have text : validUtf8 (ascii "/secret/%61") = true := by decide +kernel
  have noKeys : ∀ key value : Bytes, (fun _ : Bytes => (none : Option Bytes)) key = some value →
      validUtf8 value = true := by simp
  have met := (regexConditionsExact secretPrefixed text (rfl : validUtf8 [] = true) noKeys).1
  refine ⟨⟨?_,by decide⟩,by decide +kernel,met⟩
  have cleaned : cleanedRequestPath (ascii "/secret/%61") = some (ascii "/secret/a") := by decide +kernel
  rw [cleaned]
  rintro subject same -
  cases Option.some.inj same
  decide

def longPath : Bytes := ascii "/secret/" ++ List.replicate 504 97

theorem longPathUnmatched : ¬ ((pathRegexpCondition secretPrefixed longPath = some true ↔
        ∃ subject, cleanedRequestPath longPath = some subject ∧ secretPrefixed subject = true)) ∧
    ¬ ((expressionStringMatches secretPrefixed (fun _ => some longPath) (ascii "\x7bpath\x7d") = some true ↔
        secretPrefixed (expandCaddyPlaceholders (fun _ => some longPath) (ascii "\x7bpath\x7d")) = true)) := by
  have unseen : pathRegexpCondition secretPrefixed longPath = some false := by decide +kernel
  have cleaned : cleanedRequestPath longPath = some longPath := by decide +kernel
  have expanded : expandCaddyPlaceholders (fun _ => some longPath) (ascii "\x7bpath\x7d") = longPath := by
    decide +kernel
  have hit : secretPrefixed longPath = true := by decide +kernel
  have missed : bufferedMatch secretPrefixed longPath = some false := by decide +kernel
  rw [unseen,cleaned,expressionStringMatches,expanded,hit,missed]
  simp [hit]

end ZeroServe.RegexMatch
