import ZeroServe.H1Headers

/-! Entity tags in If-None-Match and If-Match: the lists of the grammar, with blanks and empty elements, and the
server's scanner over the text of a value. -/
namespace ZeroServe.Conditions
open ByteText H1

def ifNoneMatchName : HeaderName := .ofAscii "if-none-match"
def ifMatchName : HeaderName := .ofAscii "if-match"

def etagByte (b : UInt8) : Bool := b == 0x21 || (0x23 ≤ b && b ≤ 0x7E) || 0x80 ≤ b

def closingQuote : Bytes → Option Nat
  | [] => none
  | b::rest =>
    if etagByte b then (closingQuote rest).map (· + 1)
    else if b = 34 then some 0 else none

def weakMark : Bytes := ascii "W/"

def scanEntityTag (value : Bytes) : Option (Bytes × Bytes) :=
  let value := strTrim value
  let start := if weakMark.isPrefixOf value then 2 else 0
  if value[start]? ≠ some 34 then none else
  (closingQuote (value.drop (start + 1))).map fun i =>
    (value.take (start + 1 + i + 1),value.drop (start + 1 + i + 1))

def stripWeak (tag : Bytes) : Bytes := if weakMark.isPrefixOf tag then tag.drop 2 else tag

def etagStrongMatch (candidate actual : Bytes) : Bool := candidate == actual && actual.head? == some 34
def etagWeakMatch (candidate actual : Bytes) : Bool := stripWeak candidate == stripWeak actual

def anyTag (accepts : Bytes → Bool) : Nat → Bytes → Bool
  | 0, _ => false
  | fuel+1, rest =>
    let rest := strTrim rest
    if rest = [] then false
    else if rest.head? = some 44 then anyTag accepts fuel rest.tail
    else if rest.head? = some 42 then true
    else
      match scanEntityTag rest with
      | none => false
      | some (candidate,after) => if accepts candidate then true else anyTag accepts fuel after

def ifNoneMatchMatchesResponse (headers : HeaderMap) (actualEtag : Bytes) : Bool :=
  match (headers.get ifNoneMatchName).bind HeaderValue.toStr with
  | none => false
  | some value =>
    if strTrim value = [42] then true
    else if actualEtag = [] then false
    else anyTag (etagWeakMatch · actualEtag) (value.length + 1) value

def ifMatchConditionResponse (headers : HeaderMap) (actualEtag : Bytes) : Option Bool :=
  match (headers.get ifMatchName).bind HeaderValue.toStr with
  | none => none
  | some value =>
    if strTrim value = [] then none
    else some (anyTag (etagStrongMatch · actualEtag) (value.length + 1) value)

structure EntityTag where
  weak : Bool
  text : Bytes
  valid : text.all etagByte = true
  deriving DecidableEq

def quoted (text : Bytes) : Bytes := 34::(text ++ [34])
def EntityTag.print (t : EntityTag) : Bytes := (if t.weak then weakMark else []) ++ quoted t.text

def Blank (s : Bytes) : Prop := ∀ b ∈ s, b = 32 ∨ b = 9
instance (s : Bytes) : Decidable (Blank s) := inferInstanceAs (Decidable (∀ b ∈ s, b = 32 ∨ b = 9))

inductive TagList : Bytes → List EntityTag → Prop where
  | blank {pad} (blank : Blank pad) : TagList pad []
  | last {pad after} (t : EntityTag) (before : Blank pad) (behind : Blank after) :
      TagList (pad ++ (t.print ++ after)) [t]
  | skip {pad rest tags} (before : Blank pad) (next : TagList rest tags) : TagList (pad ++ 44::rest) tags
  | tag {pad after rest tags} (t : EntityTag) (before : Blank pad) (behind : Blank after)
      (next : TagList rest tags) : TagList (pad ++ (t.print ++ (after ++ 44::rest))) (t::tags)

theorem blankWhite {pad} (blank : Blank pad) : ∀ b ∈ pad, asciiWhitespace b = true := by
  intro b mem
  rcases blank b mem with rfl | rfl <;> decide

theorem trimPad {pad} (blank : Blank pad) (rest : Bytes) : trimAscii (pad ++ rest) = trimAscii rest := by
  rw [trimAscii,trimAsciiStart,List.dropWhile_append_of_pos (blankWhite blank)]
  rfl

theorem trimSolid {a b middle rest} (first : asciiWhitespace a = false) (last : asciiWhitespace b = false) :
    trimAscii (a::(middle ++ b::rest)) = a::(middle ++ b::rest.rdropWhile asciiWhitespace) := by
  rw [trimAscii,trimAsciiStart,List.dropWhile_cons_of_neg (by simp [first]),← List.cons_append,
    rdropWhileBehind _ last]
  rfl

variable (t : EntityTag) (rest : Bytes)

theorem trimComma : trimAscii (44::rest) = 44::rest.rdropWhile asciiWhitespace := by
  exact rdropWhileSolid (by decide) rest

def EntityTag.mark (t : EntityTag) : Bytes := if t.weak then weakMark else []

theorem printThen : t.print ++ rest = t.mark ++ 34::(t.text ++ 34::rest) := by
  simp [EntityTag.print,EntityTag.mark,quoted]

theorem markStart :
    (if weakMark.isPrefixOf (t.mark ++ 34::rest) then 2 else 0) = t.mark.length := by
  cases weak : t.weak with
  | false => rw [EntityTag.mark,weak]; rfl
  | true => rw [EntityTag.mark,weak]; rfl

theorem printHead : (t.print ++ rest).head? = some (if t.weak then 87 else 34) := by
  cases weak : t.weak with
  | false => rw [printThen,EntityTag.mark,weak]; rfl
  | true => rw [printThen,EntityTag.mark,weak]; rfl

theorem trimPrint :
    trimAscii (t.print ++ rest) = t.print ++ rest.rdropWhile asciiWhitespace := by
  rw [printThen,printThen,EntityTag.mark]
  cases t.weak with
  | false => exact trimSolid (by decide) (by decide)
  | true =>
    change trimAscii (87::((47::34::t.text) ++ 34::rest)) = 87::((47::34::t.text) ++ 34::rest.rdropWhile asciiWhitespace)
    exact trimSolid (by decide) (by decide)

theorem closingQuoteFinds {text} (valid : text.all etagByte = true) (rest : Bytes) :
    closingQuote (text ++ 34::rest) = some text.length := by
  induction text with
  | nil => rfl
  | cons b text ih =>
    rw [List.all_cons,Bool.and_eq_true] at valid
    rw [List.cons_append,closingQuote,if_pos valid.1,ih valid.2]
    rfl

theorem scanPrinted {rest} (plain : ∀ b ∈ t.print ++ rest, plainByte b = true) :
    scanEntityTag (t.print ++ rest) = some (t.print,rest.rdropWhile asciiWhitespace) := by
  rw [scanEntityTag,strTrimPlain plain,trimPrint]
  generalize rest.rdropWhile asciiWhitespace = behind
  have size : t.mark.length + 1 + t.text.length + 1 = t.print.length := by
    have whole := congrArg List.length (printThen t [])
    simp only [List.length_append,List.length_cons,List.length_nil] at whole
    omega
  have opened : (t.print ++ behind)[t.mark.length]? = some 34 := by
    rw [printThen,List.getElem?_append_right le_rfl,Nat.sub_self]
    rfl
  have inside : (t.print ++ behind).drop (t.mark.length + 1) = t.text ++ 34::behind := by
    rw [printThen,← List.drop_drop,List.drop_left]
    rfl
  have start : (if weakMark.isPrefixOf (t.print ++ behind) then 2 else 0) = t.mark.length := by
    rw [printThen,markStart]
  simp only [start,opened,ne_eq,not_true_eq_false,if_false,inside,closingQuoteFinds t.valid,Option.map_some,size,
    List.take_left,List.drop_left]

section
variable {accepts : Bytes → Bool}

theorem anyTagBlank (fuel : Nat) {z} (none : strTrim z = []) : anyTag accepts fuel z = false := by
  cases fuel with
  | zero => rfl
  | succ fuel => simp [anyTag,none]

def Finds (accepts : Bytes → Bool) (value : Bytes) (found : Bool) : Prop :=
  ∀ z fuel, (∀ b ∈ z, plainByte b = true) → trimAscii z = trimAscii value → z.length < fuel →
    anyTag accepts fuel z = found

theorem trimPlain {z t} (plain : ∀ b ∈ z, plainByte b = true) (trimmed : trimAscii z = t) :
    strTrim z = t ∧ (∀ b ∈ t, plainByte b = true) ∧ t.length ≤ z.length := by
  have part := trimAsciiSublist z
  rw [trimmed] at part
  exact ⟨(strTrimPlain plain).trans trimmed,fun b mem => plain b (part.subset mem),part.length_le⟩

theorem findsBlank {pad} (blank : Blank pad) : Finds accepts pad false := by
  intro z fuel plain same _
  apply anyTagBlank
  have none : trimAscii pad = [] := by
    have whole := trimPad blank []
    rw [List.append_nil] at whole
    exact whole
  exact (trimPlain plain (same.trans none)).1

theorem findsComma {pad rest found} (before : Blank pad) (next : Finds accepts rest found) :
    Finds accepts (pad ++ 44::rest) found := by
  intro z fuel plain same enough
  obtain ⟨trimmed,plain',shorter⟩ := trimPlain plain (same.trans ((trimPad before _).trans (trimComma rest)))
  cases fuel with
  | zero => cases enough
  | succ fuel =>
    rw [anyTag,trimmed]
    simp only [List.tail_cons]
    exact next _ fuel (fun b mem => plain' b (List.mem_cons_of_mem _ mem)) (trimAsciiEnd rest)
      (by simp only [List.length_cons] at shorter; omega)

theorem findsTag {pad rest found} (t : EntityTag) (before : Blank pad) (next : Finds accepts rest found) :
    Finds accepts (pad ++ (t.print ++ rest)) (accepts t.print || found) := by
  intro z fuel plain same enough
  obtain ⟨trimmed,plain',shorter⟩ := trimPlain plain (same.trans ((trimPad before _).trans (trimPrint t rest)))
  cases fuel with
  | zero => cases enough
  | succ fuel =>
    have head := printHead t (rest.rdropWhile asciiWhitespace)
    have filled : t.print ++ rest.rdropWhile asciiWhitespace ≠ [] := by
      intro none
      rw [none] at head
      cases head
    rw [anyTag,trimmed]
    simp only [if_neg filled,head,scanPrinted t plain',List.rdropWhile_idempotent]
    rw [if_neg (by split <;> decide),if_neg (by split <;> decide)]
    have later := next (rest.rdropWhile asciiWhitespace) fuel
      (fun b mem => plain' b (List.mem_append_right _ mem)) (trimAsciiEnd rest) (by
        have filled : 0 < t.print.length := by simp [EntityTag.print,quoted]
        simp only [List.length_append] at shorter
        omega)
    rw [later]
    cases accepts t.print <;> rfl

theorem tagListFound (accepts : Bytes → Bool) {value tags} (list : TagList value tags) :
    Finds accepts value (tags.any fun t => accepts t.print) := by
  induction list with
  | blank blank => exact findsBlank blank
  | last t before behind =>
    exact findsTag t before (findsBlank behind)
  | skip before next ih => exact findsComma before ih
  | tag t before behind next ih =>
    exact findsTag t before (findsComma behind ih)

end

theorem tagListStar {value tags} (list : TagList value tags) (plain : ∀ b ∈ value, plainByte b = true) :
    strTrim value ≠ [42] := by
  intro star
  have found := tagListFound (fun _ => false) list value (value.length + 1) plain rfl (by omega)
  rw [anyTag,star] at found
  simp at found

theorem stripPrint : stripWeak t.print = quoted t.text := by
  rw [EntityTag.print]
  cases t.weak with
  | false => rfl
  | true => rfl

theorem weakMatches (s t : EntityTag) : etagWeakMatch s.print t.print = decide (s.text = t.text) := by
  rw [etagWeakMatch,stripPrint,stripPrint,quoted,quoted,Bool.eq_iff_iff]
  simp

theorem printInjective {s t : EntityTag} (same : s.print = t.print) : s = t := by
  have texts := congrArg stripWeak same
  rw [stripPrint,stripPrint,quoted,quoted,List.cons_inj_right,List.append_left_inj] at texts
  have marks := congrArg List.length same
  obtain ⟨weak,text,_⟩ := s
  obtain ⟨weak',text',_⟩ := t
  cases texts
  have kinds : weak = weak' := by
    cases weak <;> cases weak' <;> simp [EntityTag.print,weakMark,ascii] at marks ⊢ <;> omega
  cases kinds
  rfl

theorem strongMatches (s t : EntityTag) : etagStrongMatch s.print t.print = decide (t.weak = false ∧ s = t) := by
  have head := printHead t []
  rw [List.append_nil] at head
  rw [etagStrongMatch,head,Bool.eq_iff_iff]
  simp only [Bool.and_eq_true,beq_iff_eq,decide_eq_true_eq]
  constructor
  · rintro ⟨same,strong⟩
    refine ⟨?_,printInjective same⟩
    cases weak : t.weak with
    | false => rfl
    | true => rw [weak] at strong; cases strong
  · rintro ⟨strong,rfl⟩
    exact ⟨rfl,by rw [strong]; rfl⟩

def PlainText (v : HeaderValue) : Prop := ∀ b ∈ v.bytes, b < 128
instance (v : HeaderValue) : Decidable (PlainText v) := inferInstanceAs (Decidable (∀ b ∈ v.bytes, b < 128))

theorem toStrPlain (v : HeaderValue) : v.toStr = some v.bytes ∧ PlainText v ∨ v.toStr = none ∧ ¬ PlainText v := by
  have seen : ∀ b : UInt8, valueByte b = true → (visibleByte b = true ↔ b < 128) := by decide +kernel
  have all : v.bytes.all visibleByte = true ↔ PlainText v := by
    rw [List.all_eq_true]
    exact forall₂_congr fun b mem => seen b (valueBytes v b mem)
  rw [HeaderValue.toStr,← all]
  split
  · rename_i visible
    exact .inl ⟨rfl,visible⟩
  · rename_i hidden
    exact .inr ⟨rfl,hidden⟩

theorem plainBytes {v} (plain : PlainText v) : ∀ b ∈ v.bytes, plainByte b = true := by
  have known : ∀ b : UInt8, valueByte b = true → b < 128 → plainByte b = true := by decide +kernel
  exact fun b mem => known b (valueBytes v b mem) (plain b mem)

theorem notBlank {v} (plain : PlainText v) (given : ¬ Blank v.bytes) : strTrim v.bytes ≠ [] := by
  have solid : ∀ b : UInt8, valueByte b = true → ¬ (b = 32 ∨ b = 9) → asciiWhitespace b = false := by decide +kernel
  obtain ⟨b,mem,other⟩ : ∃ b ∈ v.bytes, ¬ (b = 32 ∨ b = 9) := by
    by_contra none
    push Not at none
    exact given fun b mem => by simpa [imp_iff_not_or] using none b mem
  rw [strTrimPlain (plainBytes plain)]
  exact List.ne_nil_of_mem (memTrimAscii mem (solid b (valueBytes v b mem) other))

theorem tagConditionsExact (t : EntityTag) {v : HeaderValue} {tags : List EntityTag} (list : TagList v.bytes tags)
    (headers : HeaderMap) : (headers.get ifNoneMatchName = some v →
      ((ifNoneMatchMatchesResponse headers t.print = true ↔ ∃ s ∈ tags, s.text = t.text) ↔
        (PlainText v ∨ ∀ s ∈ tags, s.text ≠ t.text))) ∧ (headers.get ifMatchName = some v → ¬ Blank v.bytes →
      (ifMatchConditionResponse headers t.print = some (decide (t.weak = false ∧ t ∈ tags)) ↔ PlainText v)) := by
  have filled : t.print ≠ [] := by simp [EntityTag.print,quoted]
  rcases toStrPlain v with ⟨read,plain⟩ | ⟨unread,hidden⟩
  · have found (accepts : Bytes → Bool) :=
      tagListFound accepts list v.bytes (v.bytes.length + 1) (plainBytes plain) rfl (by omega)
    constructor
    · intro field
      rw [ifNoneMatchMatchesResponse,field,Option.bind_some,read]
      simp only [if_neg (tagListStar list (plainBytes plain)),if_neg filled,found,weakMatches]
      simp [plain]
    · intro field blank
      rw [ifMatchConditionResponse,field,Option.bind_some,read]
      simp only [if_neg (notBlank plain blank),found,strongMatches]
      refine iff_of_true (congrArg some ?_) plain
      rw [Bool.eq_iff_iff]
      simp [and_comm]
  · constructor
    · intro field
      rw [ifNoneMatchMatchesResponse,field,Option.bind_some,unread]
      simp [hidden]
    · intro field _
      rw [ifMatchConditionResponse,field,Option.bind_some,unread]
      simp [hidden]

def weakPair : EntityTag := ⟨true,ascii "a,b",Eq.refl true⟩
def strongTag : EntityTag := ⟨false,ascii "c",Eq.refl true⟩
def latinTag : EntityTag := ⟨false,[0xE9],Eq.refl true⟩

theorem listOfTwo (s t : EntityTag) : TagList (s.print ++ 44::32::t.print) [s,t] := by
  have none : Blank [] := by simp [Blank]
  have one : Blank [32] := by simp [Blank]
  have list : TagList _ [s,t] := .tag s none none (.last t one none)
  simpa using list

theorem twoTagsValid : (weakPair.print ++ 44::32::strongTag.print).all valueByte = true := by decide +kernel
theorem latinTagsValid : (latinTag.print ++ 44::32::strongTag.print).all valueByte = true := by decide +kernel

def twoTags : HeaderValue := ⟨weakPair.print ++ 44::32::strongTag.print,twoTagsValid⟩
def latinTags : HeaderValue := ⟨latinTag.print ++ 44::32::strongTag.print,latinTagsValid⟩

theorem twoTagsMatched : (ifNoneMatchMatchesResponse ⟨[(ifNoneMatchName,twoTags)]⟩ weakPair.print = true ↔
      ∃ s ∈ [weakPair,strongTag], s.text = weakPair.text) ∧
    ifMatchConditionResponse ⟨[(ifMatchName,twoTags)]⟩ strongTag.print =
      some (decide (strongTag.weak = false ∧ strongTag ∈ [weakPair,strongTag])) := by
  have list : TagList twoTags.bytes [weakPair,strongTag] := listOfTwo weakPair strongTag
  have plain : PlainText twoTags := by decide +kernel
  have given : ¬ Blank twoTags.bytes := by decide +kernel
  exact ⟨((tagConditionsExact weakPair list ⟨[(ifNoneMatchName,twoTags)]⟩).1 (by decide +kernel)).mpr (.inl plain),
    ((tagConditionsExact strongTag list ⟨[(ifMatchName,twoTags)]⟩).2 (by decide +kernel) given).mpr plain⟩

theorem latinTagsUnread : TagList latinTags.bytes [latinTag,strongTag] ∧
    ifNoneMatchMatchesResponse ⟨[(ifNoneMatchName,latinTags)]⟩ strongTag.print = false ∧
    ifMatchConditionResponse ⟨[(ifMatchName,latinTags)]⟩ strongTag.print = none :=
  ⟨listOfTwo latinTag strongTag,by decide +kernel,by decide +kernel⟩

end ZeroServe.Conditions
