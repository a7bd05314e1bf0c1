import ZeroServe.ByteText

/-! The path of a request: how it is normalised before a lookup, and the subject that path
matchers are evaluated on. -/
namespace ZeroServe.RequestPath
open ByteText

def slash : UInt8 := 47
def percent : UInt8 := 37

def hexVal (b : UInt8) : Option UInt8 :=
  if 48 ≤ b ∧ b ≤ 57 then some (b - 48)
  else if 97 ≤ b ∧ b ≤ 102 then some (b - 97 + 10)
  else if 65 ≤ b ∧ b ≤ 70 then some (b - 65 + 10)
  else none

def percentDecode : Bytes → Option Bytes
  | b::h::l::later =>
    if b = percent then do
      let hi ← hexVal h
      let lo ← hexVal l
      let out ← percentDecode later
      some ((hi <<< 4 ||| lo)::out)
    else (percentDecode (h::l::later)).map (b::·)
  | b::rest => (percentDecode rest).map (b::·)
  | [] => some []

structure NormalizedPath where
  relative : Bytes
  encodedRelative : Bytes
  dirHint : Bool
  deriving DecidableEq

def NormalizedPath.encodedPath (n : NormalizedPath) : Bytes :=
  if n.encodedRelative = [] then [slash] else slash::n.encodedRelative

def NormalizedPath.encodedPathWithDirHint (n : NormalizedPath) : Bytes :=
  if n.dirHint && n.encodedPath != [slash] then n.encodedPath ++ [slash] else n.encodedPath

def join (parts : List Bytes) : Bytes := [slash].intercalate parts

def normalizeParts : List Bytes → List Bytes → List Bytes → Option (List Bytes × List Bytes)
  | [],decoded,raw => some (decoded,raw)
  | part::later,decodedComponents,rawComponents =>
    if part = [] then normalizeParts later decodedComponents rawComponents else do
    let decoded ← percentDecode part
    if decoded = ascii "." then normalizeParts later decodedComponents rawComponents
    else if decoded = ascii ".." then
      if decodedComponents = [] || rawComponents = [] then none
      else normalizeParts later decodedComponents.dropLast rawComponents.dropLast
    else if slash ∈ decoded then none
    else if validUtf8 decoded then
      normalizeParts later (decodedComponents ++ [decoded]) (rawComponents ++ [part])
    else none

def normalizeRequestPath (raw : Bytes) : Option NormalizedPath := do
  let normalizedRaw := if raw = [] then [slash] else raw
  let dirHint := normalizedRaw == [slash] ||
    (normalizedRaw.getLast? == some slash && 1 < normalizedRaw.length)
  let (decoded,components) ← normalizeParts (normalizedRaw.splitOn slash) [] []
  some ⟨join decoded,join components,dirHint⟩

def hexValue : UInt8 → Option UInt8 := hexVal

def decodeTriplets : Bytes → Option Bytes
  | [] => some []
  | b::rest =>
    if b = percent then
      match rest with
      | h::l::later => do
        let hi ← hexValue h
        let lo ← hexValue l
        let out ← decodeTriplets later
        some ((hi <<< 4 ||| lo)::out)
      | _ => none
    else (decodeTriplets rest).map (b::·)

def caddyPercentDecodePath (input : Bytes) : Option Bytes := do
  let out ← decodeTriplets input
  if validUtf8 out then some out else none

def cleanParts (parts : List Bytes) : List Bytes :=
  parts.foldl (fun out part =>
    if part = [] ∨ part = ascii "." then out
    else if part = ascii ".." then out.dropLast
    else out ++ [part]) []

def cleanPathPreserveTrailing (path : Bytes) : Bytes :=
  let trailingSlash := path.getLast? == some slash
  let absolute := path.head? == some slash
  let out := (if absolute then [slash] else []) ++ join (cleanParts (path.splitOn slash))
  let out := if out = [] then ascii "." else out
  let out := if absolute && out == ascii "." then [slash] else out
  if out != [slash] && trailingSlash then out ++ [slash] else out

def tmp : Bytes := [0xF4,0x8F,0xBF,0xBF]

def expandSlashes : Bool → Bytes → Bytes
  | _,[] => []
  | previousSlash,b::rest =>
    (if b = slash && previousSlash then tmp else []) ++ b::expandSlashes (b == slash) rest

def removeTmp : Nat → Bytes → Bytes
  | 0,s => s
  | _,[] => []
  | fuel+1,b::rest =>
    if tmp.isPrefixOf (b::rest) then removeTmp fuel ((b::rest).drop 4) else b::removeTmp fuel rest

def cleanPathPreservingDoubleSlashes (path : Bytes) : Bytes :=
  let cleaned := cleanPathPreserveTrailing (expandSlashes false path)
  removeTmp cleaned.length cleaned

def cleanPathCaddy (path : Bytes) (collapseSlashes : Bool) : Bytes :=
  if ! collapseSlashes then cleanPathPreservingDoubleSlashes path else cleanPathPreserveTrailing path

def caddyCleanedPathSubject (encodedPath : Bytes) (mergeSlashes : Bool) : Option Bytes :=
  (caddyPercentDecodePath encodedPath).map fun decoded => cleanPathCaddy (lower decoded) mergeSlashes

def NormalizedPath.served (n : NormalizedPath) : Bytes :=
  slash::(lower n.relative ++ if n.dirHint = true ∧ n.relative ≠ [] then [slash] else [])

def wholeEscapes : Bytes → Bool
  | [] => true
  | b::rest =>
    if b = percent then
      match rest with
      | _::_::later => wholeEscapes later
      | _ => false
    else wholeEscapes rest

def NormalizedPath.WholeEscapes (n : NormalizedPath) : Prop :=
  ∀ part ∈ n.encodedRelative.splitOn slash, wholeEscapes part = true

theorem decodePlain {b} (plain : b ≠ percent) (rest : Bytes) :
    decodeTriplets (b::rest) = (decodeTriplets rest).map (b::·) := by
  rw [decodeTriplets.eq_def]
  exact if_neg plain

theorem decodeEscape (h l : UInt8) (later : Bytes) :
    decodeTriplets (percent::h::l::later) = (hexVal h).bind fun hi => (hexVal l).bind fun lo =>
      (decodeTriplets later).map ((hi <<< 4 ||| lo)::·) := by
  simp only [Option.map_eq_bind]
  rfl

theorem wholePlain {b} (plain : b ≠ percent) (rest : Bytes) : wholeEscapes (b::rest) = wholeEscapes rest := by
  rw [wholeEscapes.eq_def]
  exact if_neg plain

theorem wholeEscape (h l : UInt8) (later : Bytes) : wholeEscapes (percent::h::l::later) = wholeEscapes later := by
  rw [wholeEscapes,if_pos rfl]

theorem decodeCut {part rest} (short : part.length < 2) (ends : rest = [] ∨ rest.head? = some slash) :
    decodeTriplets (percent::(part ++ rest)) = none := by
  have cut : ∀ tail : Bytes, decodeTriplets (percent::slash::tail) = none := by
    intro tail
    cases tail with
    | nil => rfl
    | cons c later => rw [decodeEscape]; rfl
  match part,rest,short,ends with
  | [],[],_,_ => rfl
  | [_],[],_,_ => rfl
  | [],c::tail,_,.inr first =>
    cases Option.some.inj first
    exact cut tail
  | [b],c::tail,_,.inr first =>
    cases Option.some.inj first
    rw [List.cons_append,List.nil_append,decodeEscape]
    cases hexVal b <;> rfl

theorem decodeSegment {part decoded rest} (read : percentDecode part = some decoded)
    (ends : rest = [] ∨ rest.head? = some slash) : decodeTriplets (part ++ rest) =
      if wholeEscapes part then (decodeTriplets rest).map (decoded ++ ·) else none := by
  fun_induction percentDecode part generalizing decoded with
  | case1 h l later ih =>
    simp only [bind,Option.bind_eq_some_iff] at read
    obtain ⟨hi,high,lo,low,out,inner,same⟩ := read
    cases Option.some.inj same
    simp only [List.cons_append,decodeEscape,high,low,ih inner,wholeEscape]
    split
    · cases decodeTriplets rest <;> rfl
    · rfl
  | case2 b h l later other ih =>
    obtain ⟨out,inner,same⟩ := Option.map_eq_some_iff.mp read
    cases same
    rw [List.cons_append,decodePlain other,ih inner,wholePlain other]
    split
    · rw [Option.map_map]
      rfl
    · rfl
  | case3 b part shape ih =>
    obtain ⟨out,inner,same⟩ := Option.map_eq_some_iff.mp read
    cases same
    by_cases escape : b = percent
    · subst escape
      have short : part.length < 2 := by
        rcases part with _ | ⟨h,_ | ⟨l,later⟩⟩
        · simp
        · simp
        · exact (shape h l later rfl).elim
      have cut : wholeEscapes (percent::part) = false := by
        rcases part with _ | ⟨h,_ | ⟨l,later⟩⟩
        · rfl
        · rfl
        · exact (shape h l later rfl).elim
      rw [List.cons_append,decodeCut short ends,cut]
      rfl
    · rw [List.cons_append,decodePlain escape,ih inner,wholePlain escape]
      split
      · rw [Option.map_map]
        rfl
      · rfl
  | case4 =>
    cases read
    simp [wholeEscapes]

structure Kept (raw decoded : Bytes) : Prop where
  rawPlain : slash ∉ raw
  rawSome : raw ≠ []
  read : percentDecode raw = some decoded
  notDot : decoded ≠ ascii "."
  notDots : decoded ≠ ascii ".."
  plain : slash ∉ decoded
  text : validUtf8 decoded = true

theorem percentDecodeSome {part decoded} (read : percentDecode part = some decoded) (nonempty : part ≠ []) :
    decoded ≠ [] := by
  unfold percentDecode at read
  split at read
  · split at read
    · simp only [bind,Option.bind_eq_some_iff] at read
      obtain ⟨_,_,_,_,_,_,same⟩ := read
      cases same
      simp
    · obtain ⟨_,_,same⟩ := Option.map_eq_some_iff.mp read
      cases same
      simp
  · obtain ⟨_,_,same⟩ := Option.map_eq_some_iff.mp read
    cases same
    simp
  · contradiction

theorem normalizePartsKept {parts decoded raw decoded' raw'} (kept : List (Bytes × Bytes))
    (plain : ∀ part ∈ parts, slash ∉ part) (all : ∀ k ∈ kept, Kept k.1 k.2) (rawIs : raw = kept.map Prod.fst)
    (decodedIs : decoded = kept.map Prod.snd) (h : normalizeParts parts decoded raw = some (decoded',raw')) :
    ∃ kept' : List (Bytes × Bytes), (∀ k ∈ kept', Kept k.1 k.2) ∧
      raw' = kept'.map Prod.fst ∧ decoded' = kept'.map Prod.snd := by
  induction parts generalizing decoded raw kept with
  | nil =>
    cases h
    exact ⟨kept,all,rawIs,decodedIs⟩
  | cons part later ih =>
    have rest : ∀ part ∈ later, slash ∉ part := fun p mem => plain p (List.mem_cons_of_mem _ mem)
    unfold normalizeParts at h
    split at h
    · exact ih kept rest all rawIs decodedIs h
    · rename_i nonempty
      simp only [bind,Option.bind_eq_some_iff] at h
      obtain ⟨segment,read,h⟩ := h
      split at h
      · exact ih kept rest all rawIs decodedIs h
      · rename_i notDot
        split at h
        · split at h
          · cases h
          · refine ih kept.dropLast rest
              (fun k mem => all k (List.mem_of_mem_dropLast mem)) ?_ ?_ h
            · rw [rawIs,List.map_dropLast]
            · rw [decodedIs,List.map_dropLast]
        · rename_i notDots
          split at h
          · cases h
          · rename_i noSlash
            split at h
            · rename_i text
              have here : Kept part segment :=
                ⟨plain part List.mem_cons_self,nonempty,read,notDot,notDots,noSlash,text⟩
              refine ih (kept ++ [(part,segment)]) rest ?_ ?_ ?_ h
              · intro k mem
                rcases List.mem_append.mp mem with old | new
                · exact all k old
                · cases List.mem_singleton.mp new
                  exact here
              · simp [rawIs]
              · simp [decodedIs]
            · cases h

theorem normalizedKept {raw n} (h : normalizeRequestPath raw = some n) :
    ∃ kept : List (Bytes × Bytes), (∀ k ∈ kept, Kept k.1 k.2) ∧
      n.encodedRelative = join (kept.map Prod.fst) ∧ n.relative = join (kept.map Prod.snd) := by
  simp only [normalizeRequestPath,bind,Option.bind_eq_some_iff] at h
  obtain ⟨⟨decoded,components⟩,parts,same⟩ := h
  obtain ⟨kept,all,rawIs,decodedIs⟩ := normalizePartsKept [] (fun _ => splitOnFree)
    (by simp) rfl rfl parts
  cases same
  exact ⟨kept,all,by rw [rawIs],by rw [decodedIs]⟩

def slashed (parts : List Bytes) : Bytes := parts.flatMap (slash::·)

theorem slashedJoin {parts} (some : parts ≠ []) : slash::join parts = slashed parts := by
  induction parts with
  | nil => contradiction
  | cons part later ih =>
    cases later with
    | nil => simp [join,slashed]
    | cons next others =>
      have inner := ih (by simp)
      simp only [join,List.intercalate,List.intersperse_cons_cons] at inner ⊢
      simp only [List.flatten_cons,slashed,List.flatMap_cons,List.cons_append,List.nil_append] at inner ⊢
      rw [inner]

theorem splitSlash (s : Bytes) : (slash::s).splitOn slash = []::s.splitOn slash := by
  have cut : ([] ++ slash::s).splitOn slash = [].splitOn slash ++ s.splitOn slash :=
    List.splitOn_append_cons_self [] s
  exact cut

theorem plainEnded {parts : List Bytes} (plain : ∀ part ∈ parts, slash ∉ part) : ∀ part ∈ parts ++ [[]], slash ∉ part := by
  intro p mem
  rcases List.mem_append.mp mem with old | new
  · exact plain p old
  · cases List.mem_singleton.mp new
    exact List.not_mem_nil

theorem slashedSplit {parts} (plain : ∀ part ∈ parts, slash ∉ part) : (slashed parts).splitOn slash = []::parts := by
  induction parts with
  | nil => rfl
  | cons part later ih =>
    have here := plain part List.mem_cons_self
    have rest := ih fun p mem => plain p (List.mem_cons_of_mem _ mem)
    have first : (slashed (part::later)).splitOn slash = []::(part ++ slashed later).splitOn slash :=
      splitSlash _
    rw [first]
    congr 1
    cases later with
    | nil => simpa [slashed] using List.splitOn_eq_singleton here
    | cons next others =>
      have inner := List.tail_eq_of_cons_eq rest
      exact (List.splitOn_append_cons_self_of_not_mem here _).trans (congrArg _ inner)

theorem decodeSlashed {kept : List (Bytes × Bytes)} {tail : Bytes} (all : ∀ k ∈ kept, Kept k.1 k.2)
    (ends : tail = [] ∨ tail.head? = some slash) : decodeTriplets (slashed (kept.map Prod.fst) ++ tail) =
      if ∀ k ∈ kept, wholeEscapes k.1 = true then
        (decodeTriplets tail).map (slashed (kept.map Prod.snd) ++ ·) else none := by
  induction kept with
  | nil => simp [slashed]
  | cons k later ih =>
    have here := all k List.mem_cons_self
    have rest := ih fun k mem => all k (List.mem_cons_of_mem _ mem)
    have next : slashed (later.map Prod.fst) ++ tail = [] ∨
        (slashed (later.map Prod.fst) ++ tail).head? = some slash := by
      cases later with
      | nil => exact ends
      | cons k' others => exact .inr rfl
    have shape : slashed ((k::later).map Prod.fst) ++ tail =
        slash::(k.1 ++ (slashed (later.map Prod.fst) ++ tail)) := by
      simp [slashed]
    rw [shape,decodePlain (by decide),decodeSegment here.read next,rest]
    simp only [List.forall_mem_cons]
    cases wholeEscapes k.1 with
    | false => simp
    | true =>
      simp only [if_true,true_and]
      split
      · rw [Option.map_map,Option.map_map]
        congr 1
        funext out
        simp [slashed]
      · rfl

theorem slashedText {parts tail} (text : ∀ part ∈ parts, validUtf8 part = true) (last : validUtf8 tail = true) :
    validUtf8 (slashed parts ++ tail) = true := by
  induction parts with
  | nil => exact last
  | cons part later ih =>
    have rest := ih fun p mem => text p (List.mem_cons_of_mem _ mem)
    have shape : slashed (part::later) ++ tail = [slash] ++ (part ++ (slashed later ++ tail)) := by
      simp [slashed]
    rw [shape]
    exact validUtf8Append (by decide) (validUtf8Append (text part List.mem_cons_self) rest)

structure Clean (part : Bytes) : Prop where
  nonempty : part ≠ []
  notDot : part ≠ ascii "."
  notDots : part ≠ ascii ".."
  plain : slash ∉ part

theorem cleanPartsKeep {parts} (clean : ∀ part ∈ parts, Clean part) (before : List Bytes) : parts.foldl (fun out part =>
      if part = [] ∨ part = ascii "." then out
      else if part = ascii ".." then out.dropLast
      else out ++ [part]) before = before ++ parts := by
  induction parts generalizing before with
  | nil => simp
  | cons part later ih =>
    have here := clean part List.mem_cons_self
    rw [List.foldl_cons,if_neg (by simp [here.nonempty,here.notDot]),if_neg here.notDots,
      ih fun p mem => clean p (List.mem_cons_of_mem _ mem)]
    simp

theorem cleanSlashed {parts} (clean : ∀ part ∈ parts, Clean part) (filled : parts ≠ []) :
    cleanPathPreserveTrailing (slashed parts) = slashed parts ∧
    cleanPathPreserveTrailing (slashed parts ++ [slash]) = slashed parts ++ [slash] := by
  have plain : ∀ part ∈ parts, slash ∉ part := fun p mem => (clean p mem).plain
  obtain ⟨part,later,shape⟩ := List.exists_cons_of_ne_nil filled
  have bare : cleanParts ((slashed parts).splitOn slash) = parts := by
    rw [slashedSplit plain,cleanParts,List.foldl_cons,cleanPartsKeep clean]
    rfl
  have ended : slashed parts ++ [slash] = slashed (parts ++ [[]]) := by simp [slashed]
  have trailing : cleanParts ((slashed parts ++ [slash]).splitOn slash) = parts := by
    rw [ended,slashedSplit (plainEnded plain),cleanParts,List.foldl_cons,List.foldl_append, cleanPartsKeep clean]
    rfl
  have starts : (slashed parts).head? = some slash := by rw [shape]; rfl
  have long : slashed parts ≠ [slash] := by
    have nonempty := (clean part (by rw [shape]; exact List.mem_cons_self)).nonempty
    rw [shape]
    simp [slashed,nonempty]
  have notDot : slashed parts ≠ ascii "." := by
    rw [shape]
    simp [slashed,slash,ascii]
  have notEmpty : slashed parts ≠ [] := by
    rw [shape]
    simp [slashed]
  have last : (slashed parts).getLast? ≠ some slash := by
    obtain ⟨init,part,ended⟩ := (List.eq_nil_or_concat parts).resolve_left filled
    have here := clean part (by rw [ended]; simp)
    have shape : slashed parts = slashed init ++ [slash] ++ part := by simp [ended,slashed]
    rw [shape,List.getLast?_append_of_ne_nil _ here.nonempty]
    exact fun is => here.plain (List.mem_of_getLast? is)
  constructor
  · unfold cleanPathPreserveTrailing
    simp only [starts,bare,BEq.rfl,if_true,List.cons_append,List.nil_append,slashedJoin filled, notEmpty]
    simp [notDot,last]
  · have starts' : (slashed parts ++ [slash]).head? = some slash := by
      rw [List.head?_append,starts]
      rfl
    unfold cleanPathPreserveTrailing
    simp only [starts',trailing,BEq.rfl,if_true,List.cons_append,List.nil_append,slashedJoin filled, notEmpty]
    simp [notDot,long]

theorem lowerSlashed (parts : List Bytes) : lower (slashed parts) = slashed (parts.map lower) := by
  induction parts with
  | nil => rfl
  | cons part later ih =>
    have shape : slashed (part::later) = slash::(part ++ slashed later) := by simp [slashed]
    have lowered : lower (slash::(part ++ slashed later)) =
        slash::(lower part ++ lower (slashed later)) := by
      simp [lower,lowerByte,slash]
    rw [shape,lowered,ih]
    simp [slashed]

theorem lowerByteSlash {b} : lowerByte b = slash ↔ b = slash := by
  revert b; decide +kernel

theorem lowerBytePercent {b} : lowerByte b = percent ↔ b = percent := by
  revert b; decide +kernel

theorem lowerByteDot {b} : lowerByte b = 46 ↔ b = 46 := by
  revert b; decide +kernel

theorem hexValLower (b : UInt8) : hexVal (lowerByte b) = hexVal b := by
  revert b; decide +kernel

theorem lowerDots {s} (n : Nat) : lower s = List.replicate n 46 ↔ s = List.replicate n 46 := by
  simp only [List.eq_replicate_iff,lower,List.length_map,List.mem_map,forall_exists_index,and_imp,
    forall_apply_eq_imp_iff₂,lowerByteDot]

theorem keptClean {raw decoded} (kept : Kept raw decoded) : Clean (lower decoded) where
  nonempty := by simpa [lower] using percentDecodeSome kept.read kept.rawSome
  notDot := fun is => kept.notDot ((lowerDots 1).mp is)
  notDots := fun is => kept.notDots ((lowerDots 2).mp is)
  plain := by
    intro mem
    obtain ⟨b,inside,is⟩ := List.mem_map.mp mem
    rw [lowerByteSlash.mp is] at inside
    exact kept.plain inside

theorem decodeLower (s : Bytes) : (decodeTriplets (lower s)).map lower = (decodeTriplets s).map lower := by
  have more : ∀ {c d : UInt8} {a b : Option Bytes}, a.map lower = b.map lower →
      lowerByte c = lowerByte d → (a.map (c::·)).map lower = (b.map (d::·)).map lower := by
    intro c d a b same first
    cases a <;> cases b <;> simp_all [lower]
  induction s using decodeTriplets.induct with
  | case1 => rfl
  | case2 h l later ih =>
    have shape : lower (percent::h::l::later) = percent::lowerByte h::lowerByte l::lower later := rfl
    rw [shape,decodeEscape,decodeEscape,hexValLower,hexValLower]
    cases hexVal h with
    | none => rfl
    | some hi =>
      cases hexVal l with
      | none => rfl
      | some lo => exact more ih rfl
  | case3 rest cut =>
    rcases rest with _ | ⟨h,_ | ⟨l,later⟩⟩
    · rfl
    · rfl
    · exact (cut h l later rfl).elim
  | case4 b rest other ih =>
    have shape : lower (b::rest) = lowerByte b::lower rest := rfl
    rw [shape,decodePlain (mt lowerBytePercent.mp other),decodePlain other]
    exact more ih (lowerByteIdem b)

theorem subjectLower (s : Bytes) (mergeSlashes : Bool) :
    caddyCleanedPathSubject (lower s) mergeSlashes = caddyCleanedPathSubject s mergeSlashes := by
  have same := decodeLower s
  unfold caddyCleanedPathSubject caddyPercentDecodePath
  cases first : decodeTriplets (lower s) <;> cases second : decodeTriplets s
  · rfl
  · simp [first,second] at same
  · simp [first,second] at same
  · rename_i a b
    simp only [first,second,Option.map_some,Option.some.injEq] at same
    have text : validUtf8 a = validUtf8 b := by rw [← validUtf8Lower a,same,validUtf8Lower]
    simp only [bind,Option.bind_some,text]
    split
    · rw [Option.map_some,Option.map_some,same]
    · rfl

theorem splitJoin {parts} (plain : ∀ part ∈ parts, slash ∉ part) (filled : parts ≠ []) :
    (join parts).splitOn slash = parts := List.splitOn_intercalate slash plain filled

theorem joinEmpty {parts} (nonempty : ∀ part ∈ parts, part ≠ []) : join parts = [] ↔ parts = [] := by
  cases parts with
  | nil => simp [join]
  | cons part later =>
    have here := nonempty part List.mem_cons_self
    have shape := slashedJoin (List.cons_ne_nil part later)
    simp only [reduceCtorEq,iff_false]
    intro empty
    rw [empty] at shape
    simp [slashed,here] at shape

theorem subjectKept {kept : List (Bytes × Bytes)} {tail : Bytes} (all : ∀ k ∈ kept, Kept k.1 k.2)
    (filled : kept ≠ []) (ends : tail = [] ∨ tail = [slash]) :
    caddyCleanedPathSubject (slashed (kept.map Prod.fst) ++ tail) true =
      if ∀ k ∈ kept, wholeEscapes k.1 = true then
        some (slashed ((kept.map Prod.snd).map lower) ++ tail) else none := by
  have text : ∀ part ∈ kept.map Prod.snd, validUtf8 part = true := by
    simp only [List.mem_map,forall_exists_index,and_imp,forall_apply_eq_imp_iff₂]
    exact fun k mem => (all k mem).text
  have clean : ∀ part ∈ (kept.map Prod.snd).map lower, Clean part := by
    simp only [List.mem_map,forall_exists_index,and_imp,forall_apply_eq_imp_iff₂]
    exact fun k mem => keptClean (all k mem)
  obtain ⟨bare,trailing⟩ := cleanSlashed clean (by simpa using filled)
  unfold caddyCleanedPathSubject caddyPercentDecodePath
  rcases ends with rfl | rfl
  · have valid := slashedText text (rfl : validUtf8 [] = true)
    rw [decodeSlashed all (.inl rfl)]
    split
    · simp only [decodeTriplets,Option.map_some,bind,Option.bind_some,valid]
      simpa [cleanPathCaddy,lowerSlashed] using bare
    · rfl
  · have valid := slashedText text (by decide : validUtf8 [slash] = true)
    have kept_ : decodeTriplets [slash] = some [slash] := by decide
    have lowered : lower (slashed (kept.map Prod.snd) ++ [slash]) =
        slashed ((kept.map Prod.snd).map lower) ++ [slash] := by
      rw [← lowerSlashed]
      simp [lower,lowerByte,slash]
    rw [decodeSlashed all (.inr rfl)]
    split
    · simp only [kept_,Option.map_some,bind,Option.bind_some,valid,if_true,lowered,cleanPathCaddy,
        Bool.not_true,Bool.false_eq_true,if_false,trailing]
    · rfl

theorem subjectServed {raw n} (h : normalizeRequestPath raw = some n) :
    (n.WholeEscapes → caddyCleanedPathSubject n.encodedPathWithDirHint true = some n.served) ∧
    (¬n.WholeEscapes → caddyCleanedPathSubject n.encodedPathWithDirHint true = none) := by
  obtain ⟨kept,all,encoded,relative⟩ := normalizedKept h
  by_cases bare : kept = []
  · subst bare
    have empty : n.encodedRelative = [] := encoded
    have emptyRelative : n.relative = [] := relative
    have path : n.encodedPathWithDirHint = [slash] := by
      simp [NormalizedPath.encodedPathWithDirHint,NormalizedPath.encodedPath,empty]
    have served : n.served = [slash] := by simp [NormalizedPath.served,emptyRelative,lower]
    have whole : n.WholeEscapes := by simp [NormalizedPath.WholeEscapes,empty,wholeEscapes]
    rw [path,served]
    exact ⟨fun _ => by decide +kernel,fun bad => absurd whole bad⟩
  · have someRaw : kept.map Prod.fst ≠ [] := by simpa using bare
    have someDecoded : kept.map Prod.snd ≠ [] := by simpa using bare
    have rawPlain : ∀ part ∈ kept.map Prod.fst, slash ∉ part := by
      simp only [List.mem_map,forall_exists_index,and_imp,forall_apply_eq_imp_iff₂]
      exact fun k mem => (all k mem).rawPlain
    have encodedSome : n.encodedRelative ≠ [] := by
      rw [encoded]
      refine mt (joinEmpty ?_).mp someRaw
      simp only [List.mem_map,forall_exists_index,and_imp,forall_apply_eq_imp_iff₂]
      exact fun k mem => (all k mem).rawSome
    have relativeSome : n.relative ≠ [] := by
      rw [relative]
      refine mt (joinEmpty ?_).mp someDecoded
      simp only [List.mem_map,forall_exists_index,and_imp,forall_apply_eq_imp_iff₂]
      exact fun k mem => percentDecodeSome (all k mem).read (all k mem).rawSome
    have whole : n.WholeEscapes ↔ ∀ k ∈ kept, wholeEscapes k.1 = true := by
      rw [NormalizedPath.WholeEscapes,encoded,splitJoin rawPlain someRaw]
      simp
    have path : n.encodedPathWithDirHint =
        slashed (kept.map Prod.fst) ++ if n.dirHint then [slash] else [] := by
      rw [← slashedJoin someRaw,← encoded]
      unfold NormalizedPath.encodedPathWithDirHint NormalizedPath.encodedPath
      cases n.dirHint <;> simp [encodedSome]
    have served : n.served =
        slashed ((kept.map Prod.snd).map lower) ++ if n.dirHint then [slash] else [] := by
      rw [← lowerSlashed,← slashedJoin someDecoded,← relative]
      unfold NormalizedPath.served
      cases n.dirHint <;> simp [relativeSome,lower,lowerByte,slash]
    have ends : (if n.dirHint then [slash] else []) = [] ∨
        (if n.dirHint then [slash] else []) = [slash] := by
      cases n.dirHint <;> simp
    rw [path,served,subjectKept all bare ends,whole]
    exact ⟨fun good => if_pos good,fun bad => if_neg bad⟩

end ZeroServe.RequestPath
