import ZeroServe.AwsQuery

/-! The signed headers, read back from the text that is signed and from what is sent beside the signature: on the
header lines, sorted whole, in the list below them, sorted by name, and published in the order of the script. -/
namespace ZeroServe.Aws
open ByteText CharText StableSort RequestPath

theorem markedLe {mark : UInt8} {a b v w : Bytes} (before : a ++ mark::v ≤ b ++ mark::w)
    (apart : ∀ c rest, a = b ++ c::rest → mark < c) : a ≤ b := by
  induction a generalizing b with
  | nil => exact List.nil_le b
  | cons x a ih =>
    cases b with
    | nil =>
      have greater := apart x a rfl
      rcases List.cons_le_cons_iff.mp before with less | ⟨same,-⟩
      · exact absurd greater (UInt8.lt_asymm less)
      · exact absurd greater (by rw [same]; exact UInt8.lt_irrefl mark)
    | cons y b =>
      rcases List.cons_le_cons_iff.mp before with less | ⟨rfl,behind⟩
      · exact List.cons_le_cons_iff.mpr (.inl less)
      · refine List.cons_le_cons_iff.mpr (.inr ⟨rfl,ih behind fun c rest same => ?_⟩)
        exact apart c rest (by rw [same]; rfl)

theorem markedEarly {mark c} (less : c < mark) (a v w : Bytes) : a ++ c::w < a ++ mark::v := by
  induction a with
  | nil => exact List.cons_lt_cons_iff.mpr (.inl less)
  | cons x a ih => exact List.cons_lt_cons_iff.mpr (.inr ⟨rfl,ih⟩)

theorem shorterLess (a : Bytes) (c : UInt8) (rest : Bytes) : a < a ++ c::rest := by
  induction a with
  | nil => exact List.nil_lt_cons c rest
  | cons x a ih => exact List.cons_lt_cons_iff.mpr (.inr ⟨rfl,ih⟩)

theorem sortBytesPerm (l : List Bytes) : (sortBytes l).Perm l := List.perm_insertionSort _ l
theorem sortBytesSorted (l : List Bytes) : (sortBytes l).Pairwise (· ≤ ·) := List.pairwise_insertionSort _ l

theorem sortBytesUnique {l m} (perm : l.Perm m) (sorted : l.Pairwise (· ≤ ·)) : l = sortBytes m :=
  (perm.trans (sortBytesPerm m).symm).eq_of_pairwise' sorted (sortBytesSorted m)

section

def lineName (line : Bytes) : Bytes := line.takeWhile (· ≠ colon)

theorem lineNameFree (line : Bytes) : colon ∉ lineName line := by
  intro mem
  simpa using List.mem_takeWhile_imp mem

theorem lineNamed {name} (free : colon ∉ name) (value : Bytes) : lineName (name ++ colon::value) = name := by
  rw [lineName,List.takeWhile_append_of_pos,List.takeWhile_cons_of_neg,List.append_nil]
  · simp
  · intro b mem
    rw [decide_eq_true_eq]
    rintro rfl
    exact free mem

/- The lines give the names back, and none of them parts a name from a longer one too early. -/
structure Separable (names : List Bytes) : Prop where
  free : ∀ name ∈ names, colon ∉ name
  apart : ∀ name ∈ names, ∀ c rest, name ++ c::rest ∈ names → colon < c

variable {lib : Primitives} {headers : List (Str × Str)}

theorem linesNamed (separable : Separable (headers.map (headerName lib))) :
    (headers.map (headerLine lib)).map lineName = headers.map (headerName lib) := by
  rw [List.map_map]
  exact List.map_congr_left fun h mem => lineNamed (separable.free _ (List.mem_map_of_mem mem)) _

theorem linesFree
    (same : (sortBytes (headers.map (headerLine lib))).map lineName = sortBytes (headers.map (headerName lib))) {name}
    (mem : name ∈ headers.map (headerName lib)) : colon ∉ name := by
  have sorted := (sortBytesPerm _).mem_iff.mpr mem
  rw [← same,List.mem_map] at sorted
  obtain ⟨line,-,rfl⟩ := sorted
  exact lineNameFree line

theorem linesApart
    (same : (sortBytes (headers.map (headerLine lib))).map lineName = sortBytes (headers.map (headerName lib)))
    {name c rest} (short : name ∈ headers.map (headerName lib))
    (long : name ++ c::rest ∈ headers.map (headerName lib)) : colon < c := by
  have noMark := linesFree same long
  by_contra early
  have less : c < colon := by
    rcases UInt8.lt_or_eq_of_le (UInt8.not_lt.mp early) with less | rfl
    · exact less
    · exact absurd (by simp) noMark
  obtain ⟨h,memH,nameH⟩ := List.mem_map.mp short
  obtain ⟨k,memK,nameK⟩ := List.mem_map.mp long
  have lineH : headerLine lib h = name ++ colon::utf8 (trim h.2) := by rw [headerLine,nameH]
  have lineK : headerLine lib k = name ++ c::(rest ++ colon::utf8 (trim k.2)) := by
    rw [headerLine,nameK,List.append_assoc]
    rfl
  have before : headerLine lib k < headerLine lib h := by
    rw [lineH,lineK]
    exact markedEarly less _ _ _
  have insideH := (sortBytesPerm _).mem_iff.mpr (List.mem_map_of_mem (f := headerLine lib) memH)
  have insideK := (sortBytesPerm _).mem_iff.mpr (List.mem_map_of_mem (f := headerLine lib) memK)
  have different : headerLine lib k ≠ headerLine lib h := by
    intro equal
    rw [equal] at before
    exact List.lt_irrefl _ before
  rcases pairListed insideK insideH different with kept | swapped
  · -- the longer name then comes first in the list sorted by name
    have names := kept.map lineName
    rw [same] at names
    have ordered := (sortBytesSorted _).sublist names
    have read : lineName (headerLine lib k) = name ++ c::rest := by
      rw [headerLine,nameK]
      exact lineNamed noMark _
    rw [List.map_cons,List.map_cons,read,lineH,lineNamed (linesFree same short)] at ordered
    have le : name ++ c::rest ≤ name := by simpa using ordered
    exact List.not_lt.mpr le (shorterLess name c rest)
  · have ordered := (sortBytesSorted _).sublist swapped
    have le : headerLine lib h ≤ headerLine lib k := by simpa using ordered
    exact List.not_lt.mpr le before

theorem linesExact : (sortBytes (headers.map (headerLine lib))).map lineName = sortBytes
    (headers.map (headerName lib)) ↔ Separable (headers.map (headerName lib)) := by
  constructor
  · intro same
    exact ⟨fun name mem => linesFree same mem,fun name short c rest long => linesApart same short long⟩
  · intro separable
    apply sortBytesUnique
    · have perm := (sortBytesPerm (headers.map (headerLine lib))).map lineName
      rwa [linesNamed separable] at perm
    · rw [List.pairwise_map]
      refine (sortBytesSorted _).imp_of_mem ?_
      intro line next mem memNext before
      rw [(sortBytesPerm _).mem_iff,List.mem_map] at mem memNext
      obtain ⟨h,memH,rfl⟩ := mem
      obtain ⟨k,memK,rfl⟩ := memNext
      have shortH := List.mem_map_of_mem (f := headerName lib) memH
      have shortK := List.mem_map_of_mem (f := headerName lib) memK
      rw [headerLine,headerLine] at before ⊢
      rw [lineNamed (separable.free _ shortH),lineNamed (separable.free _ shortK)]
      refine markedLe before fun c rest same => ?_
      exact separable.apart _ shortK c rest (by rwa [← same])

end

/- A canonical request read by its lines: three of them, the header lines up to an empty one, and behind it the
signed headers. -/
def headerBlock (text : Bytes) : List Bytes := ((text.splitOn newline).drop 3).takeWhile (· ≠ [])
def signedLine (text : Bytes) : Bytes := ((((text.splitOn newline).drop 3).dropWhile (· ≠ [])).drop 1).headD []
def listedNames (list : Bytes) : List Bytes := if list = [] then [] else list.splitOn semicolon

structure Consistent (text published : Bytes) : Prop where
  lines : (headerBlock text).map lineName = listedNames (signedLine text)
  sorted : (listedNames (signedLine text)).Pairwise (· ≤ ·)
  same : signedLine text = published

theorem joinCons (sep : UInt8) (a : Bytes) (l : List Bytes) :
    [sep].intercalate (a::l) = a ++ l.flatMap (sep::·) := by
  induction l generalizing a with
  | nil => simp
  | cons b l ih =>
    rw [List.intercalate_cons_cons,ih,List.flatMap_cons]
    simp

theorem joinMem {sep b : UInt8} {l : List Bytes} {part} (mem : part ∈ l) (inner : b ∈ part) :
    b ∈ [sep].intercalate l := by
  cases l with
  | nil => cases mem
  | cons a l =>
    rw [joinCons,List.mem_append]
    rcases List.mem_cons.mp mem with rfl | later
    · exact .inl inner
    · exact .inr (List.mem_flatMap.mpr ⟨part,later,List.mem_cons_of_mem _ inner⟩)

theorem textLines {r : CanonicalRequest} (front : ∀ part ∈ [r.method,r.uri,r.query], newline ∉ part)
    (lines : ∀ line ∈ r.headerLines, newline ∉ line) (names : ∀ name ∈ r.signedHeaders, newline ∉ name) :
    r.text.splitOn newline = [r.method,r.uri,r.query] ++ ((if r.headerLines = [] then [[]] else r.headerLines) ++
      ([]::[semicolon].intercalate r.signedHeaders::r.bodyHash.splitOn newline)) := by
  have list : newline ∉ [semicolon].intercalate r.signedHeaders := by
    intro mem
    rcases memIntercalate mem with sign | ⟨name,listed,inner⟩
    · exact absurd sign (by decide)
    · exact names name listed inner
  obtain ⟨h,hs,hash⟩ := List.exists_cons_of_ne_nil (List.splitOn_ne_nil newline r.bodyHash)
  have body : h ++ hs.flatMap (newline::·) = r.bodyHash := by
    rw [← joinCons,← hash,List.intercalate_splitOn]
  have whole : r.text = [newline].intercalate ([r.method,r.uri,r.query] ++
      ((if r.headerLines = [] then [[]] else r.headerLines) ++
        ([]::[semicolon].intercalate r.signedHeaders::r.bodyHash.splitOn newline))) := by
    rw [hash,List.cons_append,joinCons,CanonicalRequest.text,← body]
    cases r.headerLines with
    | nil => simp
    | cons l ls => simp [joinCons]
  rw [whole]
  refine List.splitOn_intercalate newline (fun part mem => ?_) (by simp)
  simp only [List.mem_append,List.mem_cons] at mem
  rcases mem with ahead | block | rfl | rfl | last
  · exact front part (by simpa using ahead)
  · split at block
    · rw [List.mem_singleton.mp block]
      simp
    · exact lines part block
  · simp
  · exact list
  · exact splitOnFree last

theorem textRead {r : CanonicalRequest} (front : ∀ part ∈ [r.method,r.uri,r.query], newline ∉ part)
    (lines : ∀ line ∈ r.headerLines, newline ∉ line ∧ line ≠ []) (names : ∀ name ∈ r.signedHeaders, newline ∉ name) :
    headerBlock r.text = r.headerLines ∧
      signedLine r.text = if r.headerLines = [] then [] else [semicolon].intercalate r.signedHeaders := by
  rw [headerBlock,signedLine,textLines front (fun line mem => (lines line mem).1) names]
  have past (l : List Bytes) : ([r.method,r.uri,r.query] ++ l).drop 3 = l := rfl
  rw [past]
  by_cases bare : r.headerLines = []
  · simp [bare]
  · have filled : ∀ line ∈ r.headerLines, decide (line ≠ []) = true := fun line mem => by simpa using (lines line mem).2
    rw [if_neg bare,if_neg bare,List.takeWhile_append_of_pos filled,List.dropWhile_append_of_pos filled]
    simp

/- The list of the names gives them back. -/
structure Listable (names : List Bytes) : Prop where
  free : ∀ name ∈ names, semicolon ∉ name
  filled : names ≠ [[]]

theorem listedBack {names} (listable : Listable names) : listedNames ([semicolon].intercalate names) = names := by
  cases names with
  | nil => rfl
  | cons a l =>
    have split := List.splitOn_intercalate semicolon listable.free (List.cons_ne_nil a l)
    rw [listedNames,if_neg,split]
    intro empty
    rw [empty] at split
    exact listable.filled split.symm

variable {lib : Primitives} {headers : List (Str × Str)} {list : List Bytes}

/- Names that hold a separator cannot be read back from both places alike. -/
theorem listedSeparable (given : headers ≠ []) (perm : list.Perm (headers.map (headerName lib)))
    (same : (sortBytes (headers.map (headerLine lib))).map lineName = listedNames ([semicolon].intercalate list)) :
    Listable list := by
  have noColon : ∀ name ∈ list, colon ∉ name := by
    intro name mem inner
    have there := @joinMem semicolon _ _ _ mem inner
    have whole : [semicolon].intercalate (([semicolon].intercalate list).splitOn semicolon) =
        [semicolon].intercalate list := List.intercalate_splitOn semicolon
    rw [← whole] at there
    rcases memIntercalate there with sign | ⟨piece,split,mark⟩
    · exact absurd sign (by decide)
    · have listed : piece ∈ listedNames ([semicolon].intercalate list) := by
        rw [listedNames,if_neg (List.ne_nil_of_mem (joinMem mem inner))]
        exact split
      rw [← same,List.mem_map] at listed
      obtain ⟨line,-,rfl⟩ := listed
      exact lineNameFree line mark
  constructor
  · intro name mem sign
    obtain ⟨h,sent,rfl⟩ := List.mem_map.mp (perm.mem_iff.mp mem)
    have line := (sortBytesPerm _).mem_iff.mpr (List.mem_map_of_mem (f := headerLine lib) sent)
    have named := List.mem_map_of_mem (f := lineName) line
    rw [same,headerLine,lineNamed (noColon _ mem),listedNames] at named
    split at named
    · cases named
    · exact splitOnFree named sign
  · rintro rfl
    have lost : (sortBytes (headers.map (headerLine lib))).map lineName = [] := same
    have length := (sortBytesPerm (headers.map (headerLine lib))).length_eq
    rw [List.map_eq_nil_iff.mp lost,List.length_map] at length
    exact given (List.length_eq_zero_iff.mp length.symm)

theorem utf8Join (names : List Str) : utf8 (joinNames names) = [semicolon].intercalate (names.map utf8) := by
  induction names with
  | nil => rfl
  | cons name names ih =>
    cases names with
    | nil =>
      rw [joinNames,List.map_singleton,List.intercalate_singleton,List.intercalate_singleton]
    | cons next names =>
      rw [joinNames] at ih ⊢
      rw [List.intercalate_cons_cons,utf8Append,utf8Append,ih,List.map_cons,List.map_cons,List.map_cons,List.intercalate_cons_cons]
      rfl

variable (lib : Primitives) (headers : List (Str × Str))

theorem scriptNames : (scriptHeaders lib headers).map (headerName lib) = headers.map (headerName lib) := by
  rw [scriptHeaders,List.map_map]
  refine List.map_congr_left fun h _ => ?_
  rw [Function.comp_apply,headerName,headerName,lib.lowercaseAgain]

theorem scriptLines : (scriptHeaders lib headers).map (headerLine lib) = headers.map (headerLine lib) := by
  rw [scriptHeaders,List.map_map]
  refine List.map_congr_left fun h _ => ?_
  rw [Function.comp_apply,headerLine,headerLine,headerName,headerName,lib.lowercaseAgain]

theorem scriptTexts : ((scriptHeaders lib headers).map Prod.fst).map utf8 = headers.map (headerName lib) := by
  rw [scriptHeaders,List.map_map,List.map_map]
  rfl

theorem scriptEmpty : scriptHeaders lib headers = [] ↔ headers = [] := List.map_eq_nil_iff

/- No method, name or value of the request holds a line feed. -/
structure OneLine (method : Str) : Prop where
  method : newline ∉ utf8 (lib.uppercase method)
  lines : ∀ h ∈ headers, newline ∉ headerLine lib h

variable {lib headers}

theorem encodedLine (s : Str) (encodeSlash : Bool) : newline ∉ uriEncode s encodeSlash :=
  fun mem => absurd (encodedByte mem) (by decide)

theorem writtenLine (p : Str × Str) : newline ∉ written (encodePair p) := by
  rw [written,List.mem_append,List.mem_cons]
  rintro (name | sign | value)
  · exact encodedLine p.1 true name
  · exact absurd sign (by decide)
  · exact encodedLine p.2 true value

theorem canonicalLine (query : Str) : newline ∉ canonicalQueryString query := by
  intro mem
  rcases memIntercalate mem with sign | ⟨part,listed,inner⟩
  · exact absurd sign (by decide)
  · obtain ⟨q,sorted,rfl⟩ := List.mem_map.mp listed
    obtain ⟨p,-,rfl⟩ := List.mem_map.mp ((List.perm_insertionSort pairLe _).mem_iff.mp sorted)
    split at inner
    · exact encodedLine p.1 true inner
    · exact writtenLine p inner

theorem presignedLine (params : List (Str × Str)) : newline ∉ presignedQuery params := by
  intro mem
  rcases memIntercalate mem with sign | ⟨part,listed,inner⟩
  · exact absurd sign (by decide)
  · obtain ⟨p,-,rfl⟩ := List.mem_map.mp listed
    exact writtenLine p inner

/- What the text of either request says, where `list` is its list of signed headers. -/
theorem requestRead {r : CanonicalRequest} {method} (oneLine : OneLine lib headers method)
    (front : r.method = utf8 (lib.uppercase method) ∧ newline ∉ r.uri ∧ newline ∉ r.query)
    (lines : r.headerLines = sortBytes (headers.map (headerLine lib)))
    (perm : list.Perm (headers.map (headerName lib))) (names : headers ≠ [] → r.signedHeaders = list)
    (host : headers = [] → ∀ name ∈ r.signedHeaders, newline ∉ name) :
    headerBlock r.text = sortBytes (headers.map (headerLine lib)) ∧
      signedLine r.text = if headers = [] then [] else [semicolon].intercalate list := by
  have each : ∀ line ∈ r.headerLines, newline ∉ line ∧ line ≠ [] := by
    intro line mem
    rw [lines] at mem
    obtain ⟨h,given,rfl⟩ := List.mem_map.mp ((sortBytesPerm _).mem_iff.mp mem)
    exact ⟨oneLine.lines h given,by simp [headerLine]⟩
  have free : ∀ name ∈ r.signedHeaders, newline ∉ name := by
    intro name mem
    by_cases bare : headers = []
    · exact host bare name mem
    · rw [names bare] at mem
      obtain ⟨h,given,rfl⟩ := List.mem_map.mp (perm.mem_iff.mp mem)
      exact fun inner => oneLine.lines h given (List.mem_append_left _ inner)
  have ahead : ∀ part ∈ [r.method,r.uri,r.query], newline ∉ part := by
    simp only [List.forall_mem_cons,front,oneLine.method]
    simp
  obtain ⟨block,line⟩ := textRead ahead each free
  refine ⟨block.trans lines,line.trans ?_⟩
  have empty : r.headerLines = [] ↔ headers = [] := by
    rw [lines,← List.length_eq_zero_iff,(sortBytesPerm _).length_eq,List.length_map,List.length_eq_zero_iff]
  by_cases bare : headers = []
  · rw [if_pos (empty.mpr bare),if_pos bare]
  · rw [if_neg (mt empty.mp bare),if_neg bare,names bare]

/- Names that both places give back alike, passed in the order of their lower-case spelling. -/
structure Spelled (names : List Bytes) : Prop where
  separable : Separable names
  listable : Listable names
  sorted : names.Pairwise (· ≤ ·)

theorem authorizedConsistent (method path : Str) (query : Option Str) (bodyHash : Str)
    (oneLine : OneLine lib headers method) :
    Consistent (buildCanonicalRequest lib method path query (scriptHeaders lib headers) bodyHash).text
        (utf8 (authorizedNames (scriptHeaders lib headers))) ↔
      Spelled (headers.map (headerName lib)) := by
  have sorted := sortBytesPerm (headers.map (headerName lib))
  have asked : newline ∉ query.elim [] canonicalQueryString := by
    cases query with
    | none => simp
    | some query => exact canonicalLine query
  obtain ⟨block,line⟩ := requestRead
    (r := buildCanonicalRequest lib method path query (scriptHeaders lib headers) bodyHash) oneLine
    ⟨rfl,encodedLine _ _,asked⟩ (congrArg sortBytes (scriptLines lib headers)) sorted
    (fun _ => congrArg sortBytes (scriptNames lib headers)) (by rintro rfl name mem; cases mem)
  generalize (buildCanonicalRequest lib method path query (scriptHeaders lib headers) bodyHash).text = text at block line ⊢
  rw [authorizedNames,utf8Join,scriptTexts]
  by_cases bare : headers = []
  · subst bare
    exact iff_of_true ⟨by rw [block,line]; rfl,by rw [line]; exact .nil,line⟩ ⟨⟨by simp,by simp⟩,⟨by simp,by simp⟩,.nil⟩
  · rw [if_neg bare] at line
    constructor
    · rintro ⟨lines,-,same⟩
      rw [block,line] at lines
      have listable := listedSeparable bare sorted lines
      rw [listedBack listable] at lines
      have free : ∀ name ∈ headers.map (headerName lib), semicolon ∉ name :=
        fun name mem => listable.free name (sorted.mem_iff.mpr mem)
      have kept := joinInjective listable.free free sorted.length_eq (line.symm.trans same)
      refine ⟨linesExact.mp lines,kept ▸ listable,kept ▸ sortBytesSorted _⟩
    · rintro ⟨separable,listable,listed⟩
      have kept := sortBytesUnique (List.Perm.refl _) listed
      have lines := linesExact.mpr separable
      rw [← kept] at line lines
      exact ⟨by rw [block,line,lines,listedBack listable],by rw [line,listedBack listable]; exact listed,line⟩

def queryParameter (name query : Bytes) : Option Bytes :=
  ((query.splitOn ampersand).filterMap (splitOnce equals)).lookup name

theorem lookupOnly {l : List (Bytes × Bytes)} {k v} (mem : (k,v) ∈ l) (only : ∀ p ∈ l, p.1 = k → p.2 = v) :
    l.lookup k = some v := by
  induction l with
  | nil => cases mem
  | cons p l ih =>
    rw [List.lookup_cons]
    cases same : k == p.1 with
    | true => rw [only p List.mem_cons_self (eq_of_beq same).symm]
    | false =>
      have other : p ≠ (k,v) := by
        rintro rfl
        simp at same
      exact ih ((List.mem_cons.mp mem).resolve_left other.symm) fun q later => only q (List.mem_cons_of_mem _ later)

def signedHeadersKey : Bytes := ascii "X-Amz-SignedHeaders"

theorem querySigned {accessKey region service : Str} {existingQuery : Option Str} (headers : List (Str × Str))
    (datetime : DateTime) (expiresSecs : Nat)
    (own : ∀ p ∈ existingQuery.elim [] queryPairs, uriEncode p.1 true ≠ signedHeadersKey) :
    queryParameter signedHeadersKey (presignedQuery (presignedParams accessKey region service existingQuery headers
      datetime expiresSecs)) = some (uriEncode (joinNames (presignedNames headers)) true) := by
  have key : uriEncode (str "X-Amz-SignedHeaders") true = signedHeadersKey := by decide +kernel
  have others : ∀ name ∈ [str "X-Amz-Algorithm",str "X-Amz-Credential",str "X-Amz-Date",str "X-Amz-Expires"],
      uriEncode name true ≠ signedHeadersKey := by decide +kernel
  generalize given : presignedParams accessKey region service existingQuery headers datetime expiresSecs = params
  have sorted := List.perm_insertionSort nameLe params
  have pieces : (presignedQuery params).splitOn ampersand =
      (params.insertionSort nameLe).map fun p => written (encodePair p) := by
    refine List.splitOn_intercalate ampersand (fun part mem => ?_) fun empty => ?_
    · obtain ⟨p,-,rfl⟩ := List.mem_map.mp mem
      exact writtenFree p
    · rw [List.map_eq_nil_iff.mp empty] at sorted
      have lost := sorted.nil_eq
      simp [← given,presignedParams] at lost
  have pairs : ((params.insertionSort nameLe).map fun p => written (encodePair p)).filterMap (splitOnce equals) =
      (params.insertionSort nameLe).map encodePair := by
    rw [List.filterMap_map,← List.filterMap_eq_map]
    exact List.filterMap_congr fun p _ => writtenOnce (encodedFree p.1 true).2
  rw [queryParameter,pieces,pairs]
  refine lookupOnly ?_ fun q mem named => ?_
  · refine List.mem_map.mpr ⟨(str "X-Amz-SignedHeaders",joinNames (presignedNames headers)),?_,by rw [encodePair,key]⟩
    rw [sorted.mem_iff,← given]
    simp [presignedParams]
  · obtain ⟨p,listed,rfl⟩ := List.mem_map.mp mem
    rw [sorted.mem_iff,← given,presignedParams,List.mem_append] at listed
    rcases listed with mine | added
    · exact absurd named (own p mine)
    · simp only [List.mem_cons,List.not_mem_nil,or_false] at added
      rcases added with rfl | rfl | rfl | rfl | rfl
      · exact absurd named (others _ (by simp))
      · exact absurd named (others _ (by simp))
      · exact absurd named (others _ (by simp))
      · exact absurd named (others _ (by simp))
      · rfl

theorem joinedAll {P : Char → Prop} (sign : P ';') (names : List Str) :
    (∀ c ∈ joinNames names, P c) ↔ ∀ name ∈ names, ∀ c ∈ name, P c := by
  rw [joinNames]
  induction names with
  | nil => simp
  | cons name names ih =>
    cases names with
    | nil => simp
    | cons next names =>
      rw [List.intercalate_cons_cons,List.forall_mem_append,List.forall_mem_append,ih,List.forall_mem_cons]
      simp [sign]

theorem presignedConsistent {method} (path : Str) (params : List (Str × Str)) (oneLine : OneLine lib headers method)
    (plain : ∀ h ∈ headers, '%' ∉ lib.lowercase h.1) :
    (∃ published, decodeTriplets (uriEncode (joinNames (presignedNames (scriptHeaders lib headers))) true) = some published ∧
        Consistent (presignedRequest lib method path params (scriptHeaders lib headers)).text published) ↔
      headers ≠ [] ∧ Spelled (headers.map (headerName lib)) ∧
        ∀ h ∈ headers, ∀ c ∈ lib.lowercase h.1, plainChar c := by
  have given (filled : headers ≠ []) : presignedNames (scriptHeaders lib headers) = headers.map fun h => lib.lowercase h.1 := by
    rw [presignedNames,if_neg (mt (scriptEmpty lib headers).mp filled),scriptHeaders,List.map_map]
    rfl
  have texts : (headers.map fun h => lib.lowercase h.1).map utf8 = headers.map (headerName lib) := by
    rw [List.map_map]
    rfl
  have host : headers = [] → ∀ name ∈ (presignedNames (scriptHeaders lib headers)).map utf8, newline ∉ name := by
    rintro rfl name mem
    have only : ∀ name ∈ [utf8 (str "host")], newline ∉ name := by decide +kernel
    exact only name mem
  obtain ⟨block,line⟩ := requestRead (r := presignedRequest lib method path params (scriptHeaders lib headers)) oneLine
    ⟨rfl,encodedLine _ _,presignedLine _⟩ (congrArg sortBytes (scriptLines lib headers)) (List.Perm.refl _)
    (fun filled => by rw [presignedRequest,given filled,texts]) host
  generalize (presignedRequest lib method path params (scriptHeaders lib headers)).text = text at block line ⊢
  by_cases bare : headers = []
  · subst bare
    refine iff_of_false ?_ fun cond => cond.1 rfl
    rintro ⟨published,decoded,agreed⟩
    have named : decodeTriplets (uriEncode (joinNames [str "host"]) true) = some (ascii "host") := by decide +kernel
    have empty : published = [] := agreed.same.symm.trans line
    rw [empty] at decoded
    exact absurd (named.symm.trans decoded) (by decide +kernel)
  · rw [if_neg bare] at line
    rw [given bare]
    have free : '%' ∉ joinNames (headers.map fun h => lib.lowercase h.1) := by
      have each := (joinedAll (P := (· ≠ '%')) (by decide) (headers.map fun h => lib.lowercase h.1)).mpr (by
        intro name mem c inner
        obtain ⟨h,listed,rfl⟩ := List.mem_map.mp mem
        rintro rfl
        exact plain h listed inner)
      exact fun mem => each '%' mem rfl
    have readable := uriEncodeExact (joinNames (headers.map fun h => lib.lowercase h.1)) true free
    rw [utf8Join,texts,joinedAll (by decide),List.forall_mem_map] at readable
    rw [← readable]
    have escaped := stringEscaped free true
    constructor
    · rintro ⟨published,decoded,agreed⟩
      have lines := agreed.lines
      rw [block,line] at lines
      have listable := listedSeparable bare (List.Perm.refl _) lines
      have sorted := agreed.sorted
      rw [line,listedBack listable] at sorted
      rw [listedBack listable,sortBytesUnique (List.Perm.refl _) sorted] at lines
      refine ⟨bare,⟨linesExact.mp lines,listable,sorted⟩,escaped,?_⟩
      rw [decoded,← agreed.same,line]
    · rintro ⟨-,⟨separable,listable,sorted⟩,-,decoded⟩
      refine ⟨_,decoded,?_,?_,line⟩
      · rw [block,line,listedBack listable,linesExact.mpr separable,← sortBytesUnique (List.Perm.refl _) sorted]
      · rwa [line,listedBack listable]

section
variable (lib) (p : SignParams) (expiresSecs : Nat)

/- The texts that the two calls of a script sign, and their results around what is published. -/
def SignParams.authorizedText : Bytes :=
  (buildCanonicalRequest lib p.method (parseUri p.uri).1 (parseUri p.uri).2 (scriptHeaders lib p.headers) p.bodyHash).text

def SignParams.authorization (list : Bytes) : Bytes :=
  ascii "AWS4-HMAC-SHA256 Credential=" ++ utf8 p.accessKey ++ [47] ++
    utf8 (credentialScope p.datetime p.region p.service) ++ ascii ", SignedHeaders=" ++ list ++ ascii ", Signature=" ++
    signatureOf lib p.secretKey p.datetime p.region p.service (p.authorizedText lib)

def SignParams.presignedText : Bytes :=
  (presignedRequest lib p.method (parseUri p.uri).1 (presignedParams p.accessKey p.region p.service (parseUri p.uri).2
    (scriptHeaders lib p.headers) p.datetime expiresSecs) (scriptHeaders lib p.headers)).text

def SignParams.presigned (query : Bytes) : Bytes :=
  utf8 (parseUri p.uri).1 ++ [63] ++ query ++ ascii "&X-Amz-Signature=" ++
    signatureOf lib p.secretKey p.datetime p.region p.service (p.presignedText lib expiresSecs)

theorem signedHeadersExact (oneLine : OneLine lib p.headers p.method) :
    (∀ published, awsV4AuthorizationHeader lib p = some (p.authorization lib published) →
      (Consistent (p.authorizedText lib) published ↔ Spelled (p.headers.map (headerName lib)))) ∧
    (∀ query, awsV4PresignedUrl lib p expiresSecs = some (p.presigned lib expiresSecs query) →
      (∀ h ∈ p.headers, '%' ∉ lib.lowercase h.1) →
      (∀ q ∈ (parseUri p.uri).2.elim [] queryPairs, uriEncode q.1 true ≠ signedHeadersKey) →
      ((∃ published, (queryParameter signedHeadersKey query).bind decodeTriplets = some published ∧
          Consistent (p.presignedText lib expiresSecs) published) ↔
        p.headers ≠ [] ∧ Spelled (p.headers.map (headerName lib)) ∧
          ∀ h ∈ p.headers, ∀ c ∈ lib.lowercase h.1, plainChar c)) := by
  constructor
  · intro published sent
    have same : published = utf8 (authorizedNames (scriptHeaders lib p.headers)) := by
      rw [awsV4AuthorizationHeader] at sent
      split at sent
      · have equal := Option.some.inj sent
        simp only [buildAuthorizationHeader,SignParams.authorization,SignParams.authorizedText,List.append_assoc,
          List.append_cancel_left_eq,List.append_cancel_right_eq] at equal
        exact equal.symm
      · cases sent
    rw [same]
    exact authorizedConsistent p.method _ _ p.bodyHash oneLine
  · intro query sent plain own
    have same : query = presignedQuery (presignedParams p.accessKey p.region p.service (parseUri p.uri).2
        (scriptHeaders lib p.headers) p.datetime expiresSecs) := by
      rw [awsV4PresignedUrl] at sent
      split at sent
      · have equal := Option.some.inj sent
        simp only [buildPresignedUrl,SignParams.presigned,SignParams.presignedText,List.append_assoc,
          List.append_cancel_left_eq,List.append_cancel_right_eq] at equal
        exact equal.symm
      · cases sent
    rw [same,querySigned _ _ _ own,Option.bind_some]
    exact presignedConsistent _ _ oneLine plain

end

def plainLib : Primitives where
  lowercase := List.map Char.toLower
  uppercase := List.map Char.toUpper
  lowercaseAgain := fun s => by simp
  sha256 := id
  hmac := fun _ message => message

def signing (headers : List (Str × Str)) : SignParams :=
  ⟨str "key",str "secret",str "region",str "s3",str "GET",str "/",headers,[],⟨str "day",str "time"⟩⟩

def hostAndDate : SignParams := signing [(str "Host",str "h"),(str "X-Amz-Date",str "t")]
def dateFirst : SignParams := signing [(str "X-Amz-Date",str "t"),(str "host",str "h")]
def oneContinued : SignParams := signing [(str "accept",str "x"),(str "accept-encoding",str "y")]

theorem hostConsistent : awsV4AuthorizationHeader plainLib hostAndDate =
      some (hostAndDate.authorization plainLib (ascii "host;x-amz-date")) ∧
    Consistent (hostAndDate.authorizedText plainLib) (ascii "host;x-amz-date") := by
  have names : hostAndDate.headers.map (headerName plainLib) =
      [[104,111,115,116],[120,45,97,109,122,45,100,97,116,101]] := by decide +kernel
  have sent : awsV4AuthorizationHeader plainLib hostAndDate =
      some (hostAndDate.authorization plainLib (ascii "host;x-amz-date")) := by decide +kernel
  refine ⟨sent,((signedHeadersExact plainLib hostAndDate 60 ⟨by decide +kernel,by decide +kernel⟩).1 _ sent).mpr ?_⟩
  rw [names]
  refine ⟨⟨by decide,?_⟩,⟨by decide,by decide⟩,by decide⟩
  intro name mem c rest long
  simp only [List.mem_cons,List.not_mem_nil,or_false] at mem
  rcases mem with rfl | rfl <;> simp at long

/- The date is published first where its name is capital; the longer name has the first line; a URL signed
without headers lists a host that has no line; an escape in a name is published as it is and decoded to another. -/
theorem headersDisagree :
    (awsV4AuthorizationHeader plainLib dateFirst =
        some (dateFirst.authorization plainLib (ascii "x-amz-date;host")) ∧
      ¬ Consistent (dateFirst.authorizedText plainLib) (ascii "x-amz-date;host")) ∧
    (headerBlock (oneContinued.authorizedText plainLib) = [ascii "accept-encoding:y",ascii "accept:x"] ∧
      ∀ published, ¬ Consistent (oneContinued.authorizedText plainLib) published) ∧
    ¬ Consistent ((signing []).presignedText plainLib 60) (ascii "host") ∧
    ¬ Consistent ((signing [(str "x-a%41",str "v")]).presignedText plainLib 60) (ascii "x-aA") :=
  ⟨⟨by decide +kernel,fun agreed => absurd agreed.same (by decide +kernel)⟩,
    ⟨by decide +kernel,fun _ agreed => absurd agreed.lines (by decide +kernel)⟩,
    fun agreed => absurd agreed.same (by decide +kernel),fun agreed => absurd agreed.same (by decide +kernel)⟩

end ZeroServe.Aws
