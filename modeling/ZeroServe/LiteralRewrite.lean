import ZeroServe.UriTemplate

/-! Rewrites to a literal path: the generated code against `apply_caddy_uri_template`. -/
namespace ZeroServe.UriTemplate
open ByteText RequestPath Script SiteFiles
open RegexMatch (writeCstr writeCstrSnprintf zsCaddyClampLen readUtf8 expandCaddyPlaceholders position
  openBrace closeBrace containsPlaceholder)

/- A template without placeholder, query and fragment. -/
structure Literal (path : Bytes) : Prop where
  some : path ≠ []
  openAbsent : openBrace ∉ path
  closeAbsent : closeBrace ∉ path
  queryAbsent : 63 ∉ path
  fragmentAbsent : 35 ∉ path

theorem strReplaceAbsent {search replacement s b} (inside : b ∈ search) (absent : b ∉ s) :
    strReplace search replacement s = s := by
  have nowhere : find search s = none := by
    cases found : find search s with
    | none => rfl
    | some i =>
      have cut := findSound found
      exact absurd (by rw [cut]; simp [inside]) absent
  rw [strReplace,if_neg (List.ne_nil_of_mem inside)]
  cases s with
  | nil => rfl
  | cons c rest => rw [List.length_cons,replaceLoop,nowhere]

theorem expandAbsent (resolve : Bytes → Option Bytes) {s} (openAbsent : openBrace ∉ s) (closeAbsent : closeBrace ∉ s) :
    expandCaddyPlaceholders resolve s = s := by
  have nowhere : position (fun b => b == openBrace || b == closeBrace) s 0 = none := by
    rw [position,Option.map_eq_none_iff,List.findIdx?_eq_none_iff]
    intro b mem
    have first : b ≠ openBrace := fun same => openAbsent (same ▸ mem)
    have second : b ≠ closeBrace := fun same => closeAbsent (same ▸ mem)
    simp [first,second]
  rw [expandCaddyPlaceholders,RegexMatch.expandLoop,nowhere]
  simp

theorem takeWhileAll {p : UInt8 → Bool} {s : Bytes} (all : ∀ b ∈ s, p b = true) : s.takeWhile p = s :=
  List.takeWhile_eq_self_iff.mpr all

section
variable (resolve : Bytes → Option Bytes) (parseForm : Bytes → List (Bytes × Bytes)) (lossy : Bytes → Bytes)

theorem applyLiteral (parseUri : Bytes → Option (Bytes × Option Bytes)) (s : ScriptRequest) {path : Bytes}
    (literal : Literal path) :
    applyCaddyUriTemplate resolve parseForm lossy parseUri s path = some (s.setPath path) := by
  have split : splitCaddyRewriteUriTemplate path = (some path,none) := by
    have all : path.takeWhile (fun b => b != 63 && b != 35) = path := by
      refine takeWhileAll fun b mem => ?_
      have query : b ≠ 63 := fun same => literal.queryAbsent (same ▸ mem)
      have fragment : b ≠ 35 := fun same => literal.fragmentAbsent (same ▸ mem)
      simp [query,fragment]
    simp [splitCaddyRewriteUriTemplate,all,literal.some]
  have nowhere : find (placeholder fileRelativeKey) path = none := by
    cases found : find (placeholder fileRelativeKey) path with
    | none => rfl
    | some i =>
      have cut := findSound found
      exact absurd (by rw [cut]; simp [placeholder]) literal.openAbsent
  have escaped : escapeCaddyRewritePathPlaceholders resolve s path = path := by
    rw [escapeCaddyRewritePathPlaceholders,strReplaceAbsent (by simp [placeholder]) literal.openAbsent,nowhere]
    rfl
  simp [applyCaddyUriTemplate,split,expandedPath,escaped,expandAbsent resolve literal.openAbsent literal.closeAbsent,
    splitOnceNone literal.queryAbsent]

end

def targetText (path query : Bytes) : Bytes := if query = [] then path else path ++ 63::query

def targetLength (path query : Bytes) : Nat := path.length + if query = [] then 0 else query.length + 1

theorem targetTextLength (path query : Bytes) : (targetText path query).length = targetLength path query := by
  unfold targetText targetLength
  split <;> simp

theorem loadedQuery (query : Bytes) :
    (writeCstr query queryCap).bytes.take (zsCaddyClampLen (writeCstr query queryCap).raw queryCap) =
      query.take (queryCap - 1) := by
  have bytes : (writeCstr query queryCap).bytes = query.take (queryCap - 1) ++ [0] := rfl
  have raw : (writeCstr query queryCap).raw = (min query.length queryCap : Nat) := rfl
  have clamped : zsCaddyClampLen (min query.length queryCap : Nat) queryCap =
      (query.take (queryCap - 1)).length := by
    rw [zsCaddyClampLen,List.length_take]
    split
    · omega
    · split <;> omega
  rw [raw,clamped,bytes,List.take_left' rfl]

theorem copyTake (cap : Nat) (text src : Bytes) :
    zsCaddyCopy cap (text.take (cap - 1)) src = (text ++ src).take (cap - 1) := by
  rw [zsCaddyCopy,List.take_append]
  congr 2
  rw [List.length_take]
  omega

theorem preservedIs (path query : Bytes) : preservedTarget path query =
    (targetText path (query.take (queryCap - 1))).take (uriCap - 1) := by
  have first : zsCaddyCopy uriCap [] path = path.take (uriCap - 1) := by
    have copied := copyTake uriCap [] path
    rwa [List.take_nil] at copied
  simp only [preservedTarget,loadedQuery,first,copyTake,targetText]
  split <;> simp

theorem preservedFits {path query} (short : query.length < queryCap) (fits : targetLength path query < uriCap) :
    preservedTarget path query = targetText path query := by
  rw [preservedIs,List.take_of_length_le (by omega : query.length ≤ queryCap - 1)]
  apply List.take_of_length_le
  rw [targetTextLength]
  omega

theorem preservedShort {path query} (over_ : ¬ (query.length < queryCap ∧ targetLength path query < uriCap)) :
    (preservedTarget path query).length < targetLength path query := by
  rw [preservedIs,List.length_take,targetTextLength]
  unfold targetLength queryCap uriCap at *
  by_cases empty : query = []
  · simp [empty] at over_ ⊢
    omega
  · have some := List.length_pos_iff.mpr empty
    have left : query.take 511 ≠ [] := by simp [empty]
    simp only [empty,if_false,left,List.length_take] at over_ ⊢
    omega

/- The URI parser of the http crate, as far as targets of requests need it. -/
structure UriParser where
  parse : Bytes → Option (Bytes × Option Bytes)
  pathByte : UInt8 → Bool
  queryByte : UInt8 → Bool
  origin : ∀ {p q}, p.head? = some slash → 63 ∉ p → 35 ∉ p → 35 ∉ q → p.length + q.length < 65534 →
    validUtf8 p = true → validUtf8 q = true →
    parse (p ++ 63::q) = if p.all pathByte && q.all queryByte then some (p,some q) else none
  originBare : ∀ {p}, p.head? = some slash → 63 ∉ p → 35 ∉ p → p.length < 65534 → validUtf8 p = true →
    parse p = if p.all pathByte then some (p,none) else none
  bounded : ∀ {u path query}, parse u = some (path,query) → targetLength path (query.getD []) ≤ u.length
  noFragment : ∀ {u path query}, parse u = some (path,query) → 35 ∉ query.getD []
  emptyPath : ∀ {u query}, parse u = some ([],query) → query = none
  absolute : ∀ {u path query}, u.head? ≠ some slash → (find (ascii "://") u).isSome → parse u = some (path,query) →
    path.head? = some slash

theorem cutBounded (w : Bytes) :
    targetLength (w.takeWhile (· != 63)) (w.drop (w.takeWhile (· != 63)).length).tail ≤ w.length := by
  have front : (w.takeWhile (· != 63)).length ≤ w.length := (List.takeWhile_prefix _).length_le
  have cut : (w.drop (w.takeWhile (· != 63)).length).length = w.length - (w.takeWhile (· != 63)).length :=
    List.length_drop
  unfold targetLength
  split
  · omega
  · rename_i some
    rw [List.length_tail]
    have : (w.drop (w.takeWhile (· != 63)).length).length ≠ 0 := by
      intro empty
      rw [List.length_eq_zero_iff.mp empty] at some
      exact some rfl
    omega

theorem frontFree (u : Bytes) : 35 ∉ u.takeWhile (· != 35) := by
  intro mem
  simpa using List.mem_takeWhile_imp mem

theorem relativeBounded {u path query} (split : splitRelativeRequestTarget u = some (path,query)) :
    targetLength path query ≤ u.length ∧ 35 ∉ query := by
  unfold splitRelativeRequestTarget at split
  split at split
  · cases split
  dsimp only at split
  split at split
  · cases split
  cases split
  refine ⟨(cutBounded _).trans (List.takeWhile_prefix _).length_le,fun mem => frontFree u ?_⟩
  exact List.mem_of_mem_drop (List.mem_of_mem_tail mem)

theorem requestTargetBounded (parser : UriParser) {u path query}
    (read : requestTarget parser.parse u = some (path,query)) : targetLength path query ≤ u.length ∧ 35 ∉ query := by
  unfold requestTarget at read
  split at read
  · rename_i parts split
    cases read
    exact relativeBounded split
  · obtain ⟨⟨p,q⟩,parsed,last⟩ := Option.map_eq_some_iff.mp read
    cases last
    refine ⟨?_,parser.noFragment parsed⟩
    split
    · rename_i empty
      have none : p = [] := by simp_all
      subst none
      rw [parser.emptyPath parsed]
      have := (List.takeWhile_prefix (l := u) (fun b => b != 63 && b != 35)).length_le
      simpa [targetLength] using this
    · exact parser.bounded parsed

/- The paths and queries that come through: short enough, without blanks at the ends and without a fragment, and a
target of bytes the parser allows, or a relative one without a scheme. -/
structure TargetKept (parser : UriParser) (path query : Bytes) : Prop where
  short : query.length < queryCap
  fits : targetLength path query < uriCap
  trimmed : strTrim (targetText path query) = targetText path query
  fragmentAbsent : 35 ∉ query
  parses : (path.head? = some slash ∧ path.all parser.pathByte = true ∧ query.all parser.queryByte = true) ∨
    (path.head? ≠ some slash ∧ find (ascii "://") (targetText path query) = none)

theorem targetHead {path} (literal : Literal path) (query : Bytes) : (targetText path query).head? = path.head? := by
  unfold targetText
  split
  · rfl
  · exact List.head?_append_of_ne_nil _ literal.some

theorem pathBytes {path} (literal : Literal path) : ∀ b ∈ path, (b != 63) = true ∧ (b != 35) = true := by
  intro b mem
  have query : b ≠ 63 := fun same => literal.queryAbsent (same ▸ mem)
  have fragment : b ≠ 35 := fun same => literal.fragmentAbsent (same ▸ mem)
  simp [query,fragment]

theorem relativeTarget {path query : Bytes} (literal : Literal path) (fragmentAbsent : 35 ∉ query)
    (relative : path.head? ≠ some slash) (plain : find (ascii "://") (targetText path query) = none) :
    splitRelativeRequestTarget (targetText path query) = some (path,query) := by
  have bytes := pathBytes literal
  have noQuery : path.head? ≠ some 63 := fun start => literal.queryAbsent (List.mem_of_mem_head? start)
  have whole : (targetText path query).takeWhile (· != 35) = targetText path query := by
    refine takeWhileAll fun b mem => ?_
    rw [bne_iff_ne]
    rintro rfl
    unfold targetText at mem
    split at mem
    · exact literal.fragmentAbsent mem
    · rcases List.mem_append.mp mem with inside | inside
      · exact literal.fragmentAbsent inside
      · rcases List.mem_cons.mp inside with same | later
        · cases same
        · exact fragmentAbsent later
  have front : (targetText path query).takeWhile (· != 63) = path := by
    unfold targetText
    split
    · exact takeWhileAll fun b mem => (bytes b mem).1
    · rw [List.takeWhile_append_of_pos fun b mem => (bytes b mem).1]
      simp
  have rest : ((targetText path query).drop path.length).tail = query := by
    unfold targetText
    split
    · rename_i empty; simp [empty]
    · simp
  simp [splitRelativeRequestTarget,targetHead literal,relative,noQuery,plain,whole,front,rest,literal.some]

theorem originTarget (parser : UriParser) {path query} (literal : Literal path) (fragmentAbsent : 35 ∉ query)
    (rooted : path.head? = some slash) (fits : targetLength path query < uriCap) (pathText : validUtf8 path = true)
    (queryText : validUtf8 query = true) : requestTarget parser.parse (targetText path query) =
      if path.all parser.pathByte && query.all parser.queryByte then some (path,query) else none := by
  have relative : splitRelativeRequestTarget (targetText path query) = none := by
    simp [splitRelativeRequestTarget,targetHead literal,rooted]
  unfold targetLength uriCap at fits
  rw [requestTarget,relative]
  by_cases empty : query = []
  · subst empty
    have parsed := parser.originBare rooted literal.queryAbsent literal.fragmentAbsent (by omega) pathText
    simp only [targetText,if_true,parsed,List.all_nil,Bool.and_true]
    split <;> simp [literal.some]
  · have parsed := parser.origin rooted literal.queryAbsent literal.fragmentAbsent fragmentAbsent
      (by simp only [empty,if_false] at fits; omega) pathText queryText
    simp only [targetText,empty,if_false,parsed]
    split <;> simp [literal.some]

section
variable (resolve : Bytes → Option Bytes) (parseForm : Bytes → List (Bytes × Bytes)) (lossy : Bytes → Bytes)

theorem setUriReads (parser : UriParser) (s : ScriptRequest) (u path query : Bytes) :
    (∃ s', s.setUri parseForm lossy parser.parse u = some s' ∧ s'.path = path ∧ s'.query = query) ↔
      strTrim u ≠ [] ∧ requestTarget parser.parse (strTrim u) = some (path,query) := by
  unfold ScriptRequest.setUri
  dsimp only
  split
  · rename_i empty
    simp [empty]
  · rename_i some
    rw [and_iff_right some]
    constructor
    · rintro ⟨s',set,rfl,rfl⟩
      obtain ⟨⟨p,q⟩,read,last⟩ := Option.map_eq_some_iff.mp set
      cases last
      exact read
    · intro read
      exact ⟨_,by rw [read]; rfl,rfl,rfl⟩

theorem targetKeptIff (parser : UriParser) (s : ScriptRequest) {path query} (literal : Literal path)
    (pathText : validUtf8 path = true) (queryText : validUtf8 query = true) :
    (∃ s', zsReqSetUri parseForm lossy parser.parse s (preservedTarget path query) = some s' ∧
      s'.path = path ∧ s'.query = query) ↔ TargetKept parser path query := by
  constructor
  · rintro ⟨s',set,same⟩
    obtain ⟨u,read,set⟩ := Option.bind_eq_some_iff.mp set
    have equals : u = preservedTarget path query := by
      unfold readUtf8 at read
      rw [List.take_length] at read
      split at read
      · rename_i empty
        rw [List.length_eq_zero_iff.mp empty]
        exact (Option.some.inj read).symm
      · split at read
        · exact (Option.some.inj read).symm
        · cases read
    subst equals
    obtain ⟨_,cut⟩ := (setUriReads parseForm lossy parser s _ path query).mp ⟨s',set,same⟩
    obtain ⟨bound,fragmentAbsent⟩ := requestTargetBounded parser cut
    have sub : (strTrim (preservedTarget path query)).Sublist (preservedTarget path query) :=
      (strTrimSublist _).trans (trimAsciiSublist _)
    -- a target that lost something is shorter than what would have to be read from it
    have room : query.length < queryCap ∧ targetLength path query < uriCap := by
      by_contra over_
      have := preservedShort over_
      have := sub.length_le
      omega
    have whole := preservedFits room.1 room.2
    rw [whole] at cut sub bound
    have trimmed :=
      sub.eq_of_length_le (by rw [targetTextLength]; exact bound)
    rw [trimmed] at cut
    refine ⟨room.1,room.2,trimmed,fragmentAbsent,?_⟩
    by_cases rooted : path.head? = some slash
    · rw [originTarget parser literal fragmentAbsent rooted room.2 pathText queryText] at cut
      split at cut
      · rename_i allowed
        exact .inl ⟨rooted,by simpa using allowed⟩
      · cases cut
    · refine .inr ⟨rooted,?_⟩
      by_contra scheme
      have scheme :=
        Option.isSome_iff_ne_none.mpr scheme
      have relative : splitRelativeRequestTarget (targetText path query) = none := by
        simp [splitRelativeRequestTarget,scheme]
      rw [requestTarget,relative] at cut
      obtain ⟨⟨p,q⟩,parsed,last⟩ := Option.map_eq_some_iff.mp cut
      have start := parser.absolute (by rw [targetHead literal]; exact rooted) scheme parsed
      have some : p ≠ [] := by rintro rfl; cases start
      simp only [some,Prod.mk.injEq] at last
      exact rooted (last.1 ▸ start)
  · rintro ⟨short,fits,trimmed,fragmentAbsent,parses⟩
    have text : validUtf8 (targetText path query) = true := by
      unfold targetText
      split
      · exact pathText
      · exact validUtf8Append pathText (validUtf8Append (a := [63]) (by decide) queryText)
    have read : readUtf8 (targetText path query) (targetText path query).length =
        some (targetText path query) := by
      unfold readUtf8
      rw [List.take_length]
      split
      · rename_i empty
        rw [List.length_eq_zero_iff.mp empty]
      · rfl
    have cut : requestTarget parser.parse (targetText path query) = some (path,query) := by
      rcases parses with ⟨rooted,bytes⟩ | ⟨relative,plain⟩
      · rw [originTarget parser literal fragmentAbsent rooted fits pathText queryText,if_pos (by simpa using bytes)]
      · rw [requestTarget,relativeTarget literal fragmentAbsent relative plain]
    have some : targetText path query ≠ [] := by
      unfold targetText
      split
      · exact literal.some
      · simp
    rw [preservedFits short fits,zsReqSetUri,read,Option.bind_some,setUriReads,trimmed]
    exact ⟨some,cut⟩

theorem literalRewriteExact (parser : UriParser) (s : ScriptRequest) (path : Bytes) (literal : Literal path)
    (pathText : validUtf8 path = true) (queryText : validUtf8 s.query = true) :
    ∃ meant, applyCaddyUriTemplate resolve parseForm lossy parser.parse s path = some meant ∧
      meant.path = path ∧ meant.query = s.query ∧
      ((∃ s', emitRewriteUri resolve parseForm lossy parser.parse s path = some s' ∧
        s'.path = meant.path ∧ s'.query = meant.query) ↔ TargetKept parser path s.query) := by
  have plain : (containsPlaceholder path || path.contains 63 || path.contains 35) = false := by
    simp [containsPlaceholder,literal.openAbsent,literal.closeAbsent,literal.queryAbsent,literal.fragmentAbsent]
  refine ⟨s.setPath path,applyLiteral resolve parseForm lossy parser.parse s literal,rfl,rfl,?_⟩
  rw [emitRewriteUri,plain]
  exact targetKeptIff parseForm lossy parser s literal pathText queryText

end

/- The parser on targets from the root; other forms are refused. -/
namespace OriginForm

def pathByte (b : UInt8) : Bool :=
  b == 0x21 || b == 0x22 || (0x24 ≤ b && b ≤ 0x3B) || b == 0x3D || (0x40 ≤ b && b ≤ 0x5F) || (0x61 ≤ b && b != 0x7F)

def queryByte (b : UInt8) : Bool := b == 0x21 || (0x24 ≤ b && b ≤ 0x3B) || b == 0x3D || 0x3F ≤ b

def parse (u : Bytes) : Option (Bytes × Option Bytes) :=
  let target := u.takeWhile (· != 35)
  let path := target.takeWhile (· != 63)
  let query := (target.drop path.length).tail
  if u.head? = some slash ∧ u.length < 65535 ∧ (path.all pathByte && query.all queryByte) = true then
    some (path,if target.contains 63 then some query else none)
  else none

theorem parsed {u path : Bytes} {query : Option Bytes} (read : parse u = some (path,query)) :
    u.head? = some slash ∧ path = (u.takeWhile (· != 35)).takeWhile (· != 63) ∧
    query.getD [] = ((u.takeWhile (· != 35)).drop path.length).tail := by
  unfold parse at read
  dsimp only at read
  split at read
  · rename_i accepted
    cases read
    refine ⟨accepted.1,rfl,?_⟩
    split
    · rfl
    · rename_i absent
      have whole : (u.takeWhile (· != 35)).takeWhile (· != 63) = u.takeWhile (· != 35) := by
        refine takeWhileAll fun b mem => ?_
        rw [bne_iff_ne]
        rintro rfl
        exact absent (List.contains_iff_mem.mpr mem)
      rw [whole,List.drop_length]
      rfl
  · cases read

theorem parseQuery {p q : Bytes} (rooted : p.head? = some slash) (query : 63 ∉ p) (fragment : 35 ∉ p)
    (free : 35 ∉ q) (short : p.length + q.length < 65534) :
    parse (p ++ 63::q) = if p.all pathByte && q.all queryByte then some (p,some q) else none := by
  have nonempty : p ≠ [] := by rintro rfl; cases rooted
  have whole : (p ++ 63::q).takeWhile (· != 35) = p ++ 63::q := by
    refine takeWhileAll fun b mem => ?_
    rw [bne_iff_ne]
    rintro rfl
    simp [fragment,free] at mem
  have front : (p ++ 63::q).takeWhile (· != 63) = p := by
    rw [List.takeWhile_append_of_pos]
    · simp
    · intro b mem
      rw [bne_iff_ne]
      rintro rfl
      exact query mem
  have head : (p ++ 63::q).head? = some slash := by
    rw [List.head?_append_of_ne_nil _ nonempty]; exact rooted
  have length : (p ++ 63::q).length < 65535 := by simp; omega
  have rest : ((p ++ 63::q).drop p.length).tail = q := by simp
  have mark : (p ++ 63::q).contains 63 = true := by simp
  simp only [parse,whole,front,rest,mark,head,length,true_and,if_true]

theorem parseBare {p : Bytes} (rooted : p.head? = some slash) (query : 63 ∉ p) (fragment : 35 ∉ p)
    (short : p.length < 65534) : parse p = if p.all pathByte then some (p,none) else none := by
  have whole : p.takeWhile (· != 35) = p := by
    refine takeWhileAll fun b mem => ?_
    rw [bne_iff_ne]
    rintro rfl
    exact fragment mem
  have front : p.takeWhile (· != 63) = p := by
    refine takeWhileAll fun b mem => ?_
    rw [bne_iff_ne]
    rintro rfl
    exact query mem
  have length : p.length < 65535 := by omega
  simp [parse,whole,front,rooted,length,query]

end OriginForm

def originForm : UriParser where
  parse := OriginForm.parse
  pathByte := OriginForm.pathByte
  queryByte := OriginForm.queryByte
  origin rooted query fragment free short _ _ := OriginForm.parseQuery rooted query fragment free short
  originBare rooted query fragment short _ := OriginForm.parseBare rooted query fragment short
  bounded {u path query} read := by
    obtain ⟨_,rfl,rest⟩ := OriginForm.parsed read
    rw [rest]
    exact (cutBounded _).trans (List.takeWhile_prefix _).length_le
  noFragment {u path query} read := by
    obtain ⟨_,_,rest⟩ := OriginForm.parsed read
    rw [rest]
    exact fun mem => frontFree u (List.mem_of_mem_drop (List.mem_of_mem_tail mem))
  emptyPath {u query} read := by
    obtain ⟨rooted,empty,_⟩ := OriginForm.parsed read
    obtain ⟨rest,rfl⟩ := List.head?_eq_some_iff.mp rooted
    simp [slash] at empty
  absolute other _ read := absurd (OriginForm.parsed read).1 other

def requestWith (query : Bytes) : ScriptRequest :=
  buildScriptRequest (fun _ => []) id .empty (some query) ⟨ascii "old",ascii "old",false⟩

theorem shortQueryKept :
    ∃ s', emitRewriteUri (fun _ => none) (fun _ => []) id originForm.parse (requestWith (ascii "a=1"))
      (ascii "/new") = some s' ∧ s'.path = ascii "/new" ∧ s'.query = ascii "a=1" := by
  obtain ⟨meant,_,path,query,kept⟩ := literalRewriteExact (fun _ => none) (fun _ => []) id originForm
    (requestWith (ascii "a=1")) (ascii "/new")
    ⟨by decide,by decide,by decide,by decide,by decide⟩ (by decide +kernel) (by decide +kernel)
  rw [path,query] at kept
  exact kept.mpr ⟨by decide,by decide,by decide +kernel,by decide +kernel,.inl (by decide +kernel)⟩

theorem longQueryCut :
    (emitRewriteUri (fun _ => none) (fun _ => []) id originForm.parse (requestWith (List.replicate 512 97))
      (ascii "/new")).map (fun s => (s.path,s.query)) = some (ascii "/new",List.replicate 511 97) := by
  decide +kernel

end ZeroServe.UriTemplate
