import ZeroServe.RawResponse

/-! When the relayed raw head is the head the ordinary path would have sent. Kept lines are followed one by one into
both results. -/
namespace ZeroServe.Proxy
open ByteText H1

def cutName (line : Bytes) : Bytes := ((splitOnce 58 line).getD ([],[])).1
def cutValue (line : Bytes) : Bytes := ((splitOnce 58 line).getD ([],[])).2

theorem fieldPairSome {line n v} (h : fieldPair line = some (n,v)) :
    n.text = lower (strTrim (cutName line)) ∧ v.bytes = strTrim (cutValue line) ∧
      (splitOnce 58 line).isSome = true := by
  obtain ⟨f,cut,h⟩ := Option.bind_eq_some_iff.mp h
  obtain ⟨name,hn,h⟩ := Option.bind_eq_some_iff.mp h
  obtain ⟨value,hv,h⟩ := Option.map_eq_some_iff.mp h
  cases h
  simp only [cutName,cutValue,cut,Option.isSome_some,and_true]
  exact ⟨fromBytesText hn,valueFromBytes hv⟩

theorem readFieldCut {line} (h : (splitOnce 58 line).isSome = true) :
    WireMessage.readField line = some (lower (cutName line),trimAscii (cutValue line)) := by
  obtain ⟨f,cut⟩ := Option.isSome_iff_exists.mp h
  simp [WireMessage.readField,cutName,cutValue,cut]

theorem keptLineCut {line} (h : (splitOnce 58 line).isSome = true) :
    keptLine line = ! isHopHeaderName (trimAscii (cutName line)) := by
  obtain ⟨f,cut⟩ := Option.isSome_iff_exists.mp h
  simp [keptLine,cutName,cut]

theorem tokenLower : ∀ b : UInt8, tokenByte (lowerByte b) = true → plainByte b = true ∧
    asciiWhitespace b = false := by decide +kernel

theorem tokenUntrimmed {s} (h : ∀ b ∈ lower s, tokenByte b = true) : strTrim s = s := by
  have each : ∀ b ∈ s, plainByte b = true ∧ asciiWhitespace b = false := fun b mem =>
    tokenLower b (h _ (List.mem_map_of_mem mem))
  rw [strTrimPlain (fun b mem => (each b mem).1),trimAsciiNone (fun b mem => (each b mem).2)]

theorem hopTexts : (∀ t ∈ hopHeaderNames, ∃ n ∈ hopNames, n.text = t) ∧
    (∀ n ∈ hopNames, n = .expect ∨ n.text ∈ hopHeaderNames) := by decide +kernel

theorem isHopName {s} : isHopHeaderName s = true ↔ lower s ∈ hopHeaderNames := by
  have low : ∀ t ∈ hopHeaderNames, lower t = t := by decide +kernel
  simp only [isHopHeaderName,headerNameEq,eqIgnoreAsciiCase,List.any_eq_true,beq_iff_eq]
  constructor
  · rintro ⟨t,mem,same⟩
    rw [same,low t mem]
    exact mem
  · intro mem
    exact ⟨_,mem,(low _ mem).symm⟩

theorem hopTrims {s} (h : isHopHeaderName (trimAscii s) = true) :
    strTrim s = trimAscii s ∧ ∃ n ∈ hopNames, n.text = lower (trimAscii s) := by
  obtain ⟨n,mem,same⟩ := hopTexts.1 _ (isHopName.mp h)
  refine ⟨strTrimPlain ?_,n,mem,same⟩
  intro b inside
  cases blank : asciiWhitespace b with
  | true => exact blankPlain b blank
  | false =>
    have kept := memTrimAscii inside blank
    have token := nameBytes n (lowerByte b) (by rw [same]; exact List.mem_map_of_mem kept)
    exact (tokenLower b token).1

@[mk_iff] structure LineAgrees (headers : HeaderMap) (line : Bytes) : Prop where
  name : strTrim (cutName line) = cutName line
  value : trimAscii (strTrim (cutValue line)) = trimAscii (cutValue line)
  endToEnd : lower (cutName line) ≠ ascii "expect"
  unlisted : headerContainsToken headers .connection (lower (cutName line)) = false

instance (headers line) : Decidable (LineAgrees headers line) :=
  decidable_of_iff _ (lineAgrees_iff headers line).symm

theorem stripValues (headers : HeaderMap) (n : HeaderName) : (stripHopHeaders false headers).getAll n =
      if n ∈ hopNames ∨ headerContainsToken headers .connection n.text = true then []
      else headers.getAll n := by
  unfold stripHopHeaders
  by_cases hop : n ∈ hopNames
  · rw [if_pos (Or.inl hop)]
    by_cases te : n = .te
    · rw [te,getAllStripTe]; simp
    · exact getAllStripHop false headers hop te
  · have apart : n ≠ .upgrade := fun same => hop (by rw [same]; decide +kernel)
    rw [getAllStrip false false headers hop,nominatedToken false headers apart]
    simp [hop]

def rawFields (lines : List Bytes) : List (Bytes × Bytes) :=
  (lines.filter keptLine).map (fun l => (lower (cutName l),trimAscii (cutValue l)))

section
variable {lines : List Bytes}

theorem lineValues (all : ∀ line ∈ lines, (fieldPair line).isSome = true) (n : HeaderName) :
    ((lineFields lines).getAll n).map (fun v => trimAscii v.bytes) =
      (lines.filter (fun l => decide (lower (strTrim (cutName l)) = n.text))).map
        (fun l => trimAscii (strTrim (cutValue l))) := by
  unfold lineFields FieldMap.getAll
  induction lines with
  | nil => rfl
  | cons line lines ih =>
    obtain ⟨⟨name,value⟩,pair⟩ := Option.isSome_iff_exists.mp (all line (by simp))
    obtain ⟨text,bytes,_⟩ := fieldPairSome pair
    have tail := ih (fun l mem => all l (List.mem_cons_of_mem _ mem))
    rw [List.filterMap_cons,pair]
    by_cases same : name = n
    · have hit : lower (strTrim (cutName line)) = n.text := by rw [← text,same]
      simpa [same,hit,bytes] using tail
    · have miss : ¬ lower (strTrim (cutName line)) = n.text :=
        fun eq => same (nameExt (text.trans eq))
      simpa [same,miss] using tail

theorem rawValues (n : HeaderName) : WireMessage.valuesOf (rawFields lines) n.text =
      (lines.filter (fun l => decide (lower (cutName l) = n.text) && keptLine l)).map
        (fun l => trimAscii (cutValue l)) := by
  simp [WireMessage.valuesOf,rawFields,List.filter_map]

theorem lengthsForced {α : Type} {f g : α → Bytes} (shorter : ∀ a, (g a).length ≤ (f a).length)
    {l : List α} (same : ((l.map f).map List.length).sum = ((l.map g).map List.length).sum) :
    ∀ a ∈ l, (f a).length ≤ (g a).length := by
  have total : ∀ l : List α, ((l.map g).map List.length).sum ≤ ((l.map f).map List.length).sum := by
    intro l
    induction l with
    | nil => simp
    | cons a l ih =>
      have := shorter a
      simp only [List.map_cons,List.sum_cons]
      omega
  induction l with
  | nil => simp
  | cons a l ih =>
    have here := shorter a
    have rest := total l
    simp only [List.map_cons,List.sum_cons] at same
    intro x mem
    rcases List.mem_cons.mp mem with rfl | mem
    · omega
    · exact ih (by omega) x mem

theorem permNames (perm : (rawFields lines).Perm (wireFields (stripHopHeaders false (lineFields lines)))) {line}
    (mem : line ∈ lines) (kept : keptLine line = true) :
    ∃ n, n.text = lower (cutName line) ∧ strTrim (cutName line) = cutName line ∧ n ∉ hopNames ∧
      headerContainsToken (lineFields lines) .connection n.text = false := by
  have inside : (lower (cutName line),trimAscii (cutValue line)) ∈ rawFields lines :=
    List.mem_map.mpr ⟨line,List.mem_filter.mpr ⟨mem,kept⟩,rfl⟩
  obtain ⟨⟨n,v⟩,found,same⟩ := List.mem_map.mp (perm.mem_iff.mp inside)
  have text : n.text = lower (cutName line) := congrArg Prod.fst same
  have present :=
    List.ne_nil_of_mem (FieldMap.memGetAll.mpr found)
  rw [stripValues] at present
  split at present
  · exact absurd rfl present
  · rename_i clean
    obtain ⟨hop,listed⟩ := not_or.mp clean
    refine ⟨n,text,tokenUntrimmed ?_,hop,Bool.eq_false_iff.mpr listed⟩
    rw [← text]
    exact nameBytes n

theorem samePick (all : ∀ line ∈ lines, (fieldPair line).isSome = true)
    (names : ∀ line ∈ lines, keptLine line = true → strTrim (cutName line) = cutName line) {n} (other : n ∉ hopNames) :
    lines.filter (fun l => decide (lower (cutName l) = n.text) && keptLine l) =
      lines.filter (fun l => decide (lower (strTrim (cutName l)) = n.text)) := by
  apply List.filter_congr
  intro line mem
  obtain ⟨⟨_,_⟩,pair⟩ := Option.isSome_iff_exists.mp (all line mem)
  have cut := (fieldPairSome pair).2.2
  cases kept : keptLine line with
  | true => simp [names line mem kept]
  | false =>
    rw [keptLineCut cut] at kept
    obtain ⟨trims,m,hop,text⟩ := hopTrims (by simpa using kept)
    have apart : ¬ lower (strTrim (cutName line)) = n.text := by
      rw [trims,← text]
      exact fun same => other (nameExt same ▸ hop)
    simp [apart]

theorem linesAgreeOfPerm (all : ∀ line ∈ lines, (fieldPair line).isSome = true)
    (perm : (rawFields lines).Perm (wireFields (stripHopHeaders false (lineFields lines)))) :
    ∀ line ∈ lines, keptLine line = true → LineAgrees (lineFields lines) line := by
  intro line mem kept
  have names : ∀ line ∈ lines, keptLine line = true → strTrim (cutName line) = cutName line := by
    intro l m k
    obtain ⟨_,_,same,_⟩ := permNames perm m k
    exact same
  obtain ⟨n,text,untrimmed,hop,listed⟩ := permNames perm mem kept
  have values : (WireMessage.valuesOf (rawFields lines) n.text).Perm
      (((lineFields lines).getAll n).map (fun v => trimAscii v.bytes)) := by
    have picked := (perm.filter (fun f => decide (f.1 = n.text))).map Prod.snd
    have right := wireValues (stripHopHeaders false (lineFields lines)) n
    have clean : ¬ (n ∈ hopNames ∨ headerContainsToken (lineFields lines) .connection n.text = true) := by
      rintro (h | h)
      · exact hop h
      · rw [listed] at h; cases h
    rw [stripValues,if_neg clean] at right
    rw [← right]
    exact picked
  rw [rawValues,lineValues all,samePick all names hop] at values
  have sums := (values.map List.length).sum_eq
  have forced := lengthsForced (fun l => ((trimAsciiSublist _).trans
    (strTrimSublist (cutValue l))).length_le) sums line (List.mem_filter.mpr
      ⟨mem,by simp [untrimmed,text]⟩)
  refine ⟨untrimmed,trimmedSame forced,?_,text ▸ listed⟩
  intro expect
  have same : n = .expect := nameExt (text.trans expect)
  exact hop (by rw [same]; decide +kernel)

def pickValue (n : HeaderName) (line : Bytes) : Option HeaderValue :=
  (fieldPair line).bind (fun f => if f.1 = n then some f.2 else none)

theorem getAllLines (lines : List Bytes) (n : HeaderName) :
    (lineFields lines).getAll n = lines.filterMap (pickValue n) := by
  unfold lineFields FieldMap.getAll
  induction lines with
  | nil => rfl
  | cons line lines ih =>
    cases pair : fieldPair line with
    | none => simpa [pickValue,pair] using ih
    | some f =>
      by_cases same : f.1 = n
      · simpa [pickValue,pair,same] using ih
      · simpa [pickValue,pair,same] using ih

theorem pickedName {n line v} (h : pickValue n line = some v) : fieldPair line = some (n,v) := by
  obtain ⟨f,pair,h⟩ := Option.bind_eq_some_iff.mp h
  split at h <;> try contradiction
  rename_i same
  cases Option.some.inj h
  rw [pair,← same]

theorem permOfLinesAgree (all : ∀ line ∈ lines, (fieldPair line).isSome = true)
    (agree : ∀ line ∈ lines, keptLine line = true → LineAgrees (lineFields lines) line) :
    (rawFields lines).Perm (wireFields (stripHopHeaders false (lineFields lines))) := by
  have same : rawFields lines = wireFields (lineFields (lines.filter keptLine)) := by
    unfold rawFields wireFields lineFields
    rw [List.map_filterMap,← List.filterMap_eq_map]
    apply List.filterMap_congr
    intro line mem
    obtain ⟨inside,kept⟩ := List.mem_filter.mp mem
    obtain ⟨⟨n,v⟩,pair⟩ := Option.isSome_iff_exists.mp (all line inside)
    obtain ⟨text,bytes,_⟩ := fieldPairSome pair
    have a := agree line inside kept
    simp [pair,text,bytes,a.name,a.value]
  rw [same]
  apply wirePermOfGetAll
  intro n
  rw [getAllLines,stripValues,getAllLines,List.filterMap_filter]
  split
  · rename_i removed
    apply List.filterMap_eq_nil_iff.mpr
    intro line mem
    split
    · rename_i kept
      cases picked : pickValue n line with
      | none => rfl
      | some v =>
        exfalso
        obtain ⟨text,_,cut⟩ := fieldPairSome (pickedName picked)
        have a := agree line mem kept
        rw [a.name] at text
        rcases removed with hop | listed
        · rcases hopTexts.2 n hop with expect | hop
          · exact a.endToEnd (by rw [← text,expect]; rfl)
          · rw [keptLineCut cut] at kept
            have blanks : trimAscii (cutName line) = cutName line := by
              apply List.Sublist.eq_of_length_le (trimAsciiSublist _)
              conv => lhs; rw [← a.name]
              exact (strTrimSublist _).length_le
            rw [blanks,isHopName.mpr (text ▸ hop)] at kept
            cases kept
        · rw [text,a.unlisted] at listed
          cases listed
    · rfl
  · rename_i clean
    have other : n ∉ hopNames := fun hop => clean (Or.inl hop)
    apply List.filterMap_congr
    intro line mem
    split
    · rfl
    · rename_i dropped
      cases picked : pickValue n line with
      | none => rfl
      | some v =>
        exfalso
        obtain ⟨text,_,cut⟩ := fieldPairSome (pickedName picked)
        rw [keptLineCut cut] at dropped
        obtain ⟨trims,m,hop,hopText⟩ := hopTrims (by simpa using dropped)
        rw [trims,← hopText] at text
        exact other (nameExt text ▸ hop)

end

def SameResponse (raw : Bytes) (r : RawFixedResponse) : Prop :=
  ∃ head n wire, parseResponseHead raw = .ok head ∧ head.status.code = r.status ∧
    r.body = .fixed n ∧ responseBodyFromHeaders head = .fixed n ∧
    shouldReuseProxyConnection head.version head.headers = r.canReuse ∧
    WireMessage.readHead r.head = some (wire,[]) ∧
    wire.fields.Perm (wireFields (stripHopHeaders false head.headers))

@[mk_iff] structure RawAgrees (raw : Bytes) : Prop where
  text : validUtf8 raw = true
  fields : ∀ line ∈ headerLines raw, (fieldPair line).isSome = true
  kept : ∀ line ∈ headerLines raw, keptLine line = true →
    LineAgrees (lineFields (headerLines raw)) line
  uncoded : hasChunked (lineFields (headerLines raw)) = false
  length : contentLength (lineFields (headerLines raw)) =
    (lastNamed (ascii "content-length") (headerLines raw)).bind parseU64Ascii
  close : connectionHasClose (lineFields (headerLines raw)) =
    ((lastNamed (ascii "connection") (headerLines raw)).map closes).getD false

instance (raw) : Decidable (RawAgrees raw) :=
  decidable_of_iff _ (rawAgrees_iff raw).symm

theorem mapMReadField {lines : List Bytes} (cuts : ∀ l ∈ lines, (splitOnce 58 l).isSome = true) :
    lines.mapM WireMessage.readField = some (lines.map (fun l => (lower (cutName l),trimAscii (cutValue l)))) := by
  induction lines with
  | nil => rfl
  | cons line lines ih =>
    rw [List.mapM_cons,readFieldCut (cuts line (by simp)),
      ih (fun l mem => cuts l (List.mem_cons_of_mem _ mem))]
    rfl

section
variable {raw : Bytes} {r : RawFixedResponse}

theorem RawAccepted.readHead (a : RawAccepted raw r) (full : [] ∉ headerLines raw) :
    WireMessage.readHead r.head = some (⟨startLine raw,rawFields (headerLines raw)⟩,[]) := by
  obtain ⟨cuts,_,_,out⟩ := scanSpec full a.scanned
  have lines : splitCrlf raw = startLine raw::headerLines raw := by
    obtain ⟨first,rest,same⟩ := List.exists_cons_of_ne_nil (splitCrlfNeNil raw)
    simp [startLine,headerLines,same]
  have first : startLine raw ≠ [] := by
    intro empty
    have version := a.version
    rw [empty] at version
    exact absurd version (by decide +kernel)
  have each : ∀ l ∈ startLine raw::(headerLines raw).filter keptLine, l ≠ [] ∧ CrlfFree l := by
    intro l mem
    rcases List.mem_cons.mp mem with rfl | mem
    · exact ⟨first,splitCrlfFree raw _ (by rw [lines]; simp)⟩
    · have inside := (List.mem_filter.mp mem).1
      exact ⟨fun empty => full (empty ▸ inside),splitCrlfFree raw l (by rw [lines]; simp [inside])⟩
  have text : r.head =
      (startLine raw::(headerLines raw).filter keptLine).flatMap (· ++ crlf) ++ crlf ++ [] := by
    rw [a.result]
    rw [out]
    simp
  have read := WireMessage.readLinesEncoded [] each (r.head.length + 1) (by
    have count := WireMessage.lineCount (startLine raw::(headerLines raw).filter keptLine)
    rw [text]
    simp only [List.length_append] at count ⊢
    omega)
  rw [← text] at read
  unfold WireMessage.readHead
  rw [read]
  simp only [Option.bind_eq_bind,Option.bind_some]
  rw [mapMReadField (fun l mem => cuts l (List.mem_filter.mp mem).1)]
  rfl

theorem RawAccepted.lengthFound (a : RawAccepted raw r) (full : [] ∉ headerLines raw) :
    (lastNamed (ascii "content-length") (headerLines raw)).bind parseU64Ascii = some a.length := by
  have length := (scanSpec full a.scanned).2.2.1
  rw [a.found] at length
  rw [length]
  cases lastNamed (ascii "content-length") (headerLines raw) <;> rfl

theorem RawAccepted.reuses (a : RawAccepted raw r) (full : [] ∉ headerLines raw) :
    r.canReuse = ! ((lastNamed (ascii "connection") (headerLines raw)).map closes).getD false := by
  have close := (scanSpec full a.scanned).2.1
  rw [a.result]
  rw [close]

theorem RawAccepted.body (a : RawAccepted raw r) {head} (status : head.status.code = r.status) {n} (positive : n ≠ 0) :
    responseBodyFromHeaders head = .fixed n ↔
      hasChunked head.headers = false ∧ contentLength head.headers = some n := by
  obtain ⟨low,_,noContent,notModified⟩ := a.statusRange
  have plain : (head.status.isInformational || head.status.code == 204 || head.status.code == 304) = false := by
    simp [StatusCode.isInformational]
    omega
  unfold responseBodyFromHeaders
  rw [plain]
  cases hasChunked head.headers with
  | true => simp [newChunked]
  | false =>
    cases contentLength head.headers with
    | none => simp
    | some len =>
      by_cases zero : len = 0
      · simp [zero,positive.symm]
      · simp [zero]

theorem rawFixedExact (full : [] ∉ headerLines raw)
    (accepted : rawFixedResponse raw = .ok (some r)) : SameResponse raw r ↔ RawAgrees raw := by
  obtain ⟨a⟩ := rawFixedAccepted accepted
  have body := congrArg RawFixedResponse.body a.result
  have reuses := a.reuses full
  have length := a.lengthFound full
  constructor
  · rintro ⟨head,n,wire,parsed,status,fixed,framed,reuse,read,perm⟩
    obtain ⟨text,fields,_,version,headers,_⟩ := (a.parses full).mp parsed
    cases body.symm.trans fixed
    cases Option.some.inj ((a.readHead full).symm.trans read)
    obtain ⟨uncoded,announced⟩ := (a.body status a.positive).mp framed
    rw [headers] at uncoded announced reuse perm
    refine ⟨text,fields,linesAgreeOfPerm fields perm,uncoded,announced.trans length.symm,?_⟩
    rw [version,reuses] at reuse
    simpa [shouldReuseProxyConnection] using reuse
  · intro agrees
    obtain ⟨after,cut,_⟩ := a.start
    have range := a.statusRange
    have parsed : parseResponseHead raw = .ok ⟨⟨r.status,by omega⟩,strTrimStart after,.http11,
        lineFields (headerLines raw)⟩ :=
      (a.parses full).mpr ⟨agrees.text,agrees.fields,rfl,rfl,rfl,after,cut,rfl⟩
    refine ⟨_,a.length,_,parsed,rfl,body,(a.body rfl a.positive).mpr
      ⟨agrees.uncoded,agrees.length.trans length⟩,?_,a.readHead full,
      permOfLinesAgree agrees.fields agrees.kept⟩
    rw [reuses,← agrees.close]
    simp [shouldReuseProxyConnection]

end

theorem plainResponseSame : SameResponse (ascii "HTTP/1.1 200 OK\r\nContent-Length: 2\r\nConnection: close, x-a")
      ⟨200,false,ascii "HTTP/1.1 200 OK\r\nContent-Length: 2\r\n\r\n",.fixed 2⟩ :=
  (rawFixedExact (by decide +kernel) (by decide +kernel)).mpr (by decide +kernel)

theorem codedResponseCut : rawFixedResponse
        (ascii "HTTP/1.1 200 OK\r\nTransfer-Encoding: chunked\r\nContent-Length: 5") =
      .ok (some ⟨200,true,ascii "HTTP/1.1 200 OK\r\nContent-Length: 5\r\n\r\n",.fixed 5⟩) ∧ [] ∉ headerLines
      (ascii "HTTP/1.1 200 OK\r\nTransfer-Encoding: chunked\r\nContent-Length: 5") ∧ ¬ SameResponse
      (ascii "HTTP/1.1 200 OK\r\nTransfer-Encoding: chunked\r\nContent-Length: 5")
      ⟨200,true,ascii "HTTP/1.1 200 OK\r\nContent-Length: 5\r\n\r\n",.fixed 5⟩ := by
  refine ⟨by decide +kernel,by decide +kernel,?_⟩
  rintro ⟨head,n,wire,parsed,_,_,framed,_⟩
  have coded : (parseResponseHead (ascii
      "HTTP/1.1 200 OK\r\nTransfer-Encoding: chunked\r\nContent-Length: 5")).toOption.map
      responseBodyFromHeaders = some newChunked := by decide +kernel
  rw [parsed] at coded
  cases (Option.some.inj coded).symm.trans framed

end ZeroServe.Proxy
