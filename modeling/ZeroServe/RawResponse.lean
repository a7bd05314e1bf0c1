import ZeroServe.ProxyReply

/-! Two readings of one backend response head: the byte scanner of `raw_fixed_response` and the ordinary parser. They
part where a field is repeated, nominated, or trimmed as text rather than as bytes. -/
namespace ZeroServe.Proxy
open ByteText H1

def fieldPair (line : Bytes) : Option (HeaderName × HeaderValue) :=
  (splitOnce 58 line).bind (fun f =>
    (HeaderName.fromBytes (strTrim f.1)).bind (fun name =>
      (HeaderValue.fromBytes (strTrim f.2)).map (fun value => (name,value))))

def lineFields (lines : List Bytes) : HeaderMap := ⟨lines.filterMap fieldPair⟩

theorem readFieldsExact {headers out lines} (full : [] ∉ lines) : readFields strTrim headers lines = .ok out ↔
      (∀ line ∈ lines, (fieldPair line).isSome = true) ∧ out = ⟨headers.pairs ++ lines.filterMap fieldPair⟩ := by
  induction lines generalizing headers with
  | nil =>
    simp only [List.filterMap_nil,List.append_nil]
    constructor
    · intro h; cases h; exact ⟨by simp,rfl⟩
    · intro h; rw [h.2]; rfl
  | cons line lines ih =>
    have some : line ≠ [] := fun empty => full (by simp [empty])
    rw [readFields,if_neg some]
    cases cut : splitOnce 58 line with
    | none => simp [fieldPair,cut]
    | some f =>
      obtain ⟨name,value⟩ := f
      dsimp only
      by_cases blank : strTrim name = []
      · have refused : fieldPair line = none := by
          have empty : HeaderName.fromBytes [] = none := rfl
          simp [fieldPair,cut,blank,empty]
        simp [blank,refused]
      · rw [if_neg blank]
        cases hn : HeaderName.fromBytes (strTrim name) with
        | none => simp [fieldPair,cut,hn]
        | some n =>
          cases hv : HeaderValue.fromBytes (strTrim value) with
          | none => simp [fieldPair,cut,hv]
          | some v =>
            have pair : fieldPair line = Option.some (n,v) := by simp [fieldPair,cut,hn,hv]
            rw [ih (fun mem => full (List.mem_cons_of_mem _ mem))]
            simp [pair,FieldMap.append]

theorem parseHeadersExact {out lines} (full : [] ∉ lines) : parseHeaders lines = .ok out ↔
      (∀ line ∈ lines, (fieldPair line).isSome = true) ∧ out = lineFields lines := by
  rw [parseHeaders,readFieldsExact full]
  rfl

theorem threeDigits {digits status} (h : rawStatus digits = .ok status) :
    (∀ d ∈ digits, 48 ≤ d ∧ d ≤ 57) ∧ fromStrRadix 10 (2^16) digits = some status ∧ status ≤ 999 ∧ digits ≠ [] := by
  unfold rawStatus at h
  split at h
  · rename_i a b c
    split at h
    · rename_i all
      cases h
      simp only [List.all_cons,List.all_nil,Bool.and_true,Bool.and_eq_true,decide_eq_true_eq] at all
      obtain ⟨ha,hb,hc⟩ := all
      have value : ∀ d : UInt8, 48 ≤ d ∧ d ≤ 57 → digitVal 10 d = some (d.toNat - 48) ∧
          d.toNat - 48 ≤ 9 ∧ d ≠ 43 := by decide +kernel
      obtain ⟨va,sa,na⟩ := value a ha
      obtain ⟨vb,sb,_⟩ := value b hb
      obtain ⟨vc,sc,_⟩ := value c hc
      refine ⟨by simp [ha,hb,hc],?_,by omega,by simp⟩
      simp only [fromStrRadix,List.head?_cons,Option.some.injEq,na,if_false,List.cons_ne_nil,
        readDigits,va,vb,vc,Option.bind_eq_bind,Option.bind_some]
      rw [if_pos (by omega),if_pos (by omega),if_pos (by omega)]
      congr 1
      omega
    · cases h
  · cases h

def named (name line : Bytes) : Option Bytes :=
  (splitOnce 58 line).bind (fun f =>
    if headerNameEq (trimAscii f.1) name then some (trimAscii f.2) else none)

def lastNamed (name : Bytes) (lines : List Bytes) : Option Bytes :=
  (lines.filterMap (named name)).getLast?

def keptLine (line : Bytes) : Bool :=
  match splitOnce 58 line with
  | some f => ! isHopHeaderName (trimAscii f.1)
  | none => false

def closes (value : Bytes) : Bool := headerValueHasToken value (ascii "close")

theorem lastNamedCons (name line : Bytes) (lines : List Bytes) :
    lastNamed name (line::lines) = (lastNamed name lines).orElse (fun _ => named name line) := by
  unfold lastNamed
  rw [List.filterMap_cons]
  cases named name line with
  | none => cases (lines.filterMap (named name)).getLast? <;> rfl
  | some v =>
    rw [List.getLast?_cons]
    cases (lines.filterMap (named name)).getLast? <;> rfl

theorem rawLineStep {scan next line} (full : line ≠ []) (h : rawLine scan line = .ok next) :
    (splitOnce 58 line).isSome = true ∧
    next.connectionClose = ((named (ascii "connection") line).map closes).getD scan.connectionClose ∧
    next.contentLength = (named (ascii "content-length") line).elim scan.contentLength parseU64Ascii ∧
    next.out = scan.out ++ (if keptLine line then line ++ crlf else []) := by
  unfold rawLine at h
  rw [if_neg full] at h
  cases cut : splitOnce 58 line with
  | none => rw [cut] at h; cases h
  | some f =>
    obtain ⟨name,value⟩ := f
    rw [cut] at h
    dsimp only at h
    split at h
    · cases h
    rename_i length made
    have same : length = (named (ascii "content-length") line).elim scan.contentLength
        parseU64Ascii := by
      unfold rawLength at made
      simp only [named,cut]
      split at made
      · rename_i isLength
        cases parsed : parseU64Ascii (trimAscii value) with
        | none => rw [parsed] at made; cases made
        | some n =>
          rw [parsed] at made
          cases made
          simp [isLength,parsed]
      · rename_i other
        cases made
        simp [other]
    have kept : keptLine line = ! isHopHeaderName (trimAscii name) := by simp [keptLine,cut]
    refine ⟨rfl,?_,?_,?_⟩
    · split at h <;> cases h <;> simp only [named,cut,Option.bind_some] <;>
        cases headerNameEq (trimAscii name) (ascii "connection") <;> rfl
    · split at h <;> cases h <;> exact same
    · rw [kept]
      split at h
      · rename_i hop
        cases h
        simp [hop]
      · rename_i other
        cases h
        simp [other]

theorem scanSpec {lines scan last} (full : [] ∉ lines) (h : lines.foldlM rawLine scan = .ok last) :
    (∀ line ∈ lines, (splitOnce 58 line).isSome = true) ∧
    last.connectionClose = ((lastNamed (ascii "connection") lines).map closes).getD scan.connectionClose ∧
    last.contentLength = (lastNamed (ascii "content-length") lines).elim scan.contentLength parseU64Ascii ∧
    last.out = scan.out ++ (lines.filter keptLine).flatMap (· ++ crlf) := by
  induction lines generalizing scan with
  | nil =>
    cases h
    exact ⟨by simp,rfl,rfl,by simp⟩
  | cons line lines ih =>
    rw [List.foldlM_cons] at h
    simp only [bind,Except.bind] at h
    split at h
    · cases h
    · rename_i next step
      obtain ⟨colon,close,length,out⟩ :=
        rawLineStep (fun empty => full (by simp [empty])) step
      obtain ⟨colons,close',length',out'⟩ := ih (fun mem => full (List.mem_cons_of_mem _ mem)) h
      refine ⟨by simpa [colon] using colons,?_,?_,?_⟩
      · rw [close',close,lastNamedCons]
        cases lastNamed (ascii "connection") lines <;> rfl
      · rw [length',length,lastNamedCons]
        cases lastNamed (ascii "content-length") lines <;> rfl
      · rw [out',out,List.filter_cons]
        cases keptLine line <;> simp

structure RawAccepted (raw : Bytes) (r : RawFixedResponse) where
  digits : Bytes
  scan : RawScan
  length : Nat
  version : ((startLine raw).splitOn 32).headD [] = ascii "HTTP/1.1"
  word : ((startLine raw).splitOn 32).tail.find? (· ≠ []) = some digits
  status : rawStatus digits = .ok r.status
  allowed : H1.rawStatusAllowsBody r.status = true
  scanned : (headerLines raw).foldlM rawLine ⟨none,false,startLine raw ++ crlf⟩ = .ok scan
  found : scan.contentLength = some length
  positive : length ≠ 0
  result : r = ⟨r.status,! scan.connectionClose,scan.out ++ crlf,.fixed length⟩

theorem rawFixedAccepted {raw r} (h : rawFixedResponse raw = .ok (some r)) : Nonempty (RawAccepted raw r) := by
  unfold rawFixedResponse at h
  simp only [bind,Except.bind] at h
  split at h
  · cases h
  rename_i digits found
  have word : ((startLine raw).splitOn 32).tail.find? (· ≠ []) = some digits := by
    unfold orInvalid at found
    split at found
    · rename_i same
      cases found
      exact same
    · cases found
  split at h
  · cases h
  rename_i status valid
  split at h
  · cases h
  rename_i plain
  simp only [Bool.or_eq_true,decide_eq_true_eq,Bool.not_eq_true',not_or,not_not, Bool.not_eq_false] at plain
  split at h
  · cases h
  rename_i scan scanned
  split at h
  · cases h
  · cases h
  · rename_i length positive length'
    cases h
    exact ⟨⟨digits,scan,length,plain.1,word,valid,plain.2,scanned,length',positive,rfl⟩⟩

variable {raw : Bytes} {r : RawFixedResponse}

theorem RawAccepted.start (a : RawAccepted raw r) :
    ∃ after, splitOnce 32 (startLine raw) = some (ascii "HTTP/1.1",after) ∧
      statusWord (strTrimStart after) = a.digits := by
  have version := a.version
  have word := a.word
  cases pieces : (startLine raw).splitOn 32 with
  | nil => rw [pieces] at word; cases word
  | cons first rest =>
    rw [pieces] at version word
    obtain ⟨absent,tail⟩ := splitOnCut pieces
    have first : first = ascii "HTTP/1.1" := version
    rcases tail with ⟨none,_⟩ | ⟨after,same,rfl⟩
    · rw [none] at word; cases word
    · obtain ⟨k,more,split,stop,free,some⟩ := firstWord word
      obtain ⟨d,ds,digits⟩ := List.exists_cons_of_ne_nil some
      have range := (threeDigits a.status).1 d (by rw [digits]; simp)
      have plain : ∀ d : UInt8, 48 ≤ d ∧ d ≤ 57 → plainByte d = true ∧
          asciiWhitespace d = false := by decide +kernel
      have trimmed : strTrimStart after = a.digits ++ more := by
        rw [split,digits,List.append_assoc]
        exact strTrimStartStop (plain d range).1 (plain d range).2
      refine ⟨after,?_,?_⟩
      · rw [same,first]
        exact splitOnceAppend after (first ▸ absent)
      · rw [trimmed,statusWord]
        rcases stop with rfl | ⟨t,rfl⟩
        · have none : splitOnce 32 (a.digits ++ []) = none := by
            rw [List.append_nil,splitOnce,Option.map_eq_none_iff,List.findIdx?_eq_none_iff]
            intro b mem
            exact beq_eq_false_iff_ne.mpr (fun blank => free (blank ▸ mem))
          rw [none]
          simp
        · rw [splitOnceAppend t free]

theorem RawAccepted.statusRange (a : RawAccepted raw r) : 200 ≤ r.status ∧ r.status ≤ 999 ∧
    r.status ≠ 204 ∧ r.status ≠ 304 := by
  have allowed := a.allowed
  simp only [H1.rawStatusAllowsBody,Bool.not_eq_true',Bool.or_eq_false_iff,decide_eq_false_iff_not,
    beq_eq_false_iff_ne] at allowed
  exact ⟨by omega,(threeDigits a.status).2.2.1,allowed.1.2,allowed.2⟩

theorem RawAccepted.parses (a : RawAccepted raw r) (full : [] ∉ headerLines raw) {head} :
    parseResponseHead raw = .ok head ↔
      validUtf8 raw = true ∧ (∀ line ∈ headerLines raw, (fieldPair line).isSome = true) ∧
      head.status.code = r.status ∧ head.version = .http11 ∧ head.headers = lineFields (headerLines raw) ∧
      ∃ after, splitOnce 32 (startLine raw) = some (ascii "HTTP/1.1",after) ∧ head.statusText = strTrimStart after := by
  obtain ⟨after,cut,code⟩ := a.start
  have range := a.statusRange
  have status : StatusCode.fromU16 r.status = some ⟨r.status,by omega⟩ :=
    dif_pos ⟨by omega,range.2.1⟩
  have version : parseVersion (ascii "HTTP/1.1") = some .http11 := by decide +kernel
  unfold parseResponseHead
  cases text : validUtf8 raw with
  | false => simp
  | true =>
    simp only [Bool.not_true,Bool.false_eq_true,if_false,cut,orInvalid,bind,Except.bind,code,
      version,(threeDigits a.status).2.1,status,true_and]
    cases fields : parseHeaders (headerLines raw) with
    | error e =>
      simp only [reduceCtorEq,false_iff]
      rintro ⟨all,_⟩
      rw [(parseHeadersExact full).mpr ⟨all,rfl⟩] at fields
      cases fields
    | ok headers =>
      obtain ⟨all,rfl⟩ := (parseHeadersExact full).mp fields
      constructor
      · intro h
        cases h
        exact ⟨all,rfl,rfl,rfl,after,rfl,rfl⟩
      · rintro ⟨_,sameStatus,sameVersion,sameHeaders,after',cut',sameText⟩
        obtain ⟨⟨c,valid⟩,t,v,m⟩ := head
        cases cut'
        cases sameStatus
        cases sameVersion
        cases sameHeaders
        cases sameText
        rfl

end ZeroServe.Proxy
