import ZeroServe.H1Body

/-! How the reverse proxy rewrites a request's headers: the hop-by-hop strip with the names a Connection field
nominates, the framing of the forwarded body and the X-Forwarded fields. -/
namespace ZeroServe.Proxy
open ByteText H1

inductive Scheme where
  | http
  | https
  deriving DecidableEq

def Scheme.asStr : Scheme → HeaderValue
  | .http => .ofAscii "http"
  | .https => .ofAscii "https"

def removeText (headers : HeaderMap) (text : Bytes) : HeaderMap :=
  headers.removeWhere (·.text == text)

def connectionValues (headers : HeaderMap) : List Bytes :=
  (headers.getAll .connection).filterMap HeaderValue.toStr

def nominations (headers : HeaderMap) : List Bytes :=
  ((connectionValues headers).flatMap listParts).filter (· ≠ [])

def sparesUpgrade (keepUpgrade : Bool) (name : Bytes) : Bool :=
  keepUpgrade && eqIgnoreAsciiCase name (ascii "upgrade")

def removeNominated (keepUpgrade : Bool) (names : List Bytes) (headers : HeaderMap) : HeaderMap :=
  names.foldl (fun h name => if sparesUpgrade keepUpgrade name then h
    else removeText h (lower name)) headers

def keepUpgradeToken (keepUpgrade : Bool) (original headers : HeaderMap) : HeaderMap :=
  if keepUpgrade && connectionValues original != [] then
    if (nominations original).any (sparesUpgrade keepUpgrade) then
      headers.insert .connection (.ofAscii "upgrade")
    else headers.remove .connection
  else headers

def hopNames : List HeaderName :=
  [.altSvc,.connection,.proxyConnection,.proxyAuthenticate,.proxyAuthorization,.keepAlive,
   .te,.trailer,.transferEncoding,.upgrade,.expect]

def removeHop (keepUpgrade keepTeTrailers : Bool) (headers : HeaderMap) (name : HeaderName) :
    HeaderMap :=
  if keepUpgrade && (name == .connection || name == .upgrade) then headers
  else if name == .te && keepTeTrailers then headers.insert .te (.ofAscii "trailers")
  else headers.remove name

def stripHopHeadersInner (keepUpgrade preserveTeTrailers : Bool) (headers : HeaderMap) :
    HeaderMap :=
  let stripped := keepUpgradeToken keepUpgrade headers
    (removeNominated keepUpgrade (nominations headers) headers)
  let keepTeTrailers :=
    preserveTeTrailers && headerContainsToken stripped .te (ascii "trailers")
  hopNames.foldl (removeHop keepUpgrade keepTeTrailers) stripped

def stripHopHeaders (keepUpgrade : Bool) (headers : HeaderMap) : HeaderMap :=
  stripHopHeadersInner keepUpgrade false headers

def applyProxyRequestHeaders (body : Body) (headers : HeaderMap) : HeaderMap :=
  match body with
  | .none => (headers.remove .contentLength).remove .transferEncoding
  | .chunked .. => (headers.remove .contentLength).insert .transferEncoding (.ofAscii "chunked")
  | _ => headers.remove .transferEncoding

def applyProxyRequestHeadersH2 (hasBody : Bool) (headers : HeaderMap) : Bool × HeaderMap :=
  if ! hasBody then (false,(headers.remove .contentLength).remove .transferEncoding)
  else if (contentLength headers).isSome then (false,headers.remove .transferEncoding)
  else (true,(headers.remove .contentLength).insert .transferEncoding (.ofAscii "chunked"))

def hostValue (headers : HeaderMap) : Option HeaderValue :=
  (headers.get .host).bind (fun v => v.toStr.bind HeaderValue.fromBytes)

def applyCaddyDefaultForwardedHeaders (peer : HeaderValue) (scheme : Scheme)
    (headers : HeaderMap) : HeaderMap :=
  let headers := (headers.insert .xForwardedFor peer).insert .xForwardedProto scheme.asStr
  headers.insert .xForwardedHost ((hostValue headers).getD ⟨[],Eq.refl true⟩)

def applyCaddyForwardedHeaders (peer : HeaderValue) (scheme : Scheme) (headers : HeaderMap) :
    HeaderMap :=
  let headers := headers.append .xForwardedFor peer
  let headers := if headers.containsKey .xForwardedProto then headers
    else headers.insert .xForwardedProto scheme.asStr
  match hostValue headers with
  | some host => if headers.containsKey .xForwardedHost then headers
      else headers.insert .xForwardedHost host
  | none => headers

structure Forwarding where
  peer : HeaderValue
  scheme : Scheme
  caddyHeaders : Bool
  defaultForwarded : Bool
  deriving DecidableEq

def applyReverseProxyForwardedHeaders (f : Forwarding) (headers : HeaderMap) : HeaderMap :=
  if f.defaultForwarded then applyCaddyDefaultForwardedHeaders f.peer f.scheme headers
  else if f.caddyHeaders then headers
  else applyCaddyForwardedHeaders f.peer f.scheme headers

def prepareReverseProxyRequestHeadersH1 (f : Forwarding) (body : Body) (websocket : Bool)
    (headers : HeaderMap) : HeaderMap :=
  applyReverseProxyForwardedHeaders f
    (applyProxyRequestHeaders body (stripHopHeadersInner websocket f.caddyHeaders headers))

def prepareReverseProxyRequestHeadersH2 (f : Forwarding) (hasBody : Bool) (headers : HeaderMap) :
    Bool × HeaderMap :=
  let (chunked,headers) :=
    applyProxyRequestHeadersH2 hasBody (stripHopHeadersInner false f.caddyHeaders headers)
  (chunked,applyReverseProxyForwardedHeaders f headers)

def nominated (keepUpgrade : Bool) (headers : HeaderMap) (n : HeaderName) : Bool :=
  (nominations headers).any (fun name => ! sparesUpgrade keepUpgrade name && lower name == n.text)

variable (keepUpgrade : Bool)

theorem getAllRemoveNominated (names : List Bytes) (headers : HeaderMap) (n : HeaderName) :
    (removeNominated keepUpgrade names headers).getAll n =
      if names.any (fun name => ! sparesUpgrade keepUpgrade name && lower name == n.text) then []
      else headers.getAll n := by
  induction names generalizing headers with
  | nil => rfl
  | cons name names ih =>
    have step : removeNominated keepUpgrade (name::names) headers =
        removeNominated keepUpgrade names (if sparesUpgrade keepUpgrade name then headers
          else removeText headers (lower name)) := rfl
    rw [step,ih,List.any_cons]
    cases spared : sparesUpgrade keepUpgrade name with
    | true => simp
    | false =>
      simp only [Bool.false_eq_true,if_false,removeText,FieldMap.getAllRemoveWhere]
      by_cases hit : lower name = n.text
      · simp [hit]
      · have miss : ¬ n.text = lower name := fun same => hit same.symm
        simp [hit,miss]

theorem getAllKeepUpgradeToken (original headers : HeaderMap) {n} (other : n ≠ .connection) :
    (keepUpgradeToken keepUpgrade original headers).getAll n = headers.getAll n := by
  unfold keepUpgradeToken
  split
  · split
    · exact FieldMap.getAllInsertOther _ _ other
    · exact FieldMap.getAllRemoveOther _ other
  · rfl

theorem getAllRemoveHops (keepUpgrade keepTe : Bool) (names : List HeaderName) (headers : HeaderMap) {n}
    (other : n ∉ names) : (names.foldl (removeHop keepUpgrade keepTe) headers).getAll n = headers.getAll n := by
  induction names generalizing headers with
  | nil => rfl
  | cons name names ih =>
    rw [List.foldl_cons,ih _ (fun mem => other (by simp [mem]))]
    have apart : n ≠ name := fun same => other (by simp [same])
    unfold removeHop
    split
    · rfl
    · split
      · rename_i te
        have same : name = .te := by simp at te; exact te.1
        exact FieldMap.getAllInsertOther _ _ (same ▸ apart)
      · exact FieldMap.getAllRemoveOther _ apart

theorem getAllHops (keepTe : Bool) (names : List HeaderName) (headers : HeaderMap) (n : HeaderName) :
    (names.foldl (removeHop false keepTe) headers).getAll n =
      if n ∈ names then (if n = .te ∧ keepTe = true then [.ofAscii "trailers"] else [])
      else headers.getAll n := by
  have step : ∀ (h : HeaderMap) (name : HeaderName), (removeHop false keepTe h name).getAll n =
      if n = name then (if n = .te ∧ keepTe = true then [.ofAscii "trailers"] else [])
      else h.getAll n := by
    intro h name
    unfold removeHop
    by_cases same : n = name
    · subst same
      by_cases te : n = .te
      · subst te
        cases keepTe <;> simp
      · simp [te]
    · by_cases te : name = .te
      · subst te
        cases keepTe <;> simp [same]
      · simp [te,same]
  induction names generalizing headers with
  | nil => rfl
  | cons name names ih =>
    rw [List.foldl_cons,ih,step]
    by_cases same : n = name <;> by_cases mem : n ∈ names <;> simp [same]

variable (preserveTe : Bool) (f : Forwarding) (headers : HeaderMap)

theorem getAllStrip {n} (other : n ∉ hopNames) :
    (stripHopHeadersInner keepUpgrade preserveTe headers).getAll n =
      if nominated keepUpgrade headers n then [] else headers.getAll n := by
  have apart : n ≠ .connection := fun same => other (by rw [same]; decide +kernel)
  unfold stripHopHeadersInner
  rw [getAllRemoveHops _ _ _ _ other,getAllKeepUpgradeToken _ _ _ apart,getAllRemoveNominated]
  rfl

theorem getAllStripHop {n} (hop : n ∈ hopNames) (other : n ≠ .te) :
    (stripHopHeadersInner false preserveTe headers).getAll n = [] := by
  unfold stripHopHeadersInner
  rw [getAllHops,if_pos hop,if_neg (fun h => other h.1)]

def forwardedNames : List HeaderName := [.xForwardedFor,.xForwardedProto,.xForwardedHost]

theorem getAllForwarded {n} (other : n ∉ forwardedNames) :
    (applyReverseProxyForwardedHeaders f headers).getAll n = headers.getAll n := by
  have apart : n ≠ .xForwardedFor ∧ n ≠ .xForwardedProto ∧ n ≠ .xForwardedHost := by
    simpa [forwardedNames] using other
  obtain ⟨address,proto,host⟩ := apart
  unfold applyReverseProxyForwardedHeaders
  split
  · simp only [applyCaddyDefaultForwardedHeaders,FieldMap.getAllInsertOther,ne_eq,address,proto, host,not_false_eq_true]
  · split
    · rfl
    · unfold applyCaddyForwardedHeaders
      dsimp only
      repeat' split
      all_goals simp only [FieldMap.getAllInsertOther,FieldMap.getAllAppendOther,ne_eq,address,
        proto,host,not_false_eq_true]

theorem contentLengthEndToEnd : HeaderName.contentLength ∉ hopNames ∧
    HeaderName.contentLength ∉ forwardedNames ∧ HeaderName.transferEncoding ∉ forwardedNames ∧
    HeaderName.contentLength ≠ .transferEncoding := by decide +kernel

theorem preparedCodings (body : Body) (websocket : Bool) (headers : HeaderMap) :
    (prepareReverseProxyRequestHeadersH1 f body websocket headers).getAll .transferEncoding =
      if body.isChunked then [.ofAscii "chunked"] else [] := by
  unfold prepareReverseProxyRequestHeadersH1
  rw [getAllForwarded f _ contentLengthEndToEnd.2.2.1]
  cases body <;> simp [applyProxyRequestHeaders,Body.isChunked]

theorem preparedLengths (body : Body) (websocket : Bool) (headers : HeaderMap) :
    (prepareReverseProxyRequestHeadersH1 f body websocket headers).getAll .contentLength =
      if body.isChunked || body = .none || nominated websocket headers .contentLength then []
      else headers.getAll .contentLength := by
  obtain ⟨endToEnd,other,_,apart⟩ := contentLengthEndToEnd
  unfold prepareReverseProxyRequestHeadersH1
  rw [getAllForwarded f _ other]
  cases body <;>
    simp [applyProxyRequestHeaders,Body.isChunked,apart,getAllStrip _ _ _ endToEnd]

theorem nominatedToken {n} (other : n ≠ .upgrade) :
    nominated keepUpgrade headers n = headerContainsToken headers .connection n.text := by
  have nonempty : n.text ≠ [] := by
    have h := n.valid
    simp only [headerNameText,Bool.and_eq_true] at h
    simpa using h.1.1
  apply Bool.eq_iff_iff.mpr
  simp only [nominated,nominations,connectionValues,headerContainsToken,List.any_eq_true,
    List.mem_filter,List.mem_flatMap,List.mem_filterMap,Bool.and_eq_true,
    beq_iff_eq,decide_eq_true_eq]
  constructor
  · intro h
    obtain ⟨part,⟨⟨s,⟨v,mem,readable⟩,inside⟩,_⟩,_,same⟩ := h
    refine ⟨v,mem,?_⟩
    simp only [valueHasToken,readable,List.any_eq_true,eqIgnoreAsciiCase,beq_iff_eq]
    exact ⟨part,inside,by rw [same,nameLower]⟩
  · intro h
    obtain ⟨v,mem,token⟩ := h
    unfold valueHasToken at token
    split at token
    · rename_i s readable
      obtain ⟨part,inside,same⟩ := List.any_eq_true.mp token
      have same : lower part = n.text := by
        simpa [eqIgnoreAsciiCase,nameLower] using same
      refine ⟨part,⟨⟨s,⟨v,mem,readable⟩,inside⟩,?_⟩,?_,same⟩
      · intro empty
        rw [empty] at same
        exact nonempty same.symm
      · have apart : eqIgnoreAsciiCase part (ascii "upgrade") = false := by
          apply Bool.eq_false_iff.mpr
          intro hit
          apply other
          apply nameExt
          rw [← same]
          simp only [eqIgnoreAsciiCase,beq_iff_eq] at hit
          rw [hit]
          decide +kernel
        simp [sparesUpgrade,apart]
    · contradiction

theorem getAllStripTe :
    (stripHopHeadersInner false preserveTe headers).getAll .te =
      if preserveTe && ! headerContainsToken headers .connection (ascii "te") &&
        headerContainsToken headers .te (ascii "trailers") then [.ofAscii "trailers"] else [] := by
  have apart : HeaderName.te ≠ .upgrade := by decide +kernel
  have listed : headerContainsToken headers .connection (ascii "te") =
      nominated false headers .te := (nominatedToken false headers apart).symm
  have hop : HeaderName.te ∈ hopNames := by decide +kernel
  have left : (keepUpgradeToken false headers (removeNominated false (nominations headers) headers)).getAll .te =
      if nominated false headers .te then [] else headers.getAll .te := by
    rw [getAllKeepUpgradeToken false headers _ (by decide +kernel),getAllRemoveNominated]
    rfl
  unfold stripHopHeadersInner
  rw [getAllHops,if_pos hop,listed]
  simp only [headerContainsToken,left]
  cases nominated false headers .te <;> cases preserveTe <;> simp

def unlistedValues (headers : HeaderMap) (n : HeaderName) : List HeaderValue :=
  if headerContainsToken headers .connection n.text then [] else headers.getAll n

def survivingLength (headers : HeaderMap) : Option Nat :=
  if headerContainsToken headers .connection (ascii "content-length") then none
  else contentLength headers

theorem strippedLengths :
    (stripHopHeadersInner keepUpgrade preserveTe headers).getAll .contentLength =
      if headerContainsToken headers .connection (ascii "content-length") then []
      else headers.getAll .contentLength := by
  rw [getAllStrip keepUpgrade preserveTe headers contentLengthEndToEnd.1,
    nominatedToken keepUpgrade headers (by decide +kernel)]
  rfl

theorem strippedLength :
    contentLength (stripHopHeadersInner keepUpgrade preserveTe headers) = survivingLength headers := by
  unfold survivingLength contentLength FieldMap.get
  rw [strippedLengths]
  split <;> rfl

/- The HTTP/2 form looks at the stripped map, so its three outcomes frame in three ways. -/
theorem preparedH2 (hasBody : Bool) (headers : HeaderMap) :
    let r := prepareReverseProxyRequestHeadersH2 f hasBody headers
    r.1 = (hasBody && (survivingLength headers).isNone) ∧
    r.2.getAll .transferEncoding = (if r.1 then [.ofAscii "chunked"] else []) ∧
    r.2.getAll .contentLength =
      if hasBody && (survivingLength headers).isSome then headers.getAll .contentLength else [] := by
  obtain ⟨_,lengthOther,codingOther,apart⟩ := contentLengthEndToEnd
  dsimp only [prepareReverseProxyRequestHeadersH2]
  rw [getAllForwarded f _ lengthOther,getAllForwarded f _ codingOther]
  unfold applyProxyRequestHeadersH2
  rw [strippedLength]
  cases hasBody with
  | false => simp [apart]
  | true =>
    cases left : survivingLength headers with
    | none => simp [apart]
    | some n =>
      have kept : headerContainsToken headers .connection (ascii "content-length") = false := by
        unfold survivingLength at left
        split at left
        · cases left
        · simpa using (by assumption : ¬ _ = true)
      simp [apart,strippedLengths,kept]

end ZeroServe.Proxy
