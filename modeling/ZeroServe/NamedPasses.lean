import ZeroServe.ProxyExchange

/-! The passes over the headers of a relayed response, name by name: what each does to the values
under a name depends on the values under that name alone, the framing fields apart. -/
namespace ZeroServe.Proxy
open ByteText H1

theorem appendAllOther {name other} (apart : other ≠ name) (values : List HeaderValue) (headers : HeaderMap) :
    (appendAll name values headers).getAll other = headers.getAll other := by
  unfold appendAll
  induction values generalizing headers with
  | nil => rfl
  | cons v later ih => rw [List.foldl_cons,ih,FieldMap.getAllAppendOther _ _ apart]

def Namewise (f : HeaderMap → HeaderMap) : Prop :=
  ∀ (n : HeaderName) (a b : HeaderMap), a.getAll n = b.getAll n → (f a).getAll n = (f b).getAll n

variable (k : HeaderName)

theorem namewiseRemove : Namewise (·.remove k) := by
  intro n a b same
  by_cases hit : n = k
  · subst hit
    simp
  · simp [hit,same]

theorem namewiseInsert (v : HeaderValue) : Namewise (·.insert k v) := by
  intro n a b same
  by_cases hit : n = k
  · subst hit
    simp
  · simp [hit,same]

theorem namewiseAppendAll (values : List HeaderValue) : Namewise (appendAll k values) := by
  intro n a b same
  induction values generalizing a b with
  | nil => exact same
  | cons v values ih =>
    refine ih _ _ ?_
    by_cases hit : n = k
    · subst hit
      simp [same]
    · simp [hit,same]

theorem namewiseFold {β : Type} {step : HeaderMap → β → HeaderMap} (each : ∀ e, Namewise (step · e)) (l : List β) :
    Namewise (fun h => l.foldl step h) := by
  intro n a b same
  induction l generalizing a b with
  | nil => exact same
  | cons e l ih => exact ih _ _ (each e n a b same)

theorem namewiseEarly (early : HeaderMap) : Namewise (prependEarly early) := by
  refine namewiseFold (fun k n a b same => ?_) (earlyKeys early)
  dsimp only
  split
  · exact same
  · by_cases hit : n = k
    · subst hit
      rw [same]
      exact namewiseAppendAll n _ n _ _ (namewiseRemove n n a b same)
    · rw [appendAllOther hit,appendAllOther hit]
      exact namewiseRemove k n a b same

theorem namewiseMetadata (metadata : List (Bytes × Bytes)) : Namewise (applyMetadataResponseHeaders metadata) := by
  refine namewiseFold (fun entry n a b same => ?_) metadata
  split
  · exact same
  · split
    · exact namewiseInsert _ _ n a b same
    · exact same

variable (kind : StreamHint)

theorem namewiseRestore (length : Option HeaderValue) :
    Namewise (restoreFixedProxyContentLength kind length) := by
  intro n a b same
  have other (h : HeaderMap) (apart : n ≠ .contentLength) :
      (restoreFixedProxyContentLength kind length h).getAll n = h.getAll n := by
    unfold restoreFixedProxyContentLength
    split
    · rfl
    · split
      · exact FieldMap.getAllInsertOther _ _ apart
      · rfl
  by_cases hit : n = .contentLength
  · subst hit
    have held : a.containsKey .contentLength = b.containsKey .contentLength := by
      rw [Bool.eq_iff_iff,FieldMap.containsKeyIff,FieldMap.containsKeyIff,same]
    unfold restoreFixedProxyContentLength
    rw [held]
    split
    · exact same
    · split
      · exact namewiseInsert _ _ _ a b same
      · exact same
  · rw [other a hit,other b hit,same]

theorem applySame (sends : Bool) {n a b} (same : n ≠ .transferEncoding → a.getAll n = b.getAll n) :
    (applyProxyResponseHeaders kind sends a).getAll n = (applyProxyResponseHeaders kind sends b).getAll n := by
  have removed : (a.remove .transferEncoding).getAll n = (b.remove .transferEncoding).getAll n := by
    by_cases hit : n = .transferEncoding
    · subst hit
      simp
    · simp [hit,same hit]
  unfold applyProxyResponseHeaders
  split
  · exact removed
  · cases kind with
    | none =>
      by_cases hit : n = .transferEncoding
      · subst hit
        simp
      · simpa [hit] using namewiseRemove .contentLength n a b (same hit)
    | fixed => exact removed
    | stream =>
      by_cases hit : n = .transferEncoding
      · subst hit
        simp
      · simpa [hit] using namewiseRemove .contentLength n a b (same hit)

theorem applyOther {n} (te : n ≠ .transferEncoding) (length : n ≠ .contentLength) (kind : StreamHint) (sends : Bool)
    (headers : HeaderMap) : (applyProxyResponseHeaders kind sends headers).getAll n = headers.getAll n := by
  unfold applyProxyResponseHeaders
  split
  · simp [te]
  · cases kind <;> simp [te,length]

theorem replyHeadOther {n} (te : n ≠ .transferEncoding) (length : n ≠ .contentLength) (x : Exchange) (kind : StreamHint)
    (kept : Option HeaderValue) (status : Nat) (headers : HeaderMap) :
    (replyHead x kind kept status headers).headers.getAll n = headers.getAll n := by
  unfold replyHead
  dsimp only
  split
  · unfold restoreFixedProxyContentLength
    split
    · exact applyOther te length kind true headers
    · split
      · rw [FieldMap.getAllInsertOther _ _ length]
        exact applyOther te length kind true headers
      · exact applyOther te length kind true headers
  · split
    · simp [stripNoBodyHeaders,te,length]
    · exact applyOther te length kind false headers

theorem stripCoding (keepUpgrade : Bool) (headers : HeaderMap) :
    (stripHopHeaders keepUpgrade headers).getAll .contentEncoding =
      (stripHopHeaders false headers).getAll .contentEncoding := by
  have plain : HeaderName.contentEncoding ∉ hopNames ∧ HeaderName.contentEncoding ≠ .upgrade := by decide +kernel
  rw [stripHopHeaders,stripHopHeaders,getAllStrip _ _ _ plain.1,getAllStrip _ _ _ plain.1,
    nominatedToken _ _ plain.2,nominatedToken _ _ plain.2]

theorem replyHeadSame (x : Exchange) (kind : StreamHint) (length : Option HeaderValue) (status : Nat) {n a b}
    (same : n ≠ .transferEncoding → a.getAll n = b.getAll n) :
    (replyHead x kind length status a).headers.getAll n = (replyHead x kind length status b).headers.getAll n := by
  unfold replyHead
  dsimp only
  split
  · exact namewiseRestore kind length n _ _ (applySame kind true same)
  · split
    · unfold stripNoBodyHeaders
      by_cases hit : n = .transferEncoding
      · subst hit
        simp
      · exact namewiseRemove _ n _ _ (namewiseRemove _ n a b (same hit))
    · exact applySame kind false same

end ZeroServe.Proxy
