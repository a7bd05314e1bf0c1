import ZeroServe.RequestFraming
import ZeroServe.SimpleRequest

/-! When the one-pass encoder writes the request the general path would write. Fields are compared name by name. -/
namespace ZeroServe.Proxy
open ByteText H1

section
variable (f : Forwarding) (headers : HeaderMap)

theorem copiedSkipped {n} (skipped : isSimpleProxySkipRequestHeader n f.defaultForwarded = true) :
    (copiedFields f headers).getAll n = [] := by
  unfold copiedFields FieldMap.getAll
  rw [List.map_eq_nil_iff,List.filter_eq_nil_iff]
  intro field mem same
  obtain ⟨source,_,kept⟩ := List.mem_filterMap.mp mem
  have name : field.1 = n := by simpa using same
  unfold simpleField at kept
  split at kept
  · cases kept
  · rename_i other
    split at kept
    · rename_i te
      split at kept
      · cases Option.some.inj kept
        exact other (by rw [te,show HeaderName.te = n from name]; exact skipped)
      · cases kept
    · cases Option.some.inj kept
      exact other (name ▸ skipped)

theorem copiedOther {n} (kept : isSimpleProxySkipRequestHeader n f.defaultForwarded = false) (other : n ≠ .te) :
    (copiedFields f headers).getAll n = headers.getAll n := by
  unfold copiedFields FieldMap.getAll
  induction headers.pairs with
  | nil => rfl
  | cons field fields ih =>
    rw [List.filterMap_cons]
    by_cases name : field.1 = n
    · have same : simpleField f.defaultForwarded field = some field := by
        simp [simpleField,name,kept,other]
      simpa [same,name] using ih
    · have away : ∀ out, simpleField f.defaultForwarded field = some out → out.1 ≠ n := by
        intro out made
        unfold simpleField at made
        split at made
        · cases made
        · split at made
          · split at made
            · cases Option.some.inj made
              exact fun te => other te.symm
            · cases made
          · cases Option.some.inj made
            exact name
      cases made : simpleField f.defaultForwarded field with
      | none => simpa [name] using ih
      | some out => simpa [name,away out made] using ih

theorem copiedTe : (copiedFields f headers).getAll .te =
    ((headers.getAll .te).filter hasTrailers).map (fun _ => .ofAscii "trailers") := by
  have kept : ∀ cdf, isSimpleProxySkipRequestHeader .te cdf = false := by decide +kernel
  unfold copiedFields FieldMap.getAll
  induction headers.pairs with
  | nil => rfl
  | cons field fields ih =>
    by_cases name : field.1 = .te
    · cases has : hasTrailers field.2 with
      | true => simpa [simpleField,name,kept,has] using ih
      | false => simpa [simpleField,name,has] using ih
    · cases skipped : isSimpleProxySkipRequestHeader field.1 f.defaultForwarded with
      | true => simpa [simpleField,name,skipped] using ih
      | false => simpa [simpleField,name,skipped] using ih

def generalFields : HeaderMap := prepareReverseProxyRequestHeadersH1 f .none false headers

theorem generalSkipped {n} (skipped : n ∈ skippedNames) : (generalFields f headers).getAll n = [] := by
  have parted : ∀ m ∈ skippedNames, m ∉ forwardedNames ∧ m ≠ .te ∧
      (m ∈ hopNames ∨ m = .contentLength) := by decide +kernel
  obtain ⟨other,apart,kind⟩ := parted n skipped
  unfold generalFields prepareReverseProxyRequestHeadersH1
  rw [getAllForwarded f _ other]
  by_cases coding : n = .transferEncoding
  · simp [applyProxyRequestHeaders,coding]
  · by_cases length : n = .contentLength
    · simp [applyProxyRequestHeaders,length,contentLengthEndToEnd.2.2.2]
    · have hop := kind.resolve_right length
      simp [applyProxyRequestHeaders,coding,length,getAllStripHop _ _ hop apart]

theorem endToEnd {n} (kept : n ∉ skippedNames) (other : n ≠ .te) : (applyProxyRequestHeaders .none
      (stripHopHeadersInner false f.caddyHeaders headers)).getAll n =
      if headerContainsToken headers .connection n.text then [] else headers.getAll n := by
  have hop : n ∉ hopNames := by
    intro mem
    have parted : ∀ m ∈ hopNames, m ∈ skippedNames ∨ m = .te := by decide +kernel
    exact (parted n mem).elim kept other
  have away : n ≠ .transferEncoding ∧ n ≠ .contentLength ∧ n ≠ .upgrade := by
    refine ⟨?_,?_,?_⟩ <;> (intro same; exact kept (by rw [same]; decide +kernel))
  simp only [applyProxyRequestHeaders,ne_eq,away.1,away.2.1,not_false_eq_true,
    FieldMap.getAllRemoveOther,getAllStrip _ _ _ hop,nominatedToken false headers away.2.2]

theorem generalTe : (generalFields f headers).getAll .te =
    if f.caddyHeaders && ! headerContainsToken headers .connection (ascii "te") &&
      headerContainsToken headers .te (ascii "trailers") then [.ofAscii "trailers"] else [] := by
  have away : HeaderName.te ∉ forwardedNames ∧ HeaderName.te ≠ .transferEncoding ∧
      HeaderName.te ≠ .contentLength := by decide +kernel
  unfold generalFields prepareReverseProxyRequestHeadersH1
  rw [getAllForwarded f _ away.1]
  simp only [applyProxyRequestHeaders,ne_eq,away.2.1,away.2.2,not_false_eq_true,
    FieldMap.getAllRemoveOther,getAllStripTe]

theorem generalOther {n} (kept : n ∉ skippedNames) (other : n ≠ .te) (mine : n ∉ forwardedNames) :
    (generalFields f headers).getAll n =
      if headerContainsToken headers .connection n.text then [] else headers.getAll n := by
  unfold generalFields prepareReverseProxyRequestHeadersH1
  rw [getAllForwarded f _ mine,endToEnd f headers kept other]

end

theorem forwardedApart : HeaderName.xForwardedFor ≠ .xForwardedProto ∧
    HeaderName.xForwardedFor ≠ .xForwardedHost ∧ HeaderName.xForwardedProto ≠ .xForwardedHost ∧
    HeaderName.xForwardedProto ≠ .xForwardedFor ∧ HeaderName.xForwardedHost ≠ .xForwardedFor ∧
    HeaderName.xForwardedHost ≠ .xForwardedProto ∧ HeaderName.host ≠ .xForwardedFor ∧
    HeaderName.host ≠ .xForwardedProto := by decide +kernel

theorem hostValueSame {a b} (h : a.getAll .host = b.getAll .host) : hostValue a = hostValue b := by
  unfold hostValue FieldMap.get
  rw [h]

theorem defaultForwardedValues (peer : HeaderValue) (scheme : Scheme) (headers : HeaderMap) :
    let m := applyCaddyDefaultForwardedHeaders peer scheme headers
    m.getAll .xForwardedFor = [peer] ∧ m.getAll .xForwardedProto = [scheme.asStr] ∧
    m.getAll .xForwardedHost = [(hostValue headers).getD ⟨[],rfl⟩] := by
  obtain ⟨fp,fh,ph,_,_,_,hf,hp⟩ := forwardedApart
  have host : hostValue ((headers.insert .xForwardedFor peer).insert .xForwardedProto
      scheme.asStr) = hostValue headers := hostValueSame (by simp [hf,hp])
  simp [applyCaddyDefaultForwardedHeaders,host,fp,fh,ph]

theorem appendedForwardedValues (peer : HeaderValue) (scheme : Scheme) (headers : HeaderMap) :
    let m := applyCaddyForwardedHeaders peer scheme headers
    m.getAll .xForwardedFor = headers.getAll .xForwardedFor ++ [peer] ∧
    m.getAll .xForwardedProto = (if headers.getAll .xForwardedProto = [] then [scheme.asStr]
      else headers.getAll .xForwardedProto) ∧
    m.getAll .xForwardedHost = (if headers.getAll .xForwardedHost = []
      then (hostValue headers).toList else headers.getAll .xForwardedHost) := by
  obtain ⟨fp,fh,ph,pf,hf,hp,host1,host2⟩ := forwardedApart
  have afterPeer : ∀ n, n ≠ .xForwardedFor →
      (headers.append .xForwardedFor peer).getAll n = headers.getAll n :=
    fun n other => FieldMap.getAllAppendOther _ _ other
  have proto : (headers.append .xForwardedFor peer).containsKey .xForwardedProto = true ↔
      headers.getAll .xForwardedProto ≠ [] := by
    rw [FieldMap.containsKeyIff,afterPeer _ pf]
  generalize step : (if (headers.append .xForwardedFor peer).containsKey .xForwardedProto then
      headers.append .xForwardedFor peer
    else (headers.append .xForwardedFor peer).insert .xForwardedProto scheme.asStr) = m1
  have address : m1.getAll .xForwardedFor = headers.getAll .xForwardedFor ++ [peer] := by
    rw [← step]; split <;> simp [fp]
  have protos : m1.getAll .xForwardedProto = if headers.getAll .xForwardedProto = []
      then [scheme.asStr] else headers.getAll .xForwardedProto := by
    rw [← step]
    by_cases some : headers.getAll .xForwardedProto = []
    · rw [if_neg (fun h => proto.mp h some),if_pos some,FieldMap.getAllInsertSelf]
    · rw [if_pos (proto.mpr some),if_neg some,afterPeer _ pf]
  have keep : ∀ n, n ≠ .xForwardedFor → n ≠ .xForwardedProto →
      m1.getAll n = headers.getAll n := by
    intro n one two
    rw [← step]; split <;> simp [one,two]
  have host := hostValueSame (keep _ host1 host2)
  have hosts : m1.containsKey .xForwardedHost = true ↔ headers.getAll .xForwardedHost ≠ [] := by
    rw [FieldMap.containsKeyIff,keep _ hf hp]
  simp only [applyCaddyForwardedHeaders,step,host]
  cases found : hostValue headers with
  | none =>
    refine ⟨address,protos,?_⟩
    split <;> simp_all
  | some h =>
    by_cases some : headers.getAll .xForwardedHost = []
    · have missing : ¬ m1.containsKey .xForwardedHost = true := fun c => hosts.mp c some
      simp only [missing,some]
      exact ⟨by simp [fh,address],by simp [ph,protos],by simp⟩
    · simp only [hosts.mpr some,some]
      exact ⟨address,protos,keep _ hf hp⟩

def SameRequest (a b : Bytes) : Prop :=
  ∃ first second, WireMessage.readHead a = some (first,[]) ∧
    WireMessage.readHead b = some (second,[]) ∧ first.start = second.start ∧
    first.fields.Perm second.fields

def trailerLines (headers : HeaderMap) : List HeaderValue := (headers.getAll .te).filter hasTrailers

/- When one pass over the fields does what the general path does: nothing copied is listed in a Connection line; a TE
line asks for trailers only where the general path keeps it, and once; and where forwarded fields are added, only
X-Forwarded-For may have come, and the host must be readable. -/
structure CopyAgrees (f : Forwarding) (headers : HeaderMap) : Prop where
  mode : f.caddyHeaders = true → f.defaultForwarded = true
  unlisted : ∀ n, isSimpleProxySkipRequestHeader n f.defaultForwarded = false → n ≠ .te →
    headers.getAll n ≠ [] → headerContainsToken headers .connection n.text = false
  trailers : trailerLines headers = [] ∨ ((trailerLines headers).length = 1 ∧
    f.caddyHeaders = true ∧ headerContainsToken headers .connection (ascii "te") = false)
  fresh : f.defaultForwarded = false → headers.getAll .xForwardedProto = [] ∧
    headers.getAll .xForwardedHost = [] ∧ (hostValue headers).isSome = true

variable (f : Forwarding) (headers : HeaderMap)

theorem trailersAsked :
    headerContainsToken headers .te (ascii "trailers") = true ↔ trailerLines headers ≠ [] := by
  simp [headerContainsToken,trailerLines,hasTrailers]

theorem teLengths :
    (trailerLines headers = [] ∨ ((trailerLines headers).length = 1 ∧ f.caddyHeaders = true ∧
      headerContainsToken headers .connection (ascii "te") = false)) ↔
    (trailerLines headers).length = ((generalFields f headers).getAll .te).length := by
  rw [generalTe]
  by_cases none : trailerLines headers = []
  · have quiet :=
      Bool.eq_false_iff.mpr (fun h => (trailersAsked headers).mp h none)
    simp [none,quiet]
  · have asked := (trailersAsked headers).mpr none
    cases f.caddyHeaders <;> cases headerContainsToken headers .connection (ascii "te") <;>
      simp [none,asked]

theorem simpleOther {n} (mine : n ∉ forwardedNames) :
    (simpleFields f headers).getAll n = (copiedFields f headers).getAll n := by
  have away : n ≠ .xForwardedFor ∧ n ≠ .xForwardedProto ∧ n ≠ .xForwardedHost := by
    simpa [forwardedNames] using mine
  simp [simpleFields,away]

theorem simpleForwarded : (simpleFields f headers).getAll .xForwardedFor =
      (copiedFields f headers).getAll .xForwardedFor ++ [f.peer] ∧ (simpleFields f headers).getAll .xForwardedProto =
      (copiedFields f headers).getAll .xForwardedProto ++ [f.scheme.asStr] ∧
    (simpleFields f headers).getAll .xForwardedHost =
      (copiedFields f headers).getAll .xForwardedHost ++ [(hostValue headers).getD ⟨[],rfl⟩] := by
  obtain ⟨fp,fh,ph,pf,hf,hp,_⟩ := forwardedApart
  simp [simpleFields,fp,fh,ph,pf,hf,hp]

theorem unlistedLength (n : HeaderName) :
    (unlistedValues headers n).length ≤ (headers.getAll n).length := by
  unfold unlistedValues; split <;> simp

theorem forwardedKept : ∀ n ∈ HeaderName.host::forwardedNames, n ∉ skippedNames ∧ n ≠ HeaderName.te := by decide +kernel

theorem skipExact (n : HeaderName) (defaultForwarded : Bool) :
    isSimpleProxySkipRequestHeader n defaultForwarded = true ↔
      n ∈ skippedNames ∨ (defaultForwarded = true ∧ n ∈ forwardedNames) := by
  simp [isSimpleProxySkipRequestHeader,forwardedNames,or_assoc]

section
variable (f : Forwarding) (headers : HeaderMap)

theorem strippedForwarded {n} (mem : n ∈ HeaderName.host::forwardedNames) :
    (applyProxyRequestHeaders .none (stripHopHeadersInner false f.caddyHeaders headers)).getAll n =
      unlistedValues headers n :=
  endToEnd f headers (forwardedKept n mem).1 (forwardedKept n mem).2

def keptHost : Option HeaderValue :=
  hostValue (applyProxyRequestHeaders .none (stripHopHeadersInner false f.caddyHeaders headers))

theorem keptHostSome (h : (keptHost f headers).isSome = true) : keptHost f headers = hostValue headers := by
  apply hostValueSame
  have host : HeaderName.host ∈ HeaderName.host::forwardedNames := by simp
  rw [strippedForwarded f headers host]
  unfold unlistedValues
  split
  · rename_i listed
    exfalso
    have none : keptHost f headers = none := by
      unfold keptHost hostValue
      rw [(FieldMap.getEqNone _ _).mpr (by
        rw [strippedForwarded f headers host,unlistedValues,if_pos listed])]
      rfl
    rw [none] at h
    cases h
  · rfl

theorem generalDefault (mode : f.defaultForwarded = true) : (generalFields f headers).getAll .xForwardedFor = [f.peer] ∧
    (generalFields f headers).getAll .xForwardedProto = [f.scheme.asStr] ∧
    (generalFields f headers).getAll .xForwardedHost = [(keptHost f headers).getD ⟨[],rfl⟩] := by
  unfold generalFields prepareReverseProxyRequestHeadersH1 applyReverseProxyForwardedHeaders
  rw [if_pos mode]
  exact defaultForwardedValues _ _ _

theorem generalCaddy (mode : f.defaultForwarded = false) (caddy : f.caddyHeaders = true) :
    (generalFields f headers).getAll .xForwardedFor = unlistedValues headers .xForwardedFor := by
  have same : generalFields f headers =
      applyProxyRequestHeaders .none (stripHopHeadersInner false f.caddyHeaders headers) := by
    simp [generalFields,prepareReverseProxyRequestHeadersH1,applyReverseProxyForwardedHeaders, mode,caddy]
  rw [same,strippedForwarded f headers (by simp [forwardedNames])]

theorem generalAppended (mode : f.defaultForwarded = false) (caddy : f.caddyHeaders = false) :
    (generalFields f headers).getAll .xForwardedFor = unlistedValues headers .xForwardedFor ++ [f.peer] ∧
    (generalFields f headers).getAll .xForwardedProto =
      (if unlistedValues headers .xForwardedProto = [] then [f.scheme.asStr]
        else unlistedValues headers .xForwardedProto) ∧ (generalFields f headers).getAll .xForwardedHost =
      (if unlistedValues headers .xForwardedHost = [] then (keptHost f headers).toList
        else unlistedValues headers .xForwardedHost) := by
  have same : generalFields f headers = applyCaddyForwardedHeaders f.peer f.scheme
      (applyProxyRequestHeaders .none (stripHopHeadersInner false f.caddyHeaders headers)) := by
    simp [generalFields,prepareReverseProxyRequestHeadersH1,applyReverseProxyForwardedHeaders, mode,caddy]
  rw [same,← strippedForwarded f headers (by simp [forwardedNames]),
    ← strippedForwarded f headers (n := .xForwardedProto) (by simp [forwardedNames]),
    ← strippedForwarded f headers (n := .xForwardedHost) (by simp [forwardedNames])]
  exact appendedForwardedValues _ _ _

end

section
variable {f : Forwarding} {headers : HeaderMap}

theorem CopyAgrees.stays (agrees : CopyAgrees f headers) {n}
    (kept : isSimpleProxySkipRequestHeader n f.defaultForwarded = false) (other : n ≠ .te) :
    unlistedValues headers n = headers.getAll n := by
  unfold unlistedValues
  split
  · rename_i listed
    by_cases none : headers.getAll n = []
    · exact none.symm
    · rw [agrees.unlisted n kept other none] at listed
      cases listed
  · rfl

theorem CopyAgrees.hostKept (agrees : CopyAgrees f headers) : keptHost f headers = hostValue headers := by
  apply hostValueSame
  rw [strippedForwarded f headers (by simp)]
  exact agrees.stays (by cases f.defaultForwarded <;> decide +kernel) (by decide +kernel)

theorem forwardedMem : HeaderName.xForwardedFor ∈ forwardedNames ∧ .xForwardedProto ∈ forwardedNames ∧
    .xForwardedHost ∈ forwardedNames := by simp [forwardedNames]

theorem CopyAgrees.forwarded (agrees : CopyAgrees f headers) {n} (mine : n ∈ forwardedNames) :
    (simpleFields f headers).getAll n = (generalFields f headers).getAll n := by
  have simple := simpleForwarded f headers
  have cases3 : n = .xForwardedFor ∨ n = .xForwardedProto ∨ n = .xForwardedHost := by
    simpa [forwardedNames] using mine
  cases mode : f.defaultForwarded with
  | true =>
    have skipped : ∀ m ∈ forwardedNames, (copiedFields f headers).getAll m = [] :=
      fun m mem => copiedSkipped f headers ((skipExact m _).mpr (Or.inr ⟨mode,mem⟩))
    obtain ⟨address,proto,host⟩ := generalDefault f headers mode
    rw [skipped _ (by simp [forwardedNames]),skipped _ (by simp [forwardedNames]),
      skipped _ (by simp [forwardedNames])] at simple
    rw [agrees.hostKept] at host
    rcases cases3 with rfl | rfl | rfl
    · rw [simple.1,address]; rfl
    · rw [simple.2.1,proto]; rfl
    · rw [simple.2.2,host]; rfl
  | false =>
    have caddy :=
      Bool.eq_false_iff.mpr (fun h => by rw [agrees.mode h] at mode; cases mode)
    have copied : ∀ m ∈ forwardedNames,
        isSimpleProxySkipRequestHeader m f.defaultForwarded = false ∧ m ≠ .te := by
      rw [mode]; decide +kernel
    have kept : ∀ m ∈ forwardedNames, (copiedFields f headers).getAll m = headers.getAll m :=
      fun m mem => copiedOther f headers (copied m mem).1 (copied m mem).2
    have stays : ∀ m ∈ forwardedNames, unlistedValues headers m = headers.getAll m :=
      fun m mem => agrees.stays (copied m mem).1 (copied m mem).2
    obtain ⟨noProto,noHost,readable⟩ := agrees.fresh mode
    obtain ⟨address,proto,host⟩ := generalAppended f headers mode caddy
    obtain ⟨m1,m2,m3⟩ := forwardedMem
    rcases cases3 with rfl | rfl | rfl
    · rw [simple.1,address,kept _ m1,stays _ m1]
    · rw [simple.2.1,proto,kept _ m2,stays _ m2,noProto]; rfl
    · rw [simple.2.2,host,kept _ m3,stays _ m3,noHost,agrees.hostKept]
      obtain ⟨h,found⟩ := Option.isSome_iff_exists.mp readable
      simp [found]

theorem CopyAgrees.values (agrees : CopyAgrees f headers) (n : HeaderName) :
    (simpleFields f headers).getAll n = (generalFields f headers).getAll n := by
  by_cases mine : n ∈ forwardedNames
  · exact agrees.forwarded mine
  · rw [simpleOther f headers mine]
    by_cases skipped : n ∈ skippedNames
    · rw [copiedSkipped f headers ((skipExact n _).mpr (Or.inl skipped)), generalSkipped f headers skipped]
    · by_cases te : n = .te
      · subst te
        have lengths := (teLengths f headers).mp agrees.trailers
        have each : ∀ v ∈ (generalFields f headers).getAll .te,
            v = HeaderValue.ofAscii "trailers" := by
          rw [generalTe]
          intro v mem
          split at mem
          · exact List.mem_singleton.mp mem
          · cases mem
        rw [copiedTe,List.eq_replicate_of_mem each,← lengths]
        exact List.map_const'
      · have kept : isSimpleProxySkipRequestHeader n f.defaultForwarded = false :=
          Bool.eq_false_iff.mpr (fun h => ((skipExact n _).mp h).elim skipped (fun h => mine h.2))
        rw [copiedOther f headers kept te,generalOther f headers skipped te mine]
        exact (agrees.stays kept te).symm

/- Each way to disagree shows in the number of lines of one name. -/
theorem copyAgreesOfLengths (same : ∀ n, ((simpleFields f headers).getAll n).length =
    ((generalFields f headers).getAll n).length) : CopyAgrees f headers := by
  have simple := simpleForwarded f headers
  obtain ⟨m1,m2,m3⟩ := forwardedMem
  have kept (mode : f.defaultForwarded = false) : ∀ m ∈ forwardedNames,
      (copiedFields f headers).getAll m = headers.getAll m := by
    have copied : ∀ m ∈ forwardedNames,
        isSimpleProxySkipRequestHeader m f.defaultForwarded = false ∧ m ≠ .te := by
      rw [mode]; decide +kernel
    exact fun m mem => copiedOther f headers (copied m mem).1 (copied m mem).2
  have caddy (mode : f.defaultForwarded = false) : f.caddyHeaders = false := by
    cases caddy : f.caddyHeaders with
    | false => rfl
    | true =>
      have lengths := same .xForwardedFor
      rw [generalCaddy f headers mode caddy,simple.1,kept mode _ m1] at lengths
      have shorter := unlistedLength headers .xForwardedFor
      simp only [List.length_append,List.length_singleton] at lengths
      omega
  have fresh (mode : f.defaultForwarded = false) : headers.getAll .xForwardedProto = [] ∧
      headers.getAll .xForwardedHost = [] ∧ (hostValue headers).isSome = true := by
    obtain ⟨_,proto,host⟩ := generalAppended f headers mode (caddy mode)
    have protos := same .xForwardedProto
    have hosts := same .xForwardedHost
    rw [proto,simple.2.1,kept mode _ m2] at protos
    rw [host,simple.2.2,kept mode _ m3] at hosts
    have shorter := unlistedLength headers .xForwardedProto
    have shorter' := unlistedLength headers .xForwardedHost
    simp only [List.length_append,List.length_singleton] at protos hosts
    have noProto : headers.getAll .xForwardedProto = [] := by
      split at protos
      · exact List.length_eq_zero_iff.mp (by simpa using protos)
      · omega
    have hostSome : (keptHost f headers).isSome = true ∧ headers.getAll .xForwardedHost = [] := by
      split at hosts
      · cases found : keptHost f headers with
        | none => rw [found] at hosts; simp at hosts
        | some h =>
          rw [found] at hosts
          exact ⟨rfl,List.length_eq_zero_iff.mp (by simpa using hosts)⟩
      · omega
    exact ⟨noProto,hostSome.2,keptHostSome f headers hostSome.1 ▸ hostSome.1⟩
  refine ⟨fun h => ?_,?_,?_,fresh⟩
  · cases mode : f.defaultForwarded with
    | true => rfl
    | false => rw [caddy mode] at h; cases h
  · intro n copied te present
    apply Bool.eq_false_iff.mpr
    intro listed
    have lengths := same n
    have skipped : n ∉ skippedNames := fun mem => by
      rw [(skipExact n _).mpr (Or.inl mem)] at copied
      cases copied
    have positive := List.length_pos_iff.mpr present
    by_cases mine : n ∈ forwardedNames
    · have mode := Bool.eq_false_iff.mpr (fun mode => by
        rw [(skipExact n _).mpr (Or.inr ⟨mode,mine⟩)] at copied
        cases copied)
      obtain ⟨noProto,noHost,_⟩ := fresh mode
      have address : n = .xForwardedFor := by
        have cases3 : n = .xForwardedFor ∨ n = .xForwardedProto ∨ n = .xForwardedHost := by
          simpa [forwardedNames] using mine
        rcases cases3 with h | h | h
        · exact h
        · exact absurd (h ▸ noProto) present
        · exact absurd (h ▸ noHost) present
      subst address
      rw [(generalAppended f headers mode (caddy mode)).1,simple.1,kept mode _ m1,
        unlistedValues,if_pos listed] at lengths
      simp only [List.length_append,List.length_nil] at lengths
      omega
    · rw [simpleOther f headers mine,copiedOther f headers copied te,
        generalOther f headers skipped te mine,if_pos listed] at lengths
      simp only [List.length_nil] at lengths
      omega
  · have lengths := same .te
    have mine : HeaderName.te ∉ forwardedNames := by decide +kernel
    rw [simpleOther f headers mine,copiedTe,List.length_map] at lengths
    exact (teLengths f headers).mpr lengths

end

theorem fastPathPlain {head body isWs rules o} (fast : canUseSimpleProxyFastPath head body isWs rules o = true) :
    head.method = .get ∧ isWs = false := by
  simp only [canUseSimpleProxyFastPath,Bool.and_eq_true,beq_iff_eq,Bool.not_eq_true'] at fast
  exact ⟨fast.1.1.1.1.1.1,fast.1.1.1.1.2⟩

theorem simpleRequestExact {parseUri : Bytes → Option Uri} (displays : Displays parseUri)
    (f : Forwarding) {target : BackendTarget} {head : RequestHead} {uri : Uri} {body : Body}
    {rules : Rules} {o : Overrides} (built : buildBackendUri parseUri target head.uri = some uri)
    (fast : canUseSimpleProxyFastPath head body (isWebsocketUpgradeRequest head.headers) rules o = true) :
    SameRequest (encodeSimpleProxyRequestHead f target head)
      (encodeRequestHead (forwardedHead f uri (sendsBody head.method) body
        (isWebsocketUpgradeRequest head.headers) head.method head.headers)) ↔ CopyAgrees f head.headers := by
  obtain ⟨method,plain⟩ := fastPathPlain fast
  have text :=
    displays _ _ (backendUriLed target head.uri) (backendUriPlain target head.uri) built
  have bodiless : sendsBody head.method = false := by rw [method]; decide
  rw [bodiless,plain]
  -- both heads have the same first line, so only the fields are left to compare
  generalize slow : forwardedHead f uri false body false head.method head.headers = general
  have line : simpleRequestLine target head = requestLine general := by
    rw [← slow,simpleRequestLine,← text]
    rfl
  have fields : general.headers = generalFields f head.headers := by rw [← slow]; rfl
  have readSlow := readRequestHead general []
  have readFast := readHeadLines (requestLineProper general) (simpleFields f head.headers) []
  rw [← line,List.append_nil,← encodeSimpleFields,line] at readFast
  rw [List.append_nil,fields] at readSlow
  constructor
  · rintro ⟨first,second,hf,hs,_,perm⟩
    cases Option.some.inj (readFast.symm.trans hf)
    cases Option.some.inj (readSlow.symm.trans hs)
    exact copyAgreesOfLengths (wirePermLengths perm)
  · intro agrees
    exact ⟨_,_,readFast,readSlow,rfl,wirePermOfGetAll agrees.values⟩

def plainForwarding : Forwarding := ⟨.ofAscii "10.0.0.1",.http,false,false⟩

def getRoot (fields : List (HeaderName × HeaderValue)) : RequestHead :=
  ⟨.get,rootUri,.http11,⟨(.host,.ofAscii "a")::fields⟩⟩

def namedConnection : List (HeaderName × HeaderValue) :=
  [(.connection,.ofAscii "close, x-internal"),(.ofAscii "x-internal",.ofAscii "1")]

theorem onlyRootDisplays : Displays onlyRoot := by
  intro s u _ _ parsed
  unfold onlyRoot at parsed
  split at parsed <;> try contradiction
  rename_i root
  cases Option.some.inj parsed
  rw [root]
  decide

theorem plainGetSame : SameRequest (encodeSimpleProxyRequestHead plainForwarding backendRoot (getRoot []))
      (encodeRequestHead (forwardedHead plainForwarding rootUri (sendsBody .get) .none
        (isWebsocketUpgradeRequest (getRoot []).headers) .get (getRoot []).headers)) := by
  have fast : canUseSimpleProxyFastPath (getRoot []) .none
      (isWebsocketUpgradeRequest (getRoot []).headers) noRules ⟨none,none,none⟩ = true := by
    decide +kernel
  exact (simpleRequestExact onlyRootDisplays plainForwarding (by decide +kernel) fast).mpr
    ⟨by decide,fun _ _ _ _ => rfl,Or.inl (by decide +kernel),fun _ => by decide +kernel⟩

theorem listedFieldCopied : canUseSimpleProxyFastPath (getRoot namedConnection) .none
        (isWebsocketUpgradeRequest (getRoot namedConnection).headers) noRules ⟨none,none,none⟩ = true ∧
    buildBackendUri onlyRoot backendRoot (getRoot namedConnection).uri = some rootUri ∧ ¬ SameRequest
      (encodeSimpleProxyRequestHead plainForwarding backendRoot (getRoot namedConnection))
      (encodeRequestHead (forwardedHead plainForwarding rootUri (sendsBody .get) .none
        (isWebsocketUpgradeRequest (getRoot namedConnection).headers) .get (getRoot namedConnection).headers)) := by
  refine ⟨by decide +kernel,by decide +kernel,?_⟩
  rintro ⟨first,second,hf,hs,_,perm⟩
  have five : (WireMessage.readHead (encodeSimpleProxyRequestHead plainForwarding backendRoot
      (getRoot namedConnection))).map (fun r => r.1.fields.length) = some 5 := by decide +kernel
  have four : (WireMessage.readHead (encodeRequestHead (forwardedHead plainForwarding rootUri
      (sendsBody .get) .none (isWebsocketUpgradeRequest (getRoot namedConnection).headers) .get
      (getRoot namedConnection).headers))).map (fun r => r.1.fields.length) = some 4 := by
    decide +kernel
  rw [hf] at five
  rw [hs] at four
  have lengths := perm.length_eq
  simp only [Option.map_some,Option.some.injEq] at five four
  omega

end ZeroServe.Proxy
