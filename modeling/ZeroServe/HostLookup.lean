import ZeroServe.HostTable
import ZeroServe.RegexMatch

/-! The lookup of a normalised host against `zs_caddy_host_match`, which goes from label to
label. -/
namespace ZeroServe.HostDispatch
open ByteText Host BinarySearch

section
variable {table : HostTable}

theorem hostOrdered (reachable : Reachable table) (host : Bytes) :
    Ordered (fun mid => hostCompare host ((renderHostTable table).entry mid)) table.entries.length := by
  have count : table.hosts.length = table.entries.length := List.length_map _
  have rising := List.pairwise_iff_getElem.mp table.sorted
  constructor
  · intro i j order within less
    rcases order.eq_or_lt with rfl | early
    · exact less
    · rw [← count] at within
      rw [entryIs reachable (early.trans within),hostCompareIs] at less
      rw [entryIs reachable within,hostCompareIs]
      exact Std.TransCmp.lt_trans less (rising i j _ within early)
  · intro i j order within more
    rcases order.eq_or_lt with rfl | early
    · exact more
    · rw [← count] at within
      rw [entryIs reachable within,hostCompareIs] at more
      rw [entryIs reachable (early.trans within),hostCompareIs]
      exact Std.OrientedCmp.gt_iff_lt.mpr
        (Std.TransCmp.lt_trans (rising i j _ within early) (Std.OrientedCmp.gt_iff_lt.mp more))

theorem hostsNodup (table : HostTable) : table.hosts.Nodup := by
  refine table.sorted.imp fun less same => ?_
  rw [Before,Std.compare_eq_iff_eq.mpr same] at less
  cases less

theorem lookupExact (reachable : Reachable table) (host : Bytes) {i} (within : i < table.hosts.length) :
    zsCaddyHostTableLookup host (renderHostTable table) = i ↔ host = table.hosts[i] := by
  have count : table.hosts.length = table.entries.length := List.length_map _
  have equal : ∀ j (inside : j < table.hosts.length),
      hostCompare host ((renderHostTable table).entry j) = .eq ↔ host = table.hosts[j] := by
    intro j inside
    rw [entryIs reachable inside,hostCompareIs,Std.compare_eq_iff_eq]
  have single : ∀ j < table.entries.length, ∀ k < table.entries.length,
      hostCompare host ((renderHostTable table).entry j) = .eq →
      hostCompare host ((renderHostTable table).entry k) = .eq → j = k := by
    intro j inside k also first second
    rw [← count] at inside also
    have same := ((equal j inside).mp first).symm.trans ((equal k also).mp second)
    exact (hostsNodup table).getElem_inj_iff.mp same
  rw [← equal i within]
  exact searchExact (hostOrdered reachable host) single (count ▸ within)

theorem lookupId (reachable : Reachable table) {pattern id} (mem : (pattern,id) ∈ table.entries) (host : Bytes) :
    zsCaddyHostTableLookup host (renderHostTable table) = table.zsHostId id ↔ host = pattern := by
  obtain ⟨within,place⟩ := HostTable.hostId mem
  rw [lookupExact reachable host within]
  rw [List.getElem?_eq_getElem within,Option.some.injEq] at place
  rw [place]

end

def caddyHostFuzzy (host : Bytes) : Bool := host.contains 42 || RegexMatch.containsPlaceholder host

def hostMatchLoop : Nat → Bytes → Bytes → Bool
  | 0,_,_ => false
  | fuel+1,host,pat =>
    let hostPart := host.takeWhile (· != 46)
    let patPart := pat.takeWhile (· != 46)
    if patPart != [42] && ! eqIgnoreAsciiCase hostPart patPart then false
    else match host.drop hostPart.length,pat.drop patPart.length with
      | _::host,_::pat => hostMatchLoop fuel host pat
      | [],[] => true
      | _,_ => false

def zsCaddyHostMatch (host pat : Bytes) : Bool := hostMatchLoop (host.length + 1) host pat

theorem lowerLabel (s : Bytes) : (lower s).takeWhile (· != 46) = lower (s.takeWhile (· != 46)) := by
  have dot : ∀ b, (lowerByte b != 46) = (b != 46) := by decide +kernel
  rw [lower,List.takeWhile_map,Function.comp_def]
  simp only [dot]
  rfl

theorem labelRest (s : Bytes) : s.drop (s.takeWhile (· != 46)).length = s.dropWhile (· != 46) := by
  have whole := List.takeWhile_append_dropWhile (p := (· != 46)) (l := s)
  have cut : (s.takeWhile (· != 46) ++ s.dropWhile (· != 46)).drop (s.takeWhile (· != 46)).length =
      s.dropWhile (· != 46) := List.drop_left
  rwa [whole] at cut

theorem labelDot {s rest : Bytes} {b : UInt8} (shape : s.drop (s.takeWhile (· != 46)).length = b::rest) : b = 46 := by
  rw [labelRest] at shape
  have first := List.head?_dropWhile_not (· != 46) s
  rw [shape] at first
  simpa using first

theorem lowerCut (host pat : Bytes) : lower host = lower pat ↔
    lower (host.takeWhile (· != 46)) = lower (pat.takeWhile (· != 46)) ∧
    lower (host.drop (host.takeWhile (· != 46)).length) = lower (pat.drop (pat.takeWhile (· != 46)).length) := by
  have joined : ∀ s : Bytes, lower s =
      lower (s.takeWhile (· != 46)) ++ lower (s.drop (s.takeWhile (· != 46)).length) := by
    intro s
    rw [labelRest,lower,lower,lower,← List.map_append,List.takeWhile_append_dropWhile]
  constructor
  · intro same
    have first : lower (host.takeWhile (· != 46)) = lower (pat.takeWhile (· != 46)) := by
      rw [← lowerLabel,← lowerLabel,same]
    refine ⟨first,?_⟩
    rw [joined host,joined pat,first] at same
    exact List.append_cancel_left same
  · rintro ⟨first,second⟩
    rw [joined host,joined pat,first,second]

theorem loopExact {fuel} {host pat : Bytes} (enough : host.length < fuel) (plain : 42 ∉ pat) :
    hostMatchLoop fuel host pat = true ↔ lower host = lower pat := by
  induction fuel generalizing host pat with
  | zero => omega
  | succ fuel ih =>
    have noStar : (pat.takeWhile (· != 46) != [42]) = true := by
      rw [bne_iff_ne]
      intro star
      exact plain ((List.takeWhile_prefix (p := (· != 46))).subset (star ▸ List.mem_singleton.mpr rfl))
    rw [hostMatchLoop,lowerCut]
    rw [noStar,eqIgnoreAsciiCase]
    by_cases first : lower (host.takeWhile (· != 46)) = lower (pat.takeWhile (· != 46))
    · rw [if_neg (by simp [first]),and_iff_right first]
      cases hostRest : host.drop (host.takeWhile (· != 46)).length with
      | nil =>
        cases patRest : pat.drop (pat.takeWhile (· != 46)).length with
        | nil => simp
        | cons p pat' => simp [lower]
      | cons h host' =>
        cases patRest : pat.drop (pat.takeWhile (· != 46)).length with
        | nil => simp [lower]
        | cons p pat' =>
          have shorter : host'.length < fuel := by
            have := congrArg List.length hostRest
            simp only [List.length_drop,List.length_cons] at this
            omega
          have inside : 42 ∉ pat' := fun mem =>
            plain (List.mem_of_mem_drop (patRest ▸ List.mem_cons_of_mem p mem))
          rw [labelDot hostRest,labelDot patRest]
          rw [ih shorter inside]
          simp [lower]
    · rw [if_pos (by simpa using first)]
      simp [first]

theorem hostMatchExact (host : Bytes) {pat} (plain : 42 ∉ pat) :
    zsCaddyHostMatch host pat = true ↔ lower host = lower pat := loopExact (Nat.lt_succ_self _) plain

theorem lowerNormal (host : Bytes) : lower (zsCaddyHostNormalize host) = zsCaddyHostNormalize host := by
  unfold zsCaddyHostNormalize
  split
  · exact lowerIdem _
  · split
    · exact lowerIdem _
    · exact lowerIdem _

theorem lookupMatches {table} (reachable : Reachable table) {pattern id} (mem : (pattern,id) ∈ table.entries)
    (host : Bytes) : zsCaddyHostTableLookup (zsCaddyHostNormalize host) (renderHostTable table) = table.zsHostId id ↔
      zsCaddyHostMatch (zsCaddyHostNormalize host) pattern = true := by
  obtain ⟨folded,plain⟩ := table.literal _ mem
  rw [lookupId reachable mem,hostMatchExact _ plain,lowerNormal,folded]

end ZeroServe.HostDispatch
