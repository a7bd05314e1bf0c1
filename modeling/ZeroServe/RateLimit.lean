import ZeroServe.ByteText
import ZeroServe.EventRun

/-! The rate limiter under concurrent calls. Every operation on the shared map is one step; other calls and sweeps of
old buckets may come between any two. -/
namespace ZeroServe.RateLimit
open ByteText EventRun

inductive RateLimitResult where
  | allowed | exceededSecond | exceededMinute | exceededHour | exceededBucketLimit
  deriving DecidableEq

structure Limits where
  perSecond : Nat
  perMinute : Nat
  perHour : Nat
  deriving DecidableEq

structure Bucket where
  secondTs : Nat
  secondCount : Nat
  minuteTs : Nat
  minuteCount : Nat
  hourTs : Nat
  hourCount : Nat
  deriving DecidableEq

def Bucket.new (now : Nat) : Bucket := ⟨now,0,now / 60,0,now / 3600,0⟩

def Bucket.reset (b : Bucket) (now : Nat) : Bucket where
  secondTs := now
  secondCount := if b.secondTs ≠ now then 0 else b.secondCount
  minuteTs := now / 60
  minuteCount := if b.minuteTs ≠ now / 60 then 0 else b.minuteCount
  hourTs := now / 3600
  hourCount := if b.hourTs ≠ now / 3600 then 0 else b.hourCount

def Bucket.increment (b : Bucket) : Bucket :=
  { b with secondCount := b.secondCount + 1, minuteCount := b.minuteCount + 1, hourCount := b.hourCount + 1 }

def Bucket.update (b : Bucket) (limits : Limits) (now : Nat) : Bucket × RateLimitResult :=
  let b := b.reset now
  if limits.perSecond > 0 ∧ b.secondCount ≥ limits.perSecond then (b,.exceededSecond) else
  if limits.perMinute > 0 ∧ b.minuteCount ≥ limits.perMinute then (b,.exceededMinute) else
  if limits.perHour > 0 ∧ b.hourCount ≥ limits.perHour then (b,.exceededHour) else
  (b.increment,.allowed)

abbrev Buckets := AList fun _ : Bytes => Bucket

inductive Stage where
  | containsKey | len | entry
  | done (result : RateLimitResult)
  deriving DecidableEq

structure Check where
  key : Bytes
  limits : Limits
  now : Nat
  stage : Stage
  deriving DecidableEq

def Check.step (c : Check) (maxBuckets clock : Nat) (buckets : Buckets) : Buckets × Check :=
  match c.stage with
  | .containsKey => (buckets,{ c with stage := if c.key ∈ buckets then .entry else .len })
  | .len => (buckets,{ c with stage :=
      if maxBuckets ≤ buckets.entries.length then .done .exceededBucketLimit else .entry })
  | .entry =>
    let updated := ((buckets.lookup c.key).getD (.new clock)).update c.limits c.now
    (buckets.insert c.key updated.1,{ c with stage := .done updated.2 })
  | .done _ => (buckets,c)

structure Sweep where
  now : Nat
  done : Bool
  deriving DecidableEq

def retainHour (buckets : Buckets) (hour : Nat) : Buckets :=
  ⟨buckets.entries.filter fun e => e.2.hourTs == hour, List.NodupKeys.sublist List.filter_sublist buckets.nodupKeys⟩

structure World where
  clock : Nat
  buckets : Buckets
  checks : List Check
  sweeps : List Sweep

inductive Event where
  | tick (seconds : Nat)
  | check (key : Bytes) (limits : Limits)
  | advance (i : Nat)
  | cleanupExpired
  | retain (i : Nat)

def next (maxBuckets : Nat) (w : World) : Event → World
  | .tick seconds => { w with clock := w.clock + seconds }
  | .check key limits => { w with checks := w.checks ++ [⟨key,limits,w.clock,.containsKey⟩] }
  | .advance i =>
    match w.checks[i]? with
    | none => w
    | some c =>
      let after := c.step maxBuckets w.clock w.buckets
      { w with buckets := after.1, checks := w.checks.set i after.2 }
  | .cleanupExpired => { w with sweeps := w.sweeps ++ [⟨w.clock,false⟩] }
  | .retain i =>
    match w.sweeps[i]? with
    | none => w
    | some s => if s.done then w else
      { w with buckets := retainHour w.buckets (s.now / 3600), sweeps := w.sweeps.set i { s with done := true } }

def started (clock : Nat) : World := ⟨clock,∅,[],[]⟩

theorem lookupRetain (buckets : Buckets) (hour : Nat) (key : Bytes) :
    (retainHour buckets hour).lookup key = (buckets.lookup key).filter fun b => b.hourTs == hour := by
  ext b
  rw [← Option.mem_def,AList.mem_lookup_iff]
  simp only [retainHour,List.mem_filter,Option.filter_eq_some_iff]
  rw [← Option.mem_def,AList.mem_lookup_iff]

def present (w : World) : Finset Bytes := w.buckets.keys.toFinset

def entering (w : World) : Finset Bytes :=
  ((w.checks.filter fun c => c.stage = .entry).map Check.key).toFinset

theorem presentCard (w : World) : (present w).card = w.buckets.entries.length := by
  rw [present,List.toFinset_card_of_nodup w.buckets.keys_nodup,AList.keys,List.keys,List.length_map]

theorem memPresent {w key} : key ∈ present w ↔ key ∈ w.buckets := by
  rw [present,List.mem_toFinset,AList.mem_keys]

theorem memEntering {w key} : key ∈ entering w ↔ ∃ c ∈ w.checks, c.stage = .entry ∧ c.key = key := by
  simp [entering,and_assoc]

/- A check of the number of buckets that passes leaves room for every key that is on its way. -/
def Room (maxBuckets : Nat) (w : World) : Event → Prop
  | .advance i => ∀ c ∈ w.checks[i]?, c.stage = .len → w.buckets.entries.length < maxBuckets →
      (insert c.key (present w ∪ entering w)).card ≤ maxBuckets
  | _ => True

instance roomDecidable (maxBuckets : Nat) (w : World) : ∀ e, Decidable (Room maxBuckets w e)
  | .advance _ => inferInstanceAs (Decidable (∀ c ∈ _,_))
  | .tick _ | .check _ _ | .cleanupExpired | .retain _ => isTrue trivial

theorem enteringSet {w i} {c' buckets key}
    (mem : key ∈ entering { w with buckets := buckets, checks := w.checks.set i c' }) :
    (c'.stage = .entry ∧ c'.key = key) ∨ key ∈ entering w := by
  obtain ⟨d,listed,place,is⟩ := memEntering.mp mem
  rcases List.mem_or_eq_of_mem_set listed with old | rfl
  · exact .inr (memEntering.mpr ⟨d,old,place,is⟩)
  · exact .inl ⟨place,is⟩

theorem advanceKeys {maxBuckets} {w i} {c} (found : w.checks[i]? = some c) :
    present (next maxBuckets w (.advance i)) ∪ entering (next maxBuckets w (.advance i)) ⊆
      if c.stage = .len ∧ w.buckets.entries.length < maxBuckets
        then insert c.key (present w ∪ entering w) else present w ∪ entering w := by
  have here : next maxBuckets w (.advance i) = { w with
      buckets := (c.step maxBuckets w.clock w.buckets).1,
      checks := w.checks.set i (c.step maxBuckets w.clock w.buckets).2 } := by rw [next,found]
  rw [here]
  intro key mem
  rw [Finset.mem_union,memPresent] at mem
  rcases mem with inMap | onWay
  · cases stage : c.stage with
    | entry =>
      simp only [Check.step,stage,AList.mem_insert] at inMap
      rcases inMap with rfl | old
      · exact Finset.mem_union_right _ (memEntering.mpr ⟨c,List.mem_of_getElem? found,stage,rfl⟩)
      · exact Finset.mem_union_left _ (memPresent.mpr old)
    | containsKey =>
      simp only [Check.step,stage] at inMap
      exact Finset.mem_union_left _ (memPresent.mpr inMap)
    | done result =>
      simp only [Check.step,stage] at inMap
      exact Finset.mem_union_left _ (memPresent.mpr inMap)
    | len =>
      simp only [Check.step,stage] at inMap
      have old := Finset.mem_union_left (entering w) (memPresent.mpr inMap)
      split
      · exact Finset.mem_insert_of_mem old
      · exact old
  · rcases enteringSet onWay with ⟨place,rfl⟩ | old
    · cases stage : c.stage with
      | containsKey =>
        simp only [Check.step,stage] at place ⊢
        split at place
        · rename_i known
          exact Finset.mem_union_left _ (memPresent.mpr known)
        · cases place
      | len =>
        simp only [Check.step,stage] at place ⊢
        split at place
        · cases place
        · rename_i space
          rw [if_pos ⟨trivial,by omega⟩]
          exact Finset.mem_insert_self _ _
      | entry =>
        simp only [Check.step,stage] at place
        cases place
      | done result =>
        simp only [Check.step,stage] at place
        cases place
    · have old := Finset.mem_union_right (present w) old
      split
      · exact Finset.mem_insert_of_mem old
      · exact old

theorem capacityStep (maxBuckets : Nat) (w : World) (e : Event)
    (fits : (present w ∪ entering w).card ≤ maxBuckets) (room : Room maxBuckets w e) :
    (present (next maxBuckets w e) ∪ entering (next maxBuckets w e)).card ≤ maxBuckets := by
  cases e with
  | tick seconds => exact fits
  | cleanupExpired => exact fits
  | check key limits =>
    have same : entering (next maxBuckets w (.check key limits)) = entering w := by
      simp [entering,next]
    rw [same]
    exact fits
  | advance i =>
    cases found : w.checks[i]? with
    | none =>
      rw [next,found]
      exact fits
    | some c =>
      refine (Finset.card_le_card (advanceKeys found)).trans ?_
      split
      · rename_i passes
        exact room c found passes.1 passes.2
      · exact fits
  | retain i =>
    refine (Finset.card_le_card (Finset.union_subset_union ?_ ?_)).trans fits
    · intro key mem
      rw [memPresent] at mem ⊢
      rw [next] at mem
      split at mem
      · exact mem
      · split at mem
        · exact mem
        · rw [← AList.lookup_isSome] at mem ⊢
          rw [lookupRetain,Option.isSome_iff_exists] at mem
          obtain ⟨b,kept⟩ := mem
          exact Option.isSome_iff_exists.mpr ⟨b,(Option.filter_eq_some_iff.mp kept).1⟩
    · have same : entering (next maxBuckets w (.retain i)) = entering w := by
        simp only [next]
        split
        · rfl
        · split <;> rfl
      exact same.le

theorem bucketsBounded (maxBuckets clock : Nat) (events : List Event)
    (room : Guarded (next maxBuckets) (Room maxBuckets) (started clock) events) :
    (run (next maxBuckets) (started clock) events).buckets.entries.length ≤ maxBuckets := by
  have fits := runInvariant (capacityStep maxBuckets) (s := started clock) (by simp [present,entering,started])
    room
  rw [← presentCard]
  exact (Finset.card_le_card Finset.subset_union_left).trans fits

def anyLimits : Limits := ⟨0,0,0⟩
def twoCalls : List Event := [.check (ascii "a") anyLimits,.check (ascii "b") anyLimits]

theorem serialBounded : (run (next 1) (started 0) (twoCalls ++ [.advance 0,.advance 0,.advance 0,.advance 1,
      .advance 1])).buckets.entries.length ≤ 1 := by
  apply bucketsBounded
  decide +kernel

theorem interleavedOverfull :
    (run (next 1) (started 0) (twoCalls ++ [.advance 0,.advance 0,.advance 1,.advance 1,.advance 0,
      .advance 1])).buckets.entries.length = 2 := by decide +kernel

end ZeroServe.RateLimit
