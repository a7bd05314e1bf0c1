import ZeroServe.RateLimit

/-! How many calls a key's limits let through. In each of the three windows the counter is the number of calls allowed
in the window it was last used for, as long as no update comes late. -/
namespace ZeroServe.RateLimit
open ByteText EventRun

structure Gauge where
  size : Nat
  limit : Limits → Nat
  ts : Bucket → Nat
  count : Bucket → Nat
  hours : size ∣ 3600
  new : ∀ clock, count (.new clock) = 0
  updateTs : ∀ (b : Bucket) limits now, ts (b.update limits now).1 = now / size
  updateCount : ∀ (b : Bucket) limits now, count (b.update limits now).1 =
    (if ts b = now / size then count b else 0) + if (b.update limits now).2 = .allowed then 1 else 0
  updateBelow : ∀ (b : Bucket) limits now, (b.update limits now).2 = .allowed → 0 < limit limits →
    (if ts b = now / size then count b else 0) < limit limits

theorem updateCases (b : Bucket) (limits : Limits) (now : Nat) :
    ((b.update limits now).2 ≠ .allowed ∧ (b.update limits now).1 = b.reset now) ∨ ((b.update limits now).2 = .allowed ∧
      (b.update limits now).1 = (b.reset now).increment ∧
      (0 < limits.perSecond → (b.reset now).secondCount < limits.perSecond) ∧
      (0 < limits.perMinute → (b.reset now).minuteCount < limits.perMinute) ∧
      (0 < limits.perHour → (b.reset now).hourCount < limits.perHour)) := by
  unfold Bucket.update
  dsimp only
  split
  · simp
  split
  · simp
  split
  · simp
  · refine .inr ⟨rfl,rfl,?_,?_,?_⟩ <;> omega

theorem updateHour (b : Bucket) (limits : Limits) (now : Nat) : (b.update limits now).1.hourTs = now / 3600 := by
  rcases updateCases b limits now with ⟨-,is⟩ | ⟨-,is,-⟩ <;> rw [is] <;> rfl

theorem updateLimited (b : Bucket) (limits : Limits) (now : Nat) : (b.update limits now).2 ≠ .exceededBucketLimit := by
  unfold Bucket.update
  dsimp only
  split_ifs <;> simp

def secondGauge : Gauge where
  size := 1
  limit := Limits.perSecond
  ts := Bucket.secondTs
  count := Bucket.secondCount
  hours := by decide
  new _ := rfl
  updateTs b limits now := by
    rcases updateCases b limits now with ⟨-,is⟩ | ⟨-,is,-⟩ <;> simp [is,Bucket.reset,Bucket.increment]
  updateCount b limits now := by
    rcases updateCases b limits now with ⟨result,is⟩ | ⟨result,is,-⟩ <;> simp [is,result,Bucket.reset,Bucket.increment]
  updateBelow b limits now result positive := by
    rcases updateCases b limits now with ⟨refused,-⟩ | ⟨-,-,below,-,-⟩
    · exact absurd result refused
    · simpa [Bucket.reset] using below positive

def minuteGauge : Gauge where
  size := 60
  limit := Limits.perMinute
  ts := Bucket.minuteTs
  count := Bucket.minuteCount
  hours := by decide
  new _ := rfl
  updateTs b limits now := by
    rcases updateCases b limits now with ⟨-,is⟩ | ⟨-,is,-⟩ <;> simp [is,Bucket.reset,Bucket.increment]
  updateCount b limits now := by
    rcases updateCases b limits now with ⟨result,is⟩ | ⟨result,is,-⟩ <;> simp [is,result,Bucket.reset,Bucket.increment]
  updateBelow b limits now result positive := by
    rcases updateCases b limits now with ⟨refused,-⟩ | ⟨-,-,-,below,-⟩
    · exact absurd result refused
    · simpa [Bucket.reset] using below positive

def hourGauge : Gauge where
  size := 3600
  limit := Limits.perHour
  ts := Bucket.hourTs
  count := Bucket.hourCount
  hours := by decide
  new _ := rfl
  updateTs := updateHour
  updateCount b limits now := by
    rcases updateCases b limits now with ⟨result,is⟩ | ⟨result,is,-⟩ <;> simp [is,result,Bucket.reset,Bucket.increment]
  updateBelow b limits now result positive := by
    rcases updateCases b limits now with ⟨refused,-⟩ | ⟨-,-,-,-,below⟩
    · exact absurd result refused
    · simpa [Bucket.reset] using below positive

def Check.counts (key : Bytes) (size window : Nat) (c : Check) : Bool :=
  c.key == key && c.stage == .done .allowed && c.now / size == window

def allowedWithin (w : World) (key : Bytes) (size window : Nat) : Nat :=
  w.checks.countP (Check.counts key size window)

def Stage.applied : Stage → Bool
  | .done result => result != .exceededBucketLimit
  | _ => false

def Check.Applied (key : Bytes) (c : Check) : Prop := c.key = key ∧ c.stage.applied = true
instance (key : Bytes) (c : Check) : Decidable (c.Applied key) := inferInstanceAs (Decidable (_ ∧ _))

/- Updates of a bucket and sweeps reach the map in the order of their clock readings, as far
as these fall into different windows. -/
def InOrder (size : Nat) (w : World) : Event → Prop
  | .advance i => ∀ c ∈ w.checks[i]?, c.stage = .entry →
      (∀ d ∈ w.checks, d.Applied c.key → d.now / size ≤ c.now / size) ∧
      ∀ s ∈ w.sweeps, s.done = true → s.now / 3600 ≤ c.now / 3600
  | .retain i => ∀ s ∈ w.sweeps[i]?, ∀ d ∈ w.checks, d.Applied d.key → d.now / 3600 ≤ s.now / 3600
  | _ => True

instance inOrderDecidable (size : Nat) (w : World) : ∀ e, Decidable (InOrder size w e)
  | .advance _ => inferInstanceAs (Decidable (∀ c ∈ _,_))
  | .retain _ => inferInstanceAs (Decidable (∀ s ∈ _,_))
  | .tick _ | .check _ _ | .cleanupExpired => isTrue trivial

def Uniform (key : Bytes) (limits : Limits) : Event → Prop
  | .check k l => k = key → l = limits
  | _ => True

variable {g : Gauge} {key : Bytes} {limits : Limits} {w w' : World}

structure Gauge.Holds (g : Gauge) (key : Bytes) (checks : List Check) (b : Bucket) (n : Nat) : Prop where
  ts : g.ts b = n / g.size
  hour : b.hourTs = n / 3600
  count : g.count b = checks.countP (Check.counts key g.size (n / g.size))
  read : ∃ c ∈ checks, c.Applied key ∧ c.now = n
  last : ∀ c ∈ checks, c.Applied key → c.now / g.size ≤ n / g.size

structure Tallied (g : Gauge) (key : Bytes) (limits : Limits) (w : World) : Prop where
  same : ∀ c ∈ w.checks, c.key = key → c.limits = limits
  bound : 0 < g.limit limits → ∀ window, allowedWithin w key g.size window ≤ g.limit limits
  present : ∀ b, w.buckets.lookup key = some b → ∃ n, g.Holds key w.checks b n
  /- The calls of a removed bucket lie in hours before that of some sweep. -/
  absent : w.buckets.lookup key = none → ∀ c ∈ w.checks, c.Applied key →
    ∃ s ∈ w.sweeps, s.done = true ∧ c.now / 3600 < s.now / 3600

theorem Gauge.hourMono (g : Gauge) {a b} (le : a / g.size ≤ b / g.size) : a / 3600 ≤ b / 3600 := by
  obtain ⟨k,is⟩ := g.hours
  rw [is,← Nat.div_div_eq_div_mul,← Nat.div_div_eq_div_mul]
  exact Nat.div_le_div_right le

theorem Gauge.hourSame (g : Gauge) {a b} (same : a / g.size = b / g.size) : a / 3600 = b / 3600 :=
  Nat.le_antisymm (g.hourMono same.le) (g.hourMono same.ge)

theorem countsApplied {size window} {c : Check} (h : c.counts key size window = true) :
    c.Applied key ∧ c.now / size = window := by
  simp only [Check.counts,Bool.and_eq_true,beq_iff_eq] at h
  exact ⟨⟨h.1.1,by rw [h.1.2]; rfl⟩,h.2⟩

theorem allowedNone {size window} (empty : ∀ c ∈ w.checks, c.Applied key → c.now / size ≠ window) :
    allowedWithin w key size window = 0 := by
  rw [allowedWithin,List.countP_eq_zero]
  intro c mem counts
  obtain ⟨applied,is⟩ := countsApplied counts
  exact empty c mem applied is

theorem talliedQuiet (tallied : Tallied g key limits w) (bucket : w'.buckets.lookup key = w.buckets.lookup key)
    (same : ∀ c ∈ w'.checks, c.key = key → c.limits = limits)
    (calls : ∀ c, c.Applied key → (c ∈ w'.checks ↔ c ∈ w.checks))
    (counts : ∀ window, allowedWithin w' key g.size window = allowedWithin w key g.size window)
    (sweeps : ∀ s ∈ w.sweeps, s.done = true → s ∈ w'.sweeps) : Tallied g key limits w' where
  same := same
  bound positive window := by
    rw [counts]
    exact tallied.bound positive window
  present b found := by
    obtain ⟨n,ts,hour,count,⟨c,mem,applied,now⟩,last⟩ := tallied.present b (bucket ▸ found)
    exact ⟨n,ts,hour,count.trans (counts _).symm,⟨c,(calls c applied).mpr mem,applied,now⟩,
      fun c mem applied => last c ((calls c applied).mp mem) applied⟩
  absent missing c mem applied := by
    obtain ⟨s,listed,done,later⟩ := tallied.absent (bucket ▸ missing) c ((calls c applied).mp mem) applied
    exact ⟨s,sweeps s listed done,done,later⟩

theorem memSetOther {α : Type} {l : List α} {i} {a b c : α} (found : l[i]? = some a) (mem : c ∈ l) (other : c ≠ a) :
    c ∈ l.set i b := by
  obtain ⟨j,bound,is⟩ := List.getElem_of_mem mem
  have apart : i ≠ j := by
    rintro rfl
    rw [List.getElem?_eq_getElem bound,Option.some.injEq] at found
    exact other (is.symm.trans found)
  rw [← is,← List.getElem_set_ne apart (by simpa using bound)]
  exact List.getElem_mem _

theorem countSet {p : Check → Bool} {l : List Check} {i} {c c' : Check} (found : l[i]? = some c) (off : p c = false) :
    (l.set i c').countP p = l.countP p + if p c' then 1 else 0 := by
  obtain ⟨bound,is⟩ := List.getElem?_eq_some_iff.mp found
  rw [List.countP_set bound,is,off]
  simp

theorem talliedMoved (tallied : Tallied g key limits w) {i} {c c' : Check} (found : w.checks[i]? = some c)
    (before : ¬c.Applied key) (after : ¬c'.Applied key) (keyIs : c'.key = c.key) (limitsIs : c'.limits = c.limits)
    {buckets : Buckets} (bucket : buckets.lookup key = w.buckets.lookup key) :
    Tallied g key limits { w with buckets := buckets, checks := w.checks.set i c' } := by
  have off : ∀ {d : Check} {window}, ¬d.Applied key → d.counts key g.size window = false :=
    fun no => Bool.eq_false_iff.mpr fun counts => no (countsApplied counts).1
  refine talliedQuiet tallied bucket (fun d mem is => ?_) (fun d applied => ?_) (fun window => ?_)
    (fun s mem _ => mem)
  · rcases List.mem_or_eq_of_mem_set mem with old | rfl
    · exact tallied.same d old is
    · rw [limitsIs]
      exact tallied.same c (List.mem_of_getElem? found) (keyIs ▸ is)
  · constructor
    · intro mem
      rcases List.mem_or_eq_of_mem_set mem with old | rfl
      · exact old
      · exact absurd applied after
    · intro mem
      exact memSetOther found mem (fun is => before (is ▸ applied))
  · rw [allowedWithin,countSet found (off before),off after]
    rfl

theorem countFound (tallied : Tallied g key limits w) {now}
    (earlier : ∀ d ∈ w.checks, d.Applied key → d.now / g.size ≤ now / g.size)
    (swept : ∀ s ∈ w.sweeps, s.done = true → s.now / 3600 ≤ now / 3600) {b}
    (is : (w.buckets.lookup key).getD (.new w.clock) = b) :
    (if g.ts b = now / g.size then g.count b else 0) = allowedWithin w key g.size (now / g.size) := by
  cases bucket : w.buckets.lookup key with
  | none =>
    have zero : g.count b = 0 := by rw [← is,bucket]; exact g.new _
    rw [zero,ite_self]
    refine (allowedNone fun d mem applied same => ?_).symm
    obtain ⟨s,listed,done,later⟩ := tallied.absent bucket d mem applied
    have hour := g.hourSame same
    have late := swept s listed done
    omega
  | some stored =>
    have same : stored = b := by rw [← is,bucket]; rfl
    obtain ⟨n,ts,-,count,⟨d,mem,applied,read⟩,last⟩ := tallied.present stored bucket
    rw [same] at ts count
    have late := earlier d mem applied
    rw [read] at late
    rw [ts]
    split
    · rename_i same
      rw [count,same]
      rfl
    · rename_i other
      refine (allowedNone fun d mem applied same => ?_).symm
      have below := last d mem applied
      omega

theorem countDone {i} {c : Check} (found : w.checks[i]? = some c) (stage : c.stage = .entry) (size window : Nat)
    (result : RateLimitResult) :
    (w.checks.set i { c with stage := .done result }).countP (Check.counts c.key size window) =
      allowedWithin w c.key size window + if c.now / size = window ∧ result = .allowed then 1 else 0 := by
  have off : c.counts c.key size window = false := by simp [Check.counts,stage]
  rw [countSet found off]
  simp only [Check.counts,BEq.rfl,Bool.true_and,Bool.and_eq_true,beq_iff_eq,Stage.done.injEq,and_comm]
  rfl

theorem talliedUpdate (tallied : Tallied g key limits w) {i} {c} (found : w.checks[i]? = some c)
    (stage : c.stage = .entry) (here : c.key = key)
    (order : (∀ d ∈ w.checks, d.Applied c.key → d.now / g.size ≤ c.now / g.size) ∧
      ∀ s ∈ w.sweeps, s.done = true → s.now / 3600 ≤ c.now / 3600) (maxBuckets : Nat) : Tallied g key limits { w with
      buckets := (c.step maxBuckets w.clock w.buckets).1,
      checks := w.checks.set i (c.step maxBuckets w.clock w.buckets).2 } := by
  subst here
  have limitsIs := tallied.same c (List.mem_of_getElem? found) rfl
  generalize found_ : (w.buckets.lookup c.key).getD (.new w.clock) = b
  have finds := countFound tallied order.1 order.2 found_
  simp only [Check.step,stage,found_]
  have tally := countDone found stage g.size
  have applied' : ({ c with stage := .done (b.update c.limits c.now).2 } : Check).Applied c.key :=
    ⟨rfl,bne_iff_ne.mpr (updateLimited b c.limits c.now)⟩
  constructor
  · intro d mem is
    rcases List.mem_or_eq_of_mem_set mem with old | rfl
    · exact tallied.same d old is
    · exact limitsIs
  · intro positive window
    rw [allowedWithin,tally]
    split
    · rename_i both
      obtain ⟨rfl,result⟩ := both
      rw [← finds]
      rw [← limitsIs] at positive ⊢
      exact g.updateBelow b c.limits c.now result positive
    · exact tallied.bound positive window
  · intro b' is
    rw [AList.lookup_insert,Option.some.injEq] at is
    subst is
    refine ⟨c.now,g.updateTs _ _ _,updateHour _ _ _,?_,
      ⟨_,List.mem_set (List.getElem?_eq_some_iff.mp found).1 _,applied',rfl⟩,fun d mem applied => ?_⟩
    · rw [g.updateCount,tally,finds]
      simp
    · rcases List.mem_or_eq_of_mem_set mem with old | rfl
      · exact order.1 d old applied
      · exact le_refl _
  · intro missing
    rw [AList.lookup_insert] at missing
    cases missing

theorem talliedAdvance (tallied : Tallied g key limits w) {i} (order : InOrder g.size w (.advance i))
    (maxBuckets : Nat) : Tallied g key limits (next maxBuckets w (.advance i)) := by
  rw [next]
  cases found : w.checks[i]? with
  | none => exact tallied
  | some c =>
    have quiet : c.stage = .containsKey ∨ c.stage = .len →
        Tallied g key limits { w with
          buckets := (c.step maxBuckets w.clock w.buckets).1,
          checks := w.checks.set i (c.step maxBuckets w.clock w.buckets).2 } := by
      intro early
      refine talliedMoved tallied found ?_ ?_ ?_ ?_ ?_
      · rintro ⟨-,is⟩
        rcases early with place | place <;> rw [place] at is <;> cases is
      · rintro ⟨-,is⟩
        rcases early with place | place <;> simp only [Check.step,place] at is <;> split at is <;> cases is
      all_goals rcases early with place | place <;> simp only [Check.step,place]
    cases stage : c.stage with
    | containsKey => exact quiet (.inl stage)
    | len => exact quiet (.inr stage)
    | entry =>
      by_cases here : c.key = key
      · exact talliedUpdate tallied found stage here (order c found stage) maxBuckets
      · refine talliedMoved tallied found (fun h => here h.1) (fun h => here ?_) ?_ ?_ ?_
        · simpa only [Check.step,stage] using h.1
        · simp only [Check.step,stage]
        · simp only [Check.step,stage]
        · simp only [Check.step,stage]
          exact AList.lookup_insert_ne (Ne.symm here)
    | done result =>
      obtain ⟨bound,is⟩ := List.getElem?_eq_some_iff.mp found
      have unchanged : w.checks.set i c = w.checks := by
        rw [← is]
        exact List.set_getElem_self bound
      simp only [Check.step,stage,unchanged]
      exact tallied

theorem talliedRetain (tallied : Tallied g key limits w) {i} (order : InOrder g.size w (.retain i)) (maxBuckets : Nat) :
    Tallied g key limits (next maxBuckets w (.retain i)) := by
  rw [next]
  cases found : w.sweeps[i]? with
  | none => exact tallied
  | some s =>
    dsimp only
    split
    · exact tallied
    · rename_i pending
      have kept : ∀ t ∈ w.sweeps, t.done = true → t ∈ w.sweeps.set i { s with done := true } :=
        fun t mem done => memSetOther found mem (fun is => pending (is ▸ done))
      have put : ({ s with done := true } : Sweep) ∈ w.sweeps.set i { s with done := true } :=
        List.mem_set (List.getElem?_eq_some_iff.mp found).1 _
      refine ⟨tallied.same,tallied.bound,fun b stays => ?_,fun missing c mem applied => ?_⟩
      · rw [lookupRetain,Option.filter_eq_some_iff] at stays
        exact tallied.present b stays.1
      · cases bucket : w.buckets.lookup key with
        | none =>
          obtain ⟨t,listed,done,later⟩ := tallied.absent bucket c mem applied
          exact ⟨t,kept t listed done,done,later⟩
        | some b =>
          -- the bucket was of an hour other than the sweep's, so of an earlier one
          rw [lookupRetain,bucket,Option.filter_eq_none_iff] at missing
          obtain ⟨n,-,hour,-,⟨d,listed,used,now⟩,last⟩ := tallied.present b bucket
          have other : n / 3600 ≠ s.now / 3600 := by simpa [hour] using missing b rfl
          have before := order s found d listed ⟨rfl,used.2⟩
          have below := g.hourMono (last c mem applied)
          exact ⟨_,put,rfl,by dsimp only; omega⟩

theorem talliedNext (maxBuckets : Nat) (w : World) (e : Event) (tallied : Tallied g key limits w)
    (ok : InOrder g.size w e ∧ Uniform key limits e) : Tallied g key limits (next maxBuckets w e) := by
  cases e with
  | tick seconds => exact ⟨tallied.same,tallied.bound,tallied.present,tallied.absent⟩
  | check k l =>
    have idle : ¬(⟨k,l,w.clock,.containsKey⟩ : Check).Applied key := by
      rintro ⟨-,is⟩
      cases is
    refine talliedQuiet tallied rfl (fun c mem is => ?_) (fun c applied => ?_) (fun window => ?_)
      (fun s mem _ => mem)
    · rcases List.mem_append.mp mem with old | new
      · exact tallied.same c old is
      · cases List.mem_singleton.mp new
        exact ok.2 is
    · constructor
      · intro mem
        rcases List.mem_append.mp mem with old | new
        · exact old
        · exact absurd (List.mem_singleton.mp new ▸ applied) idle
      · exact List.mem_append_left _
    · simp [allowedWithin,next,Check.counts]
  | advance i => exact talliedAdvance tallied ok.1 maxBuckets
  | cleanupExpired =>
    exact talliedQuiet tallied rfl tallied.same (fun _ _ => Iff.rfl) (fun _ => rfl)
      (fun s mem _ => List.mem_append_left _ mem)
  | retain i => exact talliedRetain tallied ok.1 maxBuckets

theorem gaugeBounded (g : Gauge) {maxBuckets clock} {events} (uniform : ∀ e ∈ events, Uniform key limits e)
    (order : Guarded (next maxBuckets) (InOrder g.size) (started clock) events) (positive : 0 < g.limit limits)
    (window : Nat) :
    allowedWithin (run (next maxBuckets) (started clock) events) key g.size window ≤ g.limit limits := by
  have start : Tallied g key limits (started clock) :=
    ⟨fun _ mem => (List.not_mem_nil mem).elim,fun _ _ => Nat.zero_le _,fun b found => (Option.some_ne_none b found.symm).elim,
      fun _ _ mem => (List.not_mem_nil mem).elim⟩
  exact (runInvariant (talliedNext maxBuckets) start (guardedAnd order uniform)).bound positive window

/- With the same limits in all calls for a key, each window lets at most its limit through in
every run in which updates and sweeps take effect in the order of their windows. -/
theorem rateLimitHeld (maxBuckets clock : Nat) (events : List Event) (key : Bytes) (limits : Limits)
    (uniform : ∀ e ∈ events, Uniform key limits e) :
    (Guarded (next maxBuckets) (InOrder 1) (started clock) events → 0 < limits.perSecond → ∀ second,
      allowedWithin (run (next maxBuckets) (started clock) events) key 1 second ≤ limits.perSecond) ∧
    (Guarded (next maxBuckets) (InOrder 60) (started clock) events → 0 < limits.perMinute → ∀ minute,
      allowedWithin (run (next maxBuckets) (started clock) events) key 60 minute ≤ limits.perMinute) ∧
    (Guarded (next maxBuckets) (InOrder 3600) (started clock) events → 0 < limits.perHour → ∀ hour,
      allowedWithin (run (next maxBuckets) (started clock) events) key 3600 hour ≤ limits.perHour) :=
  ⟨gaugeBounded secondGauge uniform,gaugeBounded minuteGauge uniform,gaugeBounded hourGauge uniform⟩

def once : Limits := ⟨1,0,0⟩
def threeCalls : List Event :=
  [.check (ascii "k") once,.check (ascii "k") once,.tick 1,.check (ascii "k") once]

theorem threeInOrder :
    allowedWithin (run (next 9) (started 0) (threeCalls ++ [.advance 0,.advance 0,.advance 0,.advance 1,
      .advance 1,.advance 2,.advance 2])) (ascii "k") 1 0 ≤ 1 :=
  (rateLimitHeld 9 0 _ (ascii "k") once (by simp [threeCalls,Uniform])).1 (by decide +kernel) (by decide) 0

theorem lateCallAllowed : (∀ e ∈ threeCalls,Uniform (ascii "k") once e) ∧
    allowedWithin (run (next 9) (started 0) (threeCalls ++ [.advance 0,.advance 0,.advance 0,.advance 2,
      .advance 2,.advance 1,.advance 1])) (ascii "k") 1 0 = 2 :=
  ⟨by simp [threeCalls,Uniform],by decide +kernel⟩

end ZeroServe.RateLimit
