import ZeroServe.EventRun
import Mathlib

/-! Reloading the scripts of a fleet of workers. The coordinator offers new sites to the canary and waits for its
answer or the timeout; on success it stores the sites in the shared state and sends them to the other workers. -/
namespace ZeroServe.Reload
open EventRun

section
variable {Site : Type}

structure Request (Site : Type) where
  sites : List Site
  /- The channel the result goes to; only the canary's requests have one. -/
  reply : Option Nat
  deriving DecidableEq

structure Worker (Site : Type) where
  queue : List (Request Site)
  busy : Option (Request Site)
  installed : List Site
  deriving DecidableEq

inductive Phase (Site : Type) where
  | idle
  | waiting (channel : Nat) (plugins : List Site) (site : Site)
  /- How many of the stores and sends that follow a canary's success are done. -/
  | committing (plugins : List Site) (site : Site) (done : Nat)
  deriving DecidableEq

structure Fleet (Site : Type) where
  plugins : List Site
  site : Site
  canary : Worker Site
  rest : List (Worker Site)
  phase : Phase Site
  /- What has arrived on the channel the coordinator waits on. -/
  answer : Option Bool
  channels : Nat
  /- The last list of sites that compiles and was offered to the canary. -/
  offered : List Site
  deriving DecidableEq

def sitesOf (plugins : List Site) (site : Site) : List Site := plugins ++ [site]

def Fleet.shared (f : Fleet Site) : List Site := sitesOf f.plugins f.site

inductive Seat where
  | canary
  | rest (i : Nat)
  deriving DecidableEq

inductive Event (Site : Type) where
  | reload (plugins : List Site) (site : Site)
  | start (w : Seat)
  | finish (w : Seat)
  | receive
  | timeout
  | commit
  deriving DecidableEq

def Worker.send (r : Request Site) (w : Worker Site) : Worker Site := {w with queue := w.queue ++ [r]}

def Worker.start (w : Worker Site) : Worker Site :=
  match w.busy,w.queue with
  | none,r::later => {w with busy := some r,queue := later}
  | _,_ => w

variable (compiles : List Site → Bool)

/- A failed compilation leaves the installed scripts in place. -/
def Worker.finish (w : Worker Site) : Worker Site :=
  match w.busy with
  | none => w
  | some r => {w with busy := none,installed := if compiles r.sites then r.sites else w.installed}

def answerFor (f : Fleet Site) : Option Bool :=
  match f.canary.busy,f.phase with
  | some ⟨sites,some channel⟩,.waiting current _ _ =>
    if channel = current then some (compiles sites) else f.answer
  | _,_ => f.answer

def step (f : Fleet Site) : Event Site → Fleet Site
  | .reload plugins site =>
    match f.phase with
    | .idle =>
      let sites := sitesOf plugins site
      {f with canary := f.canary.send ⟨sites,some f.channels⟩,
              phase := .waiting f.channels plugins site,answer := none,
              channels := f.channels + 1,
              offered := if compiles sites then sites else f.offered}
    | _ => f
  | .start .canary => {f with canary := f.canary.start}
  | .start (.rest i) => {f with rest := f.rest.modify i Worker.start}
  | .finish .canary => {f with canary := f.canary.finish compiles,answer := answerFor compiles f}
  | .finish (.rest i) => {f with rest := f.rest.modify i (Worker.finish compiles)}
  | .receive =>
    match f.phase,f.answer with
    | .waiting _ plugins site,some true => {f with phase := .committing plugins site 0}
    | .waiting _ _ _,some false => {f with phase := .idle}
    | _,_ => f
  | .timeout =>
    match f.phase,f.answer with
    | .waiting _ _ _,none => {f with phase := .idle}
    | _,_ => f
  | .commit =>
    match f.phase with
    | .committing plugins site 0 => {f with plugins,phase := .committing plugins site 1}
    | .committing plugins site 1 => {f with site,phase := .committing plugins site 2}
    | .committing plugins site (i+2) =>
      if i < f.rest.length then
        {f with rest := f.rest.modify i (Worker.send ⟨sitesOf plugins site,none⟩),
                phase := .committing plugins site (i+3)}
      else {f with phase := .idle}
    | _ => f

def launched (plugins : List Site) (site : Site) (workers : Nat) : Fleet Site :=
  let w : Worker Site := ⟨[],none,sitesOf plugins site⟩
  ⟨plugins,site,w,List.replicate workers w,.idle,none,0,sitesOf plugins site⟩

def Worker.Quiet (w : Worker Site) : Prop := w.queue = [] ∧ w.busy = none

def Quiescent (f : Fleet Site) : Prop :=
  f.phase = .idle ∧ f.canary.Quiet ∧ ∀ w ∈ f.rest, w.Quiet

def AllCurrent (f : Fleet Site) : Prop :=
  f.canary.installed = f.shared ∧ ∀ w ∈ f.rest, w.installed = f.shared

def Worker.eventual (w : Worker Site) : List Site :=
  (w.busy.toList ++ w.queue).foldl (fun cur r => if compiles r.sites then r.sites else cur)
    w.installed

def Worker.pending (w : Worker Site) : List (Request Site) := w.busy.toList ++ w.queue

variable {compiles}

theorem eventualSend (r : Request Site) (w : Worker Site) :
    (w.send r).eventual compiles = if compiles r.sites then r.sites else w.eventual compiles := by
  simp [Worker.eventual,Worker.send]

variable (w : Worker Site)

theorem pendingStart : w.start.pending = w.pending := by
  unfold Worker.start Worker.pending
  split
  · rename_i busy queue
    simp [busy,queue]
  · rfl

theorem eventualStart : w.start.eventual compiles = w.eventual compiles := by
  have same := pendingStart w
  have installed : w.start.installed = w.installed := by
    unfold Worker.start
    split <;> rfl
  unfold Worker.pending at same
  rw [Worker.eventual,Worker.eventual,same,installed]

theorem eventualFinish : (w.finish compiles).eventual compiles = w.eventual compiles := by
  unfold Worker.finish
  split
  · rfl
  · rename_i r busy
    simp [Worker.eventual,busy]

theorem pendingFinish {w : Worker Site} {r : Request Site} (mem : r ∈ (w.finish compiles).pending) : r ∈ w.pending := by
  unfold Worker.finish at mem
  split at mem
  · exact mem
  · rename_i busy
    exact List.mem_append_right _ mem

theorem eventualQuiet {w : Worker Site} (quiet : w.Quiet) : w.eventual compiles = w.installed := by
  simp [Worker.eventual,quiet.1,quiet.2]

def Fleet.target (f : Fleet Site) : List Site :=
  match f.phase with
  | .committing plugins site _ => sitesOf plugins site
  | _ => f.shared

def Fleet.Reached (f : Fleet Site) (i : Nat) : Prop :=
  match f.phase with
  | .committing _ _ done => i + 2 < done
  | _ => True

variable (compiles) in
def PhaseSound (f : Fleet Site) : Prop :=
  match f.phase with
  | .idle => True
  | .waiting channel plugins site =>
    channel < f.channels ∧
    (∀ r ∈ f.canary.pending, r.reply = some channel → r.sites = sitesOf plugins site) ∧
    (∀ b, f.answer = some b → b = compiles (sitesOf plugins site)) ∧
    (compiles (sitesOf plugins site) = true → f.offered = sitesOf plugins site)
  | .committing plugins site done =>
    compiles (sitesOf plugins site) = true ∧ f.offered = sitesOf plugins site ∧
    (1 ≤ done → f.plugins = plugins) ∧ (2 ≤ done → f.site = site) ∧ done ≤ f.rest.length + 2

variable (compiles) in
structure Sound (f : Fleet Site) : Prop where
  canary : f.canary.eventual compiles = f.offered
  rest : ∀ i w, f.rest[i]? = some w → f.Reached i → w.eventual compiles = f.target
  channels : ∀ r ∈ f.canary.pending, ∀ n, r.reply = some n → n < f.channels
  phase : PhaseSound compiles f

theorem soundLaunched (plugins : List Site) (site : Site) (workers : Nat) :
    Sound compiles (launched plugins site workers) where
  canary := rfl
  rest := by
    intro i w found _
    rw [List.eq_of_mem_replicate (List.mem_of_getElem? found)]
    rfl
  channels := by simp [launched,Worker.pending]
  phase := trivial

section
variable {f : Fleet Site} (sound : Sound compiles f)
include sound

theorem stepReload (plugins : List Site) (site : Site) :
    Sound compiles (step compiles f (.reload plugins site)) := by
  unfold step
  cases phase : f.phase with
  | idle =>
    have older := sound.channels
    have offer : ∀ r ∈ (f.canary.send ⟨sitesOf plugins site,some f.channels⟩).pending,
        r ∈ f.canary.pending ∨ r = ⟨sitesOf plugins site,some f.channels⟩ := by
      simp [Worker.pending,Worker.send,or_assoc]
    refine ⟨?_,?_,?_,?_,?_,?_,?_⟩
    · rw [eventualSend,sound.canary]
    · intro i w found _
      have reached : f.Reached i := by simp [Fleet.Reached,phase]
      have current := sound.rest i w found reached
      rwa [Fleet.target,phase] at current
    · intro r mem n reply
      rcases offer r mem with old | rfl
      · exact Nat.lt_succ_of_lt (older r old n reply)
      · cases reply
        exact Nat.lt_succ_self _
    · exact Nat.lt_succ_self _
    · intro r mem reply
      rcases offer r mem with old | rfl
      · exact absurd (older r old _ reply) (Nat.lt_irrefl _)
      · rfl
    · rintro b ⟨⟩
    · intro good
      exact if_pos good
  | waiting channel plugins' site' => exact sound
  | committing plugins' site' done => exact sound

theorem stepRest (i : Nat) {g : Worker Site → Worker Site}
    (keeps : ∀ w, (g w).eventual compiles = w.eventual compiles) :
    Sound compiles {f with rest := f.rest.modify i g} where
  canary := sound.canary
  rest := by
    intro j w found reached
    rw [List.getElem?_modify] at found
    cases old : f.rest[j]? with
    | none => simp [old] at found
    | some v =>
      have current := sound.rest j v old reached
      simp only [old,Option.map_eq_map,Option.map_some,Option.some.injEq] at found
      subst found
      split
      · exact (keeps v).trans current
      · exact current
  channels := sound.channels
  phase := by
    have phase := sound.phase
    unfold PhaseSound at phase ⊢
    cases kind : f.phase with
    | idle => trivial
    | waiting channel plugins site => simpa only [kind] using phase
    | committing plugins site done => simpa only [kind,List.length_modify] using phase

theorem stepCanary {w answer} (keeps : w.eventual compiles = f.canary.eventual compiles)
    (fewer : ∀ r ∈ w.pending, r ∈ f.canary.pending)
    (answered : ∀ channel plugins site, f.phase = .waiting channel plugins site →
      ∀ b, answer = some b → b = compiles (sitesOf plugins site)) : Sound compiles {f with canary := w,answer} where
  canary := keeps.trans sound.canary
  rest := sound.rest
  channels := fun r mem => sound.channels r (fewer r mem)
  phase := by
    have phase := sound.phase
    unfold PhaseSound at phase ⊢
    cases kind : f.phase with
    | idle => trivial
    | waiting channel plugins site =>
      simp only [kind] at phase ⊢
      obtain ⟨fresh,same,-,offered⟩ := phase
      exact ⟨fresh,fun r mem => same r (fewer r mem),answered _ _ _ kind,offered⟩
    | committing plugins site done => simpa only [kind] using phase

theorem answerForSound {channel} {plugins site}
    (waiting : f.phase = .waiting channel plugins site) :
    ∀ b, answerFor compiles f = some b → b = compiles (sitesOf plugins site) := by
  intro b given
  have phase := sound.phase
  simp only [PhaseSound,waiting] at phase
  obtain ⟨-,same,old,-⟩ := phase
  unfold answerFor at given
  split at given
  · rename_i sites asked current plugins' site' busy kind
    rw [waiting] at kind
    cases kind
    split at given
    · rename_i equal
      subst equal
      have mem : (⟨sites,some asked⟩ : Request Site) ∈ f.canary.pending := by
        simp [Worker.pending,busy]
      rw [← same _ mem rfl]
      exact (Option.some.inj given).symm
    · exact old b given
  · exact old b given

theorem stepCommit : Sound compiles (step compiles f .commit) := by
  have phase := sound.phase
  unfold PhaseSound at phase
  simp only [step]
  split
  · rename_i plugins site kind
    simp only [kind] at phase
    obtain ⟨good,offered,-,-,-⟩ := phase
    refine ⟨sound.canary,?_,sound.channels,good,offered,fun _ => rfl,by simp,by simp⟩
    intro i w _ reached
    simp [Fleet.Reached] at reached
  · rename_i plugins site kind
    simp only [kind] at phase
    obtain ⟨good,offered,first,-,-⟩ := phase
    refine ⟨sound.canary,?_,sound.channels,good,offered,fun _ => first (Nat.le_refl _),fun _ => rfl,by simp⟩
    intro i w _ reached
    simp [Fleet.Reached] at reached
  · rename_i plugins site i kind
    simp only [kind] at phase
    obtain ⟨good,offered,first,second,-⟩ := phase
    have reachedOld : ∀ j w, f.rest[j]? = some w → j < i → w.eventual compiles = sitesOf plugins site := by
      intro j w found before
      have current := sound.rest j w found (by simp only [Fleet.Reached,kind]; omega)
      rwa [Fleet.target,kind] at current
    split
    · rename_i bound
      refine ⟨sound.canary,?_,sound.channels,good,offered,fun _ => first (by omega),
        fun _ => second (by omega),by simp; omega⟩
      intro j w found reached
      simp only [Fleet.Reached] at reached
      show w.eventual compiles = sitesOf plugins site
      rw [List.getElem?_modify] at found
      cases old : f.rest[j]? with
      | none => simp [old] at found
      | some v =>
        simp only [old,Option.map_eq_map,Option.map_some,Option.some.injEq] at found
        subst found
        split
        · rw [eventualSend,if_pos good]
        · exact reachedOld j v old (by omega)
    · rename_i bound
      refine ⟨sound.canary,?_,sound.channels,trivial⟩
      intro j w found _
      have inside : j < f.rest.length := (List.getElem?_eq_some_iff.mp found).1
      rw [first (by omega),second (by omega)]
      exact reachedOld j w found (by omega)
  · exact sound

theorem backToIdle {channel} {plugins site}
    (waiting : f.phase = .waiting channel plugins site) : Sound compiles {f with phase := .idle} where
  canary := sound.canary
  rest := by
    intro i w found _
    have current := sound.rest i w found (by simp [Fleet.Reached,waiting])
    rwa [Fleet.target,waiting] at current
  channels := sound.channels
  phase := trivial

theorem stepReceive : Sound compiles (step compiles f .receive) := by
  simp only [step]
  split
  · rename_i channel plugins site waiting answer
    have phase := sound.phase
    simp only [PhaseSound,waiting] at phase
    obtain ⟨-,-,told,offered⟩ := phase
    have good := (told _ answer).symm
    refine ⟨sound.canary,?_,sound.channels,good,offered good,by simp,by simp,by simp⟩
    intro i w _ reached
    simp [Fleet.Reached] at reached
  · rename_i waiting _
    exact backToIdle sound waiting
  · exact sound

theorem stepTimeout : Sound compiles (step compiles f .timeout) := by
  simp only [step]
  split
  · rename_i waiting _
    exact backToIdle sound waiting
  · exact sound

theorem stepSound (e : Event Site) :
    Sound compiles (step compiles f e) := by
  cases e with
  | reload plugins site => exact stepReload sound plugins site
  | start seat =>
    cases seat with
    | canary =>
      refine stepCanary sound (eventualStart _) (fun r mem => pendingStart f.canary ▸ mem) ?_
      intro channel plugins site waiting
      have phase := sound.phase
      simp only [PhaseSound,waiting] at phase
      exact phase.2.2.1
    | rest i => exact stepRest sound i eventualStart
  | finish seat =>
    cases seat with
    | canary =>
      exact stepCanary sound (eventualFinish _) (fun _ => pendingFinish)
        fun _ _ _ waiting => answerForSound sound waiting
    | rest i => exact stepRest sound i eventualFinish
  | receive => exact stepReceive sound
  | timeout => exact stepTimeout sound
  | commit => exact stepCommit sound

/- Once the requests are through, the workers other than the canary are on the shared sites
and the canary is on the last good offer. -/
theorem quiescentCurrent (quiet : Quiescent f) :
    AllCurrent f ↔ f.offered = f.shared := by
  obtain ⟨idle,canary,rest⟩ := quiet
  have canaryAt : f.canary.installed = f.offered := by rw [← sound.canary,eventualQuiet canary]
  have restAt : ∀ w ∈ f.rest, w.installed = f.shared := by
    intro w mem
    obtain ⟨i,found⟩ := List.getElem?_of_mem mem
    have current := sound.rest i w found (by simp [Fleet.Reached,idle])
    rwa [Fleet.target,idle,eventualQuiet (rest w mem)] at current
  rw [AllCurrent,canaryAt]
  exact and_iff_left restAt

end

variable (compiles) in
/- A timeout gives up on sites that do not compile, or on the ones already shared. -/
def TimelyTimeout (f : Fleet Site) : Event Site → Prop
  | .timeout => ∀ channel plugins site, f.phase = .waiting channel plugins site → f.answer = none →
      compiles (sitesOf plugins site) = true → sitesOf plugins site = f.shared
  | _ => True

variable (compiles) in
/- With such timeouts an offer that is not the shared list is still under way. -/
def Kept (f : Fleet Site) : Prop :=
  match f.phase with
  | .idle => f.offered = f.shared
  | .waiting _ plugins site => compiles (sitesOf plugins site) = false → f.offered = f.shared
  | .committing _ _ _ => True

theorem keptStep {f e} (sound : Sound compiles f) (kept : Kept compiles f) (timely : TimelyTimeout compiles f e) :
    Kept compiles (step compiles f e) := by
  have phase := sound.phase
  unfold Kept at kept
  unfold PhaseSound at phase
  cases e with
  | reload plugins site =>
    cases kind : f.phase with
    | idle =>
      simp only [kind] at kept
      simp only [step,kind]
      intro bad
      rw [if_neg (by simp [bad])]
      exact kept
    | waiting channel plugins' site' => simpa only [step,kind,Kept] using kept
    | committing plugins' site' done => simp only [step,kind,Kept]
  | start seat => cases seat <;> exact kept
  | finish seat => cases seat <;> exact kept
  | receive =>
    simp only [step]
    split
    · trivial
    · rename_i channel plugins site kind answer
      simp only [kind] at kept phase
      exact kept (phase.2.2.1 _ answer).symm
    · exact kept
  | timeout =>
    simp only [step]
    split
    · rename_i channel plugins site kind answer
      simp only [kind] at kept phase
      cases good : compiles (sitesOf plugins site) with
      | true => exact (phase.2.2.2 good).trans (timely _ _ _ kind answer good)
      | false => exact kept good
    · exact kept
  | commit =>
    simp only [step]
    split
    · trivial
    · trivial
    · rename_i plugins site i kind
      simp only [kind] at phase
      obtain ⟨-,offered,first,second,-⟩ := phase
      split
      · trivial
      · show f.offered = sitesOf f.plugins f.site
        rw [first (by omega),second (by omega)]
        exact offered
    · exact kept

end

theorem runSound {Site : Type} (compiles : List Site → Bool) (plugins : List Site) (site : Site)
    (workers : Nat) (events : List (Event Site)) :
    Sound compiles (run (step compiles) (launched plugins site workers) events) := by
  have keeps : ∀ f e, Sound compiles f → Sound compiles (step compiles f e) :=
    fun _ e sound => stepSound sound e
  exact runKeeps keeps (soundLaunched plugins site workers) events

/- After every run in which the queues have emptied, all workers are on the shared sites
exactly when the last good offer is the shared list, and that is so whenever no timeout
gave up on other sites that compile. -/
theorem reloadExact {Site : Type} (compiles : List Site → Bool) (plugins : List Site) (site : Site)
    (workers : Nat) (events : List (Event Site)) :
    let f := run (step compiles) (launched plugins site workers) events
    Quiescent f →
      (AllCurrent f ↔ f.offered = f.shared) ∧
      (Guarded (step compiles) (TimelyTimeout compiles) (launched plugins site workers) events → AllCurrent f) := by
  intro f quiet
  have sound := runSound compiles plugins site workers events
  have precise := quiescentCurrent sound quiet
  refine ⟨precise,fun guarded => precise.mpr ?_⟩
  have keeps : ∀ g e, Sound compiles g ∧ Kept compiles g → TimelyTimeout compiles g e →
      Sound compiles (step compiles g e) ∧ Kept compiles (step compiles g e) :=
    fun g e good timely => ⟨stepSound good.1 e,keptStep good.1 good.2 timely⟩
  have kept := (runInvariant keeps ⟨soundLaunched plugins site workers,rfl⟩ guarded).2
  unfold Kept at kept
  rwa [quiet.1] at kept

theorem answeredReload :
    let f := run (step fun _ => true) (launched [] 0 2)
      [.reload [] 1,.start .canary,.finish .canary,.receive,.commit,.commit,.commit,.commit,.commit,
        .start (.rest 0),.finish (.rest 0),.start (.rest 1),.finish (.rest 1)]
    f.shared = [1] ∧ Quiescent f ∧ AllCurrent f := by
  have quiet : Quiescent (run (step fun _ => true) (launched [] 0 2)
      [.reload [] 1,.start .canary,.finish .canary,.receive,.commit,.commit,.commit,.commit,.commit,
        .start (.rest 0),.finish (.rest 0),.start (.rest 1),.finish (.rest 1)]) :=
    ⟨rfl,⟨rfl,rfl⟩,by simp [run,step,launched,Worker.send,Worker.start,Worker.finish,Worker.Quiet,answerFor]⟩
  refine ⟨rfl,quiet,(reloadExact _ _ _ _ _ quiet).2 ?_⟩
  simp [Guarded,TimelyTimeout]

theorem lateCanaryInstalled : ¬∀ (compiles : List Nat → Bool) (plugins : List Nat) (site workers : Nat)
      (events : List (Event Nat)),
      let f := run (step compiles) (launched plugins site workers) events
      Quiescent f → AllCurrent f := by
  intro always
  have current := always (fun _ => true) [] 0 1
    [.reload [] 1,.timeout,.start .canary,.finish .canary] ⟨rfl,⟨rfl,rfl⟩,by
      simp [run,step,launched,Worker.Quiet]⟩
  exact absurd current.1 (by decide)

section
variable {Site : Type} {compiles : List Site → Bool}

variable (compiles) in
structure Compiled (f : Fleet Site) : Prop where
  canary : compiles f.canary.installed = true
  rest : ∀ w ∈ f.rest, compiles w.installed = true
  shared : (∀ plugins site, f.phase ≠ .committing plugins site 1) → compiles f.shared = true

theorem startCompiles {w : Worker Site} (good : compiles w.installed = true) : compiles w.start.installed = true := by
  rw [Worker.start]
  split <;> exact good

theorem finishCompiles {w : Worker Site} (good : compiles w.installed = true) :
    compiles (w.finish compiles).installed = true := by
  rw [Worker.finish]
  split
  · exact good
  · dsimp only
    split <;> assumption

theorem modifyCompiles {workers : List (Worker Site)} {g : Worker Site → Worker Site} (i : Nat)
    (keeps : ∀ {w}, compiles w.installed = true → compiles (g w).installed = true)
    (all : ∀ w ∈ workers, compiles w.installed = true) : ∀ w ∈ workers.modify i g, compiles w.installed = true := by
  grind [List.mem_iff_getElem]

theorem stepCompiled {f : Fleet Site} (e : Event Site) (sound : Sound compiles f) (good : Compiled compiles f) :
    Compiled compiles (step compiles f e) := by
  obtain ⟨canary,rest,shared⟩ := good
  have phase := sound.phase
  rcases e with _ | (_ | i) | (_ | i) | _
  case start.canary => exact ⟨startCompiles canary,rest,shared⟩
  case start.rest => exact ⟨canary,modifyCompiles i startCompiles rest,shared⟩
  case finish.canary => exact ⟨finishCompiles canary,rest,shared⟩
  case finish.rest => exact ⟨canary,modifyCompiles i finishCompiles rest,shared⟩
  case commit =>
    rw [PhaseSound] at phase
    rw [step]
    split
    · exact ⟨canary,rest,fun whole => (whole _ _ rfl).elim⟩
    · rename_i place
      simp only [place] at phase
      refine ⟨canary,rest,fun _ => ?_⟩
      rw [Fleet.shared,phase.2.2.1 le_rfl]
      exact phase.1
    · rename_i place
      have whole := shared fun _ _ torn => nomatch place.symm.trans torn
      split
      · exact ⟨canary,modifyCompiles _ id rest,fun _ => whole⟩
      · exact ⟨canary,rest,fun _ => whole⟩
    · exact ⟨canary,rest,shared⟩
  all_goals
    rw [step]
    split
    all_goals
      refine ⟨canary,rest,fun whole => shared fun _ _ torn => ?_⟩
      simp_all

/- Every worker runs sites that compile in every run exactly if the first ones do, and so are the stored ones except
between the two stores of a commit. -/
theorem installedCompile (compiles : List Site → Bool) (plugins : List Site) (site : Site) (workers : Nat) :
    (∀ events, Compiled compiles (run (step compiles) (launched plugins site workers) events)) ↔
      compiles (sitesOf plugins site) = true := by
  constructor
  · exact fun all => (all []).canary
  · intro good events
    have start : Compiled compiles (launched plugins site workers) :=
      ⟨good,fun w mem => by rw [List.eq_of_mem_replicate mem]; exact good,fun _ => good⟩
    exact (@runKeeps _ _ (step compiles) (fun f => Sound compiles f ∧ Compiled compiles f)
      (fun f e both => ⟨stepSound both.1 e,stepCompiled e both.1 both.2⟩) _ ⟨soundLaunched plugins site workers,start⟩ events).2

end

end ZeroServe.Reload
