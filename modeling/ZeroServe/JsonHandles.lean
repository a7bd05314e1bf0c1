import ZeroServe.JsonTree
import ZeroServe.EventRun

/-! Handles into JSON trees that are modified in place: a pointer to a node and the tree's epoch when the handle was
made. Modifying a node may move or remove everything below it. -/
namespace ZeroServe.JsonHandles
open ByteText JsonTree EventRun

structure Pointer where
  path : List Step
  address : Nat
  deriving DecidableEq

structure Tree where
  root : Json
  /- Where the node at a path lies in memory. -/
  place : List Step → Nat
  latestEpoch : UInt64
  readers : Nat
  writer : Bool

structure JsonRef where
  tree : Nat
  node : Pointer
  epoch : UInt64
  deriving DecidableEq

inductive Fault where
  | stale | writerActive | readerActive
  /- The pointer is followed to a place where its node is not. -/
  | dangling
  deriving DecidableEq

structure Mapper where
  pick : Json → Option (List Step)
  inside : ∀ v path, pick v = some path → (resolve v path).isSome

def Tree.new (root : Json) (place : List Step → Nat) : Tree := ⟨root,place,0,0,false⟩

def Tree.pointer (t : Tree) (path : List Step) : Pointer := ⟨path,t.place path⟩

def Tree.deref (t : Tree) (p : Pointer) : Option Json :=
  if t.place p.path = p.address then resolve t.root p.path else none

namespace JsonRef

def root (r : JsonRef) (t : Tree) : JsonRef := ⟨r.tree,t.pointer [],t.latestEpoch⟩

def view (r : JsonRef) (t : Tree) : Except Fault Json :=
  if r.epoch ≠ t.latestEpoch then .error .stale else
  if t.writer then .error .writerActive else
  match t.deref r.node with
  | none => .error .dangling
  | some node => .ok node

def get (r : JsonRef) (t : Tree) (mapper : Mapper) : Except Fault (Option JsonRef) :=
  (r.view t).map fun node => (mapper.pick node).map fun path =>
    ⟨r.tree,t.pointer (r.node.path ++ path),t.latestEpoch⟩

def modify (r : JsonRef) (t : Tree) (f : Json → Json) (moved : List Step → Nat) :
    Except Fault (JsonRef × Tree) :=
  if r.epoch ≠ t.latestEpoch then .error .stale else
  if t.writer then .error .writerActive else
  if t.readers ≠ 0 then .error .readerActive else
  match t.deref r.node with
  | none => .error .dangling
  | some node => .ok ({ r with epoch := r.epoch + 1 },
      { t with root := update t.root r.node.path (f node),
               place := fun q => if r.node.path <+: q ∧ r.node.path ≠ q then moved q else t.place q,
               latestEpoch := t.latestEpoch + 1 })

end JsonRef

structure World where
  trees : List Tree
  handles : List JsonRef

inductive Op where
  | new (root : Json) (place : List Step → Nat)
  | clone (i : Nat)
  | root (i : Nat)
  | get (i : Nat) (mapper : Mapper)
  | view (i : Nat)
  | modify (i : Nat) (f : Json → Json) (moved : List Step → Nat)

def World.handle (w : World) (i : Nat) : Option (JsonRef × Tree) := do
  let r ← w.handles[i]?
  let t ← w.trees[r.tree]?
  some (r,t)

def World.add (w : World) (r : JsonRef) : World := { w with handles := w.handles ++ [r] }

def next (w : World) : Op → World
  | .new root place =>
    World.add ⟨w.trees ++ [.new root place],w.handles⟩ ⟨w.trees.length,(Tree.new root place).pointer [],0⟩
  | .clone i =>
    match w.handle i with
    | none => w
    | some (r,_) => w.add r
  | .root i =>
    match w.handle i with
    | none => w
    | some (r,t) => w.add (r.root t)
  | .get i mapper =>
    match w.handle i with
    | none => w
    | some (r,t) =>
      match r.get t mapper with
      | .ok (some found) => w.add found
      | _ => w
  | .view _ => w
  | .modify i f moved =>
    match w.handle i with
    | none => w
    | some (r,t) =>
      match r.modify t f moved with
      | .ok (r',t') => ⟨w.trees.set r.tree t',w.handles.set i r'⟩
      | .error _ => w

def noTrees : World := ⟨[],[]⟩

/- The epoch counter of the tree does not wrap. -/
def Room (w : World) : Op → Prop
  | .modify i _ _ => ∀ r t, w.handle i = some (r,t) → r.epoch = t.latestEpoch → t.latestEpoch + 1 ≠ 0
  | _ => True

structure Tree.Idle (t : Tree) : Prop where
  readers : t.readers = 0
  writer : t.writer = false

structure Fits (r : JsonRef) (t : Tree) : Prop where
  behind : r.epoch ≤ t.latestEpoch
  designates : r.epoch = t.latestEpoch → (t.deref r.node).isSome

structure Sound (w : World) : Prop where
  idle : ∀ t ∈ w.trees, t.Idle
  fits : ∀ r ∈ w.handles, ∃ t, w.trees[r.tree]? = some t ∧ Fits r t

variable {t : Tree}

theorem handleSome {w : World} {i} {r : JsonRef} (h : w.handle i = some (r,t)) :
    w.handles[i]? = some r ∧ w.trees[r.tree]? = some t := by
  simp only [World.handle,bind,Option.bind_eq_some_iff] at h
  obtain ⟨r',listed,t',found,same⟩ := h
  cases same
  exact ⟨listed,found⟩

theorem derefPointer (t : Tree) (path : List Step) : t.deref (t.pointer path) = resolve t.root path :=
  if_pos rfl

theorem resolveAppend (v : Json) (first second : List Step) :
    resolve v (first ++ second) = (resolve v first).bind fun node => resolve node second := by
  induction first generalizing v with
  | nil => rfl
  | cons s later ih =>
    simp only [List.cons_append,resolve]
    cases child v s with
    | none => rfl
    | some c => exact ih c

theorem derefSome {p : Pointer} {node : Json} (h : t.deref p = some node) :
    t.place p.path = p.address ∧ resolve t.root p.path = some node := by
  unfold Tree.deref at h
  split at h
  · rename_i here
    exact ⟨here,h⟩
  · cases h

theorem viewOk {r : JsonRef} {node : Json} (h : r.view t = .ok node) :
    r.epoch = t.latestEpoch ∧ t.deref r.node = some node := by
  unfold JsonRef.view at h
  split at h
  · cases h
  rename_i fresh
  split at h
  · cases h
  split at h
  · cases h
  · rename_i found
    cases h
    exact ⟨by simpa using fresh,found⟩

theorem getOk {r found : JsonRef} {mapper : Mapper} (h : r.get t mapper = .ok (some found)) :
    found.tree = r.tree ∧ found.epoch = t.latestEpoch ∧ (t.deref found.node).isSome := by
  unfold JsonRef.get at h
  cases viewed : r.view t with
  | error fault =>
    rw [viewed] at h
    cases h
  | ok node =>
    rw [viewed] at h
    simp only [Except.map,Except.ok.injEq] at h
    obtain ⟨path,picked,same⟩ := Option.map_eq_some_iff.mp h
    obtain ⟨-,here⟩ := viewOk viewed
    obtain ⟨-,resolved⟩ := derefSome here
    cases same
    refine ⟨rfl,rfl,?_⟩
    rw [derefPointer,resolveAppend,resolved]
    exact mapper.inside node path picked

theorem modifyOk {r r' : JsonRef} {t t' : Tree} {f : Json → Json} {moved : List Step → Nat}
    (h : r.modify t f moved = .ok (r',t')) : r.epoch = t.latestEpoch ∧ r'.tree = r.tree ∧ r'.epoch = t.latestEpoch + 1 ∧
      t'.latestEpoch = t.latestEpoch + 1 ∧ t'.readers = t.readers ∧ t'.writer = t.writer ∧
      (t'.deref r'.node).isSome := by
  unfold JsonRef.modify at h
  split at h
  · cases h
  rename_i fresh
  have fresh : r.epoch = t.latestEpoch := by simpa using fresh
  split at h
  · cases h
  split at h
  · cases h
  split at h
  · cases h
  · rename_i node found
    obtain ⟨here,resolved⟩ := derefSome found
    cases h
    refine ⟨fresh,rfl,by rw [fresh],rfl,rfl,rfl,?_⟩
    -- the node itself has not moved: no path is a proper prefix of itself
    have still : ¬(r.node.path <+: r.node.path ∧ r.node.path ≠ r.node.path) := fun ⟨_,other⟩ => other rfl
    simp only [Tree.deref,if_neg still,here,if_true,resolveUpdate (f node) resolved,Option.isSome_some]

theorem soundAdd {w} (sound : Sound w) {r t} (found : w.trees[r.tree]? = some t) (fits : Fits r t) :
    Sound (w.add r) := by
  refine ⟨sound.idle,fun r' mem => ?_⟩
  rcases List.mem_append.mp mem with old | new
  · exact sound.fits r' old
  · cases List.mem_singleton.mp new
    exact ⟨t,found,fits⟩

theorem soundNew {w} (sound : Sound w) (root : Json) (place : List Step → Nat) : Sound (next w (.new root place)) := by
  have last : (w.trees ++ [Tree.new root place])[w.trees.length]? = some (Tree.new root place) := by simp
  refine soundAdd ⟨fun t mem => ?_,fun r mem => ?_⟩ last ⟨UInt64.le_refl _,fun _ => ?_⟩
  · rcases List.mem_append.mp mem with old | new
    · exact sound.idle t old
    · cases List.mem_singleton.mp new
      exact ⟨rfl,rfl⟩
  · obtain ⟨t,found,fits⟩ := sound.fits r mem
    obtain ⟨bound,-⟩ := List.getElem?_eq_some_iff.mp found
    exact ⟨t,(List.getElem?_append_left bound).trans found,fits⟩
  · rw [derefPointer]
    rfl

theorem epochStep {a b : UInt64} (le : a ≤ b) (room : b + 1 ≠ 0) : a < b + 1 := by
  have value : (b + 1).toNat = b.toNat + 1 := by
    have small : b.toNat + 1 ≠ 2 ^ 64 := by
      intro full
      apply room
      apply UInt64.toNat_inj.mp
      simp [full]
    have bound := b.toNat_lt
    exact Nat.mod_eq_of_lt (by simp; omega)
  rw [UInt64.lt_iff_toNat_lt,value]
  exact Nat.lt_succ_of_le (UInt64.le_iff_toNat_le.mp le)

theorem soundModify {w : World} (sound : Sound w) {i} {f : Json → Json} {moved : List Step → Nat}
    (room : Room w (.modify i f moved)) : Sound (next w (.modify i f moved)) := by
  rw [next]
  cases place : w.handle i with
  | none => exact sound
  | some entry =>
    obtain ⟨r,t⟩ := entry
    dsimp only
    cases changed : r.modify t f moved with
    | error fault => exact sound
    | ok after =>
      obtain ⟨r',t'⟩ := after
      obtain ⟨listed,found⟩ := handleSome place
      obtain ⟨fresh,tree,epoch,latest,readers,writer,here⟩ := modifyOk changed
      obtain ⟨bound,-⟩ := List.getElem?_eq_some_iff.mp found
      have put : (w.trees.set r.tree t')[r.tree]? = some t' := List.getElem?_set_self bound
      refine ⟨fun s mem => ?_,fun s mem => ?_⟩
      · rcases List.mem_or_eq_of_mem_set mem with old | rfl
        · exact sound.idle s old
        · have idle := sound.idle t (List.mem_of_getElem? found)
          exact ⟨readers.trans idle.readers,writer.trans idle.writer⟩
      · rcases List.mem_or_eq_of_mem_set mem with old | rfl
        · obtain ⟨u,at_u,fits⟩ := sound.fits s old
          by_cases same : s.tree = r.tree
          · rw [same,found] at at_u
            cases at_u
            have less := epochStep fits.behind (room r t place fresh)
            refine ⟨t',by rw [same]; exact put,latest ▸ UInt64.le_of_lt less,fun equal => ?_⟩
            rw [latest] at equal
            exact absurd equal (UInt64.ne_of_lt less)
          · exact ⟨u,(List.getElem?_set_ne (Ne.symm same)).trans at_u,fits⟩
        · exact ⟨t',by rw [tree]; exact put,UInt64.le_of_eq (epoch.trans latest.symm),fun _ => here⟩

theorem soundNext (w : World) (op : Op) (sound : Sound w) (room : Room w op) : Sound (next w op) := by
  cases op with
  | new root place => exact soundNew sound root place
  | clone i =>
    rw [next]
    cases spot : w.handle i with
    | none => exact sound
    | some entry =>
      obtain ⟨listed,-⟩ := handleSome spot
      obtain ⟨t,found,fits⟩ := sound.fits entry.1 (List.mem_of_getElem? listed)
      exact soundAdd sound found fits
  | root i =>
    rw [next]
    cases spot : w.handle i with
    | none => exact sound
    | some entry =>
      obtain ⟨-,found⟩ := handleSome spot
      refine soundAdd sound found ⟨UInt64.le_refl _,fun _ => ?_⟩
      rw [JsonRef.root,derefPointer]
      rfl
  | get i mapper =>
    rw [next]
    cases spot : w.handle i with
    | none => exact sound
    | some entry =>
      dsimp only
      split
      · rename_i new got
        obtain ⟨-,found⟩ := handleSome spot
        obtain ⟨tree,epoch,here⟩ := getOk got
        exact soundAdd sound (tree ▸ found) ⟨UInt64.le_of_eq epoch,fun _ => here⟩
      · exact sound
  | view i => exact sound
  | modify i f moved => exact soundModify sound room

structure Answers (r : JsonRef) (t : Tree) : Prop where
  viewErr : r.view t = .error .stale ↔ r.epoch < t.latestEpoch
  viewOk : (∃ node, r.view t = .ok node) ↔ r.epoch = t.latestEpoch
  getErr : ∀ mapper, r.get t mapper = .error .stale ↔ r.epoch < t.latestEpoch
  getOk : ∀ mapper, (∃ found, r.get t mapper = .ok found) ↔ r.epoch = t.latestEpoch
  modifyErr : ∀ f moved, r.modify t f moved = .error .stale ↔ r.epoch < t.latestEpoch
  modifyOk : ∀ f moved, (∃ after, r.modify t f moved = .ok after) ↔ r.epoch = t.latestEpoch

theorem answersBehind {r t} (less : r.epoch < t.latestEpoch) : Answers r t := by
  have other := UInt64.ne_of_lt less
  have view : r.view t = .error .stale := if_pos other
  have get : ∀ mapper, r.get t mapper = .error .stale := fun mapper => by rw [JsonRef.get,view]; rfl
  have modify : ∀ f moved, r.modify t f moved = .error .stale := fun f moved => if_pos other
  constructor <;> simp [view,get,modify,less,other]

theorem answersCurrent {r t} (idle : t.Idle) (same : r.epoch = t.latestEpoch) (here : (t.deref r.node).isSome) :
    Answers r t := by
  obtain ⟨node,found⟩ := Option.isSome_iff_exists.mp here
  have view : r.view t = .ok node := by simp [JsonRef.view,same,idle.writer,found]
  have get : ∀ mapper, ∃ got, r.get t mapper = .ok got := fun mapper => ⟨_,by rw [JsonRef.get,view]; rfl⟩
  have modify : ∀ f moved, ∃ after, r.modify t f moved = .ok after := fun f moved =>
    ⟨_,by rw [JsonRef.modify,if_neg (by simp [same]),if_neg (by simp [idle.writer]),
      if_neg (by simp [idle.readers]),found]⟩
  have older : ¬r.epoch < t.latestEpoch := same ▸ UInt64.lt_irrefl _
  constructor
  · simp [view,older]
  · simp [view,same]
  · intro mapper
    obtain ⟨got,is⟩ := get mapper
    simp [is,older]
  · exact fun mapper => ⟨fun _ => same,fun _ => get mapper⟩
  · intro f moved
    obtain ⟨after,is⟩ := modify f moved
    simp [is,older]
  · exact fun f moved => ⟨fun _ => same,fun _ => modify f moved⟩

theorem fitsAnswers {r t} (idle : t.Idle) (fits : Fits r t) : Answers r t := by
  by_cases same : r.epoch = t.latestEpoch
  · exact answersCurrent idle same (fits.designates same)
  · exact answersBehind (UInt64.lt_of_le_of_ne fits.behind same)

def childMapper (s : Step) : Mapper where
  pick v := if (child v s).isSome then some [s] else none
  inside v path h := by
    split at h
    · rename_i present
      cases h
      obtain ⟨c,found⟩ := Option.isSome_iff_exists.mp present
      simp [resolve,found]
    · cases h

/- In every run in which no epoch counter wraps, a handle with its tree's latest epoch is on a
node of the tree, and the calls fail on exactly the handles with an older one. -/
theorem handlesValid (ops : List Op) (room : Guarded next Room noTrees ops) (r : JsonRef)
    (made : r ∈ (run next noTrees ops).handles) : ∃ t, (run next noTrees ops).trees[r.tree]? = some t ∧
      (r.epoch = t.latestEpoch → (t.deref r.node).isSome) ∧ Answers r t := by
  have start : Sound noTrees :=
    ⟨fun _ mem => (List.not_mem_nil mem).elim,fun _ mem => (List.not_mem_nil mem).elim⟩
  have sound := runInvariant soundNext start room
  obtain ⟨t,found,fits⟩ := sound.fits r made
  exact ⟨t,found,fits.designates,fitsAnswers (sound.idle t (List.mem_of_getElem? found)) fits⟩

def oneField : Json := .object [(ascii "a",.bool true)]
def overwrite (i : Nat) : Op := .modify i (fun _ => .null) List.length
def made : List Op := [.new oneField List.length,.get 0 (childMapper (.key (ascii "a")))]

theorem clonedHandleValid : Guarded next Room noTrees (made ++ [.clone 1,overwrite 1]) ∧
    ∃ t, (run next noTrees (made ++ [.clone 1,overwrite 1])).trees[0]? = some t ∧
      (0 = t.latestEpoch → (t.deref ⟨[.key (ascii "a")],1⟩).isSome) ∧ Answers ⟨0,⟨[.key (ascii "a")],1⟩,0⟩ t := by
  have room : Guarded next Room noTrees (made ++ [.clone 1,overwrite 1]) := by
    refine ⟨trivial,trivial,trivial,fun r t place _ => ?_,trivial⟩
    cases place
    decide
  exact ⟨room,handlesValid _ room ⟨0,⟨[.key (ascii "a")],1⟩,0⟩ (by decide +kernel)⟩

theorem overwrittenRun (n : Nat) : run next noTrees (made ++ List.replicate n (overwrite 0)) =
    ⟨[⟨if n = 0 then oneField else .null,List.length,UInt64.ofNat n,0,false⟩],
      [⟨0,⟨[],0⟩,UInt64.ofNat n⟩,⟨0,⟨[.key (ascii "a")],1⟩,0⟩]⟩ := by
  induction n with
  | zero => rfl
  | succ n ih =>
    have again : UInt64.ofNat (n + 1) = UInt64.ofNat n + 1 := UInt64.ofNat_add n 1
    rw [run] at ih
    rw [List.replicate_succ',← List.append_assoc,run,List.foldl_append,ih,again]
    simp only [List.foldl_cons,List.foldl_nil,next,overwrite,World.handle,JsonRef.modify,Tree.deref,
      resolve,update,bind,Option.bind_some,List.getElem?_cons_zero,List.length_nil,if_true,ne_eq,
      not_true_eq_false,if_false,ite_self,Bool.false_eq_true,Nat.add_one_ne_zero,List.set_cons_zero]

theorem keptHandleDangles :
    ∃ r t, (run next noTrees (made ++ List.replicate (2 ^ 64) (overwrite 0))).handles[1]? = some r ∧
      (run next noTrees (made ++ List.replicate (2 ^ 64) (overwrite 0))).trees[r.tree]? = some t ∧
      r.epoch = t.latestEpoch ∧ t.deref r.node = none ∧ r.view t = .error .dangling := by
  have wrapped : (0 : UInt64) = UInt64.ofNat (2 ^ 64) := by decide
  rw [overwrittenRun]
  refine ⟨_,_,rfl,rfl,wrapped,rfl,?_⟩
  rw [JsonRef.view,if_neg (fun other => other wrapped)]
  rfl

end ZeroServe.JsonHandles
