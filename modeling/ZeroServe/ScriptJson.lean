import ZeroServe.JsonTree
import ZeroServe.EventRun

/-! The JSON handles of a script's execution context and the memory they are charged for. A modification through one
handle makes every other handle into that tree stale. -/
namespace ZeroServe.ScriptJson
open ByteText JsonTree EventRun

/- `size_of::<Value>()` and `size_of::<String>()` on the 64-bit targets. -/
def sizes : Sizes := ⟨32,24⟩

def maxExternalObjects : Nat := 32

def estimateLoop : Nat → List Json → Nat → Nat
  | 0,_,total => total
  | _+1,[],total => total
  | fuel+1,v::stack,total =>
    estimateLoop fuel ((children v).reverse ++ stack) (total + ownWeight sizes v)

def estimateJsonMemoryUsage (root : Json) : Nat := estimateLoop (weight ⟨1,0⟩ root) [root] 0

structure JsonRef where
  tree : Nat
  node : List Step
  epoch : Nat
  deriving DecidableEq

structure Tree where
  root : Json
  latestEpoch : Nat

structure Context where
  /- Every tree there has been; a tree no handle refers to has been dropped. -/
  trees : List Tree
  objects : List (Nat × JsonRef)
  nextIdx : Nat
  memoryFootprintBytes : Nat
  maxMemoryFootprint : Nat

inductive HelperError where
  | footprint | objectLimit | invalidObject | invalidRef
  deriving DecidableEq

abbrev Answer := Except HelperError Int

def Context.extobj (c : Context) (idx : Nat) : Option JsonRef :=
  (c.objects.find? fun o => o.1 == idx).map Prod.snd

def Context.tree (c : Context) (t : Nat) : Tree := c.trees[t]?.getD ⟨.null,0⟩

def Context.allocExtobj (c : Context) (r : JsonRef) : Context × Answer :=
  if maxExternalObjects ≤ c.objects.length then (c,.error .objectLimit) else
  ({c with objects := (c.nextIdx,r)::c.objects,nextIdx := c.nextIdx + 1},.ok c.nextIdx)

def Context.allocMemoryFootprint (c : Context) (n : Nat) : Option Context :=
  if c.maxMemoryFootprint < c.memoryFootprintBytes + n then none
  else some {c with memoryFootprintBytes := c.memoryFootprintBytes + n}

def Context.newRef (c : Context) (root : Json) : Context × Answer :=
  let c' : Context := {c with trees := c.trees ++ [⟨root,0⟩]}
  c'.allocExtobj ⟨c.trees.length,[],0⟩

def Context.newCharged (c : Context) (root : Json) : Context × Answer :=
  match c.allocMemoryFootprint (estimateJsonMemoryUsage root) with
  | none => (c,.error .footprint)
  | some c => c.newRef root

def Context.view (c : Context) (r : JsonRef) : Option Json :=
  if r.epoch ≠ (c.tree r.tree).latestEpoch then none
  else resolve (c.tree r.tree).root r.node

def Context.setRef (c : Context) (idx : Nat) (r : JsonRef) : Context :=
  {c with objects := c.objects.map fun o => if o.1 = idx then (idx,r) else o}

def Context.withTree (c : Context) (t : Nat) (tree : Tree) : Context :=
  {c with trees := c.trees.set t tree}

def Context.modify (c : Context) (idx : Nat) (f : Json → Json × Int) : Context × Answer :=
  match c.extobj idx with
  | none => (c,.error .invalidObject)
  | some r =>
    match c.view r with
    | none => (c,.error .invalidRef)
    | some node =>
      let tree := c.tree r.tree
      let after : Tree := ⟨update tree.root r.node (f node).1,tree.latestEpoch + 1⟩
      ((c.withTree r.tree after).setRef idx {r with epoch := r.epoch + 1},.ok (f node).2)

def Context.withValue (c : Context) (idx : Nat) (k : Json → Context × Answer) : Context × Answer :=
  match c.extobj idx with
  | none => (c,.error .invalidObject)
  | some r =>
    match c.view r with
    | none => (c,.error .invalidRef)
    | some value => k value

inductive Call where
  | parse (data : Option Json)
  /- A static file, file metadata, the connection or the request's body. -/
  | load (json : Option Json)
  | newObject
  | newArray
  | clone (idx : Nat)
  | get (idx : Nat) (key : Bytes)
  | arrayGet (idx i : Nat)
  | set (idx : Nat) (key : Bytes) (value : Nat)
  | remove (idx : Nat) (key : Bytes)
  | arrayPush (idx value : Nat)
  | arraySet (idx i value : Nat)
  | setString (idx : Nat) (text : Bytes)
  | setI64 (idx : Nat) (n : Int)
  | setBool (idx : Nat) (b : Bool)
  | setNull (idx : Nat)
  | reset (idx : Nat)
  | free (idx : Nat)
  /- The claims of the session that the request's cookie opens, if it opens one. -/
  | oidcSessionVerify (cfg : Nat) (claims : Option Json)
  /- What the callee returned, if it ran to a value. -/
  | zsCall (input : Nat) (result : Option Json)
  /- The length of the serialised body. -/
  | respond (idx length : Nat)

def jsonGet (c : Context) (idx : Nat) (s : Step) : Context × Answer :=
  match c.extobj idx with
  | none => (c,.error .invalidObject)
  | some r =>
    match c.view r with
    | none => (c,.error .invalidRef)
    | some node =>
      match child node s with
      | none => (c,.ok (-1))
      | some _ => c.allocExtobj {r with node := r.node ++ [s]}

def removeField (key : Bytes) : Json → Json × Int
  | .object fields => if (field fields key).isSome then
      (.object (fields.eraseP fun f => f.1 == key),0) else (.object fields,-1)
  | v => (v,-1)

def insertInto (key : Bytes) (value : Json) : Json → Json × Int
  | .object fields => (.object (insertField key value fields),0)
  | v => (v,-1)

def pushOnto (value : Json) : Json → Json × Int
  | .array items => (.array (items ++ [value]),items.length + 1)
  | v => (v,-1)

def setItem (i : Nat) (value : Json) : Json → Json × Int
  | .array items => if i < items.length then (.array (items.set i value),0) else (.array items,-1)
  | v => (v,-1)

def cookieSecret (fields : List (Bytes × Json)) : Bytes :=
  match field fields (ascii "cookie_secret") with
  | some (.string s) => s
  | _ => []

/- A configuration that is no object or whose secret is short is the script's mistake. -/
def sessionVerify (c : Context) (claims : Option Json) : Json → Context × Answer
  | .object fields =>
    if (cookieSecret fields).length < 16 then (c,.ok (-1)) else
    match claims with
    | none => (c,.ok 0)
    | some claims => c.newRef claims
  | _ => (c,.ok (-1))

def created (c : Context) : Option Json → Context × Answer
  | none => (c,.ok (-1))
  | some v => c.newCharged v

def call (c : Context) : Call → Context × Answer
  | .parse data => created c data
  | .load json => created c json
  | .newObject => c.newCharged (.object [])
  | .newArray => c.newCharged (.array [])
  | .clone idx => c.withValue idx c.newCharged
  | .get idx key => if validUtf8 key then jsonGet c idx (.key key) else (c,.ok (-1))
  | .arrayGet idx i => jsonGet c idx (.index i)
  | .set idx key value =>
    if ! validUtf8 key then (c,.ok (-1)) else
    c.withValue value fun v => c.modify idx (insertInto key v)
  | .remove idx key => if validUtf8 key then c.modify idx (removeField key) else (c,.ok (-1))
  | .arrayPush idx value => c.withValue value fun v => c.modify idx (pushOnto v)
  | .arraySet idx i value => c.withValue value fun v => c.modify idx (setItem i v)
  | .setString idx text =>
    if validUtf8 text then c.modify idx fun _ => (.string text,0) else (c,.ok (-1))
  | .setI64 idx n => c.modify idx fun _ => (.number (.integer n),0)
  | .setBool idx b => c.modify idx fun _ => (.bool b,0)
  | .setNull idx => c.modify idx fun _ => (.null,0)
  | .reset idx =>
    match c.extobj idx with
    | none => (c,.error .invalidObject)
    | some r => (c.setRef idx ⟨r.tree,[],(c.tree r.tree).latestEpoch⟩,.ok 0)
  | .free idx =>
    if (c.extobj idx).isNone then (c,.error .invalidObject)
    else ({c with objects := c.objects.filter fun o => o.1 ≠ idx},.ok 0)
  | .oidcSessionVerify cfg claims => c.withValue cfg (sessionVerify c claims)
  | .zsCall input result => c.withValue input fun _ => created c result
  | .respond idx length => c.withValue idx fun _ =>
    match c.allocMemoryFootprint length with
    | none => (c,.error .footprint)
    | some c => (c,.ok 0)

/- A script run for a request starts with no handle; a callee has its input as handle 1. -/
def started (max : Nat) : Option Json → Context
  | none => ⟨[],[],1,0,max⟩
  | some input => ⟨[⟨input,0⟩],[(1,⟨0,[],0⟩)],2,estimateJsonMemoryUsage input,max⟩

def Context.live (c : Context) : Finset Nat := (c.objects.map fun o => o.2.tree).toFinset

def Context.inUse (c : Context) : Nat := ∑ t ∈ c.live, estimateJsonMemoryUsage (c.tree t).root

def Context.next (c : Context) (op : Call) : Context := (call c op).1

theorem estimateLoopSum (fuel : Nat) (stack : List Json) (total : Nat)
    (enough : (stack.map (weight ⟨1,0⟩)).sum ≤ fuel) :
    estimateLoop fuel stack total = total + (stack.map (weight sizes)).sum := by
  induction fuel generalizing stack total with
  | zero =>
    cases stack with
    | nil => rfl
    | cons v later =>
      have one : 1 ≤ weight ⟨1,0⟩ v := valueLeWeight ⟨1,0⟩ v
      simp only [List.map_cons,List.sum_cons] at enough
      omega
  | succ fuel ih =>
    cases stack with
    | nil => rfl
    | cons v later =>
      have count := weightOwn ⟨1,0⟩ v
      have one : 1 ≤ ownWeight ⟨1,0⟩ v := by cases v <;> simp [ownWeight]
      simp only [List.map_cons,List.sum_cons] at enough
      rw [estimateLoop,ih]
      · simp only [List.map_append,List.sum_append,List.map_reverse,List.sum_reverse,List.map_cons,
          List.sum_cons,weightOwn sizes v]
        omega
      · simp only [List.map_append,List.sum_append,List.map_reverse,List.sum_reverse]
        omega

theorem estimateWeight (v : Json) : estimateJsonMemoryUsage v = weight sizes v := by
  simp [estimateJsonMemoryUsage,estimateLoopSum]

/- Handles refer to trees that exist, and one that is not stale finds its node. -/
structure Sound (c : Context) : Prop where
  bound : ∀ o ∈ c.objects, o.2.tree < c.trees.length
  behind : ∀ o ∈ c.objects, o.2.epoch ≤ (c.tree o.2.tree).latestEpoch
  resolves : ∀ o ∈ c.objects, o.2.epoch = (c.tree o.2.tree).latestEpoch →
    (resolve (c.tree o.2.tree).root o.2.node).isSome

variable {c : Context} {r : JsonRef}

theorem extobjMem {idx} (h : c.extobj idx = some r) : (idx,r) ∈ c.objects := by
  obtain ⟨o,found,is⟩ := Option.map_eq_some_iff.mp h
  have same : o.1 = idx := by simpa using List.find?_some found
  have mem := List.mem_of_find?_eq_some found
  cases same
  cases is
  exact mem

theorem viewSome {node : Json} (h : c.view r = some node) :
    r.epoch = (c.tree r.tree).latestEpoch ∧ resolve (c.tree r.tree).root r.node = some node := by
  unfold Context.view at h
  split at h
  · cases h
  · rename_i fresh
    exact ⟨by simpa using fresh,h⟩

theorem treeAppend {trees t} (inside : t < trees.length) (new : Tree) :
    (trees ++ [new])[t]?.getD ⟨.null,0⟩ = trees[t]?.getD ⟨.null,0⟩ := by
  rw [List.getElem?_append_left inside]

theorem soundAlloc {c} (sound : Sound c) {r} (inside : r.tree < c.trees.length)
    (fresh : r.epoch = (c.tree r.tree).latestEpoch) (found : (resolve (c.tree r.tree).root r.node).isSome) :
    Sound (c.allocExtobj r).1 := by
  unfold Context.allocExtobj
  split
  · exact sound
  · constructor
    · exact List.forall_mem_cons.mpr ⟨inside,sound.bound⟩
    · exact List.forall_mem_cons.mpr ⟨fresh.le,sound.behind⟩
    · exact List.forall_mem_cons.mpr ⟨fun _ => found,sound.resolves⟩

theorem soundNewRef {c} (sound : Sound c) (root : Json) : Sound (c.newRef root).1 := by
  have last : (c.trees ++ [(⟨root,0⟩ : Tree)])[c.trees.length]?.getD ⟨.null,0⟩ = ⟨root,0⟩ := by simp
  refine soundAlloc ⟨?_,?_,?_⟩ (by simp) ?_ ?_
  · intro o mem
    have old := sound.bound o mem
    simp only [List.length_append]
    omega
  · intro o mem
    simpa only [Context.tree,treeAppend (sound.bound o mem)] using sound.behind o mem
  · intro o mem
    simpa only [Context.tree,treeAppend (sound.bound o mem)] using sound.resolves o mem
  · simp only [Context.tree,last]
  · simp only [resolve,Option.isSome_some]

theorem liveBound {c} (sound : Sound c) {t} (mem : t ∈ c.live) : t < c.trees.length := by
  obtain ⟨o,listed,is⟩ := List.mem_map.mp (List.mem_toFinset.mp mem)
  rw [← is]
  exact sound.bound o listed

theorem extobjLive {idx} (h : c.extobj idx = some r) : r.tree ∈ c.live :=
  List.mem_toFinset.mpr (List.mem_map.mpr ⟨_,extobjMem h,rfl⟩)

structure Within (c after : Context) (bound : Nat) : Prop where
  sound : Sound after
  inUse : after.inUse ≤ bound
  charged : c.memoryFootprintBytes ≤ after.memoryFootprintBytes
  limited : c.memoryFootprintBytes ≤ c.maxMemoryFootprint →
    after.memoryFootprintBytes ≤ after.maxMemoryFootprint
  max : after.maxMemoryFootprint = c.maxMemoryFootprint

theorem withinSame {c} (sound : Sound c) : Within c c c.inUse :=
  ⟨sound,le_refl _,le_refl _,id,rfl⟩

theorem withinMono {c after a b} (h : Within c after a) (le : a ≤ b) : Within c after b :=
  ⟨h.sound,h.inUse.trans le,h.charged,h.limited,h.max⟩

theorem allocSame (c : Context) (r : JsonRef) : (c.allocExtobj r).1.memoryFootprintBytes = c.memoryFootprintBytes ∧
    (c.allocExtobj r).1.maxMemoryFootprint = c.maxMemoryFootprint := by
  unfold Context.allocExtobj
  split <;> exact ⟨rfl,rfl⟩

theorem allocInUse (c : Context) (r : JsonRef) :
    (c.allocExtobj r).1.inUse ≤ ∑ t ∈ insert r.tree c.live, estimateJsonMemoryUsage (c.tree t).root := by
  unfold Context.allocExtobj
  split
  · exact Finset.sum_le_sum_of_subset (Finset.subset_insert _ _)
  · exact (Finset.sum_congr (by simp [Context.live]) fun _ _ => rfl).le

theorem newRefWithin {c} (sound : Sound c) (root : Json) :
    Within c (c.newRef root).1 (c.inUse + weight sizes root) where
  sound := soundNewRef sound root
  inUse := by
    have new : c.trees.length ∉ c.live := fun mem => Nat.lt_irrefl _ (liveBound sound mem)
    have kept : ∑ t ∈ c.live, estimateJsonMemoryUsage
        ((c.trees ++ [(⟨root,0⟩ : Tree)])[t]?.getD ⟨.null,0⟩).root = c.inUse :=
      Finset.sum_congr rfl fun t mem => by rw [treeAppend (liveBound sound mem),Context.tree]
    refine (allocInUse _ _).trans ?_
    show ∑ t ∈ insert c.trees.length c.live, estimateJsonMemoryUsage
      ((c.trees ++ [(⟨root,0⟩ : Tree)])[t]?.getD ⟨.null,0⟩).root ≤ _
    rw [Finset.sum_insert new,kept]
    simp [estimateWeight,Nat.add_comm]
  charged := by
    rw [Context.newRef,(allocSame _ _).1]
  limited := by
    intro small
    rw [Context.newRef,(allocSame _ _).1,(allocSame _ _).2]
    exact small
  max := by
    rw [Context.newRef,(allocSame _ _).2]

theorem footprintWithin {c after n} (sound : Sound c) (h : c.allocMemoryFootprint n = some after) :
    Within c after c.inUse ∧ after.inUse = c.inUse ∧ after.memoryFootprintBytes = c.memoryFootprintBytes + n := by
  unfold Context.allocMemoryFootprint at h
  split at h
  · cases h
  · rename_i fits
    cases h
    refine ⟨⟨⟨sound.bound,sound.behind,sound.resolves⟩,le_refl _,Nat.le_add_right _ _,?_,rfl⟩,rfl,rfl⟩
    intro _
    show c.memoryFootprintBytes + n ≤ c.maxMemoryFootprint
    omega

theorem jsonGetWithin (sound : Sound c) (idx : Nat) (s : Step) :
    Within c (jsonGet c idx s).1 c.inUse := by
  unfold jsonGet
  split
  · exact withinSame sound
  · rename_i r object
    split
    · exact withinSame sound
    · rename_i node view
      split
      · exact withinSame sound
      · rename_i below found
        obtain ⟨fresh,here⟩ := viewSome view
        have deeper : resolve (c.tree r.tree).root (r.node ++ [s]) = some below := by
          have walk : ∀ (v : Json) (path : List Step), resolve v path = some node →
              resolve v (path ++ [s]) = some below := by
            intro v path
            induction path generalizing v with
            | nil =>
              intro here
              cases here
              simp [resolve,found]
            | cons p later ih =>
              intro here
              obtain ⟨next,first,rest⟩ := Option.bind_eq_some_iff.mp here
              simpa [resolve,first] using ih next rest
          exact walk _ _ here
        have same := allocSame c {r with node := r.node ++ [s]}
        refine ⟨soundAlloc sound (sound.bound _ (extobjMem object)) fresh (by simp [deeper]),?_,?_,?_,?_⟩
        · refine (allocInUse _ _).trans ?_
          rw [Finset.insert_eq_of_mem (extobjLive object)]
          exact le_refl _
        · exact same.1.ge
        · intro small
          rw [same.1,same.2]
          exact small
        · exact same.2

theorem newChargedWithin {c} (sound : Sound c) (root : Json) (accounted : c.inUse ≤ c.memoryFootprintBytes) :
    Within c (c.newCharged root).1 (c.newCharged root).1.memoryFootprintBytes := by
  unfold Context.newCharged
  split
  · exact withinMono (withinSame sound) accounted
  · rename_i charged h
    obtain ⟨within,use,bytes⟩ := footprintWithin sound h
    have made := newRefWithin within.sound root
    have same : (charged.newRef root).1.memoryFootprintBytes = charged.memoryFootprintBytes := by
      rw [Context.newRef,(allocSame _ _).1]
    rw [estimateWeight] at bytes
    refine ⟨made.sound,?_,within.charged.trans made.charged,
      fun small => made.limited (within.limited small),made.max.trans within.max⟩
    have bound := made.inUse
    omega

theorem setRefLive {idx} (old : r.tree ∈ c.live) : (c.setRef idx r).live ⊆ c.live := by
  intro t mem
  simp only [Context.live,Context.setRef,List.mem_toFinset,List.mem_map] at mem
  obtain ⟨o',⟨o,listed,is⟩,same⟩ := mem
  split at is
  · cases is
    exact same ▸ old
  · rw [← is] at same
    exact List.mem_toFinset.mpr (List.mem_map.mpr ⟨o,listed,same⟩)

theorem setRefMem {idx} {o : Nat × JsonRef} (mem : o ∈ (c.setRef idx r).objects) :
    o = (idx,r) ∨ o ∈ c.objects := by
  obtain ⟨old,listed,is⟩ := List.mem_map.mp mem
  split at is
  · exact .inl is.symm
  · exact .inr (is ▸ listed)

theorem treeSetRef (c : Context) (idx : Nat) (r : JsonRef) (t : Nat) : (c.setRef idx r).tree t = c.tree t := rfl

theorem treeWithTree {t} (inside : t < c.trees.length) (after : Tree) (s : Nat) :
    (c.withTree t after).tree s = if s = t then after else c.tree s := by
  unfold Context.withTree Context.tree
  by_cases same : t = s
  · subst same
    simp [inside]
  · simp [same,Ne.symm same]

theorem soundReplaced (sound : Sound c) {idx} {root : Json}
    (inside : r.tree < c.trees.length) (fresh : r.epoch = (c.tree r.tree).latestEpoch)
    (found : (resolve root r.node).isSome) :
    Sound ((c.withTree r.tree ⟨root,(c.tree r.tree).latestEpoch + 1⟩).setRef idx {r with epoch := r.epoch + 1}) where
  bound := by
    intro o mem
    have size : (c.trees.set r.tree ⟨root,(c.tree r.tree).latestEpoch + 1⟩).length = c.trees.length :=
      List.length_set
    rcases setRefMem mem with rfl | old
    · exact size.symm ▸ inside
    · exact size.symm ▸ sound.bound o old
  behind := by
    intro o mem
    rw [treeSetRef,treeWithTree inside]
    rcases setRefMem mem with rfl | old
    · simp [fresh]
    · have before := sound.behind o old
      split
      · rename_i same
        rw [same] at before
        exact before.trans (Nat.le_succ _)
      · exact before
  resolves := by
    intro o mem
    rw [treeSetRef,treeWithTree inside]
    rcases setRefMem mem with rfl | old
    · simp [found]
    · have before := sound.behind o old
      split
      · rename_i same
        rw [same] at before
        intro current
        simp only at current
        omega
      · exact sound.resolves o old

theorem inUseReplaced (idx : Nat) (r' : JsonRef) (tree : Tree)
    (inside : r.tree < c.trees.length) (alive : r.tree ∈ c.live) (same : r'.tree = r.tree) :
    ((c.withTree r.tree tree).setRef idx r').inUse + weight sizes (c.tree r.tree).root ≤
      c.inUse + weight sizes tree.root := by
  have fewer : ((c.withTree r.tree tree).setRef idx r').live ⊆ c.live :=
    setRefLive (c := c.withTree r.tree tree) (same ▸ alive)
  have shrunk := Finset.sum_le_sum_of_subset (f := fun t =>
    estimateJsonMemoryUsage (((c.withTree r.tree tree).setRef idx r').tree t).root) fewer
  have others : ∀ t ∈ c.live.erase r.tree, estimateJsonMemoryUsage
      (((c.withTree r.tree tree).setRef idx r').tree t).root = estimateJsonMemoryUsage (c.tree t).root := by
    intro t mem
    rw [treeSetRef,treeWithTree inside,if_neg (Finset.ne_of_mem_erase mem)]
  have here : (((c.withTree r.tree tree).setRef idx r').tree r.tree) = tree := by
    rw [treeSetRef,treeWithTree inside,if_pos rfl]
  rw [← Finset.add_sum_erase _ _ alive,Finset.sum_congr rfl others,here,estimateWeight] at shrunk
  have before : c.inUse = weight sizes (c.tree r.tree).root +
      ∑ t ∈ c.live.erase r.tree, estimateJsonMemoryUsage (c.tree t).root := by
    rw [Context.inUse,← Finset.add_sum_erase _ _ alive,estimateWeight]
  unfold Context.inUse at before ⊢
  omega

theorem modifyWithin (sound : Sound c) (idx added : Nat) {f : Json → Json × Int}
    (grows : ∀ node, weight sizes (f node).1 ≤ weight sizes node + added) :
    Within c (c.modify idx f).1 (c.inUse + added) := by
  unfold Context.modify
  split
  · exact withinMono (withinSame sound) (Nat.le_add_right _ _)
  · rename_i r object
    split
    · exact withinMono (withinSame sound) (Nat.le_add_right _ _)
    · rename_i node view
      obtain ⟨fresh,here⟩ := viewSome view
      have inside := sound.bound _ (extobjMem object)
      refine ⟨soundReplaced sound inside fresh (by simp [resolveUpdate _ here]),?_,le_refl _,id,rfl⟩
      have used := inUseReplaced idx {r with epoch := r.epoch + 1}
        ⟨update (c.tree r.tree).root r.node (f node).1,(c.tree r.tree).latestEpoch + 1⟩ inside
        (extobjLive object) rfl
      have swapped := updateWeight (z := sizes) (f node).1 here
      have small := grows node
      simp only at used ⊢
      omega

theorem insertIntoWeight (key : Bytes) (value node : Json) : weight sizes (insertInto key value node).1 ≤
      weight sizes node + (sizes.key + key.length + weight sizes value) := by
  cases node with
  | object fields =>
    have inserted := insertFieldWeight (z := sizes) key value fields
    simp only [insertInto,weight]
    omega
  | _ => exact Nat.le_add_right _ _

theorem pushOntoWeight (value node : Json) :
    weight sizes (pushOnto value node).1 ≤ weight sizes node + weight sizes value := by
  cases node with
  | array items => simp [pushOnto,weight,weightItemsSum,Nat.add_assoc]
  | _ => exact Nat.le_add_right _ _

theorem setItemIntoWeight (i : Nat) (value node : Json) :
    weight sizes (setItem i value node).1 ≤ weight sizes node + weight sizes value := by
  cases node with
  | array items =>
    simp only [setItem]
    split
    · rename_i inside
      have swapped := setItemWeight (z := sizes) value (List.getElem?_eq_getElem inside)
      simp only [weight]
      omega
    · exact Nat.le_add_right _ _
  | _ => exact Nat.le_add_right _ _

theorem removeFieldWeight (key : Bytes) (node : Json) : weight sizes (removeField key node).1 ≤ weight sizes node := by
  cases node with
  | object fields =>
    simp only [removeField]
    split
    · have erased := eraseFieldWeight (z := sizes) (fun f => f.1 == key) fields
      simp only [weight]
      omega
    · exact le_refl _
  | _ => exact le_refl _

theorem withValueKeeps {c idx} {k : Json → Context × Answer} {P : Context → Prop} (here : P c)
    (each : ∀ r v, c.extobj idx = some r → c.view r = some v → P (k v).1) : P (c.withValue idx k).1 := by
  unfold Context.withValue
  split
  · exact here
  · rename_i r object
    split
    · exact here
    · rename_i v view
      exact each r v object view

def valueSize (c : Context) (idx : Nat) : Nat :=
  (((c.extobj idx).bind c.view).map estimateJsonMemoryUsage).getD 0

def uncharged (c : Context) : Call → Nat
  | .set _ key value => sizes.key + key.length + valueSize c value
  | .arrayPush _ value => valueSize c value
  | .arraySet _ _ value => valueSize c value
  | .setString _ text => sizes.value + text.length
  | .oidcSessionVerify _ (some claims) => estimateJsonMemoryUsage claims
  | _ => 0

/- What a call adds fits in what has been charged and is no longer in use. -/
def Covered (c : Context) (op : Call) : Prop :=
  uncharged c op = 0 ∨ c.inUse + uncharged c op ≤ c.memoryFootprintBytes

instance (c : Context) (op : Call) : Decidable (Covered c op) := inferInstanceAs (Decidable (_ ∨ _))

structure Accounted (c : Context) : Prop where
  sound : Sound c
  inUse : c.inUse ≤ c.memoryFootprintBytes

theorem valueSizeSome {c idx} {r v} (object : c.extobj idx = some r) (view : c.view r = some v) :
    valueSize c idx = weight sizes v := by
  simp [valueSize,object,view,estimateWeight]

def Paid (c after : Context) : Prop := Within c after after.memoryFootprintBytes

theorem paidSame {c} (accounted : Accounted c) : Paid c c :=
  withinMono (withinSame accounted.sound) accounted.inUse

theorem paidCovered {c after n} (within : Within c after (c.inUse + n))
    (covered : c.inUse + n ≤ c.memoryFootprintBytes) : Paid c after :=
  withinMono within (covered.trans within.charged)

theorem paidCreated {c} (accounted : Accounted c) (v : Option Json) : Paid c (created c v).1 := by
  cases v with
  | none => exact paidSame accounted
  | some v => exact newChargedWithin accounted.sound v accounted.inUse

theorem paidModify {c} (accounted : Accounted c) (idx : Nat) {f : Json → Json × Int} (n : Nat)
    (covered : n = 0 ∨ c.inUse + n ≤ c.memoryFootprintBytes)
    (grows : ∀ node, weight sizes (f node).1 ≤ weight sizes node + n) : Paid c (c.modify idx f).1 := by
  refine paidCovered (modifyWithin accounted.sound idx n grows) ?_
  rcases covered with rfl | fits
  · exact accounted.inUse
  · exact fits

theorem paidFree {c} (accounted : Accounted c) (idx : Nat) :
    Paid c {c with objects := c.objects.filter fun o => o.1 ≠ idx} := by
  have sound := accounted.sound
  have old : ∀ {o}, o ∈ c.objects.filter (fun o => o.1 ≠ idx) → o ∈ c.objects := List.mem_of_mem_filter
  refine ⟨⟨fun o mem => sound.bound o (old mem),fun o mem => sound.behind o (old mem),
    fun o mem => sound.resolves o (old mem)⟩,?_,le_refl _,id,rfl⟩
  have fewer : Context.live {c with objects := c.objects.filter fun o => o.1 ≠ idx} ⊆ c.live := by
    intro t mem
    obtain ⟨o,listed,is⟩ := List.mem_map.mp (List.mem_toFinset.mp mem)
    exact List.mem_toFinset.mpr (List.mem_map.mpr ⟨o,old listed,is⟩)
  exact (Finset.sum_le_sum_of_subset fewer).trans accounted.inUse

theorem paidReset (accounted : Accounted c) {idx} (object : c.extobj idx = some r) :
    Paid c (c.setRef idx ⟨r.tree,[],(c.tree r.tree).latestEpoch⟩) := by
  have sound := accounted.sound
  have inside := sound.bound _ (extobjMem object)
  refine ⟨⟨?_,?_,?_⟩,?_,le_refl _,id,rfl⟩
  · intro o mem
    rcases setRefMem mem with rfl | old
    · exact inside
    · exact sound.bound o old
  · intro o mem
    rcases setRefMem mem with rfl | old
    · exact le_refl _
    · exact sound.behind o old
  · intro o mem
    rcases setRefMem mem with rfl | old
    · intro _
      rfl
    · exact sound.resolves o old
  · have alive := extobjLive object
    have fewer : (c.setRef idx ⟨r.tree,[],(c.tree r.tree).latestEpoch⟩).live ⊆ c.live :=
      setRefLive alive
    exact (Finset.sum_le_sum_of_subset fewer).trans accounted.inUse

theorem paidSession {c} (accounted : Accounted c) {claims}
    (covered : ∀ v, claims = some v → c.inUse + weight sizes v ≤ c.memoryFootprintBytes) (cfg : Json) :
    Paid c (sessionVerify c claims cfg).1 := by
  unfold sessionVerify
  split
  · split
    · exact paidSame accounted
    · split
      · exact paidSame accounted
      · rename_i v
        exact paidCovered (newRefWithin accounted.sound v) (covered v rfl)
  · exact paidSame accounted

theorem nodeReplaced {new n} (small : weight sizes new ≤ sizes.value + n) (node : Json) :
    weight sizes new ≤ weight sizes node + n := by
  have least := valueLeWeight sizes node
  omega

theorem callPaid {c op} (accounted : Accounted c) (covered : Covered c op) : Paid c (c.next op) := by
  unfold Context.next
  unfold Covered at covered
  cases op with
  | parse data => exact paidCreated accounted data
  | load json => exact paidCreated accounted json
  | newObject => exact newChargedWithin accounted.sound _ accounted.inUse
  | newArray => exact newChargedWithin accounted.sound _ accounted.inUse
  | clone idx =>
    exact withValueKeeps (paidSame accounted) fun _ v _ _ =>
      newChargedWithin accounted.sound v accounted.inUse
  | get idx key =>
    simp only [call]
    split
    · exact withinMono (jsonGetWithin accounted.sound idx _) (accounted.inUse.trans
        (jsonGetWithin accounted.sound idx _).charged)
    · exact paidSame accounted
  | arrayGet idx i =>
    exact withinMono (jsonGetWithin accounted.sound idx _) (accounted.inUse.trans
      (jsonGetWithin accounted.sound idx _).charged)
  | set idx key value =>
    simp only [call]
    split
    · exact paidSame accounted
    · refine withValueKeeps (paidSame accounted) fun r v object view => ?_
      rw [uncharged,valueSizeSome object view] at covered
      exact paidModify accounted idx _ covered (insertIntoWeight key v)
  | remove idx key =>
    simp only [call]
    split
    · exact paidModify accounted idx 0 (.inl rfl) (removeFieldWeight key)
    · exact paidSame accounted
  | arrayPush idx value =>
    refine withValueKeeps (paidSame accounted) fun r v object view => ?_
    rw [uncharged,valueSizeSome object view] at covered
    exact paidModify accounted idx _ covered (pushOntoWeight v)
  | arraySet idx i value =>
    refine withValueKeeps (paidSame accounted) fun r v object view => ?_
    rw [uncharged,valueSizeSome object view] at covered
    exact paidModify accounted idx _ covered (setItemIntoWeight i v)
  | setString idx text =>
    simp only [call]
    split
    · refine paidModify accounted idx _ covered (nodeReplaced ?_)
      simp [uncharged,weight]
    · exact paidSame accounted
  | setI64 idx n => exact paidModify accounted idx 0 (.inl rfl) (nodeReplaced (by simp [weight]))
  | setBool idx b => exact paidModify accounted idx 0 (.inl rfl) (nodeReplaced (by simp [weight]))
  | setNull idx => exact paidModify accounted idx 0 (.inl rfl) (nodeReplaced (by simp [weight]))
  | reset idx =>
    simp only [call]
    split
    · exact paidSame accounted
    · rename_i r object
      exact paidReset accounted object
  | free idx =>
    simp only [call]
    split
    · exact paidSame accounted
    · exact paidFree accounted idx
  | oidcSessionVerify cfg claims =>
    refine withValueKeeps (paidSame accounted) fun _ v _ _ => paidSession accounted ?_ v
    rintro v rfl
    rw [uncharged,estimateWeight] at covered
    rcases covered with empty | fits
    · have least := valueLeWeight sizes v
      have given : sizes.value = 32 := rfl
      omega
    · exact fits
  | zsCall input result =>
    exact withValueKeeps (paidSame accounted) fun _ _ _ _ => paidCreated accounted result
  | respond idx length =>
    refine withValueKeeps (paidSame accounted) fun _ _ _ _ => ?_
    split
    · exact paidSame accounted
    · rename_i charged h
      obtain ⟨within,-,-⟩ := footprintWithin accounted.sound h
      exact withinMono within (accounted.inUse.trans within.charged)

theorem startedAccounted (max : Nat) (input : Option Json) : Accounted (started max input) := by
  cases input with
  | none => exact ⟨⟨by simp [started],by simp [started],by simp [started]⟩,by simp [started,Context.inUse,Context.live]⟩
  | some v =>
    refine ⟨⟨?_,?_,?_⟩,?_⟩
    all_goals simp [started,Context.tree,resolve,Context.inUse,Context.live]

structure Kept (max start : Nat) (c : Context) : Prop where
  accounted : Accounted c
  limited : start ≤ max → c.memoryFootprintBytes ≤ max
  max : c.maxMemoryFootprint = max

theorem keptCall {max start} {c op} (kept : Kept max start c) (covered : Covered c op) :
    Kept max start (c.next op) := by
  have paid := callPaid kept.accounted covered
  have same := paid.max.trans kept.max
  refine ⟨⟨paid.sound,paid.inUse⟩,fun small => ?_,same⟩
  have within := paid.limited (kept.max.symm ▸ kept.limited small)
  exact same ▸ within

/- Along every run whose uncharged additions fit in what was charged before, the trees that
live handles refer to never use more than the footprint, and the footprint stays within the
limit if a callee's input does. -/
theorem jsonAccounted (max : Nat) (input : Option Json) (ops : List Call)
    (covered : Guarded Context.next Covered (started max input) ops) :
    let c := run Context.next (started max input) ops
    c.inUse ≤ c.memoryFootprintBytes ∧
      ((∀ v, input = some v → estimateJsonMemoryUsage v ≤ max) → c.memoryFootprintBytes ≤ max) := by
  intro c
  have start : Kept max (started max input).memoryFootprintBytes (started max input) :=
    ⟨startedAccounted max input,id,by cases input <;> rfl⟩
  have keeps : ∀ d op, Kept max (started max input).memoryFootprintBytes d → Covered d op →
      Kept max (started max input).memoryFootprintBytes (d.next op) :=
    fun _ _ kept covered => keptCall kept covered
  have kept := runInvariant keeps start covered
  refine ⟨kept.accounted.inUse,fun small => kept.limited ?_⟩
  cases input with
  | none => exact Nat.zero_le _
  | some v => exact small v rfl

theorem builtInFreed :
    let c := run Context.next (started 1000 none)
      [.parse (some (.string (List.replicate 200 97))),.free 1,.newObject,.newArray, .set 2 (ascii "k") 3,.setI64 3 7]
    c.inUse = 121 ∧ c.inUse ≤ c.memoryFootprintBytes :=
  ⟨by decide +kernel,(jsonAccounted 1000 none _ (by decide +kernel)).1⟩

theorem selfPushUncharged : ¬∀ (max : Nat) (input : Option Json) (ops : List Call),
      Guarded Context.next (fun c op => (call c op).2 ≠ .error .footprint) (started max input) ops →
      (run Context.next (started max input) ops).inUse ≤
        (run Context.next (started max input) ops).memoryFootprintBytes := by
  intro always
  have bounded := always 1000 none [.newArray,.arrayPush 1 1] (by decide +kernel)
  exact absurd bounded (by decide +kernel)

end ZeroServe.ScriptJson
