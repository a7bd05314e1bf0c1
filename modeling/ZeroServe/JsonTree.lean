import ZeroServe.ByteText

/-! JSON trees, the nodes inside them by path, and a weight that adds up over the nodes. -/
namespace ZeroServe.JsonTree
open ByteText

inductive Number where
  | integer (n : Int)
  | float (bits : UInt64)
  deriving DecidableEq

inductive Json where
  | null
  | bool (b : Bool)
  | number (n : Number)
  | string (s : Bytes)
  | array (items : List Json)
  | object (fields : List (Bytes × Json))

structure Sizes where
  value : Nat
  key : Nat
  deriving DecidableEq

variable (z : Sizes)

mutual
def weight : Json → Nat
  | .null => z.value
  | .bool _ => z.value
  | .number _ => z.value
  | .string s => z.value + s.length
  | .array items => z.value + weightItems items
  | .object fields => z.value + weightFields fields

def weightItems : List Json → Nat
  | [] => 0
  | v::later => weight v + weightItems later

def weightFields : List (Bytes × Json) → Nat
  | [] => 0
  | (k,v)::later => z.key + k.length + weight v + weightFields later
end

def children : Json → List Json
  | .array items => items
  | .object fields => fields.map Prod.snd
  | _ => []

def ownWeight : Json → Nat
  | .string s => z.value + s.length
  | .object fields => z.value + (fields.map fun f => z.key + f.1.length).sum
  | _ => z.value

inductive Step where
  | key (k : Bytes)
  | index (i : Nat)
  deriving DecidableEq

def field (fields : List (Bytes × Json)) (key : Bytes) : Option Json :=
  (fields.find? fun f => f.1 == key).map Prod.snd

def child : Json → Step → Option Json
  | .object fields,.key k => field fields k
  | .array items,.index i => items[i]?
  | _,_ => none

def resolve : Json → List Step → Option Json
  | v,[] => some v
  | v,s::path => (child v s).bind fun c => resolve c path

def replaceField (key : Bytes) (v : Json) : List (Bytes × Json) → List (Bytes × Json)
  | [] => []
  | (k,w)::later => if k == key then (k,v)::later else (k,w)::replaceField key v later

def addField (key : Bytes) (v : Json) : List (Bytes × Json) → List (Bytes × Json)
  | [] => [(key,v)]
  | (k,w)::later => if key < k then (key,v)::(k,w)::later else (k,w)::addField key v later

def insertField (key : Bytes) (v : Json) (fields : List (Bytes × Json)) : List (Bytes × Json) :=
  if (field fields key).isSome then replaceField key v fields else addField key v fields

def setChild : Json → Step → Json → Json
  | .object fields,.key k,v => .object (replaceField k v fields)
  | .array items,.index i,v => .array (items.set i v)
  | w,_,_ => w

def update : Json → List Step → Json → Json
  | _,[],new => new
  | v,s::path,new =>
    match child v s with
    | none => v
    | some c => setChild v s (update c path new)

theorem weightItemsSum (items : List Json) : weightItems z items = (items.map (weight z)).sum := by
  induction items with
  | nil => rfl
  | cons v later ih => rw [weightItems,ih,List.map_cons,List.sum_cons]

theorem weightFieldsSum (fields : List (Bytes × Json)) : weightFields z fields =
    (fields.map fun f => z.key + f.1.length + weight z f.2).sum := by
  induction fields with
  | nil => rfl
  | cons f later ih => rw [weightFields,ih,List.map_cons,List.sum_cons]

variable (new v : Json)

theorem weightOwn : weight z v = ownWeight z v + ((children v).map (weight z)).sum := by
  cases v with
  | array items => simp [weight,ownWeight,children,weightItemsSum]
  | object fields =>
    rw [weight,weightFieldsSum,ownWeight,children,List.map_map,Nat.add_assoc,← List.sum_map_add]
    rfl
  | _ => simp [weight,ownWeight,children]

theorem valueLeWeight : z.value ≤ weight z v := by
  cases v <;> simp [weight]

variable {z}

theorem replaceFieldWeight {fields key old} (found : field fields key = some old) :
    weightFields z (replaceField key v fields) + weight z old = weightFields z fields + weight z v := by
  induction fields with
  | nil => cases found
  | cons f later ih =>
    obtain ⟨k,w⟩ := f
    unfold field at found
    rw [List.find?_cons] at found
    cases same : k == key with
    | true =>
      simp only [same,Option.map_some,Option.some.injEq] at found
      simp only [replaceField,same,if_true,weightFields,found]
      omega
    | false =>
      simp only [same] at found
      have rest := ih found
      simp only [replaceField,same,Bool.false_eq_true,if_false,weightFields]
      omega

theorem addFieldWeight (key : Bytes) (v : Json) (fields : List (Bytes × Json)) :
    weightFields z (addField key v fields) = weightFields z fields + (z.key + key.length + weight z v) := by
  induction fields with
  | nil => simp [addField,weightFields]
  | cons f later ih =>
    rw [addField]
    split
    · simp only [weightFields]
      omega
    · simp only [weightFields,ih]
      omega

theorem insertFieldWeight (key : Bytes) (v : Json) (fields : List (Bytes × Json)) :
    weightFields z (insertField key v fields) ≤ weightFields z fields + (z.key + key.length + weight z v) := by
  unfold insertField
  split
  · rename_i present
    obtain ⟨old,found⟩ := Option.isSome_iff_exists.mp present
    have swapped := replaceFieldWeight (z := z) v found
    omega
  · exact (addFieldWeight key v fields).le

theorem eraseFieldWeight (p : Bytes × Json → Bool) (fields : List (Bytes × Json)) :
    weightFields z (fields.eraseP p) ≤ weightFields z fields := by
  rw [weightFieldsSum,weightFieldsSum]
  exact ((List.eraseP_sublist).map _).sum_le_sum (fun _ _ => Nat.zero_le _)

theorem setItemWeight {items i} {old} (found : items[i]? = some old) :
    weightItems z (items.set i v) + weight z old = weightItems z items + weight z v := by
  induction items generalizing i with
  | nil => simp at found
  | cons w later ih =>
    cases i with
    | zero =>
      simp only [List.getElem?_cons_zero,Option.some.injEq] at found
      simp only [List.set_cons_zero,weightItems,found]
      omega
    | succ i =>
      have rest := ih (by simpa using found)
      simp only [List.set_cons_succ,weightItems]
      omega

theorem setChildWeight {v c s} (found : child v s = some c) :
    weight z (setChild v s new) + weight z c = weight z v + weight z new := by
  unfold child at found
  split at found
  · have swapped := replaceFieldWeight (z := z) new found
    simp only [setChild,weight]
    omega
  · have swapped := setItemWeight (z := z) new found
    simp only [setChild,weight]
    omega
  · cases found

theorem updateWeight {v node path} (found : resolve v path = some node) :
    weight z (update v path new) + weight z node = weight z v + weight z new := by
  induction path generalizing v with
  | nil =>
    cases found
    rw [update]
    omega
  | cons s later ih =>
    obtain ⟨c,here,inner⟩ := Option.bind_eq_some_iff.mp found
    have rest := ih inner
    have swapped := setChildWeight (z := z) (update c later new) here
    simp only [update,here]
    omega

theorem childSetChild {v c s} (found : child v s = some c) : child (setChild v s new) s = some new := by
  unfold child at found
  split at found
  · rename_i fields k
    simp only [setChild,child]
    induction fields with
    | nil => cases found
    | cons f later ih =>
      obtain ⟨k',w⟩ := f
      unfold field at found ⊢
      rw [List.find?_cons] at found
      cases same : k' == k with
      | true => simp [replaceField,same]
      | false =>
        simp only [same] at found
        have rest := ih found
        simpa [replaceField,same,field] using rest
  · rename_i items i
    obtain ⟨bound,-⟩ := List.getElem?_eq_some_iff.mp found
    simp [setChild,child,bound]
  · cases found

theorem resolveUpdate {v node path} (found : resolve v path = some node) :
    resolve (update v path new) path = some new := by
  induction path generalizing v with
  | nil => rfl
  | cons s later ih =>
    obtain ⟨c,here,inner⟩ := Option.bind_eq_some_iff.mp found
    simp only [update,here,resolve,childSetChild _ here,Option.bind_some]
    exact ih inner

end ZeroServe.JsonTree
