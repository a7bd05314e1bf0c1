import ZeroServe.ByteTrim

/-! Ordered multimaps: several values under one key, in the order they came. The order between different keys is left
open. -/
namespace ZeroServe

structure FieldMap (K V : Type) where
  pairs : List (K × V)
  deriving DecidableEq

namespace FieldMap
variable {K V : Type} [DecidableEq K]

def empty : FieldMap K V := ⟨[]⟩
def getAll (m : FieldMap K V) (k : K) : List V := (m.pairs.filter (·.1 = k)).map (·.2)
def get (m : FieldMap K V) (k : K) : Option V := (m.getAll k).head?
def containsKey (m : FieldMap K V) (k : K) : Bool := m.pairs.any (·.1 = k)
def removeWhere (m : FieldMap K V) (p : K → Bool) : FieldMap K V := ⟨m.pairs.filter (fun f => !p f.1)⟩
def remove (m : FieldMap K V) (k : K) : FieldMap K V := m.removeWhere (· = k)
def append (m : FieldMap K V) (k : K) (v : V) : FieldMap K V := ⟨m.pairs ++ [(k,v)]⟩
def insert (m : FieldMap K V) (k : K) (v : V) : FieldMap K V := (m.remove k).append k v

theorem memGetAll {m : FieldMap K V} {k : K} {v : V} : v ∈ m.getAll k ↔ (k,v) ∈ m.pairs := by
  simp only [getAll,List.mem_map,List.mem_filter,decide_eq_true_eq]
  constructor
  · rintro ⟨⟨a,b⟩,⟨mem,rfl⟩,rfl⟩; exact mem
  · intro mem; exact ⟨(k,v),⟨mem,rfl⟩,rfl⟩

variable (m : FieldMap K V)

theorem getAllRemoveWhere (p : K → Bool) (k : K) :
    (m.removeWhere p).getAll k = if p k then [] else m.getAll k := by
  unfold getAll removeWhere
  rw [List.filter_filter]
  split
  · rename_i hit
    rw [List.filter_eq_nil_iff.mpr ?_]; rfl
    intro f _ hf
    simp only [Bool.and_eq_true,decide_eq_true_eq] at hf
    simp [hf.1,hit] at hf
  · rename_i miss
    congr 1
    apply List.filter_congr
    intro f _
    by_cases hf : f.1 = k
    · simp [hf,miss]
    · simp [hf]

variable (k : K)

@[simp] theorem getAllRemoveSelf : (m.remove k).getAll k = [] := by
  simp [remove,getAllRemoveWhere]

@[simp] theorem getAllRemoveOther {k l} (h : k ≠ l) :
    (m.remove l).getAll k = m.getAll k := by simp [remove,getAllRemoveWhere,h]

variable (v : V)

@[simp] theorem getAllAppendSelf :
    (m.append k v).getAll k = m.getAll k ++ [v] := by simp [getAll,append]

@[simp] theorem getAllAppendOther {k l} (h : k ≠ l) :
    (m.append l v).getAll k = m.getAll k := by simp [getAll,append,Ne.symm h]

@[simp] theorem getAllInsertSelf : (m.insert k v).getAll k = [v] := by simp [insert]

@[simp] theorem getAllInsertOther {k l} (h : k ≠ l) :
    (m.insert l v).getAll k = m.getAll k := by simp [insert,h]

theorem containsKeyIff : m.containsKey k = true ↔ m.getAll k ≠ [] := by
  simp [containsKey,getAll]

theorem getEqNone : m.get k = none ↔ m.getAll k = [] := by
  simp [get]

theorem permOfGetAll [DecidableEq V] {m l : FieldMap K V} (h : ∀ k, m.getAll k = l.getAll k) :
    m.pairs.Perm l.pairs := by
  have countPair : ∀ (m : FieldMap K V) (k : K) (v : V),
      m.pairs.count (k,v) = (m.getAll k).count v := by
    intro m k v
    unfold getAll
    induction m.pairs with
    | nil => rfl
    | cons f fs ih =>
      obtain ⟨a,b⟩ := f
      by_cases key : a = k
      · by_cases value : b = v <;> simp [key,value,ih]
      · simp [key,ih]
  rw [List.perm_iff_count]
  rintro ⟨k,v⟩
  rw [countPair,countPair,h]

end FieldMap
end ZeroServe
