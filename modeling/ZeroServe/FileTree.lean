import ZeroServe.ByteText

/-! Files by their path from the root, and how a path text leads to one: component by
component, through directories that exist. There are no links. -/
namespace ZeroServe.FileTree
open ByteText

abbrev Path := List Bytes

inductive Node where
  | dir
  | file (content : Bytes)
  deriving DecidableEq

abbrev Tree := Path → Option Node

def slash : UInt8 := 47

/- Nothing is opened where the last component names a directory or is empty. -/
def walk (t : Tree) : Path → List Bytes → Option (Path × Bytes)
  | _,[] => none
  | cur,c::rest =>
    if c = [] ∨ c = ascii "." then walk t cur rest
    else if c = ascii ".." then walk t cur.dropLast rest
    else
      match t (cur ++ [c]),rest with
      | some (.file content),[] => some (cur ++ [c],content)
      | some .dir,_ => walk t (cur ++ [c]) rest
      | _,_ => none

def openFile (t : Tree) (dir : Path) (path : Bytes) : Option (Path × Bytes) :=
  if path.head? = some slash then walk t [] (path.splitOn slash)
  else if t dir = some .dir then walk t dir (path.splitOn slash) else none

theorem walkLast {t cur p parts content} (h : walk t cur parts = some (p,content)) :
    t p = some (.file content) ∧ ∃ q, ∃ last ∈ parts, p = q ++ [last] := by
  induction parts generalizing cur with
  | nil => cases h
  | cons c rest ih =>
    unfold walk at h
    have later : ∀ {q : Path}, walk t q rest = some (p,content) →
        t p = some (.file content) ∧ ∃ q, ∃ last ∈ c::rest, p = q ++ [last] := by
      intro q found
      obtain ⟨here,front,last,mem,same⟩ := ih found
      exact ⟨here,front,last,List.mem_cons_of_mem _ mem,same⟩
    split at h
    · exact later h
    · split at h
      · exact later h
      · split at h
        · rename_i found
          cases h
          exact ⟨found,cur,c,List.mem_cons_self,rfl⟩
        · exact later h
        · cases h

theorem openFileName {t dir p path content} (h : openFile t dir path = some (p,content)) :
    t p = some (.file content) ∧ ∃ q name, p = q ++ [name] ∧ slash ∉ name := by
  have found : ∃ cur, walk t cur (path.splitOn slash) = some (p,content) := by
    unfold openFile at h
    split at h
    · exact ⟨_,h⟩
    · split at h
      · exact ⟨_,h⟩
      · cases h
  obtain ⟨cur,found⟩ := found
  obtain ⟨here,q,name,mem,same⟩ := walkLast found
  exact ⟨here,q,name,same,splitOnFree mem⟩

theorem openFilePlain {t dir p name content} (plain : slash ∉ name) (h : openFile t dir name = some (p,content)) :
    p = dir ++ [name] := by
  unfold openFile at h
  rw [List.splitOn_eq_singleton plain] at h
  split at h
  · rename_i absolute
    exact absurd (List.mem_of_mem_head? absolute) plain
  · split at h
    · unfold walk at h
      split at h
      · cases h
      · split at h
        · cases h
        · split at h
          · cases h
            rfl
          · cases h
          · cases h
    · cases h

end ZeroServe.FileTree
