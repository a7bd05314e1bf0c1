import ZeroServe.PathShape

/-! The walk of a file matcher through the directories of the machine: every path it visits
consists of the root and names below it. -/
namespace ZeroServe.FileMatcher
open ByteText RequestPath SiteFiles

/- The names of a directory tree, none of them with a backslash. -/
mutual
def Node.Named : Node → Prop
  | .file => True
  | .dir entries => EntriesNamed entries

def EntriesNamed : List (Bytes × Node) → Prop
  | [] => True
  | (name,node)::later => (Clean name ∧ backslash ∉ name) ∧ node.Named ∧ EntriesNamed later
end

theorem entryNamed {entries e} (named : EntriesNamed entries) (mem : e ∈ entries) : e.2.Named := by
  induction entries with
  | nil => cases mem
  | cons first later ih =>
    rcases List.mem_cons.mp mem with rfl | inside
    · exact named.2.1
    · exact ih named.2.2 inside

theorem followNamed {above node found parts} (outer : ∀ n ∈ above, n.Named) (named : node.Named)
    (h : follow above node parts = some found) : found.Named := by
  induction parts generalizing above node with
  | nil =>
    cases node <;> (cases h; exact named)
  | cons part later ih =>
    cases node with
    | file => cases h
    | dir entries =>
      unfold follow at h
      split at h
      · exact ih outer named h
      · split at h
        · cases above with
          | nil => exact ih outer named h
          | cons parent others =>
            obtain ⟨here,rest⟩ := List.forall_mem_cons.mp outer
            exact ih rest here h
        · split at h
          · rename_i e found
            refine ih ?_ (entryNamed named (List.mem_of_find?_eq_some found)) h
            exact List.forall_mem_cons.mpr ⟨named,outer⟩
          · contradiction

theorem readDirNamed {fs : FileSystem} (named : fs.top.Named) (path : Bytes) : EntriesNamed (fs.readDir path) := by
  unfold FileSystem.readDir
  split
  · rename_i entries found
    exact followNamed (by simp) named found
  · trivial

structure Reached (root : Bytes) (names : List Bytes) (path : Bytes) : Prop where
  shaped : Shaped (components root ++ names) path
  absolute : path.head? = some slash
  plain : backslash ∉ path
  clean : ∀ name ∈ names, Clean name
  quiet : ∀ name ∈ names, backslash ∉ name

variable {root pattern : Bytes}

theorem headJoin {base rel} (absolute : base.head? = some slash) : (pathJoin base rel).head? = some slash := by
  obtain ⟨tail,rfl⟩ := List.head?_eq_some_iff.mp absolute
  unfold pathJoin
  split
  · assumption
  · split <;> rfl

theorem memPathJoin {base rel b} (mem : b ∈ pathJoin base rel) : b ∈ base ∨ b = slash ∨ b ∈ rel := by
  unfold pathJoin at mem
  split at mem
  · exact .inr (.inr mem)
  · split at mem
    · rcases List.mem_append.mp mem with front | back
      · exact .inl front
      · exact .inr (.inr back)
    · rcases List.mem_append.mp mem with front | back
      · exact .inl front
      · exact .inr (List.mem_cons.mp back)

theorem cleanHead {name} (clean : Clean name) : name.head? ≠ some slash := by
  intro first
  exact clean.plain (List.mem_of_mem_head? first)

theorem reachedChild {names current name} (reached : Reached root names current) (clean : Clean name)
    (quiet : backslash ∉ name) : Reached root (names ++ [name]) (pathJoin current name) where
  shaped := by
    rw [← List.append_assoc]
    refine shapedPath reached.shaped (shapedNames ?_ (List.splitOn_eq_singleton clean.plain)) (cleanHead clean)
    simpa using clean
  absolute := headJoin reached.absolute
  plain mem := by
    rcases memPathJoin mem with front | sep | back
    · exact reached.plain front
    · exact absurd sep (by decide)
    · exact quiet back
  clean := by simpa [or_imp,forall_and] using ⟨reached.clean,clean⟩
  quiet := by simpa [or_imp,forall_and] using ⟨reached.quiet,quiet⟩

mutual
theorem collectReached {current names} (reached : Reached root names current) (node : Node) (named : node.Named) {path}
    (mem : path ∈ collectGlobCandidates root pattern current node) :
    ∃ more, Reached root more path ∧ more ≠ [] ∧ pathGlobMatch pattern (caddyFsRelative root path) = true := by
  cases node with
  | file => cases mem
  | dir entries => exact entriesReached reached entries named mem
termination_by structural node

theorem entriesReached {current names} (reached : Reached root names current) (entries : List (Bytes × Node))
    (named : EntriesNamed entries) {path} (mem : path ∈ collectGlobEntries root pattern current entries) :
    ∃ more, Reached root more path ∧ more ≠ [] ∧ pathGlobMatch pattern (caddyFsRelative root path) = true := by
  cases entries with
  | nil => cases mem
  | cons e later =>
    obtain ⟨name,node⟩ := e
    obtain ⟨⟨clean,quiet⟩,inner,rest⟩ := named
    have child := reachedChild reached clean quiet
    rw [collectGlobEntries,List.mem_append,List.mem_append] at mem
    rcases mem with (here | below) | after
    · split at here
      · rename_i matched
        cases List.mem_singleton.mp here
        exact ⟨_,child,by simp,matched⟩
      · cases here
    · exact collectReached child node inner below
    · exact entriesReached reached later rest after
termination_by structural entries
end

end ZeroServe.FileMatcher
