import ZeroServe.FileMatcher

/-! Path texts by their components: joining, trimming and cleaning a path without dot
segments. -/
namespace ZeroServe.FileMatcher
open ByteText RequestPath SiteFiles

structure Shaped (names : List Bytes) (s : Bytes) : Prop where
  parts : components s = names
  dotless : ascii ".." ∉ s.splitOn slash

theorem splitEnd (s : Bytes) : (s ++ [slash]).splitOn slash = s.splitOn slash ++ [[]] := by
  rw [List.splitOn_append_cons_self]
  rfl

theorem shapedSlash {names s} : Shaped names (slash::s) ↔ Shaped names s := by
  have up : ascii ".." ≠ [] := by decide
  constructor
  · intro shaped
    exact ⟨by simpa [components,splitSlash] using shaped.parts,by simpa [splitSlash,up] using shaped.dotless⟩
  · intro shaped
    exact ⟨by simpa [components,splitSlash] using shaped.parts,by simpa [splitSlash,up] using shaped.dotless⟩

theorem shapedEnd {names s} : Shaped names (s ++ [slash]) ↔ Shaped names s := by
  have up : ascii ".." ≠ [] := by decide
  constructor
  · intro shaped
    exact ⟨by simpa [components,splitEnd] using shaped.parts,by simpa [splitEnd,up] using shaped.dotless⟩
  · intro shaped
    exact ⟨by simpa [components,splitEnd] using shaped.parts,by simpa [splitEnd,up] using shaped.dotless⟩

theorem shapedNames {names s} (clean : ∀ name ∈ names, Clean name) (split : s.splitOn slash = names) :
    Shaped names s where
  parts := by
    rw [components,split,List.filter_eq_self]
    intro name mem
    simp [(clean name mem).nonempty,(clean name mem).notDot]
  dotless := by
    rw [split]
    exact fun mem => (clean _ mem).notDots rfl

theorem shapedJoin {names} (clean : ∀ name ∈ names, Clean name) : Shaped names (join names) := by
  by_cases empty : names = []
  · rw [empty]
    exact ⟨by decide,by decide⟩
  · exact shapedNames clean (splitJoin (fun name mem => (clean name mem).plain) empty)

theorem shapedTrim {names s} (shaped : Shaped names s) : Shaped names (trimSlashStart s) := by
  induction s with
  | nil => exact shaped
  | cons b rest ih =>
    rw [trimSlashStart,List.dropWhile_cons]
    split
    · rename_i same
      rw [eq_of_beq same] at shaped
      exact ih (shapedSlash.mp shaped)
    · exact shaped

theorem cleanComponents {names s} (shaped : Shaped names s) : cleanParts (s.splitOn slash) = names := by
  have fold : ∀ (parts out : List Bytes), ascii ".." ∉ parts →
      parts.foldl (fun out part =>
        if part = [] ∨ part = ascii "." then out
        else if part = ascii ".." then out.dropLast
        else out ++ [part]) out = out ++ parts.filter fun part => part != [] && part != ascii "." := by
    intro parts
    induction parts with
    | nil => simp
    | cons part later ih =>
      intro out free
      obtain ⟨here,rest⟩ := not_or.mp (mt List.mem_cons.mpr free)
      rw [List.foldl_cons,List.filter_cons]
      by_cases blank : part = [] ∨ part = ascii "."
      · rw [if_pos blank,ih out rest]
        rcases blank with empty | dot
        · simp [empty]
        · simp [dot]
      · rw [if_neg blank,if_neg (Ne.symm here),ih _ rest,if_pos (by simpa [not_or] using blank)]
        simp
  rw [cleanParts,fold _ [] shaped.dotless]
  exact shaped.parts

theorem shapedClean {names s} (clean : ∀ name ∈ names, Clean name) (cleaned : cleanParts (s.splitOn slash) = names) :
    Shaped names (cleanPathPreserveTrailing s) := by
  unfold cleanPathPreserveTrailing
  dsimp only
  rw [cleaned]
  have first : Shaped names ((if (s.head? == some slash) = true then [slash] else []) ++ join names) := by
    split
    · exact shapedSlash.mpr (shapedJoin clean)
    · exact shapedJoin clean
  generalize (if (s.head? == some slash) = true then [slash] else []) ++ join names = out at first ⊢
  have second : Shaped names (if out = [] then ascii "." else out) := by
    split
    · rename_i empty
      have bare : names = [] := by
        rw [← first.parts,empty]
        decide
      rw [bare]
      exact ⟨by decide,by decide⟩
    · exact first
  generalize (if out = [] then ascii "." else out) = out at second ⊢
  have third : Shaped names (if (s.head? == some slash && out == ascii ".") = true then [slash] else out) := by
    split
    · rename_i dot
      simp only [Bool.and_eq_true,beq_iff_eq] at dot
      have bare : names = [] := by
        rw [← second.parts,dot.2]
        decide
      rw [bare]
      exact ⟨by decide,by decide⟩
    · exact second
  generalize (if (s.head? == some slash && out == ascii ".") = true then [slash] else out) = out at third ⊢
  split
  · exact shapedEnd.mpr third
  · exact third

theorem shapedNoTrailing {names s} (clean : ∀ name ∈ names, Clean name)
    (cleaned : cleanParts (s.splitOn slash) = names) : Shaped names (cleanPathNoTrailing s) := by
  have whole := shapedClean clean cleaned
  unfold cleanPathNoTrailing
  dsimp only
  split
  · rename_i ended
    simp only [Bool.and_eq_true,beq_iff_eq] at ended
    have shape := List.dropLast_append_getLast? slash ended.2
    rw [← shape] at whole
    exact shapedEnd.mp whole
  · exact whole

theorem shapedPath {base names root rel} (rootShaped : Shaped base root) (relShaped : Shaped names rel)
    (relative : rel.head? ≠ some slash) : Shaped (base ++ names) (pathJoin root rel) := by
  have cut : ∀ front : Bytes, Shaped base front → Shaped (base ++ names) (front ++ slash::rel) := by
    intro front shaped
    refine ⟨?_,?_⟩
    · rw [components,List.splitOn_append_cons_self,List.filter_append]
      exact congrArg₂ _ shaped.parts relShaped.parts
    · rw [List.splitOn_append_cons_self,List.mem_append,not_or]
      exact ⟨shaped.dotless,relShaped.dotless⟩
  unfold pathJoin
  rw [if_neg relative]
  split
  · rename_i ended
    simp only [Bool.or_eq_true,decide_eq_true_eq] at ended
    rcases ended with empty | ended
    · have bare : base = [] := by
        rw [← rootShaped.parts,empty]
        decide
      rw [empty,bare]
      exact relShaped
    · have shape := List.dropLast_append_getLast? slash ended
      rw [← shape] at rootShaped ⊢
      rw [List.append_assoc]
      exact cut _ (shapedEnd.mp rootShaped)
  · exact cut root rootShaped

theorem memSplit {s : Bytes} {b : UInt8} (mem : b ∈ s) : b = slash ∨ ∃ part ∈ s.splitOn slash, b ∈ part := by
  induction s with
  | nil => cases mem
  | cons c rest ih =>
    by_cases sep : c = slash
    · rw [sep]
      rcases List.mem_cons.mp mem with here | later
      · exact .inl (here.trans sep)
      · rcases ih later with is | ⟨part,inside,bytes⟩
        · exact .inl is
        · exact .inr ⟨part,List.mem_cons_of_mem _ inside,bytes⟩
    · obtain ⟨first,others,shape⟩ := List.exists_cons_of_ne_nil (List.splitOn_ne_nil slash rest)
      have cut : (c::rest).splitOn slash = (c::first)::others := by
        rw [List.splitOn_cons_eq_if_modifyHead,if_neg (by simpa using sep),shape]
        rfl
      rw [cut]
      rcases List.mem_cons.mp mem with here | later
      · exact .inr ⟨_,List.mem_cons_self,by simp [here]⟩
      · rcases ih later with is | ⟨part,inside,bytes⟩
        · exact .inl is
        · rw [shape] at inside
          rcases List.mem_cons.mp inside with head | tail
          · exact .inr ⟨_,List.mem_cons_self,by simp [← head,bytes]⟩
          · exact .inr ⟨part,List.mem_cons_of_mem _ tail,bytes⟩

theorem shapedBytes {names : List Bytes} {s : Bytes} {b : UInt8} (shaped : Shaped names s) (mem : b ∈ s) :
    b = slash ∨ b = 46 ∨ ∃ name ∈ names, b ∈ name := by
  rcases memSplit mem with sep | ⟨part,inside,bytes⟩
  · exact .inl sep
  · by_cases dot : part = ascii "."
    · rw [dot] at bytes
      exact .inr (.inl (by simpa [ascii] using bytes))
    · refine .inr (.inr ⟨part,?_,bytes⟩)
      rw [← shaped.parts,components,List.mem_filter]
      exact ⟨inside,by simp [dot,List.ne_nil_of_mem bytes]⟩

end ZeroServe.FileMatcher
