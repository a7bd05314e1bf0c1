import ZeroServe.BrowseListing

/-! What a site read from an archive is like: its entries have trimmed names, and every
directory above an entry is known. Each list of such names is that of some archive. -/
namespace ZeroServe.SiteFiles
open ByteText RequestPath

def IsKey (k : Bytes) : Prop := k ≠ [] ∧ trimSlashes k = k

theorem cutLast (front : Bytes) {back} (free : slash ∉ back) :
    ((front ++ slash::back).rdropWhile (· != slash)).dropLast = front := by
  have stop : (back.reverse ++ slash::front.reverse).dropWhile (· != slash) = slash::front.reverse := by
    rw [List.dropWhile_append_of_pos]
    · simp
    · intro b mem
      rw [bne_iff_ne]
      rintro rfl
      exact free (List.mem_reverse.mp mem)
  rw [List.rdropWhile,List.reverse_append,List.reverse_cons,List.append_assoc,List.singleton_append,stop]
  simp

theorem parentsMem {fuel} {front back} (some : front ≠ []) (enough : (front ++ slash::back).length ≤ fuel) :
    front ∈ parents fuel (front ++ slash::back) := by
  induction fuel generalizing back with
  | zero => simp at enough
  | succ fuel ih =>
    rw [parents,if_pos (by simp)]
    by_cases deeper : slash ∈ back
    · obtain ⟨last,early,shape,free⟩ := List.eq_append_cons_of_mem (List.mem_reverse.mpr deeper)
      have split : back = early.reverse ++ slash::last.reverse := by
        rw [← List.reverse_reverse back,shape]
        simp
      have cut := cutLast (front ++ slash::early.reverse) (mt List.mem_reverse.mp free)
      have whole : front ++ slash::back = front ++ slash::early.reverse ++ slash::last.reverse := by
        rw [split]; simp
      rw [whole,cut,if_neg (by simp)]
      refine List.mem_cons_of_mem _ (ih ?_)
      have := congrArg List.length whole
      simp only [List.length_append,List.length_cons] at this enough ⊢
      omega
    · rw [cutLast front deeper,if_neg some]
      exact List.mem_cons_self

theorem insertsMem {dir : Bytes} {new old : List Bytes} :
    dir ∈ new.foldl (fun set d => set.insert d) old ↔ dir ∈ old ∨ dir ∈ new := by
  induction new generalizing old with
  | nil => simp
  | cons d later ih =>
    rw [List.foldl_cons,ih,List.mem_insert_iff,List.mem_cons]
    tauto

theorem markedMem {path dir : Bytes} {directories : List Bytes} (old : dir ∈ directories) :
    dir ∈ markParents path directories := insertsMem.mpr (.inl old)

theorem trimmedEnd {k} (key : IsKey k) : k.rdropWhile (· == slash) = k := by
  have twice := List.rdropWhile_idempotent (· == slash) (k.dropWhile (· == slash))
  have same : (k.dropWhile (· == slash)).rdropWhile (· == slash) = k := key.2
  rwa [same] at twice

theorem markedParent {front back : Bytes} {directories : List Bytes} (some : front ≠ [])
    (key : IsKey (front ++ slash::back)) : front ∈ markParents (front ++ slash::back) directories := by
  refine insertsMem.mpr (.inr ?_)
  rw [trimmedEnd key]
  exact parentsMem some le_rfl

structure Packed (site : Site) : Prop where
  keys : ∀ e ∈ site.entries, IsKey e.path
  above : ∀ e ∈ site.entries, ∀ front back, e.path = front ++ slash::back → front ≠ [] →
    front ∈ site.directories

theorem trimSlashesTwice (s : Bytes) : trimSlashes (trimSlashes s) = trimSlashes s := by
  unfold trimSlashes
  generalize core : (s.dropWhile (· == slash)).rdropWhile (· == slash) = t
  have back : t.rdropWhile (· == slash) = t := by
    rw [← core]
    exact List.rdropWhile_idempotent _ _
  have front : t.dropWhile (· == slash) = t := by
    cases t with
    | nil => rfl
    | cons b rest =>
      refine List.dropWhile_cons_of_neg ?_
      have started : (b::rest) <+: s.dropWhile (· == slash) := by
        rw [← core]
        exact List.rdropWhile_prefix _ _
      obtain ⟨more,whole⟩ := started
      have first := List.head?_dropWhile_not (· == slash) s
      rw [← whole] at first
      simpa using first
  rw [front,back]

theorem insertPacked {site} (packed : Packed site) (item : ArchiveItem) : Packed (site.insertItem item) := by
  unfold Site.insertItem
  dsimp only
  split
  · exact packed
  rename_i some
  have key : IsKey (normalizeTarPath item.rawPath) := ⟨some,trimSlashesTwice _⟩
  split
  · constructor
    · intro e mem
      rcases List.mem_append.mp mem with old | new
      · exact packed.keys e (List.mem_of_mem_filter old)
      · rw [List.mem_singleton.mp new]
        exact key
    · intro e mem front back shape nonempty
      rcases List.mem_append.mp mem with old | new
      · exact markedMem (packed.above e (List.mem_of_mem_filter old) front back shape nonempty)
      · rw [List.mem_singleton.mp new] at shape
        have named : normalizeTarPath item.rawPath = front ++ slash::back := shape
        rw [named]
        exact markedParent nonempty (named ▸ key)
  · exact ⟨packed.keys,fun e mem front back shape nonempty =>
      markedMem (List.mem_insert_of_mem (packed.above e mem front back shape nonempty))⟩
  · exact packed

theorem archivePacked (archive : List ArchiveItem) {site} (packed : Packed site) :
    Packed (archive.foldl Site.insertItem site) := by
  induction archive generalizing site with
  | nil => exact packed
  | cons item later ih => exact ih (insertPacked packed item)

theorem loadedPacked {archive site} (loaded : Site.loadFromFile archive = some site) : Packed site := by
  unfold Site.loadFromFile at loaded
  dsimp only at loaded
  split at loaded
  · cases loaded
  · cases loaded
    exact archivePacked archive ⟨by simp [Site.empty],by simp [Site.empty]⟩

theorem entrySome {site : Site} {k : Bytes} : (site.entry k).isSome = true ↔ k ∈ site.entries.map TarEntry.path := by
  simp [Site.entry,List.find?_isSome]

def namedFile (k : Bytes) : ArchiveItem := regularFile (slash::k) [] 0

theorem namedPath {k} (key : IsKey k) : normalizeTarPath (namedFile k).rawPath = k := by
  exact key.2

theorem insertNamed (site : Site) {k} (key : IsKey k) (k' : Bytes) :
    k' ∈ (site.insertItem (namedFile k)).entries.map TarEntry.path ↔ k' ∈ site.entries.map TarEntry.path ∨ k' = k := by
  have inserted : site.insertItem (namedFile k) =
      site.insertEntry ⟨k,(namedFile k).size,(namedFile k).etag,0,(namedFile k).content⟩ := by
    rw [Site.insertItem,namedPath key,if_neg key.1]
    rfl
  rw [inserted,Site.insertEntry,List.map_append,List.mem_append,List.mem_map]
  constructor
  · rintro (⟨e,mem,rfl⟩ | new)
    · exact .inl (List.mem_map_of_mem (List.mem_of_mem_filter mem))
    · exact .inr (by simpa using new)
  · intro present
    by_cases same : k' = k
    · exact .inr (by simp [same])
    · obtain ⟨e,mem,rfl⟩ := List.mem_map.mp (present.resolve_right same)
      exact .inl ⟨e,List.mem_filter.mpr ⟨mem,by simpa using same⟩,rfl⟩

theorem insertAllNamed {names : List Bytes} (keys : ∀ k ∈ names, IsKey k) (site : Site) (k' : Bytes) :
    k' ∈ ((names.map namedFile).foldl Site.insertItem site).entries.map TarEntry.path ↔
      k' ∈ site.entries.map TarEntry.path ∨ k' ∈ names := by
  induction names generalizing site with
  | nil => simp
  | cons k later ih =>
    rw [List.map_cons,List.foldl_cons,ih (fun k' mem => keys k' (List.mem_cons_of_mem k mem)),
      insertNamed site (keys k List.mem_cons_self),List.mem_cons,or_assoc]

theorem packsNames {names : List Bytes} (some : names ≠ []) (keys : ∀ k ∈ names, IsKey k) :
    ∃ archive site, Site.loadFromFile archive = .some site ∧ ∀ k, (site.entry k).isSome = true ↔ k ∈ names := by
  have content := insertAllNamed keys Site.empty
  have full : ((names.map namedFile).foldl Site.insertItem Site.empty).entries ≠ [] := by
    intro empty
    obtain ⟨k,mem⟩ := List.exists_mem_of_ne_nil names some
    have here := (content k).mpr (.inr mem)
    rw [empty] at here
    cases here
  refine ⟨names.map namedFile,_,if_neg full,fun k => ?_⟩
  rw [entrySome,content]
  simp [Site.empty]

end ZeroServe.SiteFiles
