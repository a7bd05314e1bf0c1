import ZeroServe.FileServer

/-! The items of a directory page: children of the directory that the site has, tested by
their names alone. -/
namespace ZeroServe.SiteFiles
open ByteText RequestPath

def CaddyBrowseItem.child (item : CaddyBrowseItem) : Bytes :=
  if item.isDir then item.name.dropLast else item.name

def Listing.paths (page : Listing) : List Bytes :=
  page.items.map fun item => listingStart page.dir ++ item.child

def CaddyEtag.sources : CaddyEtag → List Bytes
  | computed _ => []
  | sidecar entry _ => [entry.path]

def Response.sources : Response → List Bytes
  | redirect _ => []
  | internalServerError => []
  | file _ entry body _ etag => entry.path::body.path::etag.sources
  | listing page => page.paths

theorem itemChild (site : Site) (c : BrowseCandidate) : (browseItem site c).child = c.child := by
  cases c with
  | dir child directory => simp [browseItem,CaddyBrowseItem.child,BrowseCandidate.child]
  | file child entry => simp [browseItem,CaddyBrowseItem.child,BrowseCandidate.child]

theorem directChild {start path child} (found : directCaddyBrowseChild start path = some child) :
    path = start ++ child ∧ child ≠ [] ∧ slash ∉ child := by
  unfold directCaddyBrowseChild at found
  split at found
  · rename_i begins
    obtain ⟨rest,rfl⟩ := List.isPrefixOf_iff_prefix.mp begins
    dsimp only at found
    split at found
    · contradiction
    · rename_i one
      cases found
      simpa using one
  · contradiction

theorem candidatesMem {c : BrowseCandidate} {seen : List BrowseCandidate} {found : List (Option BrowseCandidate)}
    (mem : c ∈ found.foldl addCandidate seen) : c ∈ seen ∨ some c ∈ found := by
  induction found generalizing seen with
  | nil => exact .inl mem
  | cons next later ih =>
    rcases ih mem with early | late
    · cases next with
      | none => exact .inl early
      | some d =>
        unfold addCandidate at early
        dsimp only at early
        split at early
        · exact .inl early
        · rcases List.mem_append.mp early with old | new
          · exact .inl old
          · cases List.mem_singleton.mp new
            exact .inr List.mem_cons_self
    · exact .inr (List.mem_cons_of_mem _ late)

structure ChildOf (dir : Bytes) (c : BrowseCandidate) : Prop where
  path : c.path = listingStart dir ++ c.child
  nonempty : c.child ≠ []
  plain : slash ∉ c.child

theorem candidateChild {site : Site} {dir : Bytes} {c : BrowseCandidate}
    (mem : c ∈ browseCandidates site dir) : ChildOf dir c := by
  rcases candidatesMem mem with empty | found
  · cases empty
  · rcases List.mem_append.mp found with folder | file
    · obtain ⟨directory,_,is⟩ := List.mem_map.mp folder
      unfold dirCandidate at is
      split at is
      · contradiction
      · obtain ⟨child,direct,same⟩ := Option.map_eq_some_iff.mp is
        cases same
        obtain ⟨path,nonempty,plain⟩ := directChild direct
        exact ⟨path,nonempty,plain⟩
    · obtain ⟨entry,_,is⟩ := List.mem_map.mp file
      obtain ⟨child,direct,same⟩ := Option.map_eq_some_iff.mp is
      cases same
      obtain ⟨path,nonempty,plain⟩ := directChild direct
      exact ⟨path,nonempty,plain⟩

theorem readChild {site dir config c} (mem : c ∈ readCandidates site dir config) : ChildOf dir c := by
  unfold readCandidates at mem
  split at mem
  · exact candidateChild ((List.mem_insertionSort _).mp (List.mem_of_mem_take mem))
  · exact candidateChild ((List.mem_insertionSort _).mp mem)

theorem listedChildren {site dir config} {P : Bytes → Prop} :
    (∀ item ∈ caddyBrowseItems site dir config, P (listingStart dir ++ item.child)) ↔
    ∀ c ∈ readCandidates site dir config, fileHidden c.child config.hide = false → P c.path := by
  constructor
  · intro all c mem shown
    have item := all (browseItem site c)
      (List.mem_map_of_mem (List.mem_filter.mpr ⟨mem,by simp [shown]⟩))
    rwa [itemChild,← (readChild mem).path] at item
  · intro all item mem
    obtain ⟨c,kept,rfl⟩ := List.mem_map.mp mem
    obtain ⟨read,shown⟩ := List.mem_filter.mp kept
    rw [itemChild,← (readChild read).path]
    exact all c read (by simpa using shown)

theorem browseListing {site dir config request r} (served : browseDirectory site dir config request = some r) :
    (∃ location, r = .redirect location) ∨
    ∃ page, r = .listing page ∧ page.dir = dir ∧ page.items = caddyBrowseItems site dir config ∧
      (∃ browse, config.browse = some browse ∧ browse.templateFile = []) ∧ fileHidden dir config.hide = false ∧
      ¬ (caddyBrowseRedirectAllowed request && request.originalPath.getLast? != some slash) = true := by
  unfold browseDirectory at served
  split at served
  · contradiction
  · rename_i visible
    split at served
    · exact .inl ⟨_,(Option.some.inj served).symm⟩
    · rename_i stays
      right
      simp only [prepareCaddyBrowseResponse,bind,Option.bind_eq_some_iff] at served
      obtain ⟨browse,on,served⟩ := served
      split at served
      · contradiction
      · rename_i builtin
        cases served
        simp only [on] at visible
        exact ⟨_,rfl,rfl,rfl,⟨browse,on,by simpa using builtin⟩,by simpa using visible,stays⟩

theorem browseServes {site dir config request}
    (browse : ∃ browse, config.browse = some browse ∧ browse.templateFile = [])
    (visible : fileHidden dir config.hide = false)
    (stays : ¬ (caddyBrowseRedirectAllowed request && request.originalPath.getLast? != some slash) = true) :
    ∃ page, browseDirectory site dir config request = some (.listing page) ∧ page.dir = dir ∧
      page.items = caddyBrowseItems site dir config := by
  obtain ⟨b,on,builtin⟩ := browse
  let items := caddyBrowseItems site dir config
  let lastModified := caddyBrowseLastModified (site.directoryMtime dir) items
  refine ⟨⟨dir,items,lastModified,caddyBrowseIfModifiedSince request lastModified⟩,?_,rfl,rfl⟩
  unfold browseDirectory
  rw [if_neg (by simp [on,visible]),if_neg stays]
  simp only [prepareCaddyBrowseResponse,on,builtin,bind,Option.bind_some]
  rfl

def Plain (path : Bytes) : Prop := path = [] ∨ ∀ part ∈ path.splitOn slash, Clean part

theorem joinPlain {parts} (clean : ∀ part ∈ parts, Clean part) : Plain (join parts) := by
  by_cases empty : parts = []
  · exact .inl (by rw [empty]; rfl)
  · right
    rwa [splitJoin (fun part mem => (clean part mem).plain) empty]

theorem normalizedPlain {raw n} (h : normalizeRequestPath raw = some n) : Plain n.relative := by
  obtain ⟨kept,all,_,relative⟩ := normalizedKept h
  rw [relative]
  apply joinPlain
  intro part mem
  obtain ⟨k,inside,rfl⟩ := List.mem_map.mp mem
  have here := all k inside
  exact ⟨percentDecodeSome here.read here.rawSome,here.notDot,here.notDots,here.plain⟩

theorem plainFront {path} (plain : Plain path) : trimSlashStart path = path := by
  rcases plain with rfl | clean
  · rfl
  · cases path with
    | nil => rfl
    | cons b rest =>
      rw [trimSlashStart,List.dropWhile_cons_of_neg]
      intro same
      have first := clean [] (by simp [eq_of_beq same,splitSlash])
      exact first.nonempty rfl

theorem plainBack {path} (plain : Plain path) : trimSlashEnd path = path := by
  rcases plain with rfl | clean
  · rfl
  · rcases List.eq_nil_or_concat path with rfl | ⟨front,b,rfl⟩
    · rfl
    · rw [trimSlashEnd,List.concat_eq_append,List.rdropWhile_concat_neg]
      intro same
      have last := clean [] (by
        rw [List.concat_eq_append,eq_of_beq same,List.splitOn_append_cons_self]
        simp)
      exact last.nonempty rfl

theorem plainNoDots {path} (plain : Plain path) :
    (path.splitOn slash).any (fun part => part == ascii "." || part == ascii "..") = false := by
  rcases plain with rfl | clean
  · decide
  · simp only [List.any_eq_false,Bool.or_eq_true,beq_iff_eq,not_or]
    exact fun part mem => ⟨(clean part mem).notDot,(clean part mem).notDots⟩

theorem plainStart {dir} (plain : Plain dir) (filled : dir ≠ []) : listingStart dir = dir ++ [slash] := by
  rw [listingStart,if_neg filled,plainBack plain]

theorem joinAtRoot {rel} (plain : Plain rel) : joinFilePath [] rel = some rel := by
  have joined : (if rel = [] then [] else trimSlashStart rel) = rel := by
    split
    · rename_i empty
      exact empty.symm
    · exact plainFront plain
  simp only [joinFilePath,if_true,joined,plainNoDots plain]
  rfl

theorem joinBelow {root rel dir} (rootPlain : Plain root) (relPlain : Plain rel)
    (joined : joinFilePath root rel = some dir) : Plain dir := by
  by_cases top : root = []
  · rw [top,joinAtRoot relPlain] at joined
    cases joined
    exact relPlain
  · by_cases whole : rel = []
    · rw [whole,joinFilePath,if_neg top,if_pos rfl,plainNoDots rootPlain] at joined
      cases joined
      exact rootPlain
    · rw [joinFilePath,if_neg top,if_neg whole,plainBack rootPlain,plainFront relPlain] at joined
      split at joined
      · contradiction
      · cases joined
        right
        rw [List.append_assoc,List.singleton_append,List.splitOn_append_cons_self]
        intro part mem
        rcases List.mem_append.mp mem with front | back
        · exact rootPlain.resolve_left top part front
        · exact relPlain.resolve_left whole part back

end ZeroServe.SiteFiles
