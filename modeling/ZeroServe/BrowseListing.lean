import ZeroServe.BrowseItems

/-! What a response of the file server shows of a packed site. Lookups pass over the reserved tree; a listing reads
the children of its directory and tests only their names. -/
namespace ZeroServe.SiteFiles
open ByteText RequestPath

theorem rootPlain {text root force} (read : normalizeCaddyFileRoot text force = some (.tar root)) : Plain root := by
  unfold normalizeCaddyFileRoot at read
  dsimp only at read
  split at read
  · cases read
  · split at read
    · cases read
      exact .inl rfl
    · split at read
      · contradiction
      · split at read
        · cases read
        · split at read
          · cases read
            exact .inl rfl
          · obtain ⟨n,normal,same⟩ := Option.map_eq_some_iff.mp read
            cases same
            exact normalizedPlain normal

def ReservedDir (dir : Bytes) : Prop := dir = reservedRoot ∨ Reserved dir
instance (dir : Bytes) : Decidable (ReservedDir dir) := inferInstanceAs (Decidable (_ ∨ _))

theorem belowReserved {dir} (rest : Bytes) (reserved : ReservedDir dir) : Reserved (dir ++ slash::rest) := by
  unfold Reserved
  rw [List.isPrefixOf_iff_prefix]
  rcases reserved with rfl | deep
  · exact ⟨rest,by simp⟩
  · exact (List.isPrefixOf_iff_prefix.mp deep).trans (List.prefix_append _ _)

theorem childReserved {dir c} (plain : Plain dir) (child : ChildOf dir c) : Reserved c.path ↔ ReservedDir dir := by
  have noSlash : slash ∉ reservedRoot := by decide
  by_cases top : dir = []
  · have same : c.path = c.child := by rw [child.path,top]; rfl
    constructor
    · intro reserved
      obtain ⟨rest,is⟩ := List.isPrefixOf_iff_prefix.mp reserved
      exact absurd (by rw [← same,← is]; simp) child.plain
    · intro reserved
      rw [top] at reserved
      exact absurd reserved (by decide)
  · have shape : c.path = dir ++ slash::c.child := by simp [child.path,plainStart plain top]
    rw [shape]
    refine ⟨fun reserved => ?_,belowReserved c.child⟩
    obtain ⟨rest,is⟩ := List.isPrefixOf_iff_prefix.mp reserved
    rw [List.append_assoc] at is
    rcases List.append_eq_append_iff.mp is with ⟨more,dirIs,_⟩ | ⟨more,rootIs,childIs⟩
    · cases more with
      | nil => exact .inl (by rw [dirIs,List.append_nil])
      | cons b others =>
        rename_i tailIs
        simp only [List.cons_append,List.cons.injEq] at tailIs
        right
        rw [Reserved,List.isPrefixOf_iff_prefix]
        exact ⟨others,by rw [dirIs,← tailIs.1]; simp⟩
    · cases more with
      | nil => exact .inl (by rw [rootIs,List.append_nil])
      | cons b others =>
        simp only [List.cons_append,List.cons.injEq] at childIs
        exact absurd (by rw [rootIs,← childIs.1]; simp) noSlash

variable {lossy : Bytes → Bytes} {serveFs : Bytes → Option Response} {site : Site} {metadata : Metadata}
variable {path : NormalizedPath} {config : CaddyFileServer} {request : Request} {root : Bytes} {r : Response}

theorem precompressedFree {entry body encoding}
    (found : selectCaddyPrecompressedEntry site entry config request = some (body,encoding)) :
    ¬ Reserved body.path := by
  unfold selectCaddyPrecompressedEntry at found
  split at found
  · contradiction
  · obtain ⟨coding,_,picked⟩ := List.exists_of_findSome?_eq_some found
    simp only [bind,Option.bind_eq_some_iff] at picked
    obtain ⟨ending,_,picked⟩ := picked
    split at picked
    · obtain ⟨e,safe,same⟩ := Option.map_eq_some_iff.mp picked
      cases same
      exact (entrySafe safe).2
    · contradiction

theorem etagFree {entry etag} (read : caddyEntryEtag lossy site entry config = some etag) :
    ∀ p ∈ etag.sources, ¬ Reserved p := by
  unfold caddyEntryEtag at read
  split at read
  · rename_i sidecar found
    obtain ⟨ending,_,safe⟩ := List.exists_of_findSome?_eq_some found
    obtain ⟨bytes,_,same⟩ := Option.map_eq_some_iff.mp read
    cases same
    intro p mem
    cases List.mem_singleton.mp mem
    exact (entrySafe safe).2
  · cases read
    intro p mem
    cases mem

theorem staticEntryFree {entry status} (free : ¬ Reserved entry.path) :
    ∀ p ∈ (prepareStaticEntryResponse lossy site entry status config request).sources, ¬ Reserved p := by
  unfold prepareStaticEntryResponse
  dsimp only
  split
  · intro p mem
    cases mem
  · rename_i etag read
    intro p mem
    rcases List.mem_cons.mp mem with rfl | mem
    · exact free
    · rcases List.mem_cons.mp mem with rfl | mem
      · split
        · rename_i sidecar encoding found
          exact precompressedFree found
        · exact free
      · exact etagFree read p mem

theorem serveEntryFree {entry implicitIndex} (free : ¬ Reserved entry.path)
    (served : serveEntry lossy site entry implicitIndex config metadata request = some r) :
    ∀ p ∈ r.sources, ¬ Reserved p := by
  unfold serveEntry at served
  dsimp only at served
  split at served
  · contradiction
  · split at served
    · cases served
      intro p mem
      cases mem
    · split at served
      · cases served
        intro p mem
        cases mem
      · split at served
        · cases served
          intro p mem
          cases mem
        · cases served
          exact staticEntryFree free

theorem indexFree {rel hide names entry} (found : findIndex site rel hide names = some (some entry)) :
    ¬ Reserved entry.path := by
  induction names with
  | nil => cases found
  | cons index later ih =>
    simp only [findIndex,bind,Option.bind_eq_some_iff] at found
    obtain ⟨indexPath,_,found⟩ := found
    split at found
    · exact ih found
    · split at found
      · rename_i safe
        cases found
        exact (entrySafe safe).2
      · exact ih found

theorem serveTarCases {dir} (inside : joinFilePath root path.relative = some dir)
    (served : serveTar lossy site root path config metadata request = some r) :
    (∃ entry implicitIndex, ¬ Reserved entry.path ∧
      serveEntry lossy site entry implicitIndex config metadata request = some r) ∨
    (site.getEntrySafe dir = none ∧ (site.directories.contains dir || path.dirHint || dir == []) = true ∧
      findIndex site dir config.hide (indexNames config) = some none ∧
      browseDirectory site dir config request = some r) := by
  simp only [serveTar,bind,inside,Option.bind_some] at served
  split at served
  · rename_i entry found
    exact .inl ⟨entry,false,(entrySafe found).2,served⟩
  · rename_i empty
    split at served
    · rename_i folder
      obtain ⟨index,searched,served⟩ := Option.bind_eq_some_iff.mp served
      split at served
      · exact .inl ⟨_,true,indexFree searched,served⟩
      · exact .inr ⟨empty,folder,searched,served⟩
    · contradiction

theorem prepareTar (rootIs : normalizeCaddyFileRoot (expandCaddyFileServerConfig config metadata).root
      (caddyFsNameForcesFilesystem (expandCaddyFileServerConfig config metadata).fs) = some (.tar root)) :
    prepareCaddyFileServerResponse lossy serveFs site metadata path config request =
      if fsNameServed (expandCaddyFileServerConfig config metadata).fs then
        serveTar lossy site root path (expandCaddyFileServerConfig config metadata) metadata request
      else none := by
  simp only [prepareCaddyFileServerResponse,rootIs,bind,Option.bind_some]
  cases fsNameServed (expandCaddyFileServerConfig config metadata).fs <;> rfl

def browsing (hide : List Bytes) : CaddyFileServer where
  fs := []
  root := []
  hide := hide
  indexNames := none
  browse := some ⟨[],0⟩
  canonicalUris := none
  statusCode := none
  etagFileExtensions := []
  precompressed := []

def Request.plain (path : Bytes) : Request := ⟨path,path,none,[],none⟩

def answer (archive : List ArchiveItem) (hide : List Bytes) (raw : Bytes) : Option Response := do
  let site ← Site.loadFromFile archive
  let path ← normalizeRequestPath raw
  prepareCaddyFileServerResponse id (fun _ => none) site (fun _ => none) path (browsing hide) (.plain raw)

def regularFile (path content : Bytes) (mtime : UInt64) : ArchiveItem :=
  ⟨.regular,path,content.length.toUInt64,ascii "etag",mtime,some content⟩

def publicSite : Site where
  entries := [⟨ascii "public/a.txt",1,ascii "etag",9,some (ascii "a")⟩]
  directories := [ascii "public"]
  directoryMtimes := []
  keyed := by decide
  distinct := by decide

theorem reservedIndex {dir hide names} (plain : Plain dir) (reserved : ReservedDir dir)
    (absent : site.getEntrySafe dir = none) :
    findIndex site dir hide names = some none ↔ ∀ index ∈ names, joinFilePath dir index ≠ none := by
  induction names with
  | nil => simp [findIndex]
  | cons index later ih =>
    cases joined : joinFilePath dir index with
    | none => simp [findIndex,joined]
    | some indexPath =>
      have passed : site.getEntrySafe indexPath = none := by
        have top : dir ≠ [] := by
          rintro rfl
          exact absurd reserved (by decide)
        simp only [joinFilePath,top,if_false,plainBack plain] at joined
        split at joined
        · split at joined
          · contradiction
          · cases joined
            exact absent
        · split at joined
          · contradiction
          · cases joined
            rw [List.append_assoc]
            exact entrySafeReserved (belowReserved _ reserved)
      simp only [findIndex,joined,bind,Option.bind_some,passed,ite_self,ih,List.forall_mem_cons,ne_eq,
        reduceCtorEq,not_false_eq_true,true_and]

/- The requests whose answer lists a part of the reserved tree. -/
structure ReservedListed (site : Site) (path : NormalizedPath) (config : CaddyFileServer)
    (request : Request) : Prop where
  served : fsNameServed config.fs = true
  reserved : ReservedDir path.relative
  noFile : site.getEntrySafe path.relative = none
  directory : (site.directories.contains path.relative || path.dirHint) = true
  joins : ∀ index ∈ indexNames config, joinFilePath path.relative index ≠ none
  browse : ∃ browse, config.browse = some browse ∧ browse.templateFile = []
  visible : fileHidden path.relative config.hide = false
  stays : ¬ (caddyBrowseRedirectAllowed request && request.originalPath.getLast? != some slash) = true
  child : ∃ c ∈ readCandidates site path.relative config, fileHidden c.child config.hide = false

theorem reservedListedPath {raw} (normal : normalizeRequestPath raw = some path)
    (listed : ReservedListed site path config request) :
    ∃ page, serveTar lossy site [] path config metadata request = some (.listing page) ∧
      ∃ p ∈ page.paths, Reserved p := by
  have plain := normalizedPlain normal
  obtain ⟨page,served,dirIs,itemsAre⟩ : ∃ page, browseDirectory site path.relative config request =
      some (.listing page) ∧ page.dir = path.relative ∧
      page.items = caddyBrowseItems site path.relative config :=
    browseServes listed.browse listed.visible listed.stays
  refine ⟨page,?_,?_⟩
  · have searched : findIndex site path.relative config.hide (indexNames config) = some none :=
      (reservedIndex plain listed.reserved listed.noFile).mpr listed.joins
    have folder : (site.directories.contains path.relative || path.dirHint || path.relative == []) = true := by
      rw [listed.directory]
      rfl
    simp only [serveTar,joinAtRoot plain,bind,Option.bind_some,listed.noFile,folder,if_true,searched,served]
  · obtain ⟨c,mem,shown⟩ := listed.child
    by_contra free
    have all : ∀ item ∈ caddyBrowseItems site path.relative config,
        ¬ Reserved (listingStart path.relative ++ item.child) := by
      intro item inside bad
      exact free ⟨_,List.mem_map_of_mem (itemsAre ▸ inside),by rwa [dirIs]⟩
    exact (listedChildren (P := (¬ Reserved ·))).mp all c mem shown ((childReserved plain (readChild mem)).mpr listed.reserved)

theorem reservedPathListed {raw} (normal : normalizeRequestPath raw = some path)
    (fsName : fsNameServed config.fs = true) (served : serveTar lossy site [] path config metadata request = some r) {p}
    (mem : p ∈ r.sources) (bad : Reserved p) : ReservedListed site path config request := by
  have plain := normalizedPlain normal
  rcases serveTarCases (joinAtRoot plain) served with ⟨_,_,free,file⟩ | ⟨noFile,folder,searched,browsed⟩
  · exact absurd bad (serveEntryFree free file p mem)
  · rcases browseListing browsed with ⟨_,rfl⟩ | ⟨page,rfl,dirIs,itemsAre,browse,visible,stays⟩
    · cases mem
    · rw [Response.sources,Listing.paths,dirIs,itemsAre] at mem
      obtain ⟨item,inside,rfl⟩ := List.mem_map.mp mem
      obtain ⟨c,kept,rfl⟩ := List.mem_map.mp inside
      obtain ⟨read,shown⟩ := List.mem_filter.mp kept
      rw [itemChild,← (readChild read).path,childReserved plain (readChild read)] at bad
      have nonempty : path.relative ≠ [] := by
        intro empty
        rw [empty] at bad
        exact absurd bad (by decide)
      exact ⟨fsName,bad,noFile,by simpa [nonempty] using folder,
        (reservedIndex plain bad noFile).mp searched,browse,visible,stays,c,read,by simpa using shown⟩

theorem reservedServed {raw : Bytes} (normal : normalizeRequestPath raw = some path)
    (rootIs : normalizeCaddyFileRoot (expandCaddyFileServerConfig config metadata).root
      (caddyFsNameForcesFilesystem (expandCaddyFileServerConfig config metadata).fs) = some (.tar [])) :
    (∀ index tryHtml entry, site.lookup path index tryHtml = some entry → ¬ Reserved entry.path) ∧
    ((∀ response, prepareCaddyFileServerResponse lossy serveFs site metadata path config request =
        some response → ∀ p ∈ response.sources, ¬ Reserved p) ↔
      ¬ ReservedListed site path (expandCaddyFileServerConfig config metadata) request) := by
  refine ⟨fun index tryHtml entry => lookupFree,?_⟩
  rw [prepareTar rootIs]
  constructor
  · intro free listed
    obtain ⟨page,served,p,mem,bad⟩ := reservedListedPath normal listed
    exact free (.listing page) (by rw [if_pos listed.served,served]) p mem bad
  · intro unlisted response served p mem bad
    split at served
    · rename_i fsName
      exact unlisted (reservedPathListed normal fsName served mem bad)
    · contradiction

theorem publicServed : ¬ ReservedDir (ascii "public") ∧
    ∀ response, prepareCaddyFileServerResponse id (fun _ => none) publicSite (fun _ => none)
      ⟨ascii "public",ascii "public",true⟩ (browsing []) (.plain (ascii "/public/")) = some response →
      ∀ p ∈ response.sources, ¬ Reserved p := by
  have normal : normalizeRequestPath (ascii "/public/") = some ⟨ascii "public",ascii "public",true⟩ := by
    decide +kernel
  have outside : ¬ ReservedDir (ascii "public") := by decide
  exact ⟨outside,(reservedServed normal (by decide +kernel)).2.mpr fun listed => outside listed.reserved⟩

theorem reservedKeyListed : answer [regularFile (ascii ".zeroserve/key") (ascii "abc") 5] [] (ascii "/.zeroserve/") =
      some (.listing {
        dir := ascii ".zeroserve"
        items := [⟨ascii "key",3,ascii "./key",0o644,false,5⟩]
        lastModified := 5
        notModified := false }) ∧
    Reserved (ascii ".zeroserve/key") := by
  decide +kernel

end ZeroServe.SiteFiles
