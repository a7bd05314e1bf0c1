import ZeroServe.PackedSite

/-! `pass_thru` of the file server: `caddy_file_server_would_handle` says beforehand whether there is something to
serve. It and the serving look up one path, each with its own root and its own tests. -/
namespace ZeroServe.SiteFiles
open ByteText RequestPath

def caddyFileMatcherRoot (root : Bytes) (forceFilesystem : Bool) : CaddyFileRoot :=
  let root := strTrim root
  if forceFilesystem then .fs (if root = [] then ascii "." else root)
  else if root.head? = some slash then .fs root
  else if root = [] || root = ascii "." then .tar []
  else .tar (trimSlashes root)

def caddyTarFileServerWouldHandle (site : Site) (config : CaddyFileServer) (path root : Bytes) : Bool :=
  match joinFilePath root path with
  | none => false
  | some rel =>
    match site.entry rel with
    | some entry => ! fileHidden entry.path config.hide
    | none =>
      if ! site.directories.contains rel && path != [] then false
      else ((indexNames config).findSome? fun index => do
        let indexPath ← joinFilePath rel index
        if fileHidden indexPath config.hide then none
        else (site.entry indexPath).map fun entry => ! fileHidden entry.path config.hide).getD
          (config.browse.isSome && ! fileHidden rel config.hide)

def caddyFileServerWouldHandle (wouldFs : Bytes → Bool) (site : Site) (config : CaddyFileServer)
    (path : Bytes) : Bool :=
  if ! fsNameServed config.fs then false
  else match caddyFileMatcherRoot config.root (caddyFsNameForcesFilesystem config.fs) with
    | .tar root => caddyTarFileServerWouldHandle site config path root
    | .fs root => wouldFs root

/- A lookup as both sides do it: an entry at `rel` decides by itself, and without one the
index files are looked for. -/
structure Lookup where
  rel : Bytes
  direct : Bool
  indexes : List Bytes
  deriving DecidableEq

namespace Lookup

def Accepts (l : Lookup) (k : Bytes) : Prop :=
  (k = l.rel ∧ l.direct = true) ∨ (k ≠ l.rel ∧ k ∈ l.indexes)
def Blocks (l : Lookup) (k : Bytes) : Prop := k = l.rel ∧ l.direct = false

def Answers (l : Lookup) (has : Bytes → Prop) : Prop :=
  (has l.rel ∧ l.direct = true) ∨ (¬ has l.rel ∧ ∃ k ∈ l.indexes, has k)

theorem acceptsFree {l : Lookup} {k : Bytes} (accepts : l.Accepts k) : ¬ l.Blocks k := by
  rintro ⟨same,blocked⟩
  rcases accepts with ⟨_,direct⟩ | ⟨other,_⟩
  · rw [blocked] at direct
    cases direct
  · exact other same

theorem answersIff (l : Lookup) (has : Bytes → Prop) :
    l.Answers has ↔ (∃ k, has k ∧ l.Accepts k) ∧ ∀ k, has k → ¬ l.Blocks k := by
  constructor
  · rintro (⟨here,direct⟩ | ⟨absent,k,mem,here⟩)
    · refine ⟨⟨l.rel,here,.inl ⟨rfl,direct⟩⟩,?_⟩
      rintro k _ ⟨_,blocked⟩
      rw [direct] at blocked
      cases blocked
    · refine ⟨⟨k,here,.inr ⟨fun same => absent (same ▸ here),mem⟩⟩,?_⟩
      rintro k' here' ⟨rfl,_⟩
      exact absent here'
  · rintro ⟨⟨k,here,accepts⟩,free⟩
    rcases accepts with ⟨rfl,direct⟩ | ⟨other,mem⟩
    · exact .inl ⟨here,direct⟩
    · by_cases rel : has l.rel
      · cases direct : l.direct with
        | true => exact .inl ⟨rel,direct⟩
        | false => exact absurd ⟨rfl,direct⟩ (free l.rel rel)
      · exact .inr ⟨rel,k,mem,here⟩

end Lookup

def Accepted (l : Option Lookup) (k : Bytes) : Prop := ∃ m, l = some m ∧ m.Accepts k
def Blocked (l : Option Lookup) (k : Bytes) : Prop := ∃ m, l = some m ∧ m.Blocks k
def Answered (l : Option Lookup) (has : Bytes → Prop) : Prop := ∃ m, l = some m ∧ m.Answers has

theorem answeredIff (l : Option Lookup) (has : Bytes → Prop) :
    Answered l has ↔ (∃ k, has k ∧ Accepted l k) ∧ ∀ k, has k → ¬ Blocked l k := by
  cases l with
  | none => simp [Answered,Accepted]
  | some m => simp [Answered,Accepted,Blocked,Lookup.answersIff]

theorem acceptedFree {l : Option Lookup} {k : Bytes} (accepted : Accepted l k) : ¬ Blocked l k := by
  rintro ⟨m,same,blocks⟩
  obtain ⟨m',same',accepts⟩ := accepted
  rw [same] at same'
  cases same'
  exact Lookup.acceptsFree accepts blocks

def SameKeys (l m : Option Lookup) : Prop :=
  (∀ k, IsKey k → (Accepted l k ↔ Accepted m k)) ∧
  ((∃ k, IsKey k ∧ Accepted l k) → ∀ k, IsKey k → (Blocked l k ↔ Blocked m k))

theorem sameAnswers {l m} (same : SameKeys l m) {has : Bytes → Prop} (keys : ∀ k, has k → IsKey k) :
    Answered l has ↔ Answered m has := by
  obtain ⟨accepts,blocks⟩ := same
  rw [answeredIff,answeredIff]
  constructor
  · rintro ⟨⟨k,here,accepted⟩,free⟩
    refine ⟨⟨k,here,(accepts k (keys k here)).mp accepted⟩,fun k' here' blocked => free k' here' ?_⟩
    exact (blocks ⟨k,keys k here,accepted⟩ k' (keys k' here')).mpr blocked
  · rintro ⟨⟨k,here,accepted⟩,free⟩
    have back := (accepts k (keys k here)).mpr accepted
    refine ⟨⟨k,here,back⟩,fun k' here' blocked => free k' here' ?_⟩
    exact (blocks ⟨k,keys k here,back⟩ k' (keys k' here')).mp blocked

theorem answersSame {l m} (agree : ∀ names : List Bytes, names ≠ [] → (∀ k ∈ names, IsKey k) →
    (Answered l (· ∈ names) ↔ Answered m (· ∈ names))) : SameKeys l m := by
  have alone : ∀ (n : Option Lookup) (k : Bytes), Answered n (· ∈ [k]) ↔ Accepted n k := by
    intro n k
    rw [answeredIff]
    constructor
    · rintro ⟨⟨k',here,accepted⟩,_⟩
      rwa [← List.mem_singleton.mp here]
    · intro accepted
      refine ⟨⟨k,by simp,accepted⟩,fun k' here => ?_⟩
      rw [List.mem_singleton.mp here]
      exact acceptedFree accepted
  have accepts : ∀ k, IsKey k → (Accepted l k ↔ Accepted m k) := by
    intro k key
    rw [← alone l k,← alone m k]
    exact agree [k] (by simp) (by simpa using key)
  refine ⟨accepts,fun ⟨a,aKey,accepted⟩ k key => ?_⟩
  have pair := agree [a,k] (by simp) (by simp [aKey,key])
  have first : ∀ n : Option Lookup, Accepted n a → (Answered n (· ∈ [a,k]) ↔ ¬ Blocked n k) := by
    intro n accepted
    rw [answeredIff]
    constructor
    · exact fun answered => answered.2 k (by simp)
    · intro free
      refine ⟨⟨a,by simp,accepted⟩,fun k' here => ?_⟩
      rcases List.mem_cons.mp here with rfl | last
      · exact acceptedFree accepted
      · rwa [List.mem_singleton.mp last]
  rw [first l accepted,first m ((accepts a aKey).mp accepted)] at pair
  exact not_iff_not.mp pair

def preflightLookup (config : CaddyFileServer) (path : Bytes) : Option Lookup :=
  match caddyFileMatcherRoot config.root (caddyFsNameForcesFilesystem config.fs) with
  | .fs _ => none
  | .tar root => (joinFilePath root path).map fun rel =>
    ⟨rel,! fileHidden rel config.hide,
      ((indexNames config).filterMap (joinFilePath rel)).filter (! fileHidden · config.hide)⟩

def servedIndexes (rel : Bytes) (hide : List Bytes) : List Bytes → List Bytes
  | [] => []
  | index::later =>
    match joinFilePath rel index with
    | none => []
    | some indexPath =>
      if fileHidden indexPath hide || decide (Reserved indexPath) then servedIndexes rel hide later
      else indexPath::servedIndexes rel hide later

def servedLookup (config : CaddyFileServer) (path : Bytes) : Option Lookup :=
  match normalizeCaddyFileRoot config.root (caddyFsNameForcesFilesystem config.fs) with
  | some (.tar root) => (joinFilePath root path).map fun rel =>
    ⟨rel,! fileHidden rel config.hide && ! decide (Reserved rel), servedIndexes rel config.hide (indexNames config)⟩
  | _ => none

section
variable {site : Site} {config : CaddyFileServer} {root path rel : Bytes}

def Has (site : Site) (k : Bytes) : Prop := (site.entry k).isSome = true

theorem joinedShape (joined : joinFilePath root path = some rel) :
    (root = [] ∧ rel = trimSlashStart path) ∨ (root ≠ [] ∧ path = [] ∧ rel = root) ∨
    (root ≠ [] ∧ path ≠ [] ∧ rel = trimSlashEnd root ++ slash::trimSlashStart path) := by
  unfold joinFilePath at joined
  dsimp only at joined
  generalize text : (if root = [] then (if path = [] then [] else trimSlashStart path) else
    if path = [] then root else trimSlashEnd root ++ [slash] ++ trimSlashStart path) = whole at joined
  split at joined
  · cases joined
  cases Option.some.inj joined
  rw [← text]
  by_cases top : root = []
  · refine .inl ⟨top,?_⟩
    rw [if_pos top]
    split
    · rename_i empty
      rw [empty]
      rfl
    · rfl
  · rw [if_neg top]
    by_cases empty : path = []
    · exact .inr (.inl ⟨top,empty,if_pos empty⟩)
    · refine .inr (.inr ⟨top,empty,?_⟩)
      rw [if_neg empty]
      simp

theorem joinedTrimmed (trimmed : trimSlashEnd root = root) (plain : Plain path)
    (joined : joinFilePath root path = some rel) : trimSlashEnd rel = rel := by
  rcases joinedShape joined with ⟨_,rfl⟩ | ⟨_,_,rfl⟩ | ⟨_,some,rfl⟩
  · rw [plainFront plain]
    exact plainBack plain
  · exact trimmed
  · rw [plainFront plain]
    obtain ⟨front,b,rfl⟩ := List.eq_nil_or_concat path |>.resolve_left some
    have back := plainBack plain
    rw [List.concat_eq_append] at back ⊢
    have last : ¬ (b == slash) = true := by
      intro same
      rw [trimSlashEnd,List.rdropWhile_concat_pos (· == slash) front b same] at back
      have shorter := (List.rdropWhile_prefix (· == slash) front).length_le
      rw [back] at shorter
      simp at shorter
    rw [trimSlashEnd,← List.cons_append,← List.append_assoc,List.rdropWhile_concat_neg (· == slash) _ b last]

theorem joinedEmpty (plain : Plain path) (joined : joinFilePath root path = some []) : path = [] := by
  rcases joinedShape joined with ⟨_,empty⟩ | ⟨_,empty,_⟩ | ⟨_,_,slashed⟩
  · rw [plainFront plain] at empty
    exact empty.symm
  · exact empty
  · simp at slashed

theorem indexAbove (packed : Packed site) (trimmed : trimSlashEnd rel = rel) (some : rel ≠ []) {index k}
    (joined : joinFilePath rel index = .some k) (other : k ≠ rel) (has : Has site k) : rel ∈ site.directories := by
  obtain ⟨e,mem,same⟩ := List.mem_map.mp (entrySome.mp has)
  rcases joinedShape joined with ⟨top,_⟩ | ⟨_,_,whole⟩ | ⟨_,_,below⟩
  · exact absurd top some
  · exact absurd whole other
  · rw [trimmed] at below
    exact packed.above e mem rel _ (same.trans below) some

theorem noIndex (packed : Packed site) (trimmed : trimSlashEnd root = root) (plain : Plain path)
    (joined : joinFilePath root path = some rel) (absent : ¬ Has site rel) (away : rel ∉ site.directories)
    (below : rel = [] → path ≠ []) {index k} (named : joinFilePath rel index = some k) : ¬ Has site k := by
  intro has
  have other : k ≠ rel := fun same => absent (same ▸ has)
  by_cases top : rel = []
  · exact below top (joinedEmpty plain (top ▸ joined))
  · exact away (indexAbove packed (joinedTrimmed trimmed plain joined) top named other has)

theorem hasNone (absent : site.entry rel = none) : ¬ Has site rel := by
  simp [Has,absent]

theorem preflightIndex (names : List Bytes) : ((names.findSome? fun index => do
        let indexPath ← joinFilePath rel index
        if fileHidden indexPath config.hide then none
        else (site.entry indexPath).map fun entry => ! fileHidden entry.path config.hide).getD false) = true ↔
      ∃ k ∈ (names.filterMap (joinFilePath rel)).filter (! fileHidden · config.hide), Has site k := by
  induction names with
  | nil => simp
  | cons index later ih =>
    rw [List.findSome?_cons,List.filterMap_cons]
    cases named : joinFilePath rel index with
    | none => exact ih
    | some k =>
      cases hidden : fileHidden k config.hide with
      | true =>
        simp only [bind,Option.bind_some,hidden,List.filter_cons]
        exact ih
      | false =>
        simp only [bind,Option.bind_some,hidden,List.filter_cons,Bool.not_false,if_true,
          List.exists_mem_cons_iff]
        cases found : site.entry k with
        | none =>
          rw [or_iff_right (hasNone found)]
          exact ih
        | some entry =>
          have same := entryPath found
          simp [Has,found,same,hidden]

theorem wouldAnswers (packed : Packed site) (noBrowse : config.browse = none) (trimmed : trimSlashEnd root = root)
    (plain : Plain path) (joined : joinFilePath root path = some rel) :
    caddyTarFileServerWouldHandle site config path root = true ↔ Lookup.Answers ⟨rel,! fileHidden rel config.hide,
        ((indexNames config).filterMap (joinFilePath rel)).filter (! fileHidden · config.hide)⟩ (Has site) := by
  rw [caddyTarFileServerWouldHandle,joined]
  dsimp only
  cases found : site.entry rel with
  | some entry =>
    have here : Has site rel := by simp [Has,found]
    simp [Lookup.Answers,here,entryPath found]
  | none =>
    have absent := hasNone found
    dsimp only
    split
    · rename_i away
      simp only [Bool.and_eq_true,Bool.not_eq_true',List.contains_eq_mem,decide_eq_false_iff_not,bne_iff_ne] at away
      refine iff_of_false (by simp) ?_
      rintro (⟨here,_⟩ | ⟨_,k,mem,has⟩)
      · exact absent here
      · obtain ⟨index,_,named⟩ := List.mem_filterMap.mp (List.mem_of_mem_filter mem)
        exact noIndex packed trimmed plain joined absent away.1 (fun _ => away.2) named has
    · simp only [Lookup.Answers,absent,false_and,not_false_eq_true,true_and,false_or,noBrowse]
      exact preflightIndex (indexNames config)

theorem servedIndexMem {hide names k} (mem : k ∈ servedIndexes rel hide names) :
    ∃ index, joinFilePath rel index = some k := by
  induction names with
  | nil => cases mem
  | cons index later ih =>
    rw [servedIndexes] at mem
    split at mem
    · cases mem
    · rename_i indexPath named
      split at mem
      · exact ih mem
      · rcases List.mem_cons.mp mem with rfl | inside
        · exact ⟨index,named⟩
        · exact ih inside

theorem servedIndexFree {hide names k} (mem : k ∈ servedIndexes rel hide names) :
    fileHidden k hide = false ∧ ¬ Reserved k := by
  induction names with
  | nil => cases mem
  | cons index later ih =>
    rw [servedIndexes] at mem
    split at mem
    · cases mem
    · split at mem
      · exact ih mem
      · rename_i free
        rcases List.mem_cons.mp mem with rfl | inside
        · simpa using free
        · exact ih inside

theorem findIndexNames {hide} (names : List Bytes) :
    (∃ entry, findIndex site rel hide names = some (some entry) ∧ fileHidden entry.path hide = false) ↔
      ∃ k ∈ servedIndexes rel hide names, Has site k := by
  induction names with
  | nil => simp [findIndex,servedIndexes]
  | cons index later ih =>
    rw [findIndex,servedIndexes]
    cases named : joinFilePath rel index with
    | none => simp
    | some k =>
      simp only [bind,Option.bind_some]
      by_cases hidden : fileHidden k hide = true
      · simp only [hidden]
        exact ih
      · by_cases reserved : Reserved k
        · simp only [hidden,entrySafeReserved reserved,reserved]
          exact ih
        · have safe : site.getEntrySafe k = site.entry k := if_neg reserved
          simp only [hidden,Bool.false_eq_true,if_false,safe,reserved,decide_false,Bool.or_self,List.exists_mem_cons_iff]
          cases found : site.entry k with
          | none =>
            rw [or_iff_right (hasNone found)]
            exact ih
          | some entry =>
            have here : Has site k := by simp [Has,found]
            have same := entryPath found
            simp [here,same,hidden]

theorem joinedReserved (trimmed : trimSlashEnd rel = rel) (reserved : Reserved rel) {index k}
    (named : joinFilePath rel index = some k) : Reserved k := by
  rcases joinedShape named with ⟨rfl,_⟩ | ⟨_,_,rfl⟩ | ⟨_,_,rfl⟩
  · cases reserved
  · exact reserved
  · rw [trimmed]
    exact belowReserved _ (.inr reserved)

end

section
variable {lossy : Bytes → Bytes} {site : Site} {config : CaddyFileServer} {metadata : Metadata} {request : Request}

theorem serveEntrySome {entry implicitIndex} :
    serveEntry lossy site entry implicitIndex config metadata request ≠ none ↔
      fileHidden entry.path config.hide = false := by
  unfold serveEntry
  dsimp only
  split
  · rename_i hidden
    simp [hidden]
  · rename_i shown
    refine iff_of_true ?_ (by simpa using shown)
    split
    · simp
    · split
      · simp
      · split <;> simp

theorem serveAnswers {root rel path} (packed : Packed site) (noBrowse : config.browse = none)
    (trimmed : trimSlashEnd root = root) (plain : Plain path.relative)
    (joined : joinFilePath root path.relative = some rel) :
    serveTar lossy site root path config metadata request ≠ none ↔
      Lookup.Answers ⟨rel,! fileHidden rel config.hide && ! decide (Reserved rel),
        servedIndexes rel config.hide (indexNames config)⟩ (Has site) := by
  have relTrimmed := joinedTrimmed trimmed plain joined
  simp only [serveTar,joined,bind,Option.bind_some]
  cases safe : site.getEntrySafe rel with
  | some entry =>
    obtain ⟨same,free⟩ := entrySafe safe
    have found : site.entry rel = some entry := by
      rw [same] at free
      rwa [Site.getEntrySafe,if_neg free] at safe
    have here : Has site rel := by simp [Has,found]
    rw [serveEntrySome,same]
    rw [same] at free
    simp [Lookup.Answers,here,free]
  | none =>
    -- an entry that is there all the same is reserved, and so is everything below it
    have only : Has site rel → Reserved rel := by
      intro here
      by_contra free
      rw [Site.getEntrySafe,if_neg free] at safe
      exact hasNone safe here
    have answers : Lookup.Answers ⟨rel,! fileHidden rel config.hide && ! decide (Reserved rel),
        servedIndexes rel config.hide (indexNames config)⟩ (Has site) ↔
        ∃ k ∈ servedIndexes rel config.hide (indexNames config), Has site k := by
      by_cases here : Has site rel
      · refine iff_of_false ?_ ?_
        · simp [Lookup.Answers,here,only here]
        · rintro ⟨k,mem,_⟩
          obtain ⟨index,named⟩ := servedIndexMem mem
          exact (servedIndexFree mem).2 (joinedReserved relTrimmed (only here) named)
      · simp [Lookup.Answers,here]
    rw [answers]
    dsimp only
    split
    · rw [← findIndexNames]
      cases searched : findIndex site rel config.hide (indexNames config) with
      | none => simp
      | some found =>
        cases found with
        | none => simp [browseDirectory,noBrowse]
        | some entry =>
          simp only [Option.bind_some,serveEntrySome,Option.some.injEq,exists_eq_left']
    · rename_i away
      simp only [Bool.or_eq_true,List.contains_eq_mem,decide_eq_true_eq,beq_iff_eq,not_or] at away
      refine iff_of_false (by simp) ?_
      rintro ⟨k,mem,has⟩
      obtain ⟨index,named⟩ := servedIndexMem mem
      by_cases here : Has site rel
      · exact (servedIndexFree mem).2 (joinedReserved relTrimmed (only here) named)
      · exact noIndex packed trimmed plain joined here away.1.1 (fun top => absurd top away.2) named has

end

structure RootInTar (config : CaddyFileServer) : Prop where
  served : fsNameServed config.fs = true
  free : caddyFsNameForcesFilesystem config.fs = false
  relative : (strTrim config.root).head? ≠ some slash

theorem preflightAnswers {site config path} (wouldFs : Bytes → Bool) (packed : Packed site)
    (noBrowse : config.browse = none) (inTar : RootInTar config) (plain : Plain path) :
    caddyFileServerWouldHandle wouldFs site config path = true ↔ Answered (preflightLookup config path) (Has site) := by
  obtain ⟨root,rootIs,trimmed⟩ : ∃ root, caddyFileMatcherRoot config.root
      (caddyFsNameForcesFilesystem config.fs) = .tar root ∧ trimSlashEnd root = root := by
    rw [inTar.free,caddyFileMatcherRoot]
    simp only [Bool.false_eq_true,if_false,inTar.relative]
    split
    · exact ⟨[],rfl,rfl⟩
    · exact ⟨_,rfl,List.rdropWhile_idempotent _ _⟩
  simp only [caddyFileServerWouldHandle,inTar.served,rootIs,preflightLookup]
  cases joined : joinFilePath root path with
  | none => simp [caddyTarFileServerWouldHandle,joined,Answered]
  | some rel => simp [wouldAnswers packed noBrowse trimmed plain joined,Answered]

theorem servingAnswers (lossy : Bytes → Bytes) (serveFs : Bytes → Option Response) (request : Request)
    {site config metadata path} (packed : Packed site) (noBrowse : config.browse = none)
    (inTar : RootInTar (expandCaddyFileServerConfig config metadata)) (plain : Plain path.relative) :
    prepareCaddyFileServerResponse lossy serveFs site metadata path config request ≠ none ↔
      Answered (servedLookup (expandCaddyFileServerConfig config metadata) path.relative) (Has site) := by
  have noBrowse : (expandCaddyFileServerConfig config metadata).browse = none := noBrowse
  simp only [prepareCaddyFileServerResponse]
  generalize expandCaddyFileServerConfig config metadata = config at inTar noBrowse ⊢
  simp only [inTar.served,servedLookup]
  cases rootIs : normalizeCaddyFileRoot config.root (caddyFsNameForcesFilesystem config.fs) with
  | none => simp [Answered]
  | some place =>
    cases place with
    | fs root =>
      rw [inTar.free,normalizeCaddyFileRoot] at rootIs
      simp only [Bool.false_eq_true,if_false,inTar.relative] at rootIs
      split at rootIs
      · cases rootIs
      · split at rootIs
        · cases rootIs
        · split at rootIs
          · cases rootIs
          · obtain ⟨n,_,impossible⟩ := Option.map_eq_some_iff.mp rootIs
            cases impossible
    | tar root =>
      have rooted := rootPlain rootIs
      cases joined : joinFilePath root path.relative with
      | none => simp [serveTar,joined,Answered]
      | some rel =>
        simpa [Answered,joined] using serveAnswers packed noBrowse (plainBack rooted) plain joined

/- On every packed site the preflight says what the server does, exactly for the configurations and paths
with which both look at the same names. The server expands the placeholders once more. -/
theorem passThruExact (lossy : Bytes → Bytes) (serveFs : Bytes → Option Response) (wouldFs : Bytes → Bool)
    (config : CaddyFileServer) (metadata : Metadata) (raw : Bytes) (path : NormalizedPath) (request : Request)
    (normal : normalizeRequestPath raw = some path) (noBrowse : config.browse = none) (inTar : RootInTar config)
    (inTarAgain : RootInTar (expandCaddyFileServerConfig config metadata)) : (∀ archive site, Site.loadFromFile archive = some site →
      (caddyFileServerWouldHandle wouldFs site config path.relative = false ↔
        prepareCaddyFileServerResponse lossy serveFs site metadata path config request = none)) ↔
      SameKeys (preflightLookup config path.relative)
        (servedLookup (expandCaddyFileServerConfig config metadata) path.relative) := by
  have plain := normalizedPlain normal
  have onSite : ∀ site, Packed site →
      ((caddyFileServerWouldHandle wouldFs site config path.relative = false ↔
        prepareCaddyFileServerResponse lossy serveFs site metadata path config request = none) ↔
      (Answered (preflightLookup config path.relative) (Has site) ↔
        Answered (servedLookup (expandCaddyFileServerConfig config metadata) path.relative) (Has site))) := by
    intro site packed
    rw [← preflightAnswers wouldFs packed noBrowse inTar plain,
      ← servingAnswers lossy serveFs request packed noBrowse inTarAgain plain,
      ← Bool.not_eq_true]
    exact ⟨fun same => by rw [← not_iff_not,same,not_not],fun same => by rw [same,not_not]⟩
  constructor
  · intro agree
    refine answersSame fun names some keys => ?_
    obtain ⟨archive,site,loaded,content⟩ := packsNames some keys
    have has : Has site = (· ∈ names) := funext fun k => propext (content k)
    have here := (onSite site (loadedPacked loaded)).mp (agree archive site loaded)
    rwa [has] at here
  · intro same archive site loaded
    have packed := loadedPacked loaded
    refine (onSite site packed).mpr (sameAnswers same fun k has => ?_)
    obtain ⟨e,mem,rfl⟩ := List.mem_map.mp (entrySome.mp has)
    exact packed.keys e mem

def servingFrom (root : Bytes) : CaddyFileServer where
  fs := []
  root := root
  hide := [ascii "secret"]
  indexNames := none
  browse := none
  canonicalUris := none
  statusCode := none
  etagFileExtensions := []
  precompressed := []

theorem plainRootAgrees : preflightLookup (servingFrom (ascii "www")) (ascii "a/b") =
      servedLookup (expandCaddyFileServerConfig (servingFrom (ascii "www")) fun _ => none) (ascii "a/b") ∧ ∀ archive site, Site.loadFromFile archive = some site →
      (caddyFileServerWouldHandle (fun _ => false) site (servingFrom (ascii "www")) (ascii "a/b") = false ↔
        prepareCaddyFileServerResponse id (fun _ => none) site (fun _ => none) ⟨ascii "a/b",ascii "a/b",false⟩
          (servingFrom (ascii "www")) (.plain (ascii "/a/b")) = none) := by
  have same : preflightLookup (servingFrom (ascii "www")) (ascii "a/b") =
      servedLookup (expandCaddyFileServerConfig (servingFrom (ascii "www")) fun _ => none) (ascii "a/b") := by decide +kernel
  refine ⟨same,(passThruExact id (fun _ => none) (fun _ => false) (servingFrom (ascii "www")) (fun _ => none)
    (ascii "/a/b") ⟨ascii "a/b",ascii "a/b",false⟩ (.plain (ascii "/a/b")) (by decide +kernel)
    rfl ⟨by decide +kernel,by decide +kernel,by decide +kernel⟩
    ⟨by decide +kernel,by decide +kernel,by decide +kernel⟩).mpr ?_⟩
  rw [same]
  exact ⟨fun k _ => Iff.rfl,fun _ k _ => Iff.rfl⟩

theorem reservedNotPassed : ∃ site, Site.loadFromFile [regularFile (ascii ".zeroserve/key") [] 0] = some site ∧
      caddyFileServerWouldHandle (fun _ => false) site (servingFrom (ascii ".")) (ascii ".zeroserve/key") = true ∧
      prepareCaddyFileServerResponse id (fun _ => none) site (fun _ => none)
        ⟨ascii ".zeroserve/key",ascii ".zeroserve/key",false⟩ (servingFrom (ascii "."))
        (.plain (ascii "/.zeroserve/key")) = none := by
  refine ⟨_,rfl,?_,?_⟩ <;> decide +kernel

end ZeroServe.SiteFiles
