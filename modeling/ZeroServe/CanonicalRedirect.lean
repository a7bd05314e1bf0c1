import ZeroServe.BrowseListing
import ZeroServe.PathNormal

/-! The file server's redirects. A target without a slash at its end is sent to the one with it where
it names a directory, and back where it names a file; what it is sent to is answered. -/
namespace ZeroServe.SiteFiles
open ByteText RequestPath

def targetParts (target : Bytes) : Bytes × Option Bytes :=
  let target := target.takeWhile (· != 35)
  match splitOnce 63 target with
  | some (path,query) => (path,some query)
  | none => (target,none)

def unchanged (n : NormalizedPath) (query : Option Bytes) (encodings : List Bytes) (modifiedSince : Option Int) :
    Request :=
  ⟨n.encodedPathWithDirHint,n.encodedPathWithDirHint,query,encodings,modifiedSince⟩

def answerTarget (lossy : Bytes → Bytes) (serveFs : Bytes → Option Response) (site : Site) (metadata : Metadata)
    (config : CaddyFileServer) (encodings : List Bytes) (modifiedSince : Option Int) (target : Bytes) :
    Option Response := do
  let (raw,query) := targetParts target
  let n ← normalizeRequestPath raw
  prepareCaddyFileServerResponse lossy serveFs site metadata n config (unchanged n query encodings modifiedSince)

def RootAt (config : CaddyFileServer) (metadata : Metadata) (root : Bytes) : Prop :=
  normalizeCaddyFileRoot (expandCaddyFileServerConfig config metadata).root
    (caddyFsNameForcesFilesystem (expandCaddyFileServerConfig config metadata).fs) = some (.tar root)

section
variable {lossy : Bytes → Bytes} {site : Site} {config : CaddyFileServer} {metadata : Metadata}
  {request : Request} {location : Bytes}

theorem serveEntryRedirect {entry implicitIndex}
    (served : serveEntry lossy site entry implicitIndex config metadata request = some (.redirect location)) :
    (implicitIndex = true ∧ request.originalPath.getLast? ≠ some slash ∧
      location = caddyRedirectPath request.originalPath request.query true) ∨
    (implicitIndex = false ∧ request.originalPath.getLast? = some slash ∧ 1 < request.originalPath.length ∧
      location = caddyRedirectPath request.originalPath request.query false) := by
  unfold serveEntry at served
  dsimp only at served
  split at served
  · cases served
  · split at served
    · rename_i index
      cases served
      simp only [Bool.and_eq_true,Bool.not_eq_true',beq_eq_false_iff_ne] at index
      exact .inl ⟨index.1.2,index.2,rfl⟩
    · split at served
      · rename_i file
        cases served
        simp only [Bool.and_eq_true,Bool.not_eq_true',beq_iff_eq,decide_eq_true_eq] at file
        exact .inr ⟨file.1.1.2,file.1.2,file.2,rfl⟩
      · split at served
        · cases served
        · simp only [prepareStaticEntryResponse,Option.some.injEq] at served
          split at served
          · cases served
          · cases served

theorem browseRedirect {dir} (served : browseDirectory site dir config request = some (.redirect location)) :
    request.originalPath.getLast? ≠ some slash ∧
      location = caddyRedirectPath request.originalPath request.query true := by
  unfold browseDirectory at served
  split at served
  · cases served
  · split at served
    · rename_i allowed
      cases served
      simp only [Bool.and_eq_true,bne_iff_ne] at allowed
      exact ⟨allowed.2,rfl⟩
    · simp only [prepareCaddyBrowseResponse,bind,Option.bind_eq_some_iff,Option.ite_none_left_eq_some] at served
      obtain ⟨browse,_,_,page⟩ := served
      cases page

theorem serveTarRedirect {root n}
    (served : serveTar lossy site root n config metadata request = some (.redirect location)) :
    ∃ rel, joinFilePath root n.relative = some rel ∧
      ((site.getEntrySafe rel = none ∧ request.originalPath.getLast? ≠ some slash ∧
          location = caddyRedirectPath request.originalPath request.query true) ∨
        (site.getEntrySafe rel ≠ none ∧ request.originalPath.getLast? = some slash ∧ 1 < request.originalPath.length ∧
          location = caddyRedirectPath request.originalPath request.query false)) := by
  simp only [serveTar,bind,Option.bind_eq_some_iff] at served
  obtain ⟨rel,inside,served⟩ := served
  refine ⟨rel,inside,?_⟩
  split at served
  · rename_i entry found
    rcases serveEntryRedirect served with ⟨implicit,_⟩ | ⟨_,file⟩
    · cases implicit
    · exact .inr ⟨by simp [found],file⟩
  · rename_i absent
    split at served
    · obtain ⟨index,_,served⟩ := Option.bind_eq_some_iff.mp served
      split at served
      · rcases serveEntryRedirect served with ⟨_,index⟩ | ⟨implicit,_⟩
        · exact .inl ⟨absent,index⟩
        · cases implicit
      · exact .inl ⟨absent,browseRedirect served⟩
    · cases served

end

theorem targetPartsFree (target : Bytes) : 35 ∉ (targetParts target).1 ∧ 63 ∉ (targetParts target).1 ∧
      ∀ query, (targetParts target).2 = some query → 35 ∉ query := by
  have hash : 35 ∉ target.takeWhile (· != 35) := by
    intro mem
    have kept := List.mem_takeWhile_imp mem
    simp at kept
  unfold targetParts
  generalize target.takeWhile (· != 35) = target at hash ⊢
  by_cases mark : 63 ∈ target
  · obtain ⟨path,query,rfl,first⟩ := List.eq_append_cons_of_mem mark
    simp only [splitOnceAppend query first]
    simp only [List.mem_append,List.mem_cons,not_or] at hash
    refine ⟨hash.1,first,?_⟩
    intro q same
    cases same
    exact hash.2.2
  · simp only [splitOnceNone mark]
    exact ⟨hash,mark,by simp⟩

theorem targetPartsWritten {path query} (hash : 35 ∉ path) (mark : 63 ∉ path) (free : ∀ q, query = some q → 35 ∉ q) :
    targetParts (path ++ (query.map (63::·)).getD []) = (path,query) := by
  have whole : (path ++ (query.map (63::·)).getD []).takeWhile (· != 35) = path ++ (query.map (63::·)).getD [] := by
    rw [List.takeWhile_eq_self_iff]
    intro b mem
    rcases List.mem_append.mp mem with inPath | inQuery
    · exact bne_iff_ne.mpr fun same => hash (same ▸ inPath)
    · cases query with
      | none => cases inQuery
      | some q =>
        rcases List.mem_cons.mp inQuery with rfl | inside
        · rfl
        · exact bne_iff_ne.mpr fun same => free q rfl (same ▸ inside)
  unfold targetParts
  rw [whole]
  cases query with
  | none => simp [splitOnceNone mark]
  | some q => simp [splitOnceAppend q mark]

theorem normalizePartsMem {parts decoded raw decoded' raw'}
    (h : normalizeParts parts decoded raw = some (decoded',raw')) : ∀ part ∈ raw', part ∈ raw ∨ part ∈ parts := by
  induction parts generalizing decoded raw with
  | nil =>
    cases h
    exact fun part mem => .inl mem
  | cons first later ih =>
    intro part mem
    unfold normalizeParts at h
    split at h
    · exact (ih h part mem).imp_right (List.mem_cons_of_mem _)
    · obtain ⟨out,_,h⟩ := Option.bind_eq_some_iff.mp h
      split at h
      · exact (ih h part mem).imp_right (List.mem_cons_of_mem _)
      · split at h
        · split at h
          · cases h
          · exact (ih h part mem).imp List.mem_of_mem_dropLast (List.mem_cons_of_mem _)
        · split at h
          · cases h
          · split at h
            · rcases ih h part mem with before | inside
              · rcases List.mem_append.mp before with old | new
                · exact .inl old
                · exact .inr (by rw [List.mem_singleton.mp new]; simp)
              · exact .inr (List.mem_cons_of_mem _ inside)
            · cases h

theorem relativeAbsent {raw n b} (normal : normalizeRequestPath raw = some n) (other : b ≠ slash) (absent : b ∉ raw) :
    b ∉ n.encodedRelative := by
  simp only [normalizeRequestPath,normalizeSegments,bind,Option.bind_eq_some_iff] at normal
  obtain ⟨⟨decoded,components⟩,parts,same⟩ := normal
  cases same
  intro mem
  rcases memIntercalate mem with isSlash | ⟨part,listed,inside⟩
  · exact other isSlash
  · rcases normalizePartsMem parts part listed with empty | segment
    · cases empty
    · exact absent (splitOnMem (List.mem_filter.mp segment).1 inside)

theorem pathAbsent {n : NormalizedPath} {b : UInt8} (other : b ≠ slash) (relative : b ∉ n.encodedRelative) :
    b ∉ n.encodedPathWithDirHint := by
  unfold NormalizedPath.encodedPathWithDirHint NormalizedPath.encodedPath
  split <;> split <;> simp [other,relative]

theorem singleSlashSpelled {parts} (plain : ∀ part ∈ parts, slash ∉ part) (nonempty : ∀ part ∈ parts, part ≠ [])
    (filled : parts ≠ []) (tail : Bytes) : singleSlash (slashed parts ++ tail) = slashed parts ++ tail := by
  obtain ⟨part,later,rfl⟩ := List.exists_cons_of_ne_nil filled
  obtain ⟨b,rest,rfl⟩ := List.exists_cons_of_ne_nil (nonempty part List.mem_cons_self)
  have other : b ≠ slash := fun same => plain _ List.mem_cons_self (by simp [same])
  simp [slashed,singleSlash,other]

structure LeadsTo (n n' : NormalizedPath) (query : Option Bytes) (addSlash : Bool) : Prop where
  location : caddyRedirectPath n.encodedPathWithDirHint query addSlash =
    n'.encodedPathWithDirHint ++ (query.map (63::·)).getD []
  normal : normalizeRequestPath n'.encodedPathWithDirHint = some n'
  relative : n'.relative = n.relative
  slashed : n'.encodedPathWithDirHint.getLast? = some slash ↔ addSlash = true

theorem redirectLeads {raw : Bytes} {n : NormalizedPath} (normal : normalizeRequestPath raw = some n)
    (query : Option Bytes) {addSlash : Bool} (needed : if addSlash then n.encodedPathWithDirHint.getLast? ≠ some slash
      else n.encodedPathWithDirHint.getLast? = some slash ∧ 1 < n.encodedPathWithDirHint.length) :
    LeadsTo n ⟨n.relative,n.encodedRelative,addSlash⟩ query addSlash := by
  obtain ⟨kept,all,encoded,relative⟩ := normalizedKept normal
  have filled : kept ≠ [] := by
    rintro rfl
    have bare : n.encodedPathWithDirHint = [slash] := by
      simp [NormalizedPath.encodedPathWithDirHint,NormalizedPath.encodedPath,encoded,join]
    rw [bare] at needed
    cases addSlash <;> simp at needed
  obtain ⟨plain,nonempty⟩ := keptSpelled all
  have solid := slashedSolid plain nonempty
  have single := singleSlashSpelled plain nonempty (by simpa using filled)
  have spelled := pathSpelled all filled encoded
  have target : (⟨n.relative,n.encodedRelative,addSlash⟩ : NormalizedPath).encodedPathWithDirHint =
      slashed (kept.map Prod.fst) ++ if addSlash then [slash] else [] := pathSpelled all filled encoded
  have hint : n.dirHint = ! addSlash := by
    rw [spelled] at needed
    cases given : n.dirHint <;> cases addSlash <;> simp [given,solid] at needed ⊢
  rw [hint] at spelled
  refine ⟨?_,?_,rfl,?_⟩
  · rw [target,spelled]
    cases addSlash with
    | true =>
      simp only [caddyRedirectPath,if_true,Bool.not_true,Bool.false_eq_true,if_false,List.append_nil,single]
      cases query <;> rfl
    | false =>
      rw [spelled] at needed
      have long : 1 < (slashed (kept.map Prod.fst)).length + 1 := by simpa using needed.2
      have bare := single []
      rw [List.append_nil] at bare
      simp only [caddyRedirectPath,Bool.false_eq_true,if_false,Bool.not_false,if_true,List.length_append,
        List.length_cons,List.length_nil,Nat.zero_add,long,decide_true,Bool.true_and,List.getLast?_concat,beq_self_eq_true,
        List.dropLast_concat,List.append_nil,bare]
      cases query <;> rfl
  · rw [target,normalizeSpelled all filled,encoded,relative]
  · rw [target]
    cases addSlash <;> simp [solid]

section
variable {lossy : Bytes → Bytes} {serveFs : Bytes → Option Response} {site : Site}
  {config : CaddyFileServer} {metadata : Metadata}

theorem answerTargetTar {root} (rootAt : RootAt config metadata root) {encodings modifiedSince target location}
    (served : answerTarget lossy serveFs site metadata config encodings modifiedSince target =
      some (.redirect location)) : ∃ n, normalizeRequestPath (targetParts target).1 = some n ∧
      serveTar lossy site root n (expandCaddyFileServerConfig config metadata) metadata
        (unchanged n (targetParts target).2 encodings modifiedSince) = some (.redirect location) := by
  obtain ⟨n,normal,served⟩ := Option.bind_eq_some_iff.mp served
  rw [prepareTar rootAt] at served
  split at served
  · exact ⟨n,normal,served⟩
  · cases served

theorem redirectsConverge {metadata' : Metadata} {root target location : Bytes} {encodings encodings' : List Bytes}
    {modifiedSince modifiedSince' : Option Int}
    (rootAt : RootAt config metadata root) (rootAt' : RootAt config metadata' root)
    (served : answerTarget lossy serveFs site metadata config encodings modifiedSince target =
      some (.redirect location)) : (targetParts location).2 = (targetParts target).2 ∧
      (∃ n, normalizeRequestPath (targetParts location).1 = some n) ∧
      ∀ again, answerTarget lossy serveFs site metadata' config encodings' modifiedSince' location ≠
        some (.redirect again) := by
  obtain ⟨n,normal,served⟩ := answerTargetTar rootAt served
  obtain ⟨rel,inside,sent⟩ := serveTarRedirect served
  -- The slash that is added or taken away tells a file from what is none.
  obtain ⟨addSlash,needed,sentTo,kind⟩ : ∃ addSlash : Bool,
      (if addSlash then n.encodedPathWithDirHint.getLast? ≠ some slash
        else n.encodedPathWithDirHint.getLast? = some slash ∧ 1 < n.encodedPathWithDirHint.length) ∧
      location = caddyRedirectPath n.encodedPathWithDirHint (targetParts target).2 addSlash ∧
      (site.getEntrySafe rel = none ↔ addSlash = true) := by
    rcases sent with ⟨absent,open_,sentTo⟩ | ⟨found,closed,long,sentTo⟩
    · exact ⟨true,open_,sentTo,by simp [absent]⟩
    · exact ⟨false,⟨closed,long⟩,sentTo,by simp [found]⟩
  have leads := redirectLeads normal (targetParts target).2 needed
  obtain ⟨hash,mark,free⟩ := targetPartsFree target
  have split_ : targetParts location =
      ((⟨n.relative,n.encodedRelative,addSlash⟩ : NormalizedPath).encodedPathWithDirHint,(targetParts target).2) := by
    rw [sentTo,leads.location]
    have noHash := relativeAbsent normal (by decide) hash
    have noMark := relativeAbsent normal (by decide) mark
    exact targetPartsWritten (pathAbsent (by decide) noHash) (pathAbsent (by decide) noMark) free
  refine ⟨by rw [split_],⟨_,by rw [split_]; exact leads.normal⟩,?_⟩
  intro again served'
  obtain ⟨n',normal',served'⟩ := answerTargetTar rootAt' served'
  rw [split_,leads.normal] at normal'
  cases normal'
  obtain ⟨rel',inside',sent'⟩ := serveTarRedirect served'
  cases inside.symm.trans inside'
  rcases sent' with ⟨absent,open_,_⟩ | ⟨found,closed,_⟩
  · exact open_ (leads.slashed.mpr (kind.mp absent))
  · exact found (kind.mpr (leads.slashed.mp closed))

end

theorem slashSettles : (∀ again, answerTarget id (fun _ => none) publicSite (fun _ => none) (browsing []) [] none
      (ascii "/public/?a=b") ≠ some (.redirect again)) ∧
    (∀ again, answerTarget id (fun _ => none) publicSite (fun _ => none) (browsing []) [] none
      (ascii "/public/a.txt") ≠ some (.redirect again)) := by
  have rootAt : RootAt (browsing []) (fun _ => none) [] := by
    unfold RootAt
    decide +kernel
  have bare : answerTarget id (fun _ => none) publicSite (fun _ => none) (browsing []) [] none
      (ascii "/public?a=b") = some (.redirect (ascii "/public/?a=b")) := by
    decide +kernel
  have file : answerTarget id (fun _ => none) publicSite (fun _ => none) (browsing []) [] none
      (ascii "/public/a.txt/") = some (.redirect (ascii "/public/a.txt")) := by
    decide +kernel
  exact ⟨(redirectsConverge rootAt rootAt bare).2.2,(redirectsConverge rootAt rootAt file).2.2⟩

end ZeroServe.SiteFiles
