import ZeroServe.LiteralRewrite
import ZeroServe.GlobQuote
import ZeroServe.PassThru
import ZeroServe.ScriptUri

/-! A file matcher with policy `first_exist` and no path split: the first candidate that is
there is chosen and its name is put among the placeholders, where a rewrite finds it. -/
namespace ZeroServe.TryFiles
open ByteText RequestPath Script SiteFiles FileMatcher
open UriTemplate (fileRelativeKey)
open RegexMatch (expandCaddyPlaceholders)

structure CaddyFileStat where
  isDir : Bool
  size : UInt64
  mtime : UInt64
  deriving DecidableEq

structure CaddyFileMatcher where
  fs : Bytes
  root : Bytes
  tryFiles : Option (List Bytes)
  deriving DecidableEq

def caddyFileMatcherStat (machine : Bytes → Option CaddyFileStat) (site : Site)
    (candidate : CaddyFileCandidate) (strict : Bool) : Option CaddyFileStat :=
  match candidate.root with
  | .tar _ =>
    match site.entry (trimSlashEnd candidate.fullpath) with
    | some entry => if strict && candidate.wantsDir then none else some ⟨false,entry.size,entry.mtime⟩
    | none =>
      let dir := trimSlashes candidate.fullpath
      if site.directories.contains dir then
        if strict && ! candidate.wantsDir then none
        else some ⟨true,0,(site.directoryMtime dir).getD 0⟩
      else none
  | .fs _ =>
    (machine candidate.fullpath).bind fun stat =>
      if strict && candidate.wantsDir != stat.isDir then none else some stat

def caddyFileMatcherErrorPattern : Bytes → Option Nat
  | 61::status => (fromStrRadix 10 65536 status).filter fun status =>
    status != 103 && 100 ≤ status && status ≤ 999
  | _ => none

def expandCaddyDefaultedPlaceholder (resolve : Bytes → Option Bytes)
    (configured defaultTemplate missingFallback : Bytes) : Bytes :=
  if configured = [] then
    let expanded := expandCaddyPlaceholders resolve defaultTemplate
    if expanded = [] then missingFallback else expanded
  else expandCaddyPlaceholders resolve configured

def matcherValue (resolve : Bytes → Option Bytes) (s : ScriptRequest) (key : Bytes) : Option Bytes :=
  if key = ascii "http.request.uri.path" then caddyPercentDecodePath s.path else resolve key

section
variable (site : Site) (fs : FileSystem) (machine : Bytes → Option CaddyFileStat)
variable (resolve : Bytes → Option Bytes)

def firstExist (values : Bytes → Option Bytes) (root : CaddyFileRoot) :
    List Bytes → Except Nat (Option (CaddyFileCandidate × CaddyFileStat))
  | [] => .ok none
  | pattern::later =>
    match caddyFileMatcherErrorPattern pattern with
    | some status => .error status
    | none =>
      match (caddyFileMatcherCandidates site fs values root pattern).findSome? fun candidate =>
        (caddyFileMatcherStat machine site candidate true).map (candidate,·) with
      | some found => .ok (some found)
      | none => firstExist values root later

def caddyFileMatch (exposeFilesystem : Bool) (s : ScriptRequest) (config : CaddyFileMatcher) :
    Except Nat (Option (CaddyFileCandidate × CaddyFileStat)) :=
  let fsName := expandCaddyDefaultedPlaceholder resolve config.fs (ascii "\x7bhttp.vars.fs\x7d") []
  if fsName ≠ [] ∧ fsName ≠ ascii "file" ∧ fsName ≠ ascii "default" then .ok none
  else
    let root := expandCaddyDefaultedPlaceholder resolve config.root (ascii "\x7bhttp.vars.root\x7d") (ascii ".")
    let tryFiles := config.tryFiles.getD [ascii "\x7bhttp.request.uri.path\x7d"]
    match caddyFileMatcherRoot root (caddyFsNameForcesFilesystem fsName) with
    | .fs path =>
      if exposeFilesystem then firstExist site fs machine (matcherValue resolve s) (.fs path) tryFiles
      else .ok none
    | .tar path => firstExist site fs machine (matcherValue resolve s) (.tar path) tryFiles

end

def setCaddyFileMatchPlaceholders (resolve : Bytes → Option Bytes) (candidate : CaddyFileCandidate)
    (isDir : Bool) (key : Bytes) : Option Bytes :=
  if key = fileRelativeKey then some (displayPath candidate.relative)
  else if key = ascii "http.matchers.file.absolute" then some (displayPath candidate.fullpath)
  else if key = ascii "http.matchers.file.remainder" then some (displayPath candidate.remainder)
  else if key = ascii "http.matchers.file.type" then some (ascii (if isDir then "directory" else "file"))
  else resolve key

section
variable {site : Site} {fs : FileSystem} {machine : Bytes → Option CaddyFileStat}
variable {values resolve : Bytes → Option Bytes} {candidate : CaddyFileCandidate} {stat : CaddyFileStat}

theorem firstExistFound {root patterns}
    (found : firstExist site fs machine values root patterns = .ok (some (candidate,stat))) :
    (∃ pattern, candidate ∈ caddyFileMatcherCandidates site fs values root pattern) ∧
      caddyFileMatcherStat machine site candidate true = some stat := by
  induction patterns with
  | nil => cases found
  | cons pattern later ih =>
    rw [firstExist] at found
    split at found
    · cases found
    · split at found
      · rename_i first here
        cases found
        obtain ⟨c,mem,there⟩ := List.exists_of_findSome?_eq_some here
        obtain ⟨read,present,same⟩ := Option.map_eq_some_iff.mp there
        cases same
        exact ⟨⟨pattern,mem⟩,present⟩
      · exact ih found

theorem fileStat {root} (inTar : candidate.root = .tar root)
    (there : caddyFileMatcherStat machine site candidate true = some stat) (file : stat.isDir = false) :
    ∃ entry, site.entry (trimSlashEnd candidate.fullpath) = some entry := by
  rw [caddyFileMatcherStat,inTar] at there
  dsimp only at there
  split at there
  · rename_i entry found
    exact ⟨entry,found⟩
  · split at there
    · split at there
      · cases there
      · cases there
        cases file
    · cases there

end

def Below (root path : Bytes) : Prop := root = [] ∨ path = root ∨ ∃ rest, path = root ++ slash::rest

variable {root : Bytes}

theorem unescapeAppend {front} (plain : ∀ b ∈ front, special b = false) (back : Bytes) :
    caddyFileUnescapeGlobLiterals (front ++ back) = front ++ caddyFileUnescapeGlobLiterals back := by
  induction front with
  | nil => rfl
  | cons b rest ih =>
    obtain ⟨here,later⟩ := List.forall_mem_cons.mp plain
    have other : b ≠ backslash := by
      rintro rfl
      exact absurd here (by decide)
    have inner := ih later
    rw [List.cons_append,List.cons_append,← inner]
    generalize rest ++ back = text
    cases text with
    | nil => simp [caddyFileUnescapeGlobLiterals]
    | cons c more => rw [caddyFileUnescapeGlobLiterals,if_neg other]

theorem literalParts {literal rest values : List Bytes} (plain : ∀ part ∈ literal, ∀ b ∈ part, special b = false)
    (length : (literal ++ rest).length = values.length)
    (all : ((literal ++ rest).zip values).all (fun (pattern,value) => globMatch pattern value) = true) :
    ∃ more, values = literal ++ more ∧ more.length = rest.length := by
  induction literal generalizing values with
  | nil => exact ⟨values,rfl,length.symm⟩
  | cons part later ih =>
    obtain ⟨here,others⟩ := List.forall_mem_cons.mp plain
    cases values with
    | nil => cases length
    | cons value following =>
      rw [List.cons_append,List.zip_cons_cons,List.all_cons,Bool.and_eq_true] at all
      have same : value = part := by
        have hit := all.1
        rwa [← escapePlain here,escapeMatches] at hit
      obtain ⟨more,shape,count⟩ := ih others (by simpa using length) all.2
      exact ⟨more,by rw [same,shape]; rfl,count⟩

theorem splitInjective {a b : Bytes} (same : a.splitOn slash = b.splitOn slash) : a = b := by
  have back : ∀ s : Bytes, [slash].intercalate (s.splitOn slash) = s := fun s => List.intercalate_splitOn slash
  rw [← back a,same,back]

theorem globBelow (plain : ∀ b ∈ root, special b = false) {path : Bytes} :
    (pathGlobMatch root path = true → path = root) ∧
    ∀ pattern, pathGlobMatch (root ++ slash::pattern) path = true → ∃ rest, path = root ++ slash::rest := by
  have parts : ∀ part ∈ root.splitOn slash, ∀ b ∈ part, special b = false :=
    fun part mem b inside => plain b (splitOnMem mem inside)
  constructor
  · intro hit
    simp only [pathGlobMatch,caddyHttpPathGlobMatch,Bool.and_eq_true,beq_iff_eq] at hit
    rw [← List.append_nil (root.splitOn slash)] at hit
    obtain ⟨more,shape,count⟩ := literalParts parts hit.1 hit.2
    rw [List.length_eq_zero_iff.mp count,List.append_nil] at shape
    exact splitInjective shape
  · intro pattern hit
    simp only [pathGlobMatch,caddyHttpPathGlobMatch,Bool.and_eq_true,beq_iff_eq, List.splitOn_append_cons_self] at hit
    obtain ⟨more,shape,count⟩ := literalParts parts hit.1 hit.2
    have filled : more ≠ [] := by
      rintro rfl
      exact List.splitOn_ne_nil slash pattern (List.length_eq_zero_iff.mp count.symm)
    have free : ∀ part ∈ more, slash ∉ part := fun part mem =>
      splitOnFree (shape ▸ List.mem_append_right _ mem)
    refine ⟨join more,splitInjective ?_⟩
    rw [shape,List.splitOn_append_cons_self,splitJoin free filled]

structure Below.Candidate (root : Bytes) (c : CaddyFileCandidate) : Prop where
  inTar : c.root = .tar root
  relative : c.relative = caddyFileMatchRelative root c.fullpath
  below : Below root c.fullpath

theorem candidateBelow (trimmed : trimSlashEnd root = root) (plain : ∀ b ∈ root, special b = false)
    {site before staticGlob c} (mem : c ∈ tarCandidates site root before staticGlob) : Below.Candidate root c := by
  unfold tarCandidates at mem
  split at mem
  · cases mem
  · rename_i fullpath joined
    split at mem
    · obtain ⟨path,kept,rfl⟩ := List.mem_map.mp ((List.mem_insertionSort _).mp mem)
      refine ⟨rfl,rfl,?_⟩
      have hit := (List.mem_filter.mp kept).2
      rcases joinedShape joined with ⟨top,_⟩ | ⟨_,_,rfl⟩ | ⟨_,_,rfl⟩
      · exact .inl top
      · exact .inr (.inl ((globBelow plain).1 hit))
      · rw [trimmed] at hit
        exact .inr (.inr ((globBelow plain).2 _ hit))
    · cases List.mem_singleton.mp mem
      refine ⟨rfl,rfl,?_⟩
      rcases joinedShape joined with ⟨top,_⟩ | ⟨_,_,rfl⟩ | ⟨_,_,rfl⟩
      · exact .inl top
      · exact .inr (.inl (unescapePlain plain))
      · refine .inr (.inr ⟨caddyFileUnescapeGlobLiterals (trimSlashStart before),?_⟩)
        have rooted : ∀ b ∈ root ++ [slash], special b = false := by
          intro b inside
          rcases List.mem_append.mp inside with old | new
          · exact plain b old
          · rw [List.mem_singleton.mp new]
            decide
        have cut := unescapeAppend rooted (trimSlashStart before)
        rw [trimmed]
        simpa using cut
end ZeroServe.TryFiles
