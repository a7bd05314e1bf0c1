import ZeroServe.FileServer

/-! The candidates of a file matcher without a path split: a pattern is expanded with values
of the request, cleaned, joined to the root and looked for in the packed site or in a
directory tree of the machine. -/
namespace ZeroServe.FileMatcher
open ByteText RequestPath SiteFiles

def backslash : UInt8 := 92
def globByte (b : UInt8) : Bool := b == 42 || b == 63 || b == 91
def special (b : UInt8) : Bool := globByte b || b == backslash

def caddyFileGlobEscape (value : Bytes) : Bytes :=
  value.flatMap fun b => if special b then [backslash,b] else [b]

def caddyFileUnescapeGlobLiterals : Bytes → Bytes
  | b::c::rest =>
    if b = backslash then
      if special c then c::caddyFileUnescapeGlobLiterals rest else b::c::caddyFileUnescapeGlobLiterals rest
    else b::caddyFileUnescapeGlobLiterals (c::rest)
  | rest => rest

/- `resolve` gives a placeholder's value for the request; a placeholder without one is dropped. -/
def expandCaddyFileMatcherPlaceholders (resolve : Bytes → Option Bytes) (input : Bytes) : Bytes :=
  expandMetadataPlaceholders input fun key => (resolve key).map caddyFileGlobEscape

def globLoop : Bool → Bool → Bytes → Bool
  | _,_,[] => false
  | inPlaceholder,true,_::rest => globLoop inPlaceholder false rest
  | inPlaceholder,false,b::rest =>
    if b = backslash then globLoop inPlaceholder true rest
    else if b = 123 then globLoop true false rest
    else if b = 125 then globLoop false false rest
    else if globByte b && ! inPlaceholder then true
    else globLoop inPlaceholder false rest

def caddyGlobPatternOutsidePlaceholders (value : Bytes) : Bool := globLoop false false value

def displayPath (path : Bytes) : Bytes := path.map fun b => if b = backslash then slash else b

def cleanPathNoTrailing (path : Bytes) : Bytes :=
  let cleaned := cleanPathPreserveTrailing path
  if 1 < cleaned.length && cleaned.getLast? == some slash then cleaned.dropLast else cleaned

def slashPathWithLeading (path : Bytes) : Bytes :=
  let path := displayPath path
  if path.head? = some slash then path else slash::path

/- `Path::join`, `Path::components` after the root and `Path::strip_prefix`. -/
def pathJoin (base rel : Bytes) : Bytes :=
  if rel.head? = some slash then rel
  else if base = [] || base.getLast? = some slash then base ++ rel
  else base ++ slash::rel

def components (path : Bytes) : List Bytes :=
  (path.splitOn slash).filter fun part => part != [] && part != ascii "."

def stripPath (base path : Bytes) : Option Bytes :=
  if (base.head? == some slash) == (path.head? == some slash) && (components base).isPrefixOf (components path)
  then some (join ((components path).drop (components base).length))
  else none

def caddyFsMatchJoin (root rel : Bytes) : Option Bytes :=
  let rel := trimSlashStart rel
  if (rel.splitOn slash).any (· == ascii "..") then none else some (pathJoin root rel)

/- A directory tree. There are no links. -/
inductive Node where
  | file
  | dir (entries : List (Bytes × Node))

def follow : List Node → Node → List Bytes → Option Node
  | _,current,[] => some current
  | _,.file,_::_ => none
  | above,.dir entries,part::later =>
    if part = [] ∨ part = ascii "." then follow above (.dir entries) later
    else if part = ascii ".." then
      match above with
      | parent::others => follow others parent later
      | [] => follow [] (.dir entries) later
    else match entries.find? (·.1 == part) with
      | some (_,node) => follow (.dir entries::above) node later
      | none => none

structure FileSystem where
  top : Node
  cwd : Bytes

def FileSystem.node (fs : FileSystem) (path : Bytes) : Option Node :=
  follow [] fs.top ((pathJoin fs.cwd path).splitOn slash)

def FileSystem.exists_ (fs : FileSystem) (path : Bytes) : Bool := (fs.node path).isSome

def FileSystem.readDir (fs : FileSystem) (path : Bytes) : List (Bytes × Node) :=
  match fs.node path with
  | some (.dir entries) => entries
  | _ => []

def caddyFsRelative (root path : Bytes) : Bytes :=
  match stripPath root path with
  | some rest => slashPathWithLeading rest
  | none => slashPathWithLeading (displayPath path)

/- The walk below the root: every path is compared with the whole pattern. -/
mutual
def collectGlobCandidates (root pattern current : Bytes) : Node → List Bytes
  | .file => []
  | .dir entries => collectGlobEntries root pattern current entries

def collectGlobEntries (root pattern current : Bytes) : List (Bytes × Node) → List Bytes
  | [] => []
  | (name,node)::later =>
    (if pathGlobMatch pattern (caddyFsRelative root (pathJoin current name)) then [pathJoin current name] else []) ++
    collectGlobCandidates root pattern (pathJoin current name) node ++
    collectGlobEntries root pattern current later
end

def caddyFsGlobCandidates (fs : FileSystem) (root pattern : Bytes) : List Bytes :=
  collectGlobEntries root pattern root (fs.readDir root)

def collectFullGlobCandidates (fs : FileSystem) : Bytes → List Bytes → List Bytes
  | current,[] => if fs.exists_ current then [current] else []
  | current,part::later =>
    if caddyGlobPatternOutsidePlaceholders part then
      (fs.readDir current).flatMap fun e =>
        if globMatch part e.1 then collectFullGlobCandidates fs (pathJoin current e.1) later else []
    else collectFullGlobCandidates fs (pathJoin current part) later

def caddyFsFullGlobCandidates (fs : FileSystem) (pattern : Bytes) : List Bytes :=
  let pattern := displayPath pattern
  let start := if pattern.head? = some slash then [slash] else ascii "."
  collectFullGlobCandidates fs start (((trimSlashStart pattern).splitOn slash).filter (· ≠ []))

def caddyFsGlobPattern (root path : Bytes) : Option Bytes := (stripPath root path).map slashPathWithLeading

structure CaddyFileCandidate where
  fullpath : Bytes
  relative : Bytes
  remainder : Bytes
  wantsDir : Bool
  root : CaddyFileRoot
  deriving DecidableEq

def caddyFileMatchRelative (root fullpath : Bytes) : Bytes :=
  if root = [] then trimSlashes fullpath
  else
    let base := trimSlashes root
    slashPathWithLeading (trimSlashes (if base.isPrefixOf fullpath then fullpath.drop base.length else fullpath))

def caddyFileMatchRelativeFromRoot (root fullpath : Bytes) : Bytes :=
  if root.isPrefixOf fullpath then fullpath.drop root.length else fullpath

def sortCandidates (candidates : List CaddyFileCandidate) : List CaddyFileCandidate :=
  candidates.insertionSort fun a b => a.fullpath ≤ b.fullpath

def beforeSplit (resolve : Bytes → Option Bytes) (pattern : Bytes) : Bytes :=
  let cleaned := cleanPathNoTrailing (expandCaddyFileMatcherPlaceholders resolve pattern)
  if pattern.getLast? == some slash && cleaned.getLast? != some slash then cleaned ++ [slash] else cleaned

def tarCandidates (site : Site) (root before : Bytes) (staticGlob : Bool) : List CaddyFileCandidate :=
  let candidate (path : Bytes) : CaddyFileCandidate :=
    ⟨path,caddyFileMatchRelative root path,[],before.getLast? == some slash,.tar root⟩
  match joinFilePath root before with
  | none => []
  | some fullpath =>
    if staticGlob || caddyGlobPatternOutsidePlaceholders fullpath then
      sortCandidates (((site.entries.map TarEntry.path ++ site.directories).filter (pathGlobMatch fullpath)).map
        candidate)
    else [candidate (caddyFileUnescapeGlobLiterals fullpath)]

def fsCandidates (fs : FileSystem) (root before : Bytes) (staticGlob : Bool) : List CaddyFileCandidate :=
  let wantsDir := before.getLast? == some slash
  match caddyFsMatchJoin root before with
  | none => []
  | some path =>
    let fullpath := displayPath path
    if staticGlob || caddyGlobPatternOutsidePlaceholders fullpath then
      let paths :=
        if staticGlob && ! caddyGlobPatternOutsidePlaceholders (displayPath root) then
          match caddyFsGlobPattern root path with
          | some pattern => caddyFsGlobCandidates fs root pattern
          | none => []
        else caddyFsFullGlobCandidates fs fullpath
      sortCandidates (paths.map fun path =>
        ⟨displayPath path,caddyFsRelative root path,[],wantsDir,.fs root⟩)
    else
      let fullpath := caddyFileUnescapeGlobLiterals fullpath
      [⟨fullpath,caddyFileMatchRelativeFromRoot (displayPath root) fullpath,[],wantsDir,.fs root⟩]

def caddyFileMatcherCandidates (site : Site) (fs : FileSystem) (resolve : Bytes → Option Bytes)
    (root : CaddyFileRoot) (pattern : Bytes) : List CaddyFileCandidate :=
  let before := beforeSplit resolve pattern
  let staticGlob := caddyGlobPatternOutsidePlaceholders pattern
  match root with
  | .tar root => tarCandidates site root before staticGlob
  | .fs root => fsCandidates fs root before staticGlob

end ZeroServe.FileMatcher
