import ZeroServe.SiteFiles

/-! The file server on a packed site: from the directive's configuration and a normalised path to a redirect, a file
or a directory listing. -/
namespace ZeroServe.SiteFiles
open ByteText RequestPath

structure CaddyFileBrowse where
  templateFile : Bytes
  fileLimit : Int
  deriving DecidableEq

structure CaddyFileServer where
  fs : Bytes
  root : Bytes
  hide : List Bytes
  indexNames : Option (List Bytes)
  browse : Option CaddyFileBrowse
  canonicalUris : Option Bool
  statusCode : Option Bytes
  etagFileExtensions : List Bytes
  precompressed : List Bytes
  deriving DecidableEq

/- What the server reads of a request besides its normalised path: the current and the
original path, the query, the codings it accepts, best first, and the time in its
If-Modified-Since field. -/
structure Request where
  path : Bytes
  originalPath : Bytes
  query : Option Bytes
  encodings : List Bytes
  modifiedSince : Option Int
  deriving DecidableEq

abbrev Metadata := Bytes → Option Bytes

def expandLoop (metadata : Metadata) : Nat → Bytes → Bytes
  | 0,rest => rest
  | fuel+1,rest =>
    let before := rest.takeWhile (· != 123)
    match rest.drop before.length with
    | [] => rest
    | _::afterStart =>
      let key := afterStart.takeWhile (· != 125)
      match afterStart.drop key.length with
      | [] => before ++ 123::afterStart
      | _::later => before ++ (metadata key).getD [] ++ expandLoop metadata fuel later

def expandMetadataPlaceholders (input : Bytes) (metadata : Metadata) : Bytes :=
  expandLoop metadata input.length input

def expandCaddyFileServerConfig (config : CaddyFileServer) (metadata : Metadata) : CaddyFileServer :=
  { config with
    fs := if config.fs = [] then expandMetadataPlaceholders (ascii "\x7bhttp.vars.fs\x7d") metadata
      else expandMetadataPlaceholders config.fs metadata
    root := if config.root = [] then
        let root := expandMetadataPlaceholders (ascii "\x7bhttp.vars.root\x7d") metadata
        if root = [] then ascii "." else root
      else expandMetadataPlaceholders config.root metadata
    hide := config.hide.map (expandMetadataPlaceholders · metadata)
    indexNames := config.indexNames.map (·.map (expandMetadataPlaceholders · metadata)) }

inductive CaddyFileRoot where
  | tar (root : Bytes)
  | fs (path : Bytes)
  deriving DecidableEq

def caddyFsNameForcesFilesystem (fsName : Bytes) : Bool :=
  fsName == ascii "file" || fsName == ascii "default"

def normalizeCaddyFileRoot (root : Bytes) (forceFilesystem : Bool) : Option CaddyFileRoot :=
  let root := strTrim root
  if forceFilesystem then some (.fs (if root = [] then ascii "." else root))
  else if root = [] || root = ascii "." || root = ascii "\x7bhttp.vars.root\x7d" then some (.tar [])
  else if root.contains 123 || root.contains 125 then none
  else if root.head? = some slash then some (.fs root)
  else
    let root := trimSlashes root
    if root = [] then some (.tar [])
    else (normalizeRequestPath (slash::root)).map (fun path => .tar path.relative)

def statusFromU16 (code : Nat) : Option Nat := if 100 ≤ code ∧ code ≤ 999 then some code else none

def caddyFileServerStatus (config : CaddyFileServer) (metadata : Metadata) : Option Nat :=
  match config.statusCode with
  | none =>
    some (((metadata (ascii "http.error.status_code")).bind (fromStrRadix 10 65536)).bind statusFromU16 |>.getD 200)
  | some template => do
    let code ← fromStrRadix 10 65536 (expandMetadataPlaceholders template metadata)
    if code = 0 then some 200 else statusFromU16 code

def caddyUrlPathBase (path : Bytes) : Bytes :=
  let path := trimSlashEnd path
  if path = [] then [slash] else path.rtakeWhile (· != slash)

def caddyCanonicalRedirectAllowed (request : Request) : Bool :=
  caddyUrlPathBase request.originalPath == caddyUrlPathBase request.path

def caddyBrowseRedirectAllowed (request : Request) : Bool :=
  request.path == [] || caddyCanonicalRedirectAllowed request

def singleSlash : Bytes → Bytes
  | a::b::rest => if a = slash ∧ b = slash then singleSlash (b::rest) else a::b::rest
  | path => path

def caddyRedirectPath (path : Bytes) (query : Option Bytes) (addSlash : Bool) : Bytes :=
  let path := if addSlash then path ++ [slash]
    else if 1 < path.length && path.getLast? == some slash then path.dropLast else path
  singleSlash path ++ (match query with | some query => 63::query | none => [])

inductive CaddyEtag where
  | computed (value : Bytes)
  | sidecar (entry : TarEntry) (value : Bytes)
  deriving DecidableEq

structure CaddyBrowseItem where
  name : Bytes
  size : Int64
  url : Bytes
  mode : Nat
  isDir : Bool
  mtimeSecs : UInt64
  deriving DecidableEq

structure Listing where
  dir : Bytes
  items : List CaddyBrowseItem
  lastModified : UInt64
  notModified : Bool
  deriving DecidableEq

inductive Response where
  | redirect (location : Bytes)
  | internalServerError
  | file (status : Nat) (entry body : TarEntry) (contentEncoding : Option Bytes) (etag : CaddyEtag)
  | listing (page : Listing)
  deriving DecidableEq

inductive BrowseCandidate where
  | dir (child directory : Bytes)
  | file (child : Bytes) (entry : TarEntry)
  deriving DecidableEq

namespace BrowseCandidate

def child : BrowseCandidate → Bytes
  | dir child _ => child
  | file child _ => child

def path : BrowseCandidate → Bytes
  | dir _ directory => directory
  | file _ entry => entry.path

def name : BrowseCandidate → Bytes
  | dir child _ => child ++ [slash]
  | file child _ => child

end BrowseCandidate

def urlByte (b : UInt8) : Bool :=
  (65 ≤ b && b ≤ 90) || (97 ≤ b && b ≤ 122) || (48 ≤ b && b ≤ 57) || (ascii "-._~!$&'()*+,;=:@/").contains b

def hexUpper (n : UInt8) : UInt8 := if n < 10 then 48 + n else 55 + n

def caddyBrowseItemUrl (name : Bytes) : Bytes :=
  ascii "./" ++ name.flatMap fun b =>
    if urlByte b then [b] else [percent,hexUpper (b / 16),hexUpper (b % 16)]

def caddyBrowseReadLimit (browse : Option CaddyFileBrowse) : Option Nat :=
  let limit := (browse.map CaddyFileBrowse.fileLimit).getD 0
  if limit = 0 then some 10000 else if 0 < limit then some limit.toNat else none

def directCaddyBrowseChild (start path : Bytes) : Option Bytes :=
  if start.isPrefixOf path then
    let rest := path.drop start.length
    if rest = [] || slash ∈ rest then none else some rest
  else none

def listingStart (dir : Bytes) : Bytes := if dir = [] then [] else trimSlashEnd dir ++ [slash]

def addCandidate (seen : List BrowseCandidate) (candidate : Option BrowseCandidate) : List BrowseCandidate :=
  match candidate with
  | none => seen
  | some c => if (seen.map BrowseCandidate.name).contains c.name then seen else seen ++ [c]

def dirCandidate (dir directory : Bytes) : Option BrowseCandidate :=
  if directory = dir then none
  else (directCaddyBrowseChild (listingStart dir) directory).map (.dir · directory)

def fileCandidate (dir : Bytes) (entry : TarEntry) : Option BrowseCandidate :=
  (directCaddyBrowseChild (listingStart dir) entry.path).map (.file · entry)

def browseCandidates (site : Site) (dir : Bytes) : List BrowseCandidate :=
  (site.directories.map (dirCandidate dir) ++ site.entries.map (fileCandidate dir)).foldl addCandidate []

def readCandidates (site : Site) (dir : Bytes) (config : CaddyFileServer) : List BrowseCandidate :=
  let sorted := (browseCandidates site dir).insertionSort (fun a b => b.child ≤ a.child)
  match caddyBrowseReadLimit config.browse with
  | some limit => sorted.take limit
  | none => sorted

def browseItem (site : Site) : BrowseCandidate → CaddyBrowseItem
  | .dir child directory => {
      name := child ++ [slash], size := 0, url := caddyBrowseItemUrl (child ++ [slash]), mode := 0o755,
      isDir := true, mtimeSecs := (site.directoryMtime directory).getD 0 }
  | .file child entry => {
      name := child, size := entry.size.toInt64, url := caddyBrowseItemUrl child, mode := 0o644,
      isDir := false, mtimeSecs := entry.mtime }

def caddyBrowseItems (site : Site) (dir : Bytes) (config : CaddyFileServer) : List CaddyBrowseItem :=
  ((readCandidates site dir config).filter (fun c => ! fileHidden c.child config.hide)).map (browseItem site)

def caddyBrowseLastModified (parentMtime : Option UInt64) (items : List CaddyBrowseItem) : UInt64 :=
  (items.map CaddyBrowseItem.mtimeSecs ++ parentMtime.toList).foldl (fun a b => if a ≤ b then b else a) 0

def caddyBrowseIfModifiedSince (request : Request) (lastModified : UInt64) : Bool :=
  match request.modifiedSince with
  | none => false
  | some time => lastModified != 0 && lastModified.toNat < 2 ^ 63 && (lastModified.toNat : Int) ≤ time

def prepareCaddyBrowseResponse (site : Site) (dir : Bytes) (config : CaddyFileServer) (request : Request) :
    Option Response := do
  let browse ← config.browse
  if browse.templateFile ≠ [] then none else
  let items := caddyBrowseItems site dir config
  let lastModified := caddyBrowseLastModified (site.directoryMtime dir) items
  some (.listing ⟨dir,items,lastModified,caddyBrowseIfModifiedSince request lastModified⟩)

def codingEnding (encoding : Bytes) : Option Bytes :=
  if encoding = ascii "gzip" then some (ascii ".gz")
  else if encoding = ascii "br" then some (ascii ".br")
  else if encoding = ascii "zstd" then some (ascii ".zst")
  else none

def selectCaddyPrecompressedEntry (site : Site) (entry : TarEntry) (config : CaddyFileServer)
    (request : Request) : Option (TarEntry × Bytes) :=
  if config.precompressed = [] then none else
  request.encodings.findSome? fun encoding => do
    let ending ← codingEnding encoding
    if encoding ∈ config.precompressed then
      (site.getEntrySafe (entry.path ++ ending)).map (·,encoding)
    else none

/- `String::from_utf8_lossy` of the standard library. -/
variable (lossy : Bytes → Bytes)

def caddyEntryEtag (site : Site) (entry : TarEntry) (config : CaddyFileServer) : Option CaddyEtag :=
  match config.etagFileExtensions.findSome? fun ending => site.getEntrySafe (entry.path ++ ending) with
  | some sidecar => sidecar.content.map fun bytes => .sidecar sidecar ((lossy bytes).filter (· ≠ 10))
  | none => some (.computed entry.etag)

def prepareStaticEntryResponse (site : Site) (entry : TarEntry) (status : Nat) (config : CaddyFileServer)
    (request : Request) : Response :=
  let (body,encoding) := match selectCaddyPrecompressedEntry site entry config request with
    | some (sidecar,encoding) => (sidecar,some encoding)
    | none => (entry,none)
  match caddyEntryEtag lossy site body config with
  | none => .internalServerError
  | some etag => .file status entry body encoding etag

/- The index files of a directory in order. The outer `none` is a name that cannot be joined. -/
def findIndex (site : Site) (rel : Bytes) (hide : List Bytes) : List Bytes → Option (Option TarEntry)
  | [] => some none
  | index::later => do
    let indexPath ← joinFilePath rel index
    if fileHidden indexPath hide then findIndex site rel hide later
    else match site.getEntrySafe indexPath with
      | some entry => some (some entry)
      | none => findIndex site rel hide later

def indexNames (config : CaddyFileServer) : List Bytes :=
  config.indexNames.getD [ascii "index.html",ascii "index.txt"]

def browseDirectory (site : Site) (dir : Bytes) (config : CaddyFileServer) (request : Request) :
    Option Response :=
  if config.browse = none || fileHidden dir config.hide then none
  else if caddyBrowseRedirectAllowed request && request.originalPath.getLast? != some slash then
    some (.redirect (caddyRedirectPath request.originalPath request.query true))
  else prepareCaddyBrowseResponse site dir config request

def serveEntry (site : Site) (entry : TarEntry) (implicitIndex : Bool) (config : CaddyFileServer)
    (metadata : Metadata) (request : Request) : Option Response :=
  let path := request.originalPath
  let slashed := path.getLast? == some slash
  let canonical := config.canonicalUris.getD true && caddyCanonicalRedirectAllowed request
  if fileHidden entry.path config.hide then none
  else if canonical && implicitIndex && ! slashed then
    some (.redirect (caddyRedirectPath path request.query true))
  else if canonical && ! implicitIndex && slashed && 1 < path.length then
    some (.redirect (caddyRedirectPath path request.query false))
  else match caddyFileServerStatus config metadata with
    | none => some .internalServerError
    | some status => some (prepareStaticEntryResponse lossy site entry status config request)

def serveTar (site : Site) (root : Bytes) (path : NormalizedPath) (config : CaddyFileServer)
    (metadata : Metadata) (request : Request) : Option Response := do
  let rel ← joinFilePath root path.relative
  match site.getEntrySafe rel with
  | some entry => serveEntry lossy site entry false config metadata request
  | none =>
    if site.directories.contains rel || path.dirHint || rel == [] then do
      match ← findIndex site rel config.hide (indexNames config) with
      | some entry => serveEntry lossy site entry true config metadata request
      | none => browseDirectory site rel config request
    else none

def fsNameServed (fs : Bytes) : Bool :=
  fs == [] || fs == ascii "file" || fs == ascii "default" || fs == ascii "\x7bhttp.vars.fs\x7d"

/- `serveFs` stands for the server on a directory of the machine, when it is exposed. -/
def prepareCaddyFileServerResponse (serveFs : Bytes → Option Response) (site : Site)
    (metadata : Metadata) (path : NormalizedPath) (config : CaddyFileServer) (request : Request) :
    Option Response := do
  let config := expandCaddyFileServerConfig config metadata
  if ! fsNameServed config.fs then none else
  match ← normalizeCaddyFileRoot config.root (caddyFsNameForcesFilesystem config.fs) with
  | .fs root => serveFs root
  | .tar root => serveTar lossy site root path config metadata request

end ZeroServe.SiteFiles
