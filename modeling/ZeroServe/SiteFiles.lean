import ZeroServe.ByteTrim
import ZeroServe.PathMatch

/-! The files of a packed site: how an archive becomes entries and directories, the lookups
that keep the reserved tree apart, and the patterns that hide a path. -/
namespace ZeroServe.SiteFiles
open ByteText RequestPath

structure TarEntry where
  path : Bytes
  size : UInt64
  etag : Bytes
  mtime : UInt64
  content : Option Bytes
  deriving DecidableEq

structure Site where
  entries : List TarEntry
  directories : List Bytes
  directoryMtimes : List (Bytes × UInt64)
  keyed : (entries.map TarEntry.path).Nodup
  distinct : directories.Nodup

inductive EntryType where
  | regular | directory | other
  deriving DecidableEq

structure ArchiveItem where
  entryType : EntryType
  rawPath : Bytes
  size : UInt64
  etag : Bytes
  mtime : UInt64
  content : Option Bytes
  deriving DecidableEq

def trimSlashes (s : Bytes) : Bytes := (s.dropWhile (· == slash)).rdropWhile (· == slash)

def normalizeTarPath (path : Bytes) : Bytes :=
  trimSlashes (stripFront [ascii "./"] path.length path)

def parents : Nat → Bytes → List Bytes
  | 0,_ => []
  | fuel+1,current =>
    if slash ∈ current then
      let above := (current.rdropWhile (· != slash)).dropLast
      if above = [] then [] else above::parents fuel above
    else []

def markParents (path : Bytes) (directories : List Bytes) : List Bytes :=
  (parents path.length (path.rdropWhile (· == slash))).foldl (fun set dir => set.insert dir) directories

theorem insertsNodup {parents directories : List Bytes} (distinct : directories.Nodup) :
    (parents.foldl (fun set dir => set.insert dir) directories).Nodup := by
  induction parents generalizing directories with
  | nil => exact distinct
  | cons dir later ih => exact ih distinct.insert

def Site.insertEntry (site : Site) (entry : TarEntry) : Site where
  entries := site.entries.filter (fun e => e.path ≠ entry.path) ++ [entry]
  directories := markParents entry.path site.directories
  directoryMtimes := site.directoryMtimes
  keyed := by
    rw [List.map_append,List.nodup_append]
    refine ⟨site.keyed.sublist (List.filter_sublist.map _),List.nodup_singleton _,?_⟩
    intro path old other new
    obtain ⟨e,mem,rfl⟩ := List.mem_map.mp old
    have apart := of_decide_eq_true (List.mem_filter.mp mem).2
    exact fun same => apart (same.trans (List.mem_singleton.mp new))
  distinct := insertsNodup site.distinct

def Site.insertDirectory (site : Site) (path : Bytes) (mtime : UInt64) : Site where
  entries := site.entries
  directories := markParents path (site.directories.insert path)
  directoryMtimes := site.directoryMtimes.filter (fun d => d.1 ≠ path) ++ [(path,mtime)]
  keyed := site.keyed
  distinct := insertsNodup site.distinct.insert

def Site.insertItem (site : Site) (item : ArchiveItem) : Site :=
  let normalized := normalizeTarPath item.rawPath
  if normalized = [] then site else
  match item.entryType with
  | .regular => site.insertEntry ⟨normalized,item.size,item.etag,item.mtime,item.content⟩
  | .directory => site.insertDirectory normalized item.mtime
  | .other => site

def Site.empty : Site := ⟨[],[],[],List.nodup_nil,List.nodup_nil⟩

def Site.loadFromFile (archive : List ArchiveItem) : Option Site :=
  let site := archive.foldl Site.insertItem Site.empty
  if site.entries = [] then none else some site

def Site.entry (site : Site) (key : Bytes) : Option TarEntry := site.entries.find? (·.path == key)

def Site.directoryMtime (site : Site) (dir : Bytes) : Option UInt64 :=
  (site.directoryMtimes.find? (·.1 == dir)).map Prod.snd

def reservedRoot : Bytes := ascii ".zeroserve"
def Reserved (path : Bytes) : Prop := (reservedRoot ++ [slash]).isPrefixOf path = true
instance (path : Bytes) : Decidable (Reserved path) := inferInstanceAs (Decidable (_ = _))

def Site.getEntrySafe (site : Site) (key : Bytes) : Option TarEntry :=
  if Reserved key then none else site.entry key

def appendIndex (n : NormalizedPath) (index : Bytes) : Bytes :=
  if n.relative = [] then index else n.relative ++ [slash] ++ index

def Site.lookup (site : Site) (path : NormalizedPath) (defaultIndex : Bytes) (tryHtml : Bool) :
    Option TarEntry :=
  let rel := path.relative
  (site.getEntrySafe rel).or <|
  (if path.dirHint || rel == [] || site.directories.contains rel then
    site.getEntrySafe (appendIndex path defaultIndex) else none).or <|
  (if rel ≠ [] then site.getEntrySafe (rel ++ [slash] ++ defaultIndex)
    else site.getEntrySafe defaultIndex).or <|
  if tryHtml && rel != [] && ! (ascii ".html").isSuffixOf rel then
    site.getEntrySafe (rel ++ ascii ".html") else none

theorem entryPath {site : Site} {key : Bytes} {e : TarEntry} (found : site.entry key = some e) : e.path = key := by
  simpa using List.find?_some found

theorem entrySafe {site : Site} {key : Bytes} {e : TarEntry}
    (found : site.getEntrySafe key = some e) : e.path = key ∧ ¬ Reserved e.path := by
  unfold Site.getEntrySafe at found
  split at found
  · contradiction
  · rename_i free
    have same := entryPath found
    exact ⟨same,by rwa [same]⟩

theorem entrySafeReserved {site : Site} {key : Bytes} (reserved : Reserved key) :
    site.getEntrySafe key = none := if_pos reserved

theorem lookupFree {site : Site} {path : NormalizedPath} {index : Bytes} {tryHtml : Bool} {e : TarEntry}
    (found : site.lookup path index tryHtml = some e) : ¬ Reserved e.path := by
  simp only [Site.lookup,Option.or_eq_some_iff] at found
  rcases found with direct | ⟨_,folder | ⟨_,fallback | ⟨_,html⟩⟩⟩
  · exact (entrySafe direct).2
  · split at folder
    · exact (entrySafe folder).2
    · contradiction
  · split at fallback
    · exact (entrySafe fallback).2
    · exact (entrySafe fallback).2
  · split at html
    · exact (entrySafe html).2
    · contradiction

def trimSlashStart (s : Bytes) : Bytes := s.dropWhile (· == slash)
def trimSlashEnd (s : Bytes) : Bytes := s.rdropWhile (· == slash)

def joinFilePath (root rel : Bytes) : Option Bytes :=
  let joined :=
    if root = [] then (if rel = [] then [] else trimSlashStart rel)
    else if rel = [] then root
    else trimSlashEnd root ++ [slash] ++ trimSlashStart rel
  if (joined.splitOn slash).any (fun part => part == ascii "." || part == ascii "..") then none
  else some joined

def pathGlobMatch (pattern value : Bytes) : Bool := caddyHttpPathGlobMatch pattern value

def pathHidden (pattern path : Bytes) : Bool :=
  (pattern.isPrefixOf path && (path.drop pattern.length == [] || (path.drop pattern.length).head? == some slash)) ||
  pathGlobMatch pattern path

def skipped (pattern : Bytes) : Bool := pattern == [] || pattern.contains 123 || pattern.contains 125

def patternHides (path pattern : Bytes) : Bool :=
  if skipped pattern then false
  else if slash ∈ pattern then pathHidden pattern path
  else (path.splitOn slash).any (globMatch pattern)

def fileHidden (path : Bytes) (hide : List Bytes) : Bool :=
  if path = [] then false else hide.any fun pattern => patternHides path (strTrim pattern)

end ZeroServe.SiteFiles
