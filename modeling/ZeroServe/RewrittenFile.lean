import ZeroServe.TryFiles
import ZeroServe.PathEscape

/-! A request rewritten to the file its matcher chose: the name goes through the placeholder, the escapes of a path
and the normalisation, and is joined to the server's root. -/
namespace ZeroServe.TryFiles
open ByteText RequestPath Script SiteFiles FileMatcher
open UriTemplate
open RegexMatch (readUtf8 expandCaddyPlaceholders openBrace closeBrace)

section
variable {root path : Bytes}

theorem trimmedHead {s} (same : trimSlashes s = s) : s.head? ≠ some slash := by
  cases s with
  | nil => simp
  | cons b rest =>
    rw [List.head?_cons,ne_eq,Option.some.injEq]
    rintro rfl
    rw [trimSlashes,List.dropWhile_cons_of_pos (by simp)] at same
    have shorter := ((List.rdropWhile_prefix (· == slash) _).length_le).trans
      (List.dropWhile_suffix (l := rest) (· == slash)).length_le
    rw [same] at shorter
    simp at shorter

theorem trimEndBytes {b} (mem : b ∈ path) : b ∈ trimSlashEnd path ∨ b = slash := by
  have whole := List.takeWhile_append_dropWhile (p := (· == slash)) (l := path.reverse)
  rw [← List.mem_reverse,← whole,List.mem_append] at mem
  rcases mem with cut | kept
  · exact .inr (by simpa using List.mem_takeWhile_imp cut)
  · exact .inl (by simpa [trimSlashEnd,List.rdropWhile] using kept)

theorem trimEndAppend (a b : Bytes) : trimSlashEnd (a ++ b) =
    if trimSlashEnd b = [] then trimSlashEnd a else a ++ trimSlashEnd b := by
  simp only [trimSlashEnd,List.rdropWhile,List.reverse_append,List.dropWhile_append,List.isEmpty_iff,
    List.reverse_eq_nil_iff]
  split <;> simp

def nameBelow (root path : Bytes) : Bytes :=
  trimSlashes (if root = [] then path
    else if root.isPrefixOf path then path.drop root.length else path)

theorem nameBelowSlash : (nameBelow root path).head? ≠ some slash := trimmedHead (trimSlashesTwice _)

theorem nameBelowBytes {b} (mem : b ∈ nameBelow root path) : b ∈ path := by
  have inside := (List.dropWhile_suffix _).subset ((List.rdropWhile_prefix _ _).subset mem)
  split at inside
  · exact inside
  · split at inside
    · exact List.mem_of_mem_drop inside
    · exact inside

theorem slashedName {name} (plain : backslash ∉ name) (first : name.head? ≠ some slash) :
    slashPathWithLeading name = slash::name := by
  rw [slashPathWithLeading,displayPlain plain,if_neg first]

theorem relativeName (trimmed : trimSlashes root = root) (plain : backslash ∉ path) :
    slashPathWithLeading (displayPath (caddyFileMatchRelative root path)) = slash::nameBelow root path := by
  have quiet : backslash ∉ nameBelow root path := fun mem => plain (nameBelowBytes mem)
  by_cases top : root = []
  · have same : caddyFileMatchRelative root path = nameBelow root path := by
      rw [caddyFileMatchRelative,nameBelow,if_pos top,if_pos top]
    rw [same,displayPlain quiet,slashedName quiet nameBelowSlash]
  · have same : caddyFileMatchRelative root path = slash::nameBelow root path := by
      rw [caddyFileMatchRelative,if_neg top]
      rw [trimmed,← slashedName quiet nameBelowSlash,nameBelow,if_neg top]
    have all : backslash ∉ slash::nameBelow root path := by
      rw [List.mem_cons,not_or]
      exact ⟨by decide,quiet⟩
    rw [same,displayPlain all,slashPathWithLeading,displayPlain all]
    rfl

theorem entryName {k} (key : IsKey k) (same : trimSlashEnd path = k) (trimmed : trimSlashEnd root = root)
    (below : Below root path) :
    (root = [] ∧ nameBelow root path = k) ∨ (root ≠ [] ∧ k = root ∧ nameBelow root path = []) ∨
    (root ≠ [] ∧ ∃ g, k = root ++ slash::g ∧ g ≠ [] ∧ (g.head? ≠ some slash → nameBelow root path = g)) := by
  by_cases top : root = []
  · refine .inl ⟨top,?_⟩
    rw [nameBelow,if_pos top,← same]
    have first := trimmedHead key.2
    have kept : path.dropWhile (· == slash) = path := by
      cases path with
      | nil => rfl
      | cons b rest =>
        refine List.dropWhile_cons_of_neg fun sep => first ?_
        obtain ⟨more,whole⟩ := List.rdropWhile_prefix (· == slash) (b::rest)
        have named : (b::rest).rdropWhile (· == slash) = k := same
        rw [named] at whole
        obtain ⟨c,others,shape⟩ := List.exists_cons_of_ne_nil key.1
        rw [shape] at whole ⊢
        rw [List.head?_cons,Option.some.injEq]
        exact (List.cons.inj whole).1.trans (eq_of_beq sep)
    rw [trimSlashes,kept]
    rfl
  · right
    rcases below with empty | rfl | ⟨rest,rfl⟩
    · exact absurd empty top
    · refine .inl ⟨top,same.symm.trans trimmed,?_⟩
      rw [nameBelow,if_neg top]
      simp [trimSlashes]
    · have name : nameBelow root (root ++ slash::rest) = trimSlashes rest := by
        rw [nameBelow,if_neg top,if_pos (by simp),List.drop_left,trimSlashes,trimSlashes,
          List.dropWhile_cons_of_pos (by simp)]
      have split : root ++ slash::rest = (root ++ [slash]) ++ rest := by simp
      rw [split,trimEndAppend] at same
      rw [name]
      by_cases all : trimSlashEnd rest = []
      · rw [if_pos all,trimSlashEnd,List.rdropWhile_concat_pos (· == slash) root slash (by simp)] at same
        have blank := List.rdropWhile_eq_nil_iff.mp all
        refine .inl ⟨top,same.symm.trans trimmed,?_⟩
        rw [trimSlashes,List.dropWhile_eq_nil_iff.mpr blank]
        rfl
      · rw [if_neg all] at same
        refine .inr ⟨top,trimSlashEnd rest,by rw [← same]; simp,all,fun first => ?_⟩
        rw [trimSlashes,List.dropWhile_eq_self_iff.mpr]
        · rfl
        · intro given sep
          apply first
          obtain ⟨more,whole⟩ := List.rdropWhile_prefix (· == slash) rest
          obtain ⟨c,others,shape⟩ := List.exists_cons_of_ne_nil all
          have named : rest.rdropWhile (· == slash) = c::others := shape
          rw [shape]
          rw [named] at whole
          subst whole
          exact eq_of_beq sep

end
section
variable (resolve : Bytes → Option Bytes) (parseForm : Bytes → List (Bytes × Bytes)) (lossy : Bytes → Bytes)
variable (parseUri : Bytes → Option (Bytes × Option Bytes))

def relativeTemplate : Bytes := placeholder fileRelativeKey

theorem relativeReplaced (replacement : Bytes) :
    strReplace relativeTemplate replacement relativeTemplate = replacement := by
  have here : find relativeTemplate relativeTemplate = some 0 := by decide +kernel
  have last : relativeTemplate.drop (0 + relativeTemplate.length) = [] := by simp
  have count : relativeTemplate.length = 28 + 1 := by decide +kernel
  rw [strReplace,if_neg (by decide +kernel)]
  nth_rewrite 1 [count]
  rw [replaceLoop,here]
  dsimp only
  rw [last,replaceLoop,show find relativeTemplate [] = none by decide +kernel]
  simp

theorem rewrittenPath (s : ScriptRequest) {relative} (value : resolve fileRelativeKey = some relative) :
    emitRewriteUri resolve parseForm lossy parseUri s relativeTemplate =
      some (s.setPath (caddyPathEscapePreservingSlashes (slashPathWithLeading relative))) := by
  have escaped : escapeCaddyRewritePathPlaceholders resolve s relativeTemplate =
      caddyPathEscapePreservingSlashes (slashPathWithLeading relative) := by
    have kept : strReplace (placeholder (ascii "http.request.uri.path")) s.path relativeTemplate =
        relativeTemplate := by
      have count : relativeTemplate.length = 28 + 1 := by decide +kernel
      have nowhere : find (placeholder (ascii "http.request.uri.path")) relativeTemplate = none := by
        decide +kernel
      rw [strReplace,if_neg (by decide +kernel),count,replaceLoop,nowhere]
    rw [escapeCaddyRewritePathPlaceholders,kept]
    rw [value]
    exact relativeReplaced _
  have quiet : ∀ b, escapedByte b = false →
      b ∉ caddyPathEscapePreservingSlashes (slashPathWithLeading relative) := by
    intro b other mem
    rw [escapedBytes b mem] at other
    cases other
  have split : splitCaddyRewriteUriTemplate relativeTemplate = (some relativeTemplate,none) := by decide +kernel
  rw [emitRewriteUri,if_pos (by decide +kernel),
    show readUtf8 relativeTemplate relativeTemplate.length = some relativeTemplate by decide +kernel]
  simp [applyCaddyUriTemplate,split,expandedPath,escaped,
    expandAbsent resolve (quiet openBrace (by decide)) (quiet closeBrace (by decide)),
    splitOnceNone (quiet 63 (by decide))]

end

def fileServerEntry (site : Site) (metadata : Metadata) (path : NormalizedPath) (config : CaddyFileServer) :
    Option TarEntry :=
  let config := expandCaddyFileServerConfig config metadata
  match normalizeCaddyFileRoot config.root (caddyFsNameForcesFilesystem config.fs) with
  | some (.tar root) => (joinFilePath root path.relative).bind site.getEntrySafe
  | _ => none

structure SharedRoot (resolve : Bytes → Option Bytes) (metadata : Metadata) (matcher : CaddyFileMatcher)
    (config : CaddyFileServer) (root : Bytes) : Prop where
  same : config.root = matcher.root
  given : matcher.root ≠ []
  literal : expandCaddyPlaceholders resolve matcher.root = matcher.root
  literalServed : expandMetadataPlaceholders matcher.root metadata = matcher.root
  plain : ∀ b ∈ matcher.root, special b = false
  matcherFs : expandCaddyDefaultedPlaceholder resolve matcher.fs (ascii "\x7bhttp.vars.fs\x7d") [] = []
  serverFs : (expandCaddyFileServerConfig config metadata).fs = []
  inTar : caddyFileMatcherRoot matcher.root false = .tar root

section
variable {resolve : Bytes → Option Bytes} {metadata : Metadata} {matcher : CaddyFileMatcher}
variable {config : CaddyFileServer} {root : Bytes}

theorem matcherRootTrimmed (shared : SharedRoot resolve metadata matcher config root) :
    trimSlashes root = root ∧ ∀ b ∈ root, special b = false := by
  have inTar := shared.inTar
  unfold caddyFileMatcherRoot at inTar
  rw [if_neg (by decide)] at inTar
  split at inTar
  · cases inTar
  · split at inTar
    · cases inTar
      exact ⟨rfl,by simp⟩
    · cases inTar
      refine ⟨trimSlashesTwice _,fun b mem => shared.plain b ?_⟩
      have inside := (List.dropWhile_suffix _).subset ((List.rdropWhile_prefix _ _).subset mem)
      exact ((strTrimSublist _).trans (trimAsciiSublist _)).subset inside

theorem endTrimmed {s} (same : trimSlashes s = s) : trimSlashEnd s = s := by
  have twice := List.rdropWhile_idempotent (· == slash) (s.dropWhile (· == slash))
  have whole : (s.dropWhile (· == slash)).rdropWhile (· == slash) = s := same
  rwa [whole] at twice

theorem sharedServed (shared : SharedRoot resolve metadata matcher config root) (site : Site) (n : NormalizedPath) :
    fileServerEntry site metadata n config =
      match normalizeCaddyFileRoot matcher.root false with
      | some (.tar served) => (joinFilePath served n.relative).bind site.getEntrySafe
      | _ => none := by
  have rootIs : (expandCaddyFileServerConfig config metadata).root = matcher.root := by
    have given := shared.given
    rw [← shared.same] at given
    show (if config.root = [] then _ else expandMetadataPlaceholders config.root metadata) = _
    rw [if_neg given,shared.same,shared.literalServed]
  rw [fileServerEntry]
  rw [rootIs,shared.serverFs]
  rfl

theorem trimmedBytes {s b} (mem : b ∈ s) (other : b ≠ slash) : b ∈ trimSlashes s := by
  have front : b ∈ s.dropWhile (· == slash) := by
    have whole := List.takeWhile_append_dropWhile (p := (· == slash)) (l := s)
    rw [← whole,List.mem_append] at mem
    exact mem.resolve_left fun cut => other (by simpa using List.mem_takeWhile_imp cut)
  exact (trimEndBytes front).resolve_right other

structure RootAsWritten (root : Bytes) : Prop where
  openAbsent : openBrace ∉ root
  closeAbsent : closeBrace ∉ root
  unescaped : ∀ part ∈ root.splitOn slash, hasEscape part = false

theorem rootAlike (shared : SharedRoot resolve metadata matcher config root) (plain : Plain root)
    (text : validUtf8 root = true) :
    normalizeCaddyFileRoot matcher.root false = some (.tar root) ↔ RootAsWritten root := by
  have inTar := shared.inTar
  unfold caddyFileMatcherRoot at inTar
  unfold normalizeCaddyFileRoot
  generalize strTrim matcher.root = given at inTar ⊢
  rw [if_neg (by decide)] at inTar ⊢
  split at inTar
  · cases inTar
  · rename_i relative
    split at inTar
    · rename_i bare
      cases inTar
      rw [if_pos (by simp_all)]
      exact iff_of_true rfl ⟨by simp,by simp,by simp [hasEscape]⟩
    · rename_i named
      cases inTar
      have braces : ∀ b, b ≠ slash → (b ∈ given ↔ b ∈ trimSlashes given) := fun b other =>
        ⟨fun mem => trimmedBytes mem other,fun mem =>
          (List.dropWhile_suffix _).subset ((List.rdropWhile_prefix _ _).subset mem)⟩
      simp only [Bool.or_eq_true,decide_eq_true_eq,not_or] at named
      have filled : trimSlashes given ≠ [] := by
        obtain ⟨b,rest,shape⟩ := List.exists_cons_of_ne_nil named.1
        have other : b ≠ slash := fun same => relative (by rw [shape,same]; rfl)
        exact List.ne_nil_of_mem ((braces b other).mp (by rw [shape]; exact List.mem_cons_self))
      by_cases variable_ : given = ascii "\x7bhttp.vars.root\x7d"
      · rw [if_pos (by simp [variable_])]
        refine iff_of_false (fun same => ?_) fun written => ?_
        · injection same with same
          injection same with same
          exact filled same.symm
        · exact written.openAbsent ((braces openBrace (by decide)).mp (by rw [variable_]; decide +kernel))
      · rw [if_neg (by simp [named,variable_])]
        by_cases brace : (given.contains 123 || given.contains 125) = true
        · rw [if_pos brace]
          refine iff_of_false (by simp) fun written => ?_
          simp only [Bool.or_eq_true,List.contains_iff_mem] at brace
          rcases brace with opens | closes
          · exact written.openAbsent ((braces openBrace (by decide)).mp opens)
          · exact written.closeAbsent ((braces closeBrace (by decide)).mp closes)
        · rw [if_neg brace,if_neg relative,if_neg filled,Option.map_eq_some_iff]
          simp only [Bool.or_eq_true,List.contains_iff_mem,not_or] at brace
          have exactly := readAsWritten filled plain text
          constructor
          · rintro ⟨n,normal,same⟩
            injection same with same
            exact ⟨fun mem => brace.1 ((braces openBrace (by decide)).mpr mem),
              fun mem => brace.2 ((braces closeBrace (by decide)).mpr mem),exactly.mp ⟨n,normal,same⟩⟩
          · intro written
            obtain ⟨n,normal,same⟩ := exactly.mpr written.unescaped
            exact ⟨n,normal,by rw [same]⟩

theorem plainBelow {g} (plain : Plain (root ++ slash::g)) (rooted : root ≠ []) (filled : g ≠ []) :
    Plain root ∧ Plain g ∧ joinFilePath root g = some (root ++ slash::g) := by
  have clean := plain.resolve_left (by simp)
  rw [List.splitOn_append_cons_self] at clean
  have above : Plain root := .inr fun part mem => clean part (List.mem_append_left _ mem)
  have below : Plain g := .inr fun part mem => clean part (List.mem_append_right _ mem)
  refine ⟨above,below,?_⟩
  have dots := plainNoDots plain
  rw [joinFilePath,if_neg rooted,if_neg filled,plainBack above,plainFront below]
  rw [List.append_assoc,List.singleton_append,dots]
  rfl

theorem joinAbove (plain : Plain root) (rooted : root ≠ []) : joinFilePath root [] = some root := by
  rw [joinFilePath,if_neg rooted,if_pos rfl]
  rw [plainNoDots plain]
  rfl

theorem plainHead {s} (plain : Plain s) : s.head? ≠ some slash := by
  have front : s.dropWhile (· == slash) = s := plainFront plain
  exact trimmedHead (by rw [trimSlashes,front]; exact plainBack plain)

/- The names below the root against the name of the entry: a root of the server and the name
lead to the entry exactly for the root of the matcher. -/
theorem joinedEntry {k path served} (key : IsKey k) (cut : trimSlashEnd path = k) (trimmed : trimSlashEnd root = root)
    (below : Below root path) (text : validUtf8 k = true) (plain : Plain k) (servedPlain : Plain served) :
    Plain (nameBelow root path) ∧ validUtf8 (nameBelow root path) = true ∧
    (joinFilePath served (nameBelow root path) = some k ↔ served = root) := by
  rcases entryName key cut trimmed below with ⟨top,name⟩ | ⟨rooted,whole,name⟩ | ⟨rooted,g,whole,given,name⟩
  · rw [name,top]
    refine ⟨plain,text,⟨fun joined => ?_,fun same => by rw [same]; exact joinAtRoot plain⟩⟩
    rcases joinedShape joined with ⟨empty,_⟩ | ⟨_,empty,_⟩ | ⟨_,_,longer⟩
    · exact empty
    · exact absurd empty key.1
    · have := congrArg List.length longer
      rw [plainFront plain] at this
      simp at this
      omega
  · rw [name]
    refine ⟨.inl rfl,rfl,⟨fun joined => ?_,fun same => by rw [same,whole]; exact joinAbove (whole ▸ plain) rooted⟩⟩
    rcases joinedShape joined with ⟨_,empty⟩ | ⟨_,_,is⟩ | ⟨_,empty,_⟩
    · exact absurd empty key.1
    · exact is.symm.trans whole
    · exact absurd rfl empty
  · rw [whole] at plain text
    obtain ⟨_,gPlain,itself⟩ := plainBelow plain rooted given
    rw [name (plainHead gPlain),whole]
    refine ⟨gPlain,(validUtf8Cut (by decide) text).2,⟨fun joined => ?_,fun same => by rw [same]; exact itself⟩⟩
    rcases joinedShape joined with ⟨_,short⟩ | ⟨_,empty,_⟩ | ⟨_,_,is⟩
    · have := congrArg List.length short
      rw [plainFront gPlain] at this
      simp at this
      omega
    · exact absurd empty given
    · rw [plainBack servedPlain,plainFront gPlain] at is
      exact (List.append_cancel_right is).symm

theorem rootAbove {k path} (key : IsKey k) (cut : trimSlashEnd path = k) (trimmed : trimSlashEnd root = root)
    (below : Below root path) (text : validUtf8 k = true) (plain : Plain k) : Plain root ∧ validUtf8 root = true := by
  rcases entryName key cut trimmed below with ⟨top,_⟩ | ⟨_,whole,_⟩ | ⟨rooted,g,whole,given,_⟩
  · rw [top]
    exact ⟨.inl rfl,rfl⟩
  · rw [← whole]
    exact ⟨plain,text⟩
  · rw [whole] at plain text
    exact ⟨(plainBelow plain rooted given).1,(validUtf8Cut (by decide) text).1⟩

theorem entryServed (shared : SharedRoot resolve metadata matcher config root) {site n entry}
    (found : fileServerEntry site metadata n config = some entry) (lossy : Bytes → Bytes)
    (serveFs : Bytes → Option Response) (request : Request) :
    prepareCaddyFileServerResponse lossy serveFs site metadata n config request =
      serveEntry lossy site entry false (expandCaddyFileServerConfig config metadata) metadata request := by
  unfold fileServerEntry at found
  dsimp only at found
  split at found
  · rename_i served rootIs
    obtain ⟨rel,joined,safe⟩ := Option.bind_eq_some_iff.mp found
    have fsIs : fsNameServed (expandCaddyFileServerConfig config metadata).fs = true := by
      rw [shared.serverFs]
      decide
    simp only [prepareCaddyFileServerResponse,fsIs,rootIs,bind,Option.bind_some,serveTar,joined,safe]
    rfl
  · cases found

variable {archive : List ArchiveItem} {site : Site}
variable (fs : FileSystem) (machine : Bytes → Option CaddyFileStat) (exposeFilesystem : Bool)
variable (parseForm : Bytes → List (Bytes × Bytes)) (lossy : Bytes → Bytes)
variable (parseUri : Bytes → Option (Bytes × Option Bytes))

theorem matchedBelow (shared : SharedRoot resolve metadata matcher config root) {s candidate stat}
    (matched : caddyFileMatch site fs machine resolve exposeFilesystem s matcher = .ok (some (candidate,stat))) :
    Below.Candidate root candidate ∧ caddyFileMatcherStat machine site candidate true = some stat := by
  have rootIs : expandCaddyDefaultedPlaceholder resolve matcher.root (ascii "\x7bhttp.vars.root\x7d") (ascii ".") =
      matcher.root := by
    rw [expandCaddyDefaultedPlaceholder,if_neg shared.given,shared.literal]
  have forced : caddyFileMatcherRoot matcher.root (caddyFsNameForcesFilesystem []) = .tar root := shared.inTar
  unfold caddyFileMatch at matched
  rw [shared.matcherFs,rootIs] at matched
  dsimp only at matched
  rw [forced] at matched
  obtain ⟨⟨pattern,mem⟩,there⟩ := firstExistFound matched
  obtain ⟨trimmed,plain⟩ := matcherRootTrimmed shared
  exact ⟨candidateBelow (endTrimmed trimmed) plain mem,there⟩

/- The file server looks up the entry the matcher chose if both read the root alike and the
name of the entry is in the form lookups have. -/
theorem tryFilesServed (loaded : Site.loadFromFile archive = some site)
    (text : ∀ e ∈ site.entries, validUtf8 e.path = true)
    (shared : SharedRoot resolve metadata matcher config root) (s : ScriptRequest)
    (candidate : CaddyFileCandidate) (stat : CaddyFileStat)
    (matched : caddyFileMatch site fs machine resolve exposeFilesystem s matcher = .ok (some (candidate,stat)))
    (file : stat.isDir = false) : ∃ entry, site.entry (trimSlashEnd candidate.fullpath) = some entry ∧
      (¬ Reserved entry.path → backslash ∉ entry.path →
        ∃ s', emitRewriteUri (setCaddyFileMatchPlaceholders resolve candidate stat.isDir) parseForm lossy parseUri s
            relativeTemplate = some s' ∧
          ((∃ n, normalizeRequestPath s'.path = some n ∧ fileServerEntry site metadata n config = some entry) ↔
            RootAsWritten root ∧ Plain entry.path) ∧
          ∀ n serveFs request, fileServerEntry site metadata n config = some entry →
            prepareCaddyFileServerResponse lossy serveFs site metadata n config request =
              serveEntry lossy site entry false (expandCaddyFileServerConfig config metadata) metadata request) := by
  obtain ⟨⟨inTar,relative,below⟩,there⟩ := matchedBelow fs machine exposeFilesystem shared matched
  obtain ⟨entry,chosen⟩ := fileStat inTar there file
  refine ⟨entry,chosen,fun outside plain => ?_⟩
  have trimmed := (matcherRootTrimmed shared).1
  have mem := List.mem_of_find?_eq_some chosen
  have key := (loadedPacked loaded).keys entry mem
  have cut := (entryPath chosen).symm
  have quiet : backslash ∉ candidate.fullpath := by
    intro inside
    rcases trimEndBytes inside with kept | sep
    · exact plain (cut ▸ kept)
    · exact absurd sep (by decide)
  have value : setCaddyFileMatchPlaceholders resolve candidate stat.isDir fileRelativeKey =
      some (displayPath candidate.relative) := by
    rw [setCaddyFileMatchPlaceholders,if_pos rfl]
  have named : slashPathWithLeading (displayPath candidate.relative) = slash::nameBelow root candidate.fullpath := by
    rw [relative,relativeName trimmed quiet]
  refine ⟨_,rewrittenPath _ parseForm lossy parseUri s value,?_,?_⟩
  · rw [named]
    have reached : ∀ served, Plain served → Plain entry.path → _ := fun served servedPlain entryPlain =>
      joinedEntry key cut (endTrimmed trimmed) below (text entry mem) entryPlain servedPlain
    have alike : Plain entry.path → _ := fun entryPlain =>
      have above := rootAbove key cut (endTrimmed trimmed) below (text entry mem) entryPlain
      rootAlike shared above.1 above.2
    constructor
    · rintro ⟨n,normal,found⟩
      rw [sharedServed shared] at found
      split at found
      · rename_i served rootIs
        obtain ⟨rel,joined,safe⟩ := Option.bind_eq_some_iff.mp found
        cases (entrySafe safe).1
        have servedPlain := rootPlain rootIs
        have entryPlain := joinBelow servedPlain (normalizedPlain normal) joined
        obtain ⟨namePlain,nameText,exactly⟩ := reached served servedPlain entryPlain
        obtain ⟨n',normal',same⟩ := escapedNormal namePlain nameText
        cases normal.symm.trans normal'
        rw [same] at joined
        rw [exactly.mp joined] at rootIs
        exact ⟨(alike entryPlain).mp rootIs,entryPlain⟩
      · cases found
    · rintro ⟨written,entryPlain⟩
      have rootIs := (alike entryPlain).mpr written
      obtain ⟨namePlain,nameText,exactly⟩ := reached root (rootPlain rootIs) entryPlain
      obtain ⟨n,normal,same⟩ := escapedNormal namePlain nameText
      refine ⟨n,normal,?_⟩
      rw [sharedServed shared,rootIs]
      dsimp only
      rw [same,exactly.mpr rfl,Option.bind_some,Site.getEntrySafe,if_neg outside,← cut]
      exact chosen
  · exact fun n serveFs request found => entryServed shared found lossy serveFs request

end

def tries (root file : Bytes) : CaddyFileMatcher := ⟨[],root,some [file]⟩
def servesAll (root : Bytes) : CaddyFileServer := { servingFrom root with hide := [] }

def noFiles : FileSystem := ⟨.dir [],[slash]⟩

def oneFile (path : Bytes) : Site := [regularFile path [] 0].foldl Site.insertItem Site.empty

def oddName : Bytes := ascii "www/50% \x7bx\x7d?#.txt"
def oddChoice : CaddyFileCandidate := ⟨oddName,ascii "/50% \x7bx\x7d?#.txt",[],false,.tar (ascii "www")⟩

theorem oddPlain : Plain oddName := by
  right
  intro part mem
  rcases List.mem_cons.mp mem with rfl | last
  · exact ⟨by decide,by decide,by decide,by decide⟩
  · rw [List.mem_singleton.mp last]
    exact ⟨by decide,by decide,by decide,by decide⟩

theorem oddShared : SharedRoot (fun _ => none) (fun _ => none) (tries (ascii "www") (ascii "/*.txt"))
    (servesAll (ascii "www")) (ascii "www") :=
  ⟨rfl,by decide,by decide +kernel,by decide +kernel,by decide +kernel,by decide +kernel,by decide +kernel,
    by decide +kernel⟩

theorem oddNameServed : ∃ entry s' n, Site.loadFromFile [regularFile oddName [] 0] = some (oneFile oddName) ∧
      caddyFileMatch (oneFile oddName) noFiles (fun _ => none) (fun _ => none) false (requestWith [])
        (tries (ascii "www") (ascii "/*.txt")) = .ok (some (oddChoice,⟨false,0,0⟩)) ∧ entry.path = oddName ∧
      emitRewriteUri (setCaddyFileMatchPlaceholders (fun _ => none) oddChoice false) (fun _ => []) id (fun _ => none)
        (requestWith []) relativeTemplate = some s' ∧ normalizeRequestPath s'.path = some n ∧
      fileServerEntry (oneFile oddName) (fun _ => none) n (servesAll (ascii "www")) = some entry := by
  have loaded : Site.loadFromFile [regularFile oddName [] 0] = some (oneFile oddName) := rfl
  have matched : caddyFileMatch (oneFile oddName) noFiles (fun _ => none) (fun _ => none) false (requestWith [])
      (tries (ascii "www") (ascii "/*.txt")) = .ok (some (oddChoice,⟨false,0,0⟩)) := by decide +kernel
  obtain ⟨entry,chosen,served⟩ := tryFilesServed noFiles (fun _ => none) false (fun _ => []) id (fun _ => none)
    loaded (by decide +kernel) oddShared (requestWith []) oddChoice ⟨false,0,0⟩ matched rfl
  have path : entry.path = oddName := (entryPath chosen).trans (by decide +kernel)
  obtain ⟨s',rewritten,looked,_⟩ := served (by rw [path]; decide +kernel) (by rw [path]; decide +kernel)
  obtain ⟨n,normal,found⟩ := looked.mpr ⟨⟨by decide,by decide,by decide +kernel⟩,path ▸ oddPlain⟩
  exact ⟨entry,s',n,loaded,matched,path,rewritten,normal,found⟩

def escapedName : Bytes := ascii "my%20site/a.txt"
def escapedChoice : CaddyFileCandidate := ⟨escapedName,ascii "/a.txt",[],false,.tar (ascii "my%20site")⟩

theorem escapedRootMissed :
    ∃ entry s' n, Site.loadFromFile [regularFile escapedName [] 0] = some (oneFile escapedName) ∧
      caddyFileMatch (oneFile escapedName) noFiles (fun _ => none) (fun _ => none) false (requestWith [])
        (tries (ascii "my%20site") (ascii "/a.txt")) = .ok (some (escapedChoice,⟨false,0,0⟩)) ∧
      (oneFile escapedName).entry (trimSlashEnd escapedChoice.fullpath) = some entry ∧ entry.path = escapedName ∧
      emitRewriteUri (setCaddyFileMatchPlaceholders (fun _ => none) escapedChoice false) (fun _ => []) id
        (fun _ => none) (requestWith []) relativeTemplate = some s' ∧
      normalizeRequestPath s'.path = some n ∧
      fileServerEntry (oneFile escapedName) (fun _ => none) n (servesAll (ascii "my%20site")) = none := by
  have value : setCaddyFileMatchPlaceholders (fun _ => none) escapedChoice false fileRelativeKey =
      some (ascii "/a.txt") := by decide +kernel
  have escaped : caddyPathEscapePreservingSlashes (slashPathWithLeading (ascii "/a.txt")) = ascii "/a.txt" := by
    decide +kernel
  have rewritten := rewrittenPath _ (fun _ => []) id (fun _ => none) (requestWith []) value
  rw [escaped] at rewritten
  refine ⟨_,_,⟨ascii "a.txt",ascii "a.txt",false⟩,rfl,?_,rfl,?_,rewritten,?_,?_⟩
  all_goals decide +kernel

end ZeroServe.TryFiles
