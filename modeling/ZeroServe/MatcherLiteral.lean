import ZeroServe.GlobQuote
import ZeroServe.MatcherWalk

/-! When a file matcher takes the values of a request literally under a root of the machine. Under such a root the
backslashes of the escapes become separators. -/
namespace ZeroServe.FileMatcher
open ByteText RequestPath SiteFiles

/- An absolute root: no glob characters, backslashes, braces or dot segments. -/
structure RootOk (root : Bytes) : Prop where
  absolute : root.head? = some slash
  plain : ∀ b ∈ root, special b = false ∧ b ≠ 123 ∧ b ≠ 125
  noDots : ∀ part ∈ root.splitOn slash, part ≠ ascii "." ∧ part ≠ ascii ".."

structure PatternOk (pattern : Pattern) (resolve : Bytes → Option Bytes) : Prop where
  pieces : ∀ segment ∈ pattern, ∀ piece ∈ segment, piece.Ok
  text : ∀ segment ∈ pattern, ∀ t, Piece.text t ∈ segment → slash ∉ t
  values : ∀ segment ∈ pattern, ∀ key, Piece.placeholder key ∈ segment →
    ∃ v, resolve key = some v ∧ v ≠ [] ∧ slash ∉ v
  noDots : ∀ segment ∈ pattern, segment.flatMap (Piece.filled resolve) ≠ ascii "." ∧
    segment.flatMap (Piece.filled resolve) ≠ ascii ".."

def PlainValues (pattern : Pattern) (resolve : Bytes → Option Bytes) : Prop :=
  ∀ segment ∈ pattern, ∀ key, Piece.placeholder key ∈ segment → ∀ v, resolve key = some v →
    ∀ b ∈ v, special b = false

def Pattern.quoted (pattern : Pattern) (resolve : Bytes → Option Bytes) : List Bytes :=
  (pattern.map (·.flatMap (Piece.quoted resolve))).filter (· ≠ [])

structure TakenLiterally (fs : FileSystem) (resolve : Bytes → Option Bytes) (root : Bytes) (pattern : Pattern)
    (c : CaddyFileCandidate) : Prop where
  absolute : c.fullpath.head? = some slash
  below : cleanParts (root.splitOn slash) <+: cleanParts (c.fullpath.splitOn slash)
  literal : fs.exists_ c.fullpath = true →
    List.Forall₂ (fun segment name => globMatch segment name = true) (pattern.quoted resolve)
      ((cleanParts (c.fullpath.splitOn slash)).drop (cleanParts (root.splitOn slash)).length)

variable {resolve : Bytes → Option Bytes} {root : Bytes} {pattern : Pattern}

theorem quotedPiece (plain : PlainValues pattern resolve) {segment} (inside : segment ∈ pattern) {piece}
    (mem : piece ∈ segment) : piece.quoted resolve = piece.filled resolve := by
  cases piece with
  | text t => rfl
  | placeholder key =>
    rw [Piece.quoted,Piece.filled]
    cases value : resolve key with
    | none => rfl
    | some v => exact escapePlain (plain segment inside key mem v value)

theorem quotedSegment (plain : PlainValues pattern resolve) {segment} (inside : segment ∈ pattern) :
    segment.flatMap (Piece.quoted resolve) = segment.flatMap (Piece.filled resolve) :=
  List.flatMap_congr fun _ mem => quotedPiece plain inside mem

theorem filledBytes {segment : List Piece} {b : UInt8} (mem : b ∈ segment.flatMap (Piece.filled resolve)) :
    (∃ t, Piece.text t ∈ segment ∧ b ∈ t) ∨
    ∃ key v, Piece.placeholder key ∈ segment ∧ resolve key = some v ∧ b ∈ v := by
  obtain ⟨piece,inside,bytes⟩ := List.mem_flatMap.mp mem
  cases piece with
  | text t => exact .inl ⟨t,inside,bytes⟩
  | placeholder key =>
    cases value : resolve key with
    | none => simp [Piece.filled,value] at bytes
    | some v => exact .inr ⟨key,v,inside,value,by simpa [Piece.filled,value] using bytes⟩

theorem quotedClean (ok : PatternOk pattern resolve) (plain : PlainValues pattern resolve) :
    ∀ name ∈ pattern.quoted resolve, Clean name := by
  intro name mem
  obtain ⟨made,nonempty⟩ := List.mem_filter.mp mem
  obtain ⟨segment,inside,rfl⟩ := List.mem_map.mp made
  rw [quotedSegment plain inside] at nonempty ⊢
  refine ⟨by simpa using nonempty,(ok.noDots segment inside).1,(ok.noDots segment inside).2,?_⟩
  intro sep
  rcases filledBytes sep with ⟨t,piece,bytes⟩ | ⟨key,v,piece,value,bytes⟩
  · exact ok.text segment inside t piece bytes
  · obtain ⟨w,same,_,noSlash⟩ := ok.values segment inside key piece
    rw [value] at same
    cases same
    exact noSlash bytes

theorem quotedBytes (ok : PatternOk pattern resolve) (plain : PlainValues pattern resolve) {name : Bytes}
    (mem : name ∈ pattern.quoted resolve) {b : UInt8} (byte : b ∈ name) :
    special b = false ∨ (b ≠ backslash ∧ ∃ segment ∈ pattern, ∃ t, Piece.text t ∈ segment ∧ b ∈ t) := by
  obtain ⟨made,_⟩ := List.mem_filter.mp mem
  obtain ⟨segment,inside,rfl⟩ := List.mem_map.mp made
  rw [quotedSegment plain inside] at byte
  rcases filledBytes byte with ⟨t,piece,bytes⟩ | ⟨key,v,piece,value,bytes⟩
  · exact .inr ⟨(ok.pieces segment inside _ piece b bytes).2.2,segment,inside,t,piece,bytes⟩
  · exact .inl (plain segment inside key piece v value b bytes)

theorem expandedShaped (ok : PatternOk pattern resolve) (plain : PlainValues pattern resolve) :
    Shaped (pattern.quoted resolve) (expandCaddyFileMatcherPlaceholders resolve pattern.render) := by
  have flat : pattern.render = (flatPieces pattern).flatMap Piece.render := (flatMapJoin pattern Piece.render rfl).symm
  have expanded : expandCaddyFileMatcherPlaceholders resolve pattern.render =
      join (pattern.map (·.flatMap (Piece.quoted resolve))) := by
    rw [← flatMapJoin pattern (Piece.quoted resolve) rfl,flat]
    exact expandPieces (flatPiecesOk ok.pieces) (show ∀ b ∈ ([] : Bytes), b ≠ 123 by simp) (Nat.le_refl _)
  have segments : ∀ part ∈ pattern.map (·.flatMap (Piece.quoted resolve)),
      slash ∉ part ∧ part ≠ ascii "." ∧ part ≠ ascii ".." := by
    intro part mem
    obtain ⟨segment,inside,rfl⟩ := List.mem_map.mp mem
    by_cases empty : segment.flatMap (Piece.quoted resolve) = []
    · rw [empty]
      decide
    · have clean := quotedClean ok plain _ (List.mem_filter.mpr ⟨mem,by simpa using empty⟩)
      exact ⟨clean.plain,clean.notDot,clean.notDots⟩
  rw [expanded]
  by_cases absent : pattern.map (·.flatMap (Piece.quoted resolve)) = []
  · rw [Pattern.quoted,absent]
    exact ⟨by decide,by decide⟩
  · have split := splitJoin (fun part mem => (segments part mem).1) absent
    refine ⟨?_,?_⟩
    · rw [components,split]
      apply List.filter_congr
      intro part mem
      have dot := bne_iff_ne.mpr (segments part mem).2.1
      rw [dot]
      by_cases empty : part = [] <;> simp [empty]
    · rw [split]
      exact fun mem => (segments _ mem).2.2 rfl

theorem beforeShaped (ok : PatternOk pattern resolve) (plain : PlainValues pattern resolve) :
    Shaped (pattern.quoted resolve) (beforeSplit resolve pattern.render) := by
  have cleaned := cleanComponents (expandedShaped ok plain)
  have shaped := shapedNoTrailing (quotedClean ok plain) cleaned
  unfold beforeSplit
  dsimp only
  split
  · exact shapedEnd.mpr shaped
  · exact shaped

theorem rootShaped (rootOk : RootOk root) : Shaped (components root) root :=
  ⟨rfl,fun mem => (rootOk.noDots _ mem).2 rfl⟩

theorem rootReached (rootOk : RootOk root) : Reached root [] root where
  shaped := by
    rw [List.append_nil]
    exact rootShaped rootOk
  absolute := rootOk.absolute
  plain mem := absurd (rootOk.plain _ mem).1 (by decide)
  clean := by simp
  quiet := by simp

theorem joinHead {names} (clean : ∀ name ∈ names, Clean name) : (join names).head? ≠ some slash := by
  intro first
  obtain ⟨tail,starts⟩ := List.head?_eq_some_iff.mp first
  have filled : names ≠ [] := by
    rintro rfl
    cases starts
  have split := splitJoin (fun name mem => (clean name mem).plain) filled
  rw [starts,splitSlash] at split
  exact (clean [] (by rw [← split]; simp)).nonempty rfl

theorem joinQuiet {names} (clean : ∀ name ∈ names, Clean name) (quiet : ∀ name ∈ names, backslash ∉ name) :
    backslash ∉ join names := by
  intro mem
  rcases shapedBytes (shapedJoin clean) mem with sep | dot | ⟨name,inside,byte⟩
  · exact absurd sep (by decide)
  · exact absurd dot (by decide)
  · exact quiet name inside byte

theorem stripReached {names path} (absolute : root.head? = some slash) (reached : Reached root names path) :
    (stripPath root path).map slashPathWithLeading = some (slash::join names) := by
  have below : (components root).isPrefixOf (components path) = true := by
    rw [reached.shaped.parts]
    exact List.isPrefixOf_iff_prefix.mpr (List.prefix_append _ _)
  have rest : (components path).drop (components root).length = names := by
    rw [reached.shaped.parts,List.drop_left]
  rw [stripPath,absolute,reached.absolute,below,rest]
  simp only [BEq.rfl,Bool.and_true,if_true,Option.map_some,slashPathWithLeading,
    displayPlain (joinQuiet reached.clean reached.quiet),if_neg (joinHead reached.clean)]

theorem relativeReached {names path} (absolute : root.head? = some slash) (reached : Reached root names path) :
    caddyFsRelative root path = slash::join names := by
  obtain ⟨rest,stripped,same⟩ := Option.map_eq_some_iff.mp (stripReached absolute reached)
  rw [caddyFsRelative,stripped]
  exact same

theorem matchedSegments {segments names} (clean : ∀ segment ∈ segments, Clean segment)
    (named : ∀ name ∈ names, Clean name) (filled : names ≠ [])
    (matched : pathGlobMatch (slash::join segments) (slash::join names) = true) :
    List.Forall₂ (fun segment name => globMatch segment name = true) segments names := by
  simp only [pathGlobMatch,caddyHttpPathGlobMatch,splitSlash,Bool.and_eq_true,beq_iff_eq,List.length_cons,
    List.zip_cons_cons,List.all_cons,Nat.add_right_cancel_iff,
    splitJoin (fun name mem => (named name mem).plain) filled] at matched
  obtain ⟨same,_,all⟩ := matched
  by_cases empty : segments = []
  · -- An empty pattern has one blank segment, which no name matches.
    rw [empty] at same all
    obtain ⟨name,later,shape⟩ := List.exists_cons_of_ne_nil filled
    have blank : (join []).splitOn slash = [[]] := by decide
    rw [blank,shape] at all
    have missed : globMatch [] name = false := by
      obtain ⟨b,rest,is⟩ := List.exists_cons_of_ne_nil (named name (by rw [shape]; simp)).nonempty
      rw [is]
      rfl
    simp [missed] at all
  · rw [splitJoin (fun segment mem => (clean segment mem).plain) empty] at same all
    rw [List.forall₂_iff_zip]
    refine ⟨same,fun {segment name} mem => ?_⟩
    exact List.all_eq_true.mp all (segment,name) mem

theorem reachedLiterally {fs names c} (rootOk : RootOk root) (absolute : c.fullpath.head? = some slash)
    (shaped : Shaped (components root ++ names) c.fullpath)
    (matched : List.Forall₂ (fun segment name => globMatch segment name = true) (pattern.quoted resolve) names) :
    TakenLiterally fs resolve root pattern c where
  absolute := absolute
  below := by
    rw [cleanComponents (rootShaped rootOk),cleanComponents shaped]
    exact List.prefix_append _ _
  literal _ := by
    rw [cleanComponents (rootShaped rootOk),cleanComponents shaped,List.drop_left]
    exact matched

theorem trimHead (s : Bytes) : (trimSlashStart s).head? ≠ some slash := by
  intro first
  have stops := List.head?_dropWhile_not (· == slash) s
  rw [trimSlashStart] at first
  rw [first] at stops
  simp at stops

theorem quotedQuiet (ok : PatternOk pattern resolve) (plain : PlainValues pattern resolve) :
    ∀ name ∈ pattern.quoted resolve, backslash ∉ name := by
  intro name mem byte
  rcases quotedBytes ok plain mem byte with free | ⟨other,_⟩
  · exact absurd free (by decide)
  · exact other rfl

theorem joinedPath (rootOk : RootOk root) (ok : PatternOk pattern resolve) (plain : PlainValues pattern resolve) :
    ∃ path, caddyFsMatchJoin root (beforeSplit resolve pattern.render) = some path ∧
      Reached root (pattern.quoted resolve) path ∧
      ∀ b ∈ path, b ∈ root ∨ b = slash ∨ b = 46 ∨ ∃ name ∈ pattern.quoted resolve, b ∈ name := by
  have shaped := shapedTrim (beforeShaped ok plain)
  generalize relative : trimSlashStart (beforeSplit resolve pattern.render) = rel at shaped
  have head := relative ▸ trimHead _
  have free : (rel.splitOn slash).any (· == ascii "..") = false := by
    rw [List.any_eq_false]
    intro part mem same
    exact shaped.dotless (eq_of_beq same ▸ mem)
  have bytes : ∀ b ∈ pathJoin root rel, b ∈ root ∨ b = slash ∨ b = 46 ∨ ∃ name ∈ pattern.quoted resolve, b ∈ name := by
    intro b mem
    rcases memPathJoin mem with front | sep | back
    · exact .inl front
    · exact .inr (.inl sep)
    · exact .inr (shapedBytes shaped back)
  refine ⟨pathJoin root rel,?_,⟨shapedPath (rootShaped rootOk) shaped head,headJoin rootOk.absolute,?_,
    quotedClean ok plain,quotedQuiet ok plain⟩,bytes⟩
  · simp only [caddyFsMatchJoin,relative,free]
    rfl
  · intro mem
    rcases bytes _ mem with front | sep | dot | ⟨name,inside,byte⟩
    · exact absurd (rootOk.plain _ front).1 (by decide)
    · exact absurd sep (by decide)
    · exact absurd dot (by decide)
    · exact quotedQuiet ok plain name inside byte

theorem quotedUnspecial (ok : PatternOk pattern resolve) (plain : PlainValues pattern resolve)
    (static : caddyGlobPatternOutsidePlaceholders pattern.render = false) :
    ∀ name ∈ pattern.quoted resolve, ∀ b ∈ name, special b = false := by
  intro name mem b byte
  rcases quotedBytes ok plain mem byte with free | ⟨other,segment,inside,t,piece,bytes⟩
  · exact free
  · have flat : pattern.render = (flatPieces pattern).flatMap Piece.render :=
      (flatMapJoin pattern Piece.render rfl).symm
    rw [flat] at static
    have text := globFreeTexts (flatPiecesOk ok.pieces) static (memFlatPieces ⟨segment,inside,piece⟩)
    simp [special,text b bytes,other]

theorem valuesTakenLiterally (site : Site) (fs : FileSystem) (rootOk : RootOk root) (ok : PatternOk pattern resolve)
    (named : fs.top.Named) (plain : PlainValues pattern resolve) :
    ∀ c ∈ caddyFileMatcherCandidates site fs resolve (.fs root) pattern.render,
      TakenLiterally fs resolve root pattern c := by
  obtain ⟨path,joined,reached,bytes⟩ := joinedPath rootOk ok plain
  have rootPlain : caddyGlobPatternOutsidePlaceholders (displayPath root) = false := by
    rw [displayPlain (rootReached rootOk).plain]
    exact globLoopPlain (fun b mem => (rootOk.plain b mem).1) false
  intro c mem
  simp only [caddyFileMatcherCandidates,fsCandidates,joined,rootPlain,displayPlain reached.plain,Bool.not_false,
    Bool.and_true] at mem
  cases static : caddyGlobPatternOutsidePlaceholders pattern.render with
  | true =>
    -- The walk below the root compares whole paths with the pattern.
    simp only [static,Bool.true_or,if_true,sortCandidates,caddyFsGlobPattern,stripReached rootOk.absolute reached,
      List.mem_insertionSort] at mem
    obtain ⟨found,inside,rfl⟩ := List.mem_map.mp mem
    obtain ⟨names,place,given,matched⟩ := entriesReached (rootReached rootOk) _ (readDirNamed named root) inside
    rw [relativeReached rootOk.absolute place] at matched
    have full := displayPlain place.plain
    refine reachedLiterally rootOk ?_ ?_ (matchedSegments reached.clean place.clean given matched)
    · rw [full]
      exact place.absolute
    · rw [full]
      exact place.shaped
  | false =>
    -- The one candidate is the joined path; its names match themselves.
    have unspecial := quotedUnspecial ok plain static
    have pathPlain : ∀ b ∈ path, special b = false := by
      intro b mem
      rcases bytes b mem with front | rfl | rfl | ⟨name,inside,byte⟩
      · exact (rootOk.plain b front).1
      · decide
      · decide
      · exact unspecial name inside b byte
    have unglobbed : caddyGlobPatternOutsidePlaceholders path = false := globLoopPlain pathPlain false
    simp only [static,Bool.false_or,unglobbed,Bool.false_eq_true,if_false,unescapePlain pathPlain,
      List.mem_singleton] at mem
    subst mem
    refine reachedLiterally rootOk reached.absolute reached.shaped ?_
    rw [List.forall₂_same]
    exact fun name inside => matchesSelf (unspecial name inside)

def oneValue : Pattern := [[],[.placeholder (ascii "x")]]

def wwwRoot : Bytes := ascii "/srv/www"

theorem wwwRootOk : RootOk wwwRoot := ⟨rfl,by decide +kernel,by decide +kernel⟩

theorem oneValueOk {value} (nonempty : value ≠ []) (noSlash : slash ∉ value)
    (noDots : value ≠ ascii "." ∧ value ≠ ascii "..") : PatternOk oneValue fun _ => some value where
  pieces := by
    simp only [oneValue,List.forall_mem_cons,List.not_mem_nil,false_implies,implies_true,and_true,true_and,Piece.Ok]
    decide +kernel
  text := by simp [oneValue]
  values := by
    intro segment _ key _
    exact ⟨value,rfl,nonempty,noSlash⟩
  noDots := by
    simp only [oneValue,List.forall_mem_cons,List.flatMap_nil,List.flatMap_cons,Piece.filled,Option.getD_some,
      List.append_nil,List.not_mem_nil,false_implies,implies_true,and_true]
    exact ⟨by decide,noDots⟩

def wwwFiles : FileSystem where
  top := .dir [(ascii "srv",.dir [(ascii "www",.dir [(ascii "b.txt",.file)])])]
  cwd := [slash]

theorem plainValueTaken : (caddyFileMatcherCandidates Site.empty wwwFiles (fun _ => some (ascii "b.txt")) (.fs wwwRoot)
      oneValue.render).map CaddyFileCandidate.fullpath = [ascii "/srv/www/b.txt"] ∧
    ∀ c ∈ caddyFileMatcherCandidates Site.empty wwwFiles (fun _ => some (ascii "b.txt")) (.fs wwwRoot) oneValue.render,
      TakenLiterally wwwFiles (fun _ => some (ascii "b.txt")) wwwRoot oneValue c := by
  have named : wwwFiles.top.Named := by
    simp only [wwwFiles,Node.Named,EntriesNamed,and_true]
    exact ⟨⟨⟨by decide,by decide,by decide,by decide⟩,by decide⟩,⟨⟨by decide,by decide,by decide,by decide⟩,by decide⟩,
      ⟨by decide,by decide,by decide,by decide⟩,by decide⟩
  refine ⟨by decide +kernel,?_⟩
  refine valuesTakenLiterally Site.empty wwwFiles wwwRootOk (oneValueOk (by decide) (by decide) (by decide)) named ?_
  intro segment _ key _ v value
  cases value
  decide +kernel

/- A value of one segment with backslashes in it: its escapes become slashes after the test
for steps upwards, and the candidate lies outside the root. -/
theorem escapedValueClimbs : RootOk wwwRoot ∧ (PatternOk oneValue fun _ => some (ascii "a\\..\\..\\etc")) ∧
    caddyFileMatcherCandidates Site.empty wwwFiles (fun _ => some (ascii "a\\..\\..\\etc")) (.fs wwwRoot)
        oneValue.render = [⟨ascii "/srv/www/a//..//..//etc",ascii "/a//..//..//etc",[],false,.fs wwwRoot⟩] ∧
    cleanParts ((ascii "/srv/www/a//..//..//etc").splitOn slash) = [ascii "srv",ascii "etc"] ∧
    ¬ cleanParts (wwwRoot.splitOn slash) <+: [ascii "srv",ascii "etc"] := by
  refine ⟨wwwRootOk,oneValueOk (by decide) (by decide) (by decide),?_,?_,?_⟩
  · decide +kernel
  · decide +kernel
  · decide +kernel

end ZeroServe.FileMatcher
