import ZeroServe.DecimalText
import ZeroServe.H1Head
import ZeroServe.StableSort
import Mathlib.Algebra.Order.Field.Rat
import Mathlib.Tactic.Linarith

/-! Accept-Encoding: the entries the two readers take from the field and the comparison they sort them by. The
q-values are the exact rationals they are written as; the sort is a parameter that keeps its contract. -/
namespace ZeroServe.Encode
open ByteText DecimalText H1 StableSort

def isDigit (b : UInt8) : Bool := decide (decimalDigit b)

def digitsValue (s : Bytes) : ℚ := (s.foldl placeDigit 0 : Nat)

def readMantissa (s : Bytes) : Option (ℚ × Bytes) :=
  let whole := s.takeWhile isDigit
  match s.dropWhile isDigit with
  | 46::rest =>
    let fraction := rest.takeWhile isDigit
    if whole = [] ∧ fraction = [] then none
    else some (digitsValue (whole ++ fraction) / 10 ^ fraction.length,rest.dropWhile isDigit)
  | rest => if whole = [] then none else some (digitsValue whole,rest)

def readSign : Bytes → Bool × Bytes
  | 43::rest => (false,rest)
  | 45::rest => (true,rest)
  | s => (false,s)

def readExponent : Bytes → Option ℚ
  | [] => some 1
  | e::rest =>
    if e = 101 ∨ e = 69 then
      let (negative,digits) := readSign rest
      (decimalValue digits).map fun n => if negative then 1 / 10 ^ n else 10 ^ n
    else none

/- `str::parse` at a float type; infinities and NaN, in no range, are as good as no number. -/
def parseFloat (s : Bytes) : Option ℚ := do
  let (negative,s) := readSign s
  let (mantissa,rest) ← readMantissa s
  let scale ← readExponent rest
  some (if negative then - (mantissa * scale) else mantissa * scale)

def tieWidth : ℚ := 1 / 100000

theorem tieWidthPos : 0 < tieWidth := by norm_num [tieWidth]

def qLabel : Bytes := ascii "q="

def qFactor (parameter : Option Bytes) : ℚ :=
  match parameter with
  | none => 1
  | some text =>
    let text := lower (strTrim text)
    if qLabel.isPrefixOf text then
      match parseFloat (text.drop 2) with
      | some parsed => if 0 ≤ parsed ∧ parsed ≤ 1 then parsed else 1
      | none => 1
    else 1

structure EncodingPreference (ι : Type) where
  encoding : Bytes
  q : ℚ
  preferOrder : ι
  deriving DecidableEq

def byPreference {ι : Type} [LinearOrder ι] (a b : EncodingPreference ι) : Ordering :=
  if |a.q - b.q| < tieWidth then compare b.preferOrder a.preferOrder else compare b.q a.q

section
variable (secWebsocketKey : Bytes) (prefer : List Bytes)

def serverOrder (name : Bytes) : Int :=
  match prefer.findIdx? (· = name) with
  | some i => prefer.length - i
  | none => -1

def readPreference (accepted : Bytes) : Option (EncodingPreference Int) :=
  let parts := accepted.splitOn 59
  let name := lower (strTrim (parts.headD []))
  if name = [] then none else
  let q := qFactor parts.tail.head?
  if q < tieWidth then none
  else if secWebsocketKey ≠ [] ∧ name ≠ ascii "identity" then none
  else some ⟨name,q,serverOrder prefer name⟩

def encodingPreferences (acceptEncoding : Bytes) : List (EncodingPreference Int) :=
  if acceptEncoding = [] then []
  else (acceptEncoding.splitOn 44).filterMap (readPreference secWebsocketKey prefer)

end

def acceptedEncodings (sort : (α : Type) → (α → α → Ordering) → List α → List α)
    (acceptEncoding secWebsocketKey : Bytes) (prefer : List Bytes) : List Bytes :=
  (sort _ byPreference (encodingPreferences secWebsocketKey prefer acceptEncoding)).map (·.encoding)

section
variable (precompressedOrder : List Bytes)

def sidecarOrder (name : Bytes) : Nat :=
  let order := precompressedOrder.map lower
  match order.findIdx? (· = name) with
  | some i => order.length - i
  | none => 0

def readSidecarPreference (raw : Bytes) : Option (EncodingPreference Nat) :=
  let parts := raw.splitOn 59
  let name := lower (strTrim (parts.headD []))
  let q := qFactor parts.tail.head?
  if q < tieWidth then none else some ⟨name,q,sidecarOrder precompressedOrder name⟩

def acceptEncodingName : HeaderName := .ofAscii "accept-encoding"
def secWebsocketKeyName : HeaderName := .ofAscii "sec-websocket-key"

def sidecarPreferences (headers : HeaderMap) : List (EncodingPreference Nat) :=
  if (headers.get secWebsocketKeyName).any (·.bytes ≠ []) then [] else
  match (headers.get acceptEncodingName).bind HeaderValue.toStr with
  | none => []
  | some value => (value.splitOn 44).filterMap (readSidecarPreference precompressedOrder)

end

def acceptedCaddyPrecompressedEncodings (sort : (α : Type) → (α → α → Ordering) → List α → List α)
    (head : RequestHead) (precompressedOrder : List Bytes) : List Bytes :=
  (sort _ byPreference (sidecarPreferences precompressedOrder head.headers)).map (·.encoding)

section
variable {ι : Type} [LinearOrder ι] {l : List (EncodingPreference ι)} {a b c : EncodingPreference ι}

def Ranked (a b : EncodingPreference ι) : Prop :=
  b.q < a.q ∨ (a.q = b.q ∧ b.preferOrder ≤ a.preferOrder)

def Close (a b : EncodingPreference ι) : Prop := |a.q - b.q| < tieWidth

/- Entries whose q-values differ by less than the tolerance: the higher one has to be preferred, or not to be listed
behind an equally preferred one; and no chain of equally preferred ones reaches over the tolerance. -/
structure Spaced (l : List (EncodingPreference ι)) : Prop where
  pairs : ∀ a ∈ l, ∀ b ∈ l, Close a b → b.q < a.q →
    b.preferOrder < a.preferOrder ∨ (a.preferOrder = b.preferOrder ∧ ¬ [b,a].Sublist l)
  chains : ∀ a ∈ l, ∀ b ∈ l, ∀ c ∈ l, a.preferOrder = b.preferOrder → b.preferOrder = c.preferOrder →
    Close a b → Close b c → Close a c

theorem notAfterIff (a b : EncodingPreference ι) : byPreference a b ≠ .gt ↔
    (Close a b ∧ b.preferOrder ≤ a.preferOrder) ∨ (¬ Close a b ∧ b.q ≤ a.q) := by
  unfold byPreference Close
  split
  · rename_i near
    rw [compare_le_iff_le]
    simp [near]
  · rename_i far
    rw [compare_le_iff_le]
    simp [far]

omit [LinearOrder ι] in
theorem closeSymm (near : Close a b) : Close b a := by
  unfold Close at near ⊢
  rw [abs_sub_comm]
  exact near

theorem byPreferenceSwap (a b : EncodingPreference ι) : byPreference a b = (byPreference b a).swap := by
  unfold byPreference
  rw [abs_sub_comm b.q a.q]
  split
  · exact Std.OrientedCmp.eq_swap
  · exact Std.OrientedCmp.eq_swap

theorem Spaced.notAfter (spaced : Spaced l) (first : a ∈ l) (second : b ∈ l) :
    byPreference a b ≠ .gt ↔ Ranked a b ∨ (Close a b ∧ a.q < b.q ∧ a.preferOrder = b.preferOrder) := by
  rw [notAfterIff]
  constructor
  · rintro (⟨near,preferred⟩ | ⟨far,le⟩)
    · rcases lt_trichotomy b.q a.q with more | same | less
      · exact .inl (.inl more)
      · exact .inl (.inr ⟨same.symm,preferred⟩)
      · rcases spaced.pairs b second a first (closeSymm near) less with strict | ⟨equal,_⟩
        · exact absurd preferred (not_le_of_gt strict)
        · exact .inr ⟨near,less,equal.symm⟩
    · refine .inl (.inl (lt_of_le_of_ne le fun same => far ?_))
      simp [Close,same,tieWidth]
  · rintro ((more | ⟨same,preferred⟩) | ⟨near,_,equal⟩)
    · by_cases near : Close a b
      · rcases spaced.pairs a first b second near more with strict | ⟨equal,_⟩
        · exact .inl ⟨near,strict.le⟩
        · exact .inl ⟨near,equal.ge⟩
      · exact .inr ⟨near,more.le⟩
    · exact .inl ⟨by simp [Close,same,tieWidth],preferred⟩
    · exact .inl ⟨near,equal.ge⟩

omit [LinearOrder ι] in
theorem closeBetween (near : Close a c) (low : a.q ≤ b.q) (high : b.q ≤ c.q) :
    Close a b ∧ Close b c := by
  simp only [Close,abs_lt] at near ⊢
  exact ⟨⟨by linarith,by linarith [tieWidthPos]⟩,⟨by linarith,by linarith [tieWidthPos]⟩⟩

theorem Spaced.preferred (spaced : Spaced l) {a b} (first : a ∈ l) (second : b ∈ l) (near : Close a b)
    (ranked : Ranked a b) : b.preferOrder ≤ a.preferOrder := by
  rcases ranked with more | ⟨_,preferred⟩
  · rcases spaced.pairs a first b second near more with strict | ⟨equal,_⟩
    · exact strict.le
    · exact equal.ge
  · exact preferred

theorem rankedTrans (first : Ranked a b) (second : Ranked b c) : Ranked a c := by
  rcases first with more | ⟨same,preferred⟩
  · rcases second with more' | ⟨same',_⟩
    · exact .inl (more'.trans more)
    · exact .inl (same' ▸ more)
  · rcases second with more' | ⟨same',preferred'⟩
    · exact .inl (same ▸ more')
    · exact .inr ⟨same.trans same',preferred'.trans preferred⟩

theorem Spaced.rankedTie (spaced : Spaced l) (left : a ∈ l) (middle : b ∈ l)
    (right : c ∈ l) (ranked : Ranked a b) (near : Close b c) (equal : b.preferOrder = c.preferOrder) :
    Ranked a c ∨ (Close a c ∧ a.q < c.q ∧ a.preferOrder = c.preferOrder) := by
  have above := ranked.elim le_of_lt fun same => same.1.ge
  rcases lt_or_ge c.q a.q with more | within
  · exact .inl (.inl more)
  · obtain ⟨near',near''⟩ := closeBetween near above within
    have preferred := spaced.preferred left middle (closeSymm near') ranked
    rcases within.lt_or_eq with below | same
    · refine .inr ⟨near'',below,le_antisymm ?_ (equal ▸ preferred)⟩
      exact spaced.preferred right left (closeSymm near'') (.inl below)
    · exact .inl (.inr ⟨same,equal ▸ preferred⟩)

theorem Spaced.tieRanked (spaced : Spaced l) (left : a ∈ l) (middle : b ∈ l)
    (right : c ∈ l) (near : Close a b) (equal : a.preferOrder = b.preferOrder)
    (ranked : Ranked b c) : Ranked a c ∨ (Close a c ∧ a.q < c.q ∧ a.preferOrder = c.preferOrder) := by
  have above := ranked.elim le_of_lt fun same => same.1.ge
  rcases lt_or_ge c.q a.q with more | within
  · exact .inl (.inl more)
  · obtain ⟨near',near''⟩ := closeBetween near within above
    have preferred := spaced.preferred middle right (closeSymm near'') ranked
    rcases within.lt_or_eq with below | same
    · refine .inr ⟨near',below,le_antisymm ?_ (equal ▸ preferred)⟩
      exact spaced.preferred right left (closeSymm near') (.inl below)
    · exact .inl (.inr ⟨same,equal ▸ preferred⟩)

theorem Spaced.preorder (spaced : Spaced l) : PreorderOn byPreference l := by
  refine ⟨fun a _ b _ => byPreferenceSwap a b,fun a left b middle c right first second => ?_⟩
  rw [spaced.notAfter left middle] at first
  rw [spaced.notAfter middle right] at second
  rw [spaced.notAfter left right]
  rcases first with ranked | ⟨near,less,equal⟩
  · rcases second with ranked' | ⟨near',_,equal'⟩
    · exact .inl (rankedTrans ranked ranked')
    · exact spaced.rankedTie left middle right ranked near' equal'
  · rcases second with ranked' | ⟨near',less',equal'⟩
    · exact spaced.tieRanked left middle right near equal ranked'
    · exact .inr ⟨spaced.chains a left b middle c right equal equal' near near',less.trans less',equal.trans equal'⟩

theorem equalOf (near : Close a b) (equal : a.preferOrder = b.preferOrder) :
    byPreference a b = .eq := by
  unfold Close at near
  rw [byPreference,if_pos near,equal]
  exact Std.ReflCmp.compare_self

theorem Spaced.ranks [DecidableEq ι] (spaced : Spaced l) {out : List (EncodingPreference ι)}
    (done : StablySorted byPreference l out) : out.Pairwise Ranked := by
  rw [List.pairwise_iff_forall_sublist]
  intro a b listed
  have left : a ∈ l := done.perm.subset (listed.subset (by simp))
  have right : b ∈ l := done.perm.subset (listed.subset (by simp))
  have sorted := List.pairwise_iff_forall_sublist.mp done.sorted listed
  rcases (spaced.notAfter left right).mp sorted with ranked | ⟨near,less,equal⟩
  · exact ranked
  · have before := done.pairKept spaced.preorder left right (equalOf near equal) listed
    rcases spaced.pairs b right a left (closeSymm near) less with strict | ⟨_,behind⟩
    · exact absurd equal strict.ne
    · exact absurd before behind

theorem spacedOf {out : List (EncodingPreference ι)} (order : PreorderOn byPreference l)
    (done : StablySorted byPreference l out) (ranked : out.Pairwise Ranked) : Spaced l := by
  have pairRanked {a b} (listed : [a,b].Sublist out) : Ranked a b :=
    List.pairwise_iff_forall_sublist.mp ranked listed
  constructor
  · intro a left b right near more
    have apart {a b : EncodingPreference ι} (more : b.q < a.q) (wrong : Ranked b a) : False :=
      wrong.elim (fun less => lt_asymm more less) fun same => more.ne same.1
    rcases lt_trichotomy b.preferOrder a.preferOrder with strict | equal | less
    · exact .inl strict
    · refine .inr ⟨equal.symm,fun listed => apart more (pairRanked ?_)⟩
      have tie : byPreference b a ≠ .gt := by rw [equalOf (closeSymm near) equal]; simp
      exact done.stable _ (List.pairwise_pair.mpr tie) listed
    · exfalso
      have other : a ≠ b := fun same => more.ne (by rw [same])
      rcases pairListed (done.perm.symm.subset left) (done.perm.symm.subset right) other with listed | listed
      · have sorted := List.pairwise_iff_forall_sublist.mp done.sorted listed
        rcases (notAfterIff a b).mp sorted with ⟨_,preferred⟩ | ⟨far,_⟩
        · exact absurd preferred (not_le_of_gt less)
        · exact far near
      · exact apart more (pairRanked listed)
  · intro a left b middle c right equal equal' near near'
    by_contra far
    have tie {x y : EncodingPreference ι} (near : Close x y) (equal : x.preferOrder = y.preferOrder) :
        byPreference x y ≠ .gt := by rw [equalOf near equal]; simp
    have down := order.trans a left b middle c right (tie near equal) (tie near' equal')
    have up := order.trans c right b middle a left (tie (closeSymm near') equal'.symm)
      (tie (closeSymm near) equal.symm)
    have low := ((notAfterIff a c).mp down).resolve_left fun close => far close.1
    have high := ((notAfterIff c a).mp up).resolve_left fun close => far (closeSymm close.1)
    have same := le_antisymm high.2 low.2
    exact far (by simp [Close,same,tieWidth])

end

def RankedRight {ι : Type} [LinearOrder ι] (sort : (α : Type) → (α → α → Ordering) → List α → List α)
    (l : List (EncodingPreference ι)) (names : List Bytes) : Prop :=
  PreorderOn byPreference l ∧ names = (sort _ byPreference l).map (·.encoding) ∧
    (sort _ byPreference l).Pairwise Ranked

section
variable {sort : (α : Type) → (α → α → Ordering) → List α → List α}

theorem rankedExact {ι : Type} [LinearOrder ι] (stable : ∀ α, SortBy (sort α)) (l : List (EncodingPreference ι)) :
    RankedRight sort l ((sort _ byPreference l).map (·.encoding)) ↔ Spaced l := by
  constructor
  · rintro ⟨order,_,ranked⟩
    exact spacedOf order (stable _ _ _ order) ranked
  · intro spaced
    exact ⟨spaced.preorder,rfl,spaced.ranks (stable _ _ _ spaced.preorder)⟩

theorem preferencesExact (stable : ∀ α, SortBy (sort α)) : (∀ acceptEncoding secWebsocketKey prefer,
      RankedRight sort (encodingPreferences secWebsocketKey prefer acceptEncoding)
          (acceptedEncodings sort acceptEncoding secWebsocketKey prefer) ↔
        Spaced (encodingPreferences secWebsocketKey prefer acceptEncoding)) ∧ (∀ head precompressedOrder,
      RankedRight sort (sidecarPreferences precompressedOrder head.headers)
          (acceptedCaddyPrecompressedEncodings sort head precompressedOrder) ↔
        Spaced (sidecarPreferences precompressedOrder head.headers)) :=
  ⟨fun _ _ _ => rankedExact stable _,fun _ _ => rankedExact stable _⟩

end

def mergeSorted (α : Type) (cmp : α → α → Ordering) (l : List α) : List α := l.mergeSort (notAfter cmp)

def plainAccept : Bytes := ascii "gzip;q=0.5, zstd"

theorem plainAcceptRanked : RankedRight mergeSorted (encodingPreferences [] [ascii "zstd",ascii "gzip"] plainAccept)
      (acceptedEncodings mergeSorted plainAccept [] [ascii "zstd",ascii "gzip"]) := by
  refine ((preferencesExact fun α => mergeSortStable).1 plainAccept [] [ascii "zstd",ascii "gzip"]).mpr ?_
  have entries : encodingPreferences [] [ascii "zstd",ascii "gzip"] plainAccept =
      [⟨ascii "gzip",1 / 2,1⟩,⟨ascii "zstd",1,2⟩] := by decide +kernel
  rw [entries]
  constructor
  · simp [Close,tieWidth]
    norm_num
  · simp [Close,tieWidth]

def cyclicAccept : Bytes := ascii "br;q=0.500012, gzip;q=0.500006, zstd;q=0.5"

theorem cyclicAcceptUnordered :
    ¬ PreorderOn byPreference (encodingPreferences [] [ascii "zstd",ascii "gzip"] cyclicAccept) ∧
    ¬ PreorderOn byPreference (sidecarPreferences [ascii "zstd",ascii "gzip"]
      ⟨[(acceptEncodingName,.ofAscii "br;q=0.500012, gzip;q=0.500006, zstd;q=0.5")]⟩) := by
  have entries : encodingPreferences [] [ascii "zstd",ascii "gzip"] cyclicAccept =
      [⟨ascii "br",125003 / 250000,-1⟩,⟨ascii "gzip",250003 / 500000,1⟩,⟨ascii "zstd",1 / 2,2⟩] := by
    decide +kernel
  have sidecars : sidecarPreferences [ascii "zstd",ascii "gzip"]
      ⟨[(acceptEncodingName,.ofAscii "br;q=0.500012, gzip;q=0.500006, zstd;q=0.5")]⟩ =
      [⟨ascii "br",125003 / 250000,0⟩,⟨ascii "gzip",250003 / 500000,1⟩,⟨ascii "zstd",1 / 2,2⟩] := by
    decide +kernel
  rw [entries,sidecars]
  constructor
  · intro order
    exact order.trans ⟨ascii "zstd",1 / 2,2⟩ (by simp) ⟨ascii "gzip",250003 / 500000,1⟩ (by simp)
      ⟨ascii "br",125003 / 250000,-1⟩ (by simp) (by decide +kernel) (by decide +kernel) (by decide +kernel)
  · intro order
    exact order.trans ⟨ascii "zstd",1 / 2,2⟩ (by simp) ⟨ascii "gzip",250003 / 500000,1⟩ (by simp)
      ⟨ascii "br",125003 / 250000,0⟩ (by simp) (by decide +kernel) (by decide +kernel) (by decide +kernel)

end ZeroServe.Encode
