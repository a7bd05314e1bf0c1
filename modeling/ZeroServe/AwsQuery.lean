import ZeroServe.AwsSign
import ZeroServe.StableSort

/-! The canonical query: every parameter as `name=value`, both escaped, in the order of the escaped names and values.
The Authorization header's query leaves the sign out where a value is empty; the presigned one is sorted by name,
before it is escaped. -/
namespace ZeroServe.Aws
open ByteText CharText StableSort

def nameValue (piece : Str) : Str × Str := (piece.takeWhile (· ≠ '='),(piece.dropWhile (· ≠ '=')).drop 1)

def parameters (query : Str) : List (Str × Str) := ((query.splitOn '&').filter (· ≠ [])).map nameValue

def canonicalForm (params : List (Str × Str)) : Bytes :=
  [ampersand].intercalate (((params.map encodePair).insertionSort pairLe).map written)

theorem queryPairsParameters (query : Str) : queryPairs query = parameters query := by
  rw [parameters,← List.filterMap_eq_map,List.filterMap_filter]
  refine List.filterMap_congr fun piece _ => ?_
  rw [queryPair]
  split
  · rename_i mem
    rw [if_pos (by simpa using List.ne_nil_of_mem mem)]
    rfl
  · rename_i absent
    have whole : ∀ c ∈ piece, decide (c ≠ '=') = true := by
      intro c mem
      rw [decide_eq_true_eq]
      rintro rfl
      exact absent mem
    split
    · rename_i empty
      simp [empty]
    · rename_i given
      rw [if_pos (by simpa using given),Function.comp_apply,nameValue,List.takeWhile_eq_self_iff.mpr whole,
        List.dropWhile_eq_nil_iff.mpr whole]
      rfl

theorem pairLeAntisymm {p q} (first : pairLe p q) (second : pairLe q p) : p = q := by
  rcases first with less | ⟨same,le⟩
  · rcases second with back | ⟨same,-⟩
    · exact absurd back (List.lt_asymm less)
    · exact absurd less (by rw [same]; exact List.lt_irrefl _)
  · rcases second with back | ⟨-,ge⟩
    · exact absurd back (by rw [same]; exact List.lt_irrefl _)
    · exact Prod.ext same (List.le_antisymm le ge)

instance : Std.Antisymm pairLe := ⟨fun _ _ => pairLeAntisymm⟩

instance : IsTrans (Bytes × Bytes) pairLe := ⟨by
  rintro p q r (less | ⟨same,le⟩) (next | ⟨again,after⟩)
  · exact .inl (List.lt_trans less next)
  · exact .inl (by rwa [← again])
  · exact .inl (by rwa [same])
  · exact .inr ⟨same.trans again,List.le_trans le after⟩⟩

instance : Std.Total pairLe := ⟨by
  intro p q
  by_cases less : p.1 < q.1
  · exact .inl (.inl less)
  by_cases greater : q.1 < p.1
  · exact .inr (.inl greater)
  have same : p.1 = q.1 := List.le_antisymm (List.not_lt.mp greater) (List.not_lt.mp less)
  exact (List.le_total p.2 q.2).imp (fun le => .inr ⟨same,le⟩) fun ge => .inr ⟨same.symm,ge⟩⟩

instance : IsTrans (Str × Str) nameLe := ⟨fun _ _ _ first second => List.le_trans first second⟩
instance : Std.Total nameLe := ⟨fun p q => List.le_total (utf8 p.1) (utf8 q.1)⟩

theorem pairsUnique {l m : List (Bytes × Bytes)} (perm : l.Perm m) (sorted : l.Pairwise pairLe) :
    l = m.insertionSort pairLe :=
  (perm.trans (List.perm_insertionSort pairLe m).symm).eq_of_pairwise' sorted (List.pairwise_insertionSort pairLe m)

theorem sortedPermuted {l m : List (Bytes × Bytes)} (perm : l.Perm m) :
    l.insertionSort pairLe = m.insertionSort pairLe :=
  pairsUnique ((List.perm_insertionSort pairLe l).trans perm) (List.pairwise_insertionSort pairLe l)

theorem encodedByte {s encodeSlash b} (mem : b ∈ uriEncode s encodeSlash) :
    unreservedByte b = true ∨ b = RequestPath.percent ∨ b = RequestPath.slash := by
  obtain ⟨c,-,inside⟩ := List.mem_flatMap.mp mem
  rw [encodeChar] at inside
  split at inside
  · rename_i kept
    rcases Bool.or_eq_true_iff.mp kept with unreserved | sign
    · obtain ⟨plain,-,-,byte⟩ := unreservedPlain unreserved
      rw [plainEncoded plain,List.mem_singleton] at inside
      exact .inl (by rwa [inside])
    · rw [eq_of_beq sign] at inside
      exact .inr (.inl (List.mem_singleton.mp inside))
  · split at inside
    · exact .inr (.inr (List.mem_singleton.mp inside))
    · rcases List.mem_cons.mp inside with rfl | digit
      · exact .inr (.inl rfl)
      · obtain ⟨byte,-,pair⟩ := List.mem_flatMap.mp digit
        obtain ⟨high,low,-⟩ := pairDigits byte
        rcases List.mem_pair.mp pair with rfl | rfl
        · exact .inl (digitUnreserved _ high).1
        · exact .inl (digitUnreserved _ low).1

theorem encodedFree (s : Str) (encodeSlash : Bool) :
    ampersand ∉ uriEncode s encodeSlash ∧ equals ∉ uriEncode s encodeSlash := by
  constructor <;> intro mem <;> exact absurd (encodedByte mem) (by decide)

theorem encodedEmpty {s encodeSlash} (empty : uriEncode s encodeSlash = []) : s = [] := by
  cases s with
  | nil => rfl
  | cons c s =>
    have first := (List.append_eq_nil_iff.mp empty).1
    rw [encodeChar] at first
    split at first
    · have given := encodedSome c
      rw [first] at given
      cases given
    · split at first <;> cases first

theorem writtenFree (p : Str × Str) : ampersand ∉ written (encodePair p) := by
  rw [written,List.mem_append,List.mem_cons]
  rintro (name | sign | value)
  · exact (encodedFree p.1 true).1 name
  · exact absurd sign (by decide)
  · exact (encodedFree p.2 true).1 value

theorem writtenOnce {p} (free : equals ∉ p.1) : splitOnce equals (written p) = some p :=
  splitOnceAppend p.2 free

theorem writtenInjective {l m : List (Bytes × Bytes)} (freeL : ∀ p ∈ l, equals ∉ p.1) (freeM : ∀ p ∈ m, equals ∉ p.1)
    (same : l.map written = m.map written) : l = m := by
  have once {k : List (Bytes × Bytes)} (free : ∀ p ∈ k, equals ∉ p.1) :
      (k.map written).map (splitOnce equals) = k.map some := by
    rw [List.map_map]
    exact List.map_congr_left fun p mem => writtenOnce (free p mem)
  have split := once freeL
  rw [same,once freeM] at split
  exact (List.map_injective_iff.mpr (Option.some_injective _) split).symm

theorem partsFree {params : List (Str × Str)} {l : List (Bytes × Bytes)} (within : l.Perm (params.map encodePair)) :
    (∀ part ∈ l.map written, ampersand ∉ part) ∧ ∀ p ∈ l, equals ∉ p.1 := by
  constructor
  · intro part listed
    obtain ⟨q,mem,rfl⟩ := List.mem_map.mp listed
    obtain ⟨r,-,rfl⟩ := List.mem_map.mp (within.mem_iff.mp mem)
    exact writtenFree r
  · intro p mem
    obtain ⟨r,-,rfl⟩ := List.mem_map.mp (within.mem_iff.mp mem)
    exact (encodedFree r.1 true).2

theorem canonicalExact (query : Str) :
    canonicalQueryString query = canonicalForm (parameters query) ↔ ∀ p ∈ parameters query, p.2 ≠ [] := by
  have sorted := List.perm_insertionSort pairLe ((parameters query).map encodePair)
  have listed {p : Bytes × Bytes} (mem : p ∈ ((parameters query).map encodePair).insertionSort pairLe) :
      ∃ q ∈ parameters query, encodePair q = p := List.mem_map.mp (sorted.mem_iff.mp mem)
  rw [canonicalQueryString,queryPairsParameters]
  constructor
  · intro same p mem empty
    have free : ∀ part ∈ (((parameters query).map encodePair).insertionSort pairLe).map
        fun q => if q.2 = [] then q.1 else written q, ampersand ∉ part := by
      intro part inside
      obtain ⟨q,memQ,rfl⟩ := List.mem_map.mp inside
      obtain ⟨r,-,rfl⟩ := listed memQ
      split
      · exact (encodedFree r.1 true).1
      · exact writtenFree r
    have parts := joinInjective free (partsFree sorted).1 (by rw [List.length_map,List.length_map]) same
    have here := List.map_inj_left.mp parts _ (sorted.mem_iff.mpr (List.mem_map_of_mem mem))
    have value : (encodePair p).2 = [] := by
      rw [encodePair,empty]
      rfl
    rw [if_pos value,written] at here
    exact absurd (congrArg List.length here) (by simp)
  · intro values
    congr 1
    refine List.map_congr_left fun p mem => ?_
    obtain ⟨q,memQ,rfl⟩ := listed mem
    exact if_neg fun empty => values q memQ (encodedEmpty empty)

def SortedAlike (p q : Str × Str) : Prop :=
  if nameLe p q then pairLe (encodePair p) (encodePair q) else pairLe (encodePair q) (encodePair p)

instance (p q : Str × Str) : Decidable (SortedAlike p q) :=
  inferInstanceAs (Decidable (if nameLe p q then pairLe (encodePair p) (encodePair q)
    else pairLe (encodePair q) (encodePair p)))

theorem presignedExact (params : List (Str × Str)) :
    presignedQuery params = canonicalForm params ↔ params.Pairwise SortedAlike := by
  have perm := (List.perm_insertionSort nameLe params).map encodePair
  have texts : presignedQuery params =
      [ampersand].intercalate (((params.insertionSort nameLe).map encodePair).map written) := by
    rw [List.map_map]
    rfl
  have ordered : ((params.insertionSort nameLe).map encodePair).Pairwise pairLe ↔ params.Pairwise SortedAlike := by
    rw [List.pairwise_map]
    exact sortedPairwise nameLe params
  rw [texts,canonicalForm,← ordered]
  constructor
  · intro same
    have sorted := List.perm_insertionSort pairLe (params.map encodePair)
    have parts := joinInjective (partsFree perm).1 (partsFree sorted).1
      ((perm.trans sorted.symm).map written).length_eq same
    rw [writtenInjective (partsFree perm).2 (partsFree sorted).2 parts]
    exact List.pairwise_insertionSort pairLe _
  · intro sorted
    rw [pairsUnique perm sorted]

theorem formPermuted {params other : List (Str × Str)} (perm : params.Perm other) :
    canonicalForm params = canonicalForm other := by
  rw [canonicalForm,canonicalForm,sortedPermuted (perm.map encodePair)]

theorem canonicalPermuted {query other : Str} (perm : (parameters query).Perm (parameters other)) :
    canonicalQueryString query = canonicalQueryString other := by
  rw [canonicalQueryString,canonicalQueryString,queryPairsParameters,queryPairsParameters,
    sortedPermuted (perm.map encodePair)]

section
variable (accessKey region service : Str) (headers : List (Str × Str)) (datetime : DateTime) (expiresSecs : Nat)

theorem presignedPermuted {query other} (perm : (parameters query).Perm (parameters other))
    (first : (presignedParams accessKey region service (some query) headers datetime expiresSecs).Pairwise SortedAlike)
    (second : (presignedParams accessKey region service (some other) headers datetime expiresSecs).Pairwise SortedAlike)
    : presignedQuery (presignedParams accessKey region service (some query) headers datetime expiresSecs) =
      presignedQuery (presignedParams accessKey region service (some other) headers datetime expiresSecs) := by
  rw [(presignedExact _).mpr first,(presignedExact _).mpr second]
  apply formPermuted
  rw [presignedParams,presignedParams,Option.elim_some,Option.elim_some,queryPairsParameters,queryPairsParameters]
  exact perm.append_right _

theorem signedQueryExact (query : Str) (existingQuery : Option Str) :
    (canonicalQueryString query = canonicalForm (parameters query) ↔ ∀ p ∈ parameters query, p.2 ≠ []) ∧
    (presignedQuery (presignedParams accessKey region service existingQuery headers datetime expiresSecs) =
        canonicalForm (presignedParams accessKey region service existingQuery headers datetime expiresSecs) ↔
      (presignedParams accessKey region service existingQuery headers datetime expiresSecs).Pairwise SortedAlike) ∧
    ∀ other : Str, (parameters query).Perm (parameters other) →
      canonicalQueryString query = canonicalQueryString other ∧
      ((presignedParams accessKey region service (some query) headers datetime expiresSecs).Pairwise SortedAlike →
        (presignedParams accessKey region service (some other) headers datetime expiresSecs).Pairwise SortedAlike →
        presignedQuery (presignedParams accessKey region service (some query) headers datetime expiresSecs) =
          presignedQuery (presignedParams accessKey region service (some other) headers datetime expiresSecs)) :=
  ⟨canonicalExact query,presignedExact _,fun _ perm => ⟨canonicalPermuted perm,
    presignedPermuted accessKey region service headers datetime expiresSecs perm⟩⟩

end

theorem swappedAlike : canonicalQueryString (str "a=1&b=2") = canonicalQueryString (str "b=2&a=1") ∧
    presignedQuery (presignedParams (str "AK") (str "r") (str "s3") (some (str "a=1&b=2")) []
        ⟨str "20130524",str "20130524T000000Z"⟩ 60) =
      presignedQuery (presignedParams (str "AK") (str "r") (str "s3") (some (str "b=2&a=1")) []
        ⟨str "20130524",str "20130524T000000Z"⟩ 60) :=
  have both := (signedQueryExact (str "AK") (str "r") (str "s3") [] ⟨str "20130524",str "20130524T000000Z"⟩ 60
    (str "a=1&b=2") none).2.2 (str "b=2&a=1") (by decide +kernel)
  ⟨both.1,both.2 (by decide +kernel) (by decide +kernel)⟩

theorem flagUnsigned :
    canonicalQueryString (str "acl") = ascii "acl" ∧ canonicalForm (parameters (str "acl")) = ascii "acl=" ∧
    presignedQuery (presignedParams (str "AK") (str "r") (str "s3") (some (str "a=2&a=1")) []
        ⟨str "20130524",str "20130524T000000Z"⟩ 60) ≠
      presignedQuery (presignedParams (str "AK") (str "r") (str "s3") (some (str "a=1&a=2")) []
        ⟨str "20130524",str "20130524T000000Z"⟩ 60) := by
  decide +kernel

end ZeroServe.Aws
