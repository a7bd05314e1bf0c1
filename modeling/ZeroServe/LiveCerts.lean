import ZeroServe.AcmeChallenge
import Mathlib.Data.List.Induction

/-! The certificates in use by server name. One rule looks a rebuilt wildcard up, the other takes a suffix off. -/
namespace ZeroServe.Acme
open ByteText

variable {Ctx : Type}

def dot : UInt8 := 46

def insertLive (live : Bytes → Option Ctx) (domain : Bytes) (ctx : Ctx) : Bytes → Option Ctx :=
  fun name => if name = lower domain then some ctx else live name

def liveForSni (live : Bytes → Option Ctx) (sni : Bytes) : Option Ctx :=
  let sni := lower sni
  match live sni with
  | some ctx => some ctx
  | none => (splitOnce dot sni).bind fun p => live (ascii "*." ++ p.2)

def dnsNameMatches (pattern sni : Bytes) : Bool :=
  let pattern := lower pattern
  let sni := lower sni
  if star ∉ pattern then pattern == sni else
  (pattern.dropPrefix? (ascii "*.")).any fun suffix => (sni.dropSuffix? suffix).any fun front =>
    front.getLast? == some dot && ! front.dropLast.contains dot

def inserted (domains : List (Bytes × Ctx)) : Bytes → Option Ctx :=
  domains.foldl (fun live p => insertLive live p.1 p.2) fun _ => none

theorem insertedLast (domains : List (Bytes × Ctx)) (p) :
    inserted (domains ++ [p]) = insertLive (inserted domains) p.1 p.2 := by
  rw [inserted,List.foldl_append]
  rfl

theorem insertedAt {domains : List (Bytes × Ctx)} {name ctx} (found : inserted domains name = some ctx) :
    ∃ p ∈ domains, lower p.1 = name ∧ p.2 = ctx := by
  induction domains using List.reverseRecOn with
  | nil => cases found
  | append_singleton domains p ih =>
    rw [insertedLast] at found
    by_cases same : name = lower p.1
    · exact ⟨p,by simp,same.symm,by simpa [insertLive,same] using found⟩
    · obtain ⟨q,mem,place⟩ := ih (by simpa [insertLive,same] using found)
      exact ⟨q,by simp [mem],place⟩

theorem insertedSome {domains : List (Bytes × Ctx)} {p} (mem : p ∈ domains) : (inserted domains (lower p.1)).isSome := by
  induction domains using List.reverseRecOn with
  | nil => cases mem
  | append_singleton domains q ih =>
    rw [insertedLast]
    by_cases same : lower p.1 = lower q.1
    · simp [insertLive,same]
    · have earlier : p ∈ domains := by
        rcases List.mem_append.mp mem with earlier | last
        · exact earlier
        · exact absurd (congrArg (lower ·.1) (List.mem_singleton.mp last)) same
      simpa [insertLive,same] using ih earlier

/- Behind the first dot of the name is what the suffix rule compares. -/
theorem suffixMatches {name suffix : Bytes} :
    ((name.dropSuffix? suffix).any fun front => front.getLast? == some dot && ! front.dropLast.contains dot) = true ↔
    (splitOnce dot name).map Prod.snd = some suffix := by
  constructor
  · intro matched
    simp only [Option.any_eq_true,Bool.and_eq_true,beq_iff_eq] at matched
    obtain ⟨front,cut,last,free⟩ := matched
    obtain ⟨tail,rfl,same⟩ := List.dropSuffix?_eq_some_iff.mp cut
    cases eq_of_beq same
    obtain ⟨label,rfl⟩ := List.getLast?_eq_some_iff.mp last
    rw [List.append_assoc,List.singleton_append,splitOnceAppend suffix (by simpa using free)]
    rfl
  · intro cut
    by_cases mem : dot ∈ name
    · obtain ⟨label,tail,rfl,free⟩ := List.eq_append_cons_of_mem mem
      rw [splitOnceAppend tail free] at cut
      cases cut
      have front : (label ++ dot::tail).dropSuffix? tail = some (label ++ [dot]) :=
        List.dropSuffix?_eq_some_iff.mpr ⟨tail,by simp,BEq.rfl⟩
      simp [front,free]
    · rw [splitOnceNone mem] at cut
      cases cut

theorem starInLower {s : Bytes} : star ∈ lower s ↔ star ∈ s := by
  have same : ∀ b : UInt8, lowerByte b = star ↔ b = star := by decide +kernel
  simp [lower,same]

theorem dnsNameMatchesIff {domain sni : Bytes} (plain : star ∉ sni) : dnsNameMatches domain sni = true ↔
    lower domain = lower sni ∨ (splitOnce dot (lower sni)).map (ascii "*." ++ ·.2) = some (lower domain) := by
  have bare : star ∉ lower sni := fun mem => plain (starInLower.mp mem)
  rw [dnsNameMatches]
  split
  · rename_i empty
    have other : ∀ tail, ascii "*." ++ tail ≠ lower domain := fun tail same => empty (by rw [← same]; exact List.mem_cons_self)
    simp [other]
  · rename_i given
    have differ : lower domain ≠ lower sni := fun same => bare (same ▸ not_not.mp given)
    cases cut : (lower domain).dropPrefix? (ascii "*.") with
    | none =>
      have other : ∀ tail, ascii "*." ++ tail ≠ lower domain := by
        intro tail same
        rw [List.dropPrefix?_eq_some_iff.mpr ⟨_,same.symm,BEq.rfl⟩] at cut
        cases cut
      simp [differ,other]
    | some suffix =>
      obtain ⟨front,whole,same⟩ := List.dropPrefix?_eq_some_iff.mp cut
      cases eq_of_beq same
      rw [whole] at differ
      rw [Option.any_some,suffixMatches,whole]
      simp [differ]

/- A name has a context exactly if one of the domains matches it, and the domain with this name comes first. -/
theorem liveForSniExact (domains : List (Bytes × Ctx)) {sni : Bytes} (plain : star ∉ sni) :
    ((liveForSni (inserted domains) sni).isSome ↔ ∃ p ∈ domains, dnsNameMatches p.1 sni = true) ∧
    ∀ ctx, liveForSni (inserted domains) sni = some ctx → ∃ p ∈ domains, p.2 = ctx ∧ dnsNameMatches p.1 sni = true ∧
      ((∃ q ∈ domains, lower q.1 = lower sni) → lower p.1 = lower sni) := by
  have owner : ∀ ctx, liveForSni (inserted domains) sni = some ctx → ∃ p ∈ domains, p.2 = ctx ∧
      dnsNameMatches p.1 sni = true ∧ ((∃ q ∈ domains, lower q.1 = lower sni) → lower p.1 = lower sni) := by
    intro ctx found
    rw [liveForSni] at found
    cases named : inserted domains (lower sni) with
    | some c =>
      simp only [named] at found
      cases found
      obtain ⟨p,mem,same,rfl⟩ := insertedAt named
      exact ⟨p,mem,rfl,(dnsNameMatchesIff plain).mpr (.inl same),fun _ => same⟩
    | none =>
      simp only [named,Option.bind_eq_some_iff] at found
      obtain ⟨parts,cut,place⟩ := found
      obtain ⟨p,mem,same,rfl⟩ := insertedAt place
      refine ⟨p,mem,rfl,(dnsNameMatchesIff plain).mpr (.inr (by simp [cut,same])),?_⟩
      rintro ⟨q,there,equal⟩
      have given := insertedSome there
      rw [equal,named] at given
      cases given
  refine ⟨⟨fun has => ?_,?_⟩,owner⟩
  · obtain ⟨ctx,found⟩ := Option.isSome_iff_exists.mp has
    obtain ⟨p,mem,_,covers,_⟩ := owner ctx found
    exact ⟨p,mem,covers⟩
  · rintro ⟨p,mem,covers⟩
    have there := insertedSome mem
    rw [liveForSni]
    split
    · rfl
    · rename_i empty
      rcases (dnsNameMatchesIff plain).mp covers with same | wild
      · rw [same,empty] at there
        cases there
      · obtain ⟨parts,cut,same⟩ := Option.map_eq_some_iff.mp wild
        rw [cut,Option.bind_some,same]
        exact there

theorem subdomainServed : (liveForSni (inserted [(ascii "*.Example.com",())]) (ascii "A.example.com")).isSome = true :=
  (liveForSniExact [(ascii "*.Example.com",())] (by decide)).1.mpr ⟨_,List.mem_singleton.mpr rfl,by decide +kernel⟩

end ZeroServe.Acme
