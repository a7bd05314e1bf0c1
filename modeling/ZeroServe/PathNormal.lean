import ZeroServe.RequestPath

/-! What a normalised path is: its segments decoded, `.` and `..` resolved over them, in a form that
normalises to itself, and which paths have none. -/
namespace ZeroServe.RequestPath
open ByteText

/- Escapes are read one after another; a percent sign without two bytes behind it stands for itself. -/
inductive Decodes : Bytes → Bytes → Prop where
  | nil : Decodes [] []
  | plain {b rest out} (other : b ≠ percent) (next : Decodes rest out) : Decodes (b::rest) (b::out)
  | escape {h l hi lo rest out} (high : hexVal h = some hi) (low : hexVal l = some lo) (next : Decodes rest out) :
      Decodes (percent::h::l::rest) ((16 * hi + lo)::out)
  | stray {rest out} (few : rest.length < 2) (next : Decodes rest out) : Decodes (percent::rest) (percent::out)

def BadEscape (s : Bytes) : Prop :=
  ∃ before h l after, s = before ++ percent::h::l::after ∧ (hexVal h = none ∨ hexVal l = none)

theorem hexByte {h l hi lo} (high : hexVal h = some hi) (low : hexVal l = some lo) :
    hi <<< 4 ||| lo = 16 * hi + lo := by
  have small : ∀ b v : UInt8, hexVal b = some v → v.toNat < 16 := by
    intro b v read
    have all : ∀ b : UInt8, (hexVal b).all (·.toNat < 16) = true := by decide +kernel
    simpa [read] using all b
  have pairs : ∀ a b : Fin 16, UInt8.ofNat a <<< 4 ||| UInt8.ofNat b = 16 * UInt8.ofNat a + UInt8.ofNat b := by
    decide +kernel
  have known := pairs ⟨hi.toNat,small h hi high⟩ ⟨lo.toNat,small l lo low⟩
  simpa using known

theorem hexNotPercent : hexVal percent = none := by decide

theorem fewShort {rest : Bytes} (few : ∀ h l later, rest = h::l::later → False) : rest.length < 2 := by
  rcases rest with _ | ⟨h,_ | ⟨l,later⟩⟩
  · simp
  · simp
  · exact absurd rfl (few h l later)

theorem decodesIff (s out : Bytes) : percentDecode s = some out ↔ Decodes s out := by
  fun_induction percentDecode s generalizing out with
  | case1 h l later ih =>
    constructor
    · intro read
      simp only [bind,Option.bind_eq_some_iff] at read
      obtain ⟨hi,high,lo,low,rest,next,same⟩ := read
      cases same
      rw [hexByte high low]
      exact .escape high low ((ih rest).mp next)
    · intro decodes
      cases decodes with
      | plain other _ => exact absurd rfl other
      | stray few _ => simp only [List.length_cons] at few; omega
      | escape high low next =>
        simp only [high,low,(ih _).mpr next,bind,Option.bind_some,hexByte high low]
  | case2 b h l later other ih =>
    constructor
    · intro read
      obtain ⟨rest,next,same⟩ := Option.map_eq_some_iff.mp read
      cases same
      exact .plain other ((ih rest).mp next)
    · intro decodes
      cases decodes with
      | plain _ next => rw [(ih _).mpr next]; rfl
      | stray _ _ => exact absurd rfl other
      | escape _ _ _ => exact absurd rfl other
  | case3 b rest few ih =>
    have short := fewShort few
    constructor
    · intro read
      obtain ⟨rest',next,same⟩ := Option.map_eq_some_iff.mp read
      cases same
      by_cases sign : b = percent
      · rw [sign]
        exact .stray short ((ih rest').mp next)
      · exact .plain sign ((ih rest').mp next)
    · intro decodes
      cases decodes with
      | plain _ next => rw [(ih _).mpr next]; rfl
      | stray _ next => rw [(ih _).mpr next]; rfl
      | escape _ _ _ => exact absurd rfl (few _ _ _)
  | case4 =>
    constructor
    · intro read
      cases read
      exact .nil
    · intro decodes
      cases decodes
      rfl

theorem badCons {b rest} (other : b ≠ percent) : BadEscape (b::rest) ↔ BadEscape rest := by
  constructor
  · rintro ⟨before,h,l,after,same,bad⟩
    cases before with
    | nil => exact absurd (List.cons.inj same).1 other
    | cons c before => exact ⟨before,h,l,after,(List.cons.inj same).2,bad⟩
  · rintro ⟨before,h,l,after,same,bad⟩
    exact ⟨b::before,h,l,after,by rw [same]; rfl,bad⟩

theorem badEscape {h l} (rest : Bytes) :
    BadEscape (percent::h::l::rest) ↔ hexVal h = none ∨ hexVal l = none ∨ BadEscape rest := by
  constructor
  · rintro ⟨before,h',l',after,same,bad⟩
    rcases before with _ | ⟨a,_ | ⟨b,_ | ⟨c,before⟩⟩⟩
    · cases same
      tauto
    · obtain ⟨-,tail⟩ := List.cons.inj same
      left
      rw [(List.cons.inj tail).1]
      exact hexNotPercent
    · obtain ⟨-,tail⟩ := List.cons.inj same
      obtain ⟨-,tail⟩ := List.cons.inj tail
      right; left
      rw [(List.cons.inj tail).1]
      exact hexNotPercent
    · obtain ⟨-,tail⟩ := List.cons.inj same
      obtain ⟨-,tail⟩ := List.cons.inj tail
      obtain ⟨-,tail⟩ := List.cons.inj tail
      exact .inr (.inr ⟨before,h',l',after,tail,bad⟩)
  · rintro (bad | bad | ⟨before,h',l',after,same,bad⟩)
    · exact ⟨[],h,l,rest,rfl,.inl bad⟩
    · exact ⟨[],h,l,rest,rfl,.inr bad⟩
    · exact ⟨percent::h::l::before,h',l',after,by rw [same]; rfl,bad⟩

theorem badShort {s} (short : s.length < 3) : ¬ BadEscape s := by
  rintro ⟨before,h,l,after,same,-⟩
  have length := congrArg List.length same
  simp only [List.length_append,List.length_cons] at length
  omega

theorem badIff (s : Bytes) : percentDecode s = none ↔ BadEscape s := by
  fun_induction percentDecode s with
  | case1 h l later ih =>
    rw [badEscape,← ih]
    cases hexVal h <;> cases hexVal l <;> cases percentDecode later <;> simp
  | case2 b h l later other ih => rw [badCons other,← ih,Option.map_eq_none_iff]
  | case3 b rest few ih =>
    have short := fewShort few
    rw [Option.map_eq_none_iff,ih]
    exact iff_of_false (badShort (by omega)) (badShort (by rw [List.length_cons]; omega))
  | case4 => exact iff_of_false (by simp) (badShort (by simp))

theorem decodesUnique {s out out'} (first : Decodes s out) (second : Decodes s out') : out = out' :=
  Option.some.inj (((decodesIff s out).mpr first).symm.trans ((decodesIff s out').mpr second))

theorem decodesGood {s out} (decodes : Decodes s out) : ¬ BadEscape s := by
  rw [← badIff,(decodesIff s out).mpr decodes]
  simp

def segments (raw : Bytes) : List Bytes := (raw.splitOn slash).filter (· ≠ [])

def resolveDots : List Bytes → List Bytes → Option (List Bytes)
  | [], stack => some stack
  | segment::later, stack =>
    if segment = ascii "." then resolveDots later stack
    else if segment = ascii ".." then if stack = [] then none else resolveDots later stack.dropLast
    else resolveDots later (stack ++ [segment])

/- A `..` occurs where everything before it has resolved to the root. -/
def PopsRoot (parts stack : List Bytes) : Prop :=
  ∃ before part after decoded, parts = before ++ part::after ∧ List.Forall₂ Decodes before decoded ∧
    resolveDots decoded stack = some [] ∧ Decodes part (ascii "..")

inductive Refused (parts stack : List Bytes) : Prop where
  | popsRoot (pops : PopsRoot parts stack)
  | slash {part out} (mem : part ∈ parts) (decodes : Decodes part out) (inside : slash ∈ out)
  | escape {part} (mem : part ∈ parts) (bad : BadEscape part)
  | text {part out} (mem : part ∈ parts) (decodes : Decodes part out) (invalid : validUtf8 out = false)

theorem refusedCons {part out later stack stack'} (decodes : Decodes part out) (plain : slash ∉ out)
    (text : validUtf8 out = true) (low : out = ascii ".." → stack ≠ [])
    (step : ∀ decoded, resolveDots (out::decoded) stack = resolveDots decoded stack') :
    Refused (part::later) stack ↔ Refused later stack' := by
  constructor
  · intro refused
    cases refused with
    | popsRoot pops =>
      obtain ⟨before,part',after,decoded,same,all,root,dots⟩ := pops
      cases before with
      | nil =>
        obtain ⟨rfl,-⟩ := List.cons.inj same
        cases all
        cases decodesUnique decodes dots
        exact absurd (Option.some.inj root) (low rfl)
      | cons first before =>
        obtain ⟨rfl,tail⟩ := List.cons.inj same
        cases all with
        | cons here all =>
          cases decodesUnique decodes here
          exact .popsRoot ⟨before,part',after,_,tail,all,by rw [← step,root],dots⟩
    | slash mem decodes' inside =>
      rcases List.mem_cons.mp mem with rfl | mem
      · cases decodesUnique decodes decodes'
        exact absurd inside plain
      · exact .slash mem decodes' inside
    | escape mem bad =>
      rcases List.mem_cons.mp mem with rfl | mem
      · exact absurd bad (decodesGood decodes)
      · exact .escape mem bad
    | text mem decodes' invalid =>
      rcases List.mem_cons.mp mem with rfl | mem
      · cases decodesUnique decodes decodes'
        rw [text] at invalid
        cases invalid
      · exact .text mem decodes' invalid
  · intro refused
    cases refused with
    | popsRoot pops =>
      obtain ⟨before,part',after,decoded,same,all,root,dots⟩ := pops
      exact .popsRoot ⟨part::before,part',after,out::decoded,by rw [same]; rfl,.cons decodes all,
        by rw [step,root],dots⟩
    | slash mem decodes' inside => exact .slash (List.mem_cons_of_mem _ mem) decodes' inside
    | escape mem bad => exact .escape (List.mem_cons_of_mem _ mem) bad
    | text mem decodes' invalid => exact .text (List.mem_cons_of_mem _ mem) decodes' invalid

/- The loop over the parts of a path with the stacks of the same height: it fails on the refused ones
and resolves the dots of all others. -/
theorem normalizePartsExact {parts decoded raw} (proper : ∀ part ∈ parts, part ≠ [])
    (even : raw.length = decoded.length) : (normalizeParts parts decoded raw = none ↔ Refused parts decoded) ∧
    ∀ decoded' raw', normalizeParts parts decoded raw = some (decoded',raw') →
      ∃ outs, List.Forall₂ Decodes parts outs ∧ resolveDots outs decoded = some decoded' := by
  induction parts generalizing decoded raw with
  | nil =>
    refine ⟨iff_of_false (by simp [normalizeParts]) ?_,?_⟩
    · rintro (⟨before,part,after,-,same,-⟩ | mem | mem | mem)
      · simp at same
      · cases mem
      · cases mem
      · cases mem
    · rintro _ _ ⟨⟩
      exact ⟨[],.nil,rfl⟩
  | cons part later ih =>
    obtain ⟨full,rest⟩ := List.forall_mem_cons.mp proper
    rw [normalizeParts,if_neg full]
    cases read : percentDecode part with
    | none =>
      exact ⟨iff_of_true rfl (.escape List.mem_cons_self ((badIff part).mp read)),by simp⟩
    | some out =>
      have decodes := (decodesIff part out).mp read
      simp only [bind,Option.bind_some]
      -- One step of the loop, whatever it does to the stacks.
      have go {stack raw' : List Bytes} (even' : raw'.length = stack.length) (plain : slash ∉ out)
          (text : validUtf8 out = true) (low : out = ascii ".." → decoded ≠ [])
          (step : ∀ later, resolveDots (out::later) decoded = resolveDots later stack) :
          (normalizeParts later stack raw' = none ↔ Refused (part::later) decoded) ∧
          ∀ decoded'' raw'', normalizeParts later stack raw' = some (decoded'',raw'') →
            ∃ outs, List.Forall₂ Decodes (part::later) outs ∧ resolveDots outs decoded = some decoded'' := by
        obtain ⟨fails,succeeds⟩ := ih rest even'
        refine ⟨fails.trans (refusedCons decodes plain text low step).symm,fun decoded'' raw'' h => ?_⟩
        obtain ⟨outs,all,resolved⟩ := succeeds _ _ h
        exact ⟨out::outs,.cons decodes all,by rw [step,resolved]⟩
      split
      · rename_i dot
        exact go even (by rw [dot]; decide) (by rw [dot]; decide +kernel) (fun dots => absurd (dot.symm.trans dots) (by decide))
          fun later => by rw [resolveDots,if_pos dot]
      · rename_i notDot
        split
        · rename_i dots
          by_cases root : decoded = []
          · rw [root]
            exact ⟨iff_of_true rfl (.popsRoot ⟨[],part,later,[],rfl,.nil,rfl,by rw [← dots]; exact decodes⟩),by simp⟩
          · have raised : raw ≠ [] := by
              intro empty
              rw [empty] at even
              exact root (List.length_eq_zero_iff.mp even.symm)
            rw [if_neg (by simp [root,raised])]
            exact go (by rw [List.length_dropLast,List.length_dropLast,even]) (by rw [dots]; decide)
              (by rw [dots]; decide +kernel) (fun _ => root)
              fun later => by rw [resolveDots,if_neg notDot,if_pos dots,if_neg root]
        · rename_i notDots
          split
          · rename_i inside
            exact ⟨iff_of_true rfl (.slash List.mem_cons_self decodes inside),by simp⟩
          · rename_i plain
            split
            · rename_i text
              exact go (by rw [List.length_append,List.length_append,even]; rfl) plain text
                (fun dots => absurd dots notDots)
                fun later => by rw [resolveDots,if_neg notDot,if_neg notDots]
            · rename_i invalid
              exact ⟨iff_of_true rfl (.text List.mem_cons_self decodes (by simpa using invalid)),by simp⟩

theorem normalizePartsSegments (parts decoded raw : List Bytes) :
    normalizeParts (parts.filter (· ≠ [])) decoded raw = normalizeParts parts decoded raw := by
  induction parts generalizing decoded raw with
  | nil => rfl
  | cons part later ih =>
    by_cases empty : part = []
    · rw [List.filter_cons_of_neg (by simp [empty]),ih,normalizeParts,if_pos empty]
    · rw [List.filter_cons_of_pos (by simp [empty]),normalizeParts,normalizeParts,if_neg empty,if_neg empty]
      simp only [ih]

theorem normalizePartsAgain {kept : List (Bytes × Bytes)} (all : ∀ k ∈ kept, Kept k.1 k.2)
    (decoded raw : List Bytes) (tail : List Bytes) (blank : ∀ part ∈ tail, part = []) :
    normalizeParts (kept.map Prod.fst ++ tail) decoded raw =
      some (decoded ++ kept.map Prod.snd,raw ++ kept.map Prod.fst) := by
  induction kept generalizing decoded raw with
  | nil =>
    induction tail with
    | nil => simp [normalizeParts]
    | cons part later ih =>
      obtain ⟨here,rest⟩ := List.forall_mem_cons.mp blank
      have inner := ih rest
      simp only [List.map_nil,List.nil_append] at inner ⊢
      rw [normalizeParts,if_pos here,inner]
  | cons k later ih =>
    obtain ⟨here,rest⟩ := List.forall_mem_cons.mp all
    rw [List.map_cons,List.cons_append,normalizeParts,if_neg here.rawSome]
    simp only [here.read,bind,Option.bind_some]
    rw [if_neg here.notDot,if_neg here.notDots,if_neg here.plain,if_pos here.text,ih rest]
    simp

theorem keptSpelled {kept : List (Bytes × Bytes)} (all : ∀ k ∈ kept, Kept k.1 k.2) :
    (∀ part ∈ kept.map Prod.fst, slash ∉ part) ∧ ∀ part ∈ kept.map Prod.fst, part ≠ [] := by
  simp only [List.forall_mem_map]
  exact ⟨fun k inside => (all k inside).rawPlain,fun k inside => (all k inside).rawSome⟩

theorem slashedSolid {parts} (plain : ∀ part ∈ parts, slash ∉ part) (nonempty : ∀ part ∈ parts, part ≠ []) :
    (slashed parts).getLast? ≠ some slash := by
  intro last
  rcases List.eq_nil_or_concat parts with rfl | ⟨before,part,rfl⟩
  · cases last
  · have here : part ∈ before.concat part := by simp
    rw [List.concat_eq_append,slashed,List.flatMap_append] at last
    simp only [List.flatMap_cons,List.flatMap_nil,List.append_nil,List.getLast?_append_cons] at last
    obtain ⟨front,tail,whole⟩ := List.eq_nil_or_concat part |>.resolve_left (nonempty part here)
    rw [whole] at last
    exact plain part here (by rw [whole,← Option.some.inj last]; simp)

theorem normalizeSpelled {kept : List (Bytes × Bytes)} (all : ∀ k ∈ kept, Kept k.1 k.2) (filled : kept ≠ [])
    (hint : Bool) : normalizeRequestPath (slashed (kept.map Prod.fst) ++ if hint then [slash] else []) =
      some ⟨join (kept.map Prod.snd),join (kept.map Prod.fst),hint⟩ := by
  obtain ⟨plain,nonempty⟩ := keptSpelled all
  have solid := slashedSolid plain nonempty
  have split_ := slashedSplit plain
  have long : 1 < (slashed (kept.map Prod.fst)).length := by
    obtain ⟨k,later,rfl⟩ := List.exists_cons_of_ne_nil filled
    have size := List.length_pos_of_ne_nil (nonempty k.1 (by simp))
    simp only [slashed,List.map_cons,List.flatMap_cons,List.length_append,List.length_cons]
    omega
  have bare : ∀ tail, slashed (kept.map Prod.fst) ++ tail ≠ [slash] := by
    intro tail same
    have size := congrArg List.length same
    simp only [List.length_append,List.length_cons,List.length_nil] at size
    omega
  have some' : ∀ tail, slashed (kept.map Prod.fst) ++ tail ≠ [] := by
    intro tail same
    rw [(List.append_eq_nil_iff.mp same).1] at long
    cases long
  cases hint with
  | true =>
    have parts : (slashed (kept.map Prod.fst) ++ [slash]).splitOn slash = []::(kept.map Prod.fst ++ [[]]) := by
      rw [List.splitOn_append_cons_self,split_]
      rfl
    have read := normalizePartsAgain all [] [] [[]] (by simp)
    simp only [if_true,normalizeRequestPath,if_neg (some' [slash]),parts,normalizeParts,read]
    simp [bare]
    omega
  | false =>
    have read := normalizePartsAgain all [] [] [] (by simp)
    have bare := bare []
    have nonnil := some' []
    simp only [List.append_nil] at read bare nonnil
    simp only [Bool.false_eq_true,if_false,List.append_nil,normalizeRequestPath,if_neg nonnil,split_,
      normalizeParts,read]
    simp [bare,solid]

theorem pathSpelled {n : NormalizedPath} {kept : List (Bytes × Bytes)} (all : ∀ k ∈ kept, Kept k.1 k.2)
    (filled : kept ≠ []) (encoded : n.encodedRelative = join (kept.map Prod.fst)) :
    n.encodedPathWithDirHint = slashed (kept.map Prod.fst) ++ if n.dirHint then [slash] else [] := by
  have parts : kept.map Prod.fst ≠ [] := by simpa using filled
  have relative : n.encodedRelative ≠ [] := by
    rw [encoded]
    exact mt (joinEmpty (keptSpelled all).2).mp parts
  have path : n.encodedPath = slash::n.encodedRelative := if_neg relative
  unfold NormalizedPath.encodedPathWithDirHint
  rw [path,← slashedJoin parts,← encoded]
  cases n.dirHint <;> simp [relative]

theorem normalizedAgain {raw : Bytes} {n : NormalizedPath} (h : normalizeRequestPath raw = some n) :
    ∃ hint, normalizeRequestPath n.encodedPathWithDirHint = some ⟨n.relative,n.encodedRelative,hint⟩ := by
  obtain ⟨kept,all,encoded,relative⟩ := normalizedKept h
  by_cases empty : kept = []
  · subst empty
    have bare : n.encodedPathWithDirHint = [slash] := by
      simp [NormalizedPath.encodedPathWithDirHint,NormalizedPath.encodedPath,encoded,join]
    rw [bare,encoded,relative]
    exact ⟨true,by decide⟩
  · refine ⟨n.dirHint,?_⟩
    rw [pathSpelled all empty encoded,normalizeSpelled all empty,encoded,relative]

/- The segments a path was reduced to, each as it is written and as it reads. -/
structure NormalForm (raw : Bytes) (n : NormalizedPath) (kept : List (Bytes × Bytes)) : Prop where
  relative : n.relative = join (kept.map Prod.snd)
  encoded : n.encodedRelative = join (kept.map Prod.fst)
  proper : ∀ k ∈ kept, k.2 ≠ [] ∧ k.2 ≠ ascii "." ∧ k.2 ≠ ascii ".." ∧ slash ∉ k.2
  spelled : ∀ k ∈ kept, k.1 ≠ [] ∧ slash ∉ k.1 ∧ Decodes k.1 k.2
  resolved : ∃ decoded, List.Forall₂ Decodes (segments raw) decoded ∧
    resolveDots decoded [] = some (kept.map Prod.snd)
  again : ∃ hint, normalizeRequestPath n.encodedPathWithDirHint = some ⟨n.relative,n.encodedRelative,hint⟩

theorem normalizeSegments (raw : Bytes) :
    normalizeParts ((if raw = [] then [slash] else raw).splitOn slash) [] [] = normalizeParts (segments raw) [] [] := by
  rw [segments,normalizePartsSegments]
  split
  · rename_i empty
    rw [empty]
    rfl
  · rfl

theorem normalizedExact (raw : Bytes) : (∀ n, normalizeRequestPath raw = some n → ∃ kept, NormalForm raw n kept) ∧
    (normalizeRequestPath raw = none ↔ Refused (segments raw) []) := by
  have proper : ∀ part ∈ segments raw, part ≠ [] := fun part mem => by simpa using (List.mem_filter.mp mem).2
  have free : ∀ part ∈ segments raw, slash ∉ part := fun part mem => splitOnFree (List.mem_filter.mp mem).1
  obtain ⟨fails,succeeds⟩ := normalizePartsExact proper (rfl : ([] : List Bytes).length = ([] : List Bytes).length)
  constructor
  · intro n normal
    have again := normalizedAgain normal
    simp only [normalizeRequestPath,normalizeSegments,bind,Option.bind_eq_some_iff] at normal
    obtain ⟨⟨decoded,components⟩,read,same⟩ := normal
    obtain ⟨kept,all,rawIs,decodedIs⟩ := normalizePartsKept [] free (by simp) rfl rfl read
    obtain ⟨outs,decodes,resolved⟩ := succeeds _ _ read
    cases same
    refine ⟨kept,by rw [decodedIs],by rw [rawIs],fun k mem => ?_,fun k mem => ?_,⟨outs,decodes,?_⟩,again⟩
    · have here := all k mem
      exact ⟨percentDecodeSome here.read here.rawSome,here.notDot,here.notDots,here.plain⟩
    · have here := all k mem
      exact ⟨here.rawSome,here.rawPlain,(decodesIff _ _).mp here.read⟩
    · rw [resolved,decodedIs]
  · rw [← fails]
    simp only [normalizeRequestPath,normalizeSegments,bind,Option.bind_eq_none_iff]
    constructor
    · intro none
      cases read : normalizeParts (segments raw) [] [] with
      | none => rfl
      | some pair => exact absurd (none pair read) (by simp)
    · intro none pair read
      rw [none] at read
      cases read

end ZeroServe.RequestPath
