import ZeroServe.LiteralRewrite
import ZeroServe.PassThru
import ZeroServe.ScriptUri

/-! Percent escapes of file names: the escape a rewrite writes is undone by the normalisation
of the request path, and which texts are read back as they are written. -/
namespace ZeroServe.TryFiles
open ByteText RequestPath Script SiteFiles
open UriTemplate (caddyPathEscapePreservingSlashes escapeBut unreserved)
open RegexMatch (splitOnText joinCons)

theorem hexPair : ∀ b : UInt8, hexVal (hexUpper (b / 16)) = some (b / 16) ∧
    hexVal (hexUpper (b % 16)) = some (b % 16) ∧ ((b / 16) <<< 4 ||| b % 16) = b := by decide +kernel

theorem decodeOther {b} (other : b ≠ percent) (rest : Bytes) :
    percentDecode (b::rest) = (percentDecode rest).map (b::·) := by
  rcases rest with _ | ⟨h,_ | ⟨l,later⟩⟩
  · rfl
  · rfl
  · rw [percentDecode,if_neg other]

theorem decodeEscape (b : UInt8) (rest : Bytes) :
    percentDecode (percent::hexUpper (b / 16)::hexUpper (b % 16)::rest) = (percentDecode rest).map (b::·) := by
  obtain ⟨high,low,whole⟩ := hexPair b
  rw [percentDecode]
  simp only [high,low,bind,Option.bind_some]
  rw [whole]
  cases percentDecode rest <;> rfl

theorem unreservedOther : ∀ b : UInt8, unreserved b = true → b ≠ percent := by decide +kernel

theorem escapeStep (b : UInt8) (rest : Bytes) : caddyPathEscapePreservingSlashes (b::rest) =
    (if unreserved b then [b] else if b = slash then [slash]
      else [percent,hexUpper (b / 16),hexUpper (b % 16)]) ++ caddyPathEscapePreservingSlashes rest := by
  rfl

theorem decodeEscaped (text : Bytes) : percentDecode (caddyPathEscapePreservingSlashes text) = some text := by
  induction text with
  | nil => rfl
  | cons b rest ih =>
    rw [escapeStep]
    split
    · rename_i free
      rw [List.singleton_append,decodeOther (unreservedOther b free),ih]
      rfl
    · split
      · rename_i sep
        rw [List.singleton_append,decodeOther (by decide),ih,sep]
        rfl
      · show percentDecode (percent::hexUpper (b / 16)::hexUpper (b % 16):: caddyPathEscapePreservingSlashes rest) = _
        rw [decodeEscape,ih]
        rfl

def escapedByte (b : UInt8) : Bool := unreserved b || b == slash || b == percent

theorem escapedBytes {text} : ∀ b ∈ caddyPathEscapePreservingSlashes text, escapedByte b = true := by
  have hex : ∀ b : UInt8, escapedByte (hexUpper (b / 16)) = true ∧ escapedByte (hexUpper (b % 16)) = true := by
    decide +kernel
  induction text with
  | nil => simp [caddyPathEscapePreservingSlashes,escapeBut]
  | cons c rest ih =>
    intro b mem
    rw [escapeStep] at mem
    rcases List.mem_append.mp mem with here | later
    · split at here
      · rename_i free
        rw [List.mem_singleton.mp here]
        simp [escapedByte,free]
      · split at here
        · rw [List.mem_singleton.mp here]
          decide
        · simp only [List.mem_cons,List.not_mem_nil,or_false] at here
          rcases here with rfl | rfl | rfl
          · decide
          · exact (hex c).1
          · exact (hex c).2
    · exact ih b later

theorem escapedSlash {part} (free : slash ∉ part) : slash ∉ caddyPathEscapePreservingSlashes part := by
  have hex : ∀ b : UInt8, hexUpper (b / 16) ≠ slash ∧ hexUpper (b % 16) ≠ slash := by decide +kernel
  induction part with
  | nil => simp [caddyPathEscapePreservingSlashes,escapeBut]
  | cons c rest ih =>
    rw [List.mem_cons,not_or] at free
    rw [escapeStep,List.mem_append,not_or]
    refine ⟨?_,ih free.2⟩
    split
    · simpa using free.1
    · rw [if_neg (Ne.symm free.1)]
      simp only [List.mem_cons,List.not_mem_nil,or_false,not_or]
      exact ⟨by decide,Ne.symm (hex c).1,Ne.symm (hex c).2⟩

theorem escapeAppend (a b : Bytes) : caddyPathEscapePreservingSlashes (a ++ b) =
    caddyPathEscapePreservingSlashes a ++ caddyPathEscapePreservingSlashes b := by
  simp [caddyPathEscapePreservingSlashes,escapeBut]

theorem escapeJoin (parts : List Bytes) : caddyPathEscapePreservingSlashes (join parts) =
    join (parts.map caddyPathEscapePreservingSlashes) := by
  induction parts with
  | nil => rfl
  | cons part later ih =>
    by_cases last : later = []
    · rw [last]
      simp [join]
    · rw [joinCons last,List.map_cons,joinCons (by simpa using last),escapeAppend,← ih]
      rfl

theorem readBack {name} {encode : Bytes → Bytes} (filled : name ≠ []) (plain : Plain name) (text : validUtf8 name = true)
    (encoded : ∀ part ∈ name.splitOn slash, slash ∉ encode part ∧ percentDecode (encode part) = some part) :
    ∃ n, normalizeRequestPath (slash::join ((name.splitOn slash).map encode)) = some n ∧ n.relative = name := by
  have clean := plain.resolve_left filled
  let kept := (name.splitOn slash).map fun part => (encode part,part)
  have raw : kept.map Prod.fst = (name.splitOn slash).map encode := by simp [kept]
  have decoded : kept.map Prod.snd = name.splitOn slash := by simp [kept,Function.comp_def]
  have all : ∀ k ∈ kept, Kept k.1 k.2 := by
    intro k mem
    obtain ⟨part,inside,rfl⟩ := List.mem_map.mp mem
    have here := clean part inside
    obtain ⟨free,read⟩ := encoded part inside
    refine ⟨free,?_,read,here.notDot,here.notDots,here.plain,splitOnText (by decide) text inside⟩
    intro (empty : encode part = [])
    rw [empty] at read
    exact here.nonempty (Option.some.inj read).symm
  have parts : (join ((name.splitOn slash).map encode)).splitOn slash = kept.map Prod.fst := by
    rw [raw]
    refine splitJoin (fun part mem => ?_) (by simp)
    obtain ⟨original,inside,rfl⟩ := List.mem_map.mp mem
    exact (encoded original inside).1
  have again := normalizePartsAgain all [] [] [] (by simp)
  rw [List.append_nil,List.nil_append,List.nil_append] at again
  have read : normalizeParts ((slash::join ((name.splitOn slash).map encode)).splitOn slash) [] [] =
      some (kept.map Prod.snd,kept.map Prod.fst) := by
    rw [splitSlash,normalizeParts,if_pos rfl,parts,again]
  have whole : join (name.splitOn slash) = name := List.intercalate_splitOn slash
  refine Option.map_eq_some_iff.mp ?_
  simp only [normalizeRequestPath,if_neg (List.cons_ne_nil _ _),read,bind,Option.bind_some,Option.map_some]
  rw [decoded,whole]

theorem escapedNormal {name} (plain : Plain name) (text : validUtf8 name = true) :
    ∃ n, normalizeRequestPath (caddyPathEscapePreservingSlashes (slash::name)) = some n ∧ n.relative = name := by
  by_cases empty : name = []
  · rw [empty]
    exact ⟨_,rfl,rfl⟩
  · have whole : join (name.splitOn slash) = name := List.intercalate_splitOn slash
    have parts := escapeJoin (name.splitOn slash)
    rw [whole] at parts
    rw [escapeStep,parts]
    exact readBack empty plain text fun part inside =>
      ⟨escapedSlash (plain.resolve_left empty part inside).plain,decodeEscaped part⟩

def hasEscape : Bytes → Bool
  | b::h::l::later => b == percent || hasEscape (h::l::later)
  | _ => false

theorem escapeCons {b} (other : b ≠ percent) (rest : Bytes) : hasEscape (b::rest) = hasEscape rest := by
  rcases rest with _ | ⟨h,_ | ⟨l,later⟩⟩
  · rfl
  · rfl
  · rw [hasEscape,beq_eq_false_iff_ne.mpr other,Bool.false_or]

theorem decodeLength {s out} (read : percentDecode s = some out) :
    out.length ≤ s.length ∧ (hasEscape s = true → out.length < s.length) := by
  fun_induction percentDecode s generalizing out with
  | case1 h l later ih =>
    simp only [bind,Option.bind_eq_some_iff] at read
    obtain ⟨_,_,_,_,rest,inner,same⟩ := read
    cases same
    have short := (ih inner).1
    simp only [List.length_cons]
    exact ⟨by omega,fun _ => by omega⟩
  | case2 b h l later other ih =>
    obtain ⟨rest,inner,rfl⟩ := Option.map_eq_some_iff.mp read
    obtain ⟨short,shorter⟩ := ih inner
    rw [escapeCons other,List.length_cons,List.length_cons]
    exact ⟨by omega,fun escape => by have := shorter escape; omega⟩
  | case3 b rest few ih =>
    obtain ⟨inside,inner,rfl⟩ := Option.map_eq_some_iff.mp read
    have short := (ih inner).1
    refine ⟨by simpa using short,fun escape => ?_⟩
    rcases rest with _ | ⟨h,_ | ⟨l,later⟩⟩
    · cases escape
    · cases escape
    · exact absurd rfl (few h l later)
  | case4 =>
    cases read
    exact ⟨le_rfl,fun escape => by cases escape⟩

theorem decodeSelf {s} : percentDecode s = some s ↔ hasEscape s = false := by
  constructor
  · intro read
    cases escape : hasEscape s with
    | false => rfl
    | true => exact absurd ((decodeLength read).2 escape) (lt_irrefl _)
  · intro empty
    fun_induction percentDecode s with
    | case1 h l later ih => simp [hasEscape] at empty
    | case2 b h l later other ih =>
      rw [escapeCons other] at empty
      rw [ih empty]
      rfl
    | case3 b rest few ih =>
      have inner : hasEscape rest = false := by
        rcases rest with _ | ⟨h,_ | ⟨l,later⟩⟩
        · rfl
        · rfl
        · exact absurd rfl (few h l later)
      rw [ih inner]
      rfl
    | case4 => rfl

theorem normalizeFull {parts decoded raw out components}
    (read : normalizeParts parts decoded raw = some (out,components)) : out.length ≤ decoded.length + parts.length ∧
    (out.length = decoded.length + parts.length → ∃ new, parts.map percentDecode = new.map some ∧
      out = decoded ++ new) := by
  induction parts generalizing decoded raw with
  | nil =>
    cases read
    exact ⟨le_rfl,fun _ => ⟨[],rfl,by simp⟩⟩
  | cons part later ih =>
    rw [normalizeParts] at read
    rw [List.length_cons]
    split at read
    · have short := (ih read).1
      exact ⟨by omega,fun full => by omega⟩
    · simp only [bind,Option.bind_eq_some_iff] at read
      obtain ⟨value,here,read⟩ := read
      split at read
      · have short := (ih read).1
        exact ⟨by omega,fun full => by omega⟩
      · split at read
        · split at read
          · cases read
          · have short := (ih read).1
            rw [List.length_dropLast] at short
            exact ⟨by omega,fun full => by omega⟩
        · split at read
          · cases read
          · split at read
            · obtain ⟨short,full⟩ := ih read
              rw [List.length_append,List.length_singleton] at short full
              refine ⟨by omega,fun equal => ?_⟩
              obtain ⟨new,values,whole⟩ := full (by omega)
              exact ⟨value::new,by rw [List.map_cons,List.map_cons,here,values],by rw [whole]; simp⟩
            · cases read

theorem readAsWritten {name} (filled : name ≠ []) (plain : Plain name) (text : validUtf8 name = true) :
    (∃ n, normalizeRequestPath (slash::name) = some n ∧ n.relative = name) ↔
      ∀ part ∈ name.splitOn slash, hasEscape part = false := by
  have clean := plain.resolve_left filled
  have whole : join (name.splitOn slash) = name := List.intercalate_splitOn slash
  constructor
  · rintro ⟨n,normal,same⟩ part mem
    simp only [normalizeRequestPath,if_neg (List.cons_ne_nil _ _),bind,Option.bind_eq_some_iff] at normal
    obtain ⟨⟨decoded,components⟩,read,is⟩ := normal
    cases is
    rw [splitSlash,normalizeParts] at read
    obtain ⟨kept,all,_,decodedIs⟩ := normalizePartsKept [] (fun _ => splitOnFree) (by simp) rfl rfl read
    have free : ∀ part ∈ decoded, slash ∉ part := by
      rw [decodedIs]
      intro part mem
      obtain ⟨k,inside,rfl⟩ := List.mem_map.mp mem
      exact (all k inside).plain
    have joined := same
    have parts : name.splitOn slash = decoded := by
      rw [← joined]
      refine splitJoin free ?_
      rintro rfl
      exact filled joined.symm
    obtain ⟨new,values,is⟩ := (normalizeFull read).2 (by rw [parts]; simp)
    rw [List.nil_append] at is
    rw [← is,parts] at values
    rw [parts] at mem
    exact decodeSelf.mp (List.map_inj_left.mp values part mem)
  · intro quiet
    have written := @readBack name id filled plain text fun part mem =>
      ⟨(clean part mem).plain,decodeSelf.mpr (quiet part mem)⟩
    rwa [List.map_id,whole] at written

end ZeroServe.TryFiles
