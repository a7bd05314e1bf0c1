import ZeroServe.EchConfig
import ZeroServe.Base64
import ZeroServe.ByteTrim

/-! ECH key files: pairs of PEM blocks, a private key and a config. -/
namespace ZeroServe.Ech
open ByteText ByteReader Base64

def pemLabelKey : Bytes := ascii "ECH PRIVATE KEY"
def pemLabelConfig : Bytes := ascii "ECH CONFIG"

structure EchKeyPair where
  privateKey : Bytes
  config : EchConfig
  deriving DecidableEq

structure PemBlock where
  label : Bytes
  body : Bytes
  deriving DecidableEq

inductive PemError where
  | notUtf8
  | expectedBegin (line : Bytes)
  | missingEnd (label : Bytes)
  | invalidBase64 (label : Bytes)
  | configBeforeKey
  | unexpectedLabel (label : Bytes)
  | missingConfig
  | expectedConfig (found : Bytes)
  | decodingConfig (e : EchError)
  deriving DecidableEq

def chompCr (line : Bytes) : Bytes := if line.getLast? = some 13 then line.dropLast else line

def lines (text : Bytes) : List Bytes :=
  let pieces := text.splitOn 10
  pieces.dropLast.map chompCr ++ (pieces.getLast?.filter (· ≠ [])).toList

def dashes : Bytes := ascii "-----"
def beginMark : Bytes := ascii "-----BEGIN "
def endMark : Bytes := ascii "-----END "

def beginMarker (label : Bytes) : Bytes := beginMark ++ label ++ dashes
def endMarker (label : Bytes) : Bytes := endMark ++ label ++ dashes

def beginLabel (line : Bytes) : Option Bytes :=
  if beginMark.isPrefixOf line then
    let rest := line.drop beginMark.length
    if dashes.isSuffixOf rest then some (rest.take (rest.length - dashes.length)) else none
  else none

/- The two nested loops over the lines as one; `open_` is the block a line is in, with its label
and the text so far. -/
def pemBlocks (decode : Bytes → Option Bytes) : List Bytes → Option (Bytes × Bytes) →
    Except PemError (List PemBlock)
  | [],none => .ok []
  | [],some (label,_) => .error (.missingEnd label)
  | line::rest,none =>
    let trimmed := strTrim line
    if trimmed = [] then pemBlocks decode rest none else
    match beginLabel trimmed with
    | none => .error (.expectedBegin trimmed)
    | some label => pemBlocks decode rest (some (label,[]))
  | line::rest,some (label,b64) =>
    let t := strTrim line
    if t = endMarker label then
      match decode b64 with
      | none => .error (.invalidBase64 label)
      | some body => (pemBlocks decode rest none).map (⟨label,body⟩::·)
    else if t = [] then pemBlocks decode rest (some (label,b64))
    else pemBlocks decode rest (some (label,b64 ++ t))

def parsePemBlocks (decode : Bytes → Option Bytes) (bytes : Bytes) : Except PemError (List PemBlock) :=
  if validUtf8 bytes then pemBlocks decode (lines bytes) none else .error .notUtf8

def pairBlocks : List PemBlock → Except PemError (List EchKeyPair)
  | [] => .ok []
  | [first] =>
    if first.label = pemLabelKey then .error .missingConfig
    else if first.label = pemLabelConfig then .error .configBeforeKey
    else .error (.unexpectedLabel first.label)
  | first::second::rest =>
    if first.label = pemLabelKey then
      if second.label ≠ pemLabelConfig then .error (.expectedConfig second.label) else
      match EchConfig.decode second.body with
      | .error e => .error (.decodingConfig e)
      | .ok config => (pairBlocks rest).map (⟨first.body,config⟩::·)
    else if first.label = pemLabelConfig then .error .configBeforeKey
    else .error (.unexpectedLabel first.label)

def parsePemBundle (decode : Bytes → Option Bytes) (bytes : Bytes) : Except PemError (List EchKeyPair) :=
  parsePemBlocks decode bytes >>= pairBlocks

def buildSslEchKeys (pairs : List EchKeyPair) : Option (List Bytes) := pairs.mapM fun p => p.config.encode
def configListBytes (pairs : List EchKeyPair) : Option Bytes := encodeList (pairs.map EchKeyPair.config)

def chunks : Nat → Bytes → List Bytes
  | 0,_ => []
  | fuel+1,s => if s = [] then [] else s.take 64::chunks fuel (s.drop 64)

variable (codec : Codec)

def writePemBlock (label body : Bytes) : Bytes :=
  let encoded := codec.encode body
  beginMarker label ++ [10] ++ (chunks encoded.length encoded).flatMap (· ++ [10]) ++ endMarker label ++ [10]

def encodePairPem (p : EchKeyPair) : Option Bytes := do
  let config ← p.config.encode
  some (writePemBlock codec pemLabelKey p.privateKey ++ writePemBlock codec pemLabelConfig config)

def nameEnd (contents : Bytes) : Nat :=
  let suites := 5 + number ((contents.drop 3).take 2)
  let name := suites + 2 + number ((contents.drop suites).take 2) + 1
  name + 1 + ((contents.drop name).headD 0).toNat

def EndsAfterName (body : Bytes) : Prop := (body.drop 4).drop (nameEnd (body.drop 4)) = [0,0]
instance (body : Bytes) : Decidable (EndsAfterName body) := inferInstanceAs (Decidable (_ = _))

theorem nameEndFields {c : EchConfig} (pk : c.publicKey.length < 65536) (cs : c.suiteBytes.length < 65536)
    (pn : c.publicName.length < 256) (tail : Bytes) : nameEnd (c.fields ++ tail) = c.fields.length := by
  have keySize : number (((c.fields ++ tail).drop 3).take 2) = c.publicKey.length := by
    rw [← numberBe16 pk]
    simp [EchConfig.fields,be8,be16,vec16]
  have atSuites : (c.fields ++ tail).drop (5 + c.publicKey.length) =
      vec16 c.suiteBytes ++ be8 c.maximumNameLength.toNat ++ vec8 c.publicName ++ tail := by
    have cut : c.fields ++ tail = (be8 c.configId.toNat ++ be16 c.kemId.toNat ++ vec16 c.publicKey) ++
        (vec16 c.suiteBytes ++ be8 c.maximumNameLength.toNat ++ vec8 c.publicName ++ tail) := by
      simp only [EchConfig.fields,List.append_assoc]
    rw [cut]
    exact List.drop_left' (by simp [be8,be16,vec16]; omega)
  have suiteSize : number (((c.fields ++ tail).drop (5 + c.publicKey.length)).take 2) = c.suiteBytes.length := by
    rw [atSuites,← numberBe16 cs]
    simp [be16,vec16]
  have atName : (c.fields ++ tail).drop (5 + c.publicKey.length + 2 + c.suiteBytes.length + 1) =
      vec8 c.publicName ++ tail := by
    have again := congrArg (List.drop (2 + c.suiteBytes.length + 1)) atSuites
    rw [List.drop_drop] at again
    rw [show 5 + c.publicKey.length + 2 + c.suiteBytes.length + 1 =
      5 + c.publicKey.length + (2 + c.suiteBytes.length + 1) by omega,again]
    rw [show vec16 c.suiteBytes ++ be8 c.maximumNameLength.toNat ++ vec8 c.publicName ++ tail =
      (vec16 c.suiteBytes ++ be8 c.maximumNameLength.toNat) ++ (vec8 c.publicName ++ tail) by
        simp only [List.append_assoc]]
    exact List.drop_left' (by simp [be8,be16,vec16]; omega)
  have nameSize : (((c.fields ++ tail).drop (5 + c.publicKey.length + 2 + c.suiteBytes.length + 1)).headD 0).toNat =
      c.publicName.length := by
    rw [atName]
    simp only [vec8,be8,List.cons_append,List.headD_cons,UInt8.toNat_ofNat']
    omega
  simp only [nameEnd,keySize,suiteSize,nameSize]
  simp [EchConfig.fields,be8,be16,vec16,vec8]
  omega

theorem vec16Inj {a b : Bytes} : vec16 a = vec16 b ↔ a = b := by
  refine ⟨fun h => ?_,fun h => by rw [h]⟩
  have tails := congrArg (List.drop 2) h
  simpa [vec16,be16] using tails

theorem encodeDecoded {body : Bytes} {c : EchConfig} (h : EchConfig.decode body = .ok c) :
    c.encode = some body ↔ EndsAfterName body := by
  obtain ⟨ext,rest,is,read,size⟩ := decodeOk h
  obtain ⟨-,pk,cs,pn,-⟩ := contentsOk read
  have suites := suiteBytesLength c
  have contents : body.drop 4 = c.fields ++ (vec16 ext ++ rest) := by
    rw [is,List.append_assoc c.fields]
    rfl
  have short : c.contents.length < 65536 := by
    simp only [List.length_append,vec16,be16,List.length_cons] at size
    simp only [EchConfig.contents,List.length_append,List.length_cons,List.length_nil]
    omega
  have encoded : c.encode = some (be16 echConfigVersionV18 ++ vec16 c.contents) := by
    rw [EchConfig.encode,if_neg (by omega),if_neg (by omega),if_neg (by omega),if_neg (by omega)]
  rw [encoded,Option.some.injEq,EndsAfterName,contents,nameEndFields pk cs pn,List.drop_left,is,
    List.append_cancel_left_eq,vec16Inj,EchConfig.contents,List.append_assoc,List.append_cancel_left_eq]
  exact eq_comm

theorem pairsOfBlocks {blocks : List PemBlock} {pairs : List EchKeyPair} (h : pairBlocks blocks = .ok pairs) :
    List.Forall₂ (fun p b => EchConfig.decode b = .ok p.config) pairs
      ((blocks.filter (·.label = pemLabelConfig)).map PemBlock.body) := by
  have apart : pemLabelKey ≠ pemLabelConfig := by decide +kernel
  fun_induction pairBlocks blocks generalizing pairs with
  | case1 =>
    cases h
    exact .nil
  | case7 first second rest key config_ config decoded ih =>
    cases later : pairBlocks rest with
    | error e =>
      rw [later] at h
      cases h
    | ok more =>
      rw [later] at h
      cases h
      have label : second.label = pemLabelConfig := by simpa using config_
      rw [List.filter_cons_of_neg (by simp [key,apart]),List.filter_cons_of_pos (by simp [label])]
      exact .cons decoded (ih later)
  | _ => cases h

theorem registeredBodies {pairs : List EchKeyPair} {bodies : List Bytes}
    (matched : List.Forall₂ (fun p body => EchConfig.decode body = .ok p.config) pairs bodies) :
    buildSslEchKeys pairs = some bodies ↔ ∀ body ∈ bodies, EndsAfterName body := by
  unfold buildSslEchKeys
  induction matched with
  | nil => simp
  | @cons p body ps bs decoded later ih =>
    rw [List.mapM_cons,List.forall_mem_cons,← ih,← encodeDecoded decoded]
    simp only [bind,pure,Option.bind_eq_some_iff,Option.some.injEq,List.cons.injEq]
    constructor
    · rintro ⟨encoded,is,rest,more,rfl,rfl⟩
      exact ⟨is,more⟩
    · rintro ⟨is,more⟩
      exact ⟨body,is,bs,more,rfl,rfl⟩

/- For every key file that is accepted: each config is served as its block has it exactly when
nothing but an empty list of extensions follows the public name. -/
theorem echServedExact (decode : Bytes → Option Bytes) (file : Bytes) (pairs : List EchKeyPair)
    (accepted : parsePemBundle decode file = .ok pairs) : ∃ blocks bodies, parsePemBlocks decode file = .ok blocks ∧
      bodies = (blocks.filter (·.label = pemLabelConfig)).map PemBlock.body ∧
      List.Forall₂ (fun p body => EchConfig.decode body = .ok p.config ∧
        (p.config.encode = some body ↔ EndsAfterName body)) pairs bodies ∧
      (buildSslEchKeys pairs = some bodies ↔ ∀ body ∈ bodies, EndsAfterName body) ∧
      ((∀ body ∈ bodies, EndsAfterName body) → bodies.flatten.length < 65536 →
        configListBytes pairs = some (vec16 bodies.flatten)) := by
  obtain ⟨blocks,read,paired⟩ := bindOk accepted
  have matched := pairsOfBlocks paired
  generalize bodies_ : (blocks.filter (·.label = pemLabelConfig)).map PemBlock.body = bodies at matched
  have registered := registeredBodies matched
  refine ⟨blocks,bodies,read,bodies_.symm,matched.imp fun _ _ decoded => ⟨decoded,encodeDecoded decoded⟩,
    registered,fun plain short => ?_⟩
  have each : (pairs.map EchKeyPair.config).mapM EchConfig.encode = some bodies := by
    rw [List.mapM_map]
    exact registered.mpr plain
  rw [configListBytes,encodeList,each]
  exact if_neg (by omega)

def smallConfig : EchConfig := ⟨7,0x20,[0xab],[⟨1,1⟩],0,ascii "a.test",by decide +kernel⟩
def smallBody : Bytes := be16 echConfigVersionV18 ++ vec16 smallConfig.contents
def extendedBody : Bytes := be16 echConfigVersionV18 ++ vec16 (smallConfig.fields ++ vec16 [0,1,0,0])

def keyFile (body : Bytes) : Bytes :=
  writePemBlock standard pemLabelKey [0x55] ++ writePemBlock standard pemLabelConfig body

theorem smallConfigServed : parsePemBundle Base64.decode (keyFile smallBody) = .ok [⟨[0x55],smallConfig⟩] ∧
    ∃ blocks bodies, parsePemBlocks Base64.decode (keyFile smallBody) = .ok blocks ∧
      bodies = (blocks.filter (·.label = pemLabelConfig)).map PemBlock.body ∧
      List.Forall₂ (fun (p : EchKeyPair) body => EchConfig.decode body = .ok p.config ∧
        (p.config.encode = some body ↔ EndsAfterName body)) [⟨[0x55],smallConfig⟩] bodies ∧
      (buildSslEchKeys [⟨[0x55],smallConfig⟩] = some bodies ↔ ∀ body ∈ bodies, EndsAfterName body) ∧
      ((∀ body ∈ bodies, EndsAfterName body) → bodies.flatten.length < 65536 →
        configListBytes [⟨[0x55],smallConfig⟩] = some (vec16 bodies.flatten)) := by
  have accepted : parsePemBundle Base64.decode (keyFile smallBody) = .ok [⟨[0x55],smallConfig⟩] := by
    decide +kernel
  exact ⟨accepted,echServedExact Base64.decode _ _ accepted⟩

theorem extensionLost : parsePemBlocks Base64.decode (keyFile extendedBody) =
      .ok [⟨pemLabelKey,[0x55]⟩,⟨pemLabelConfig,extendedBody⟩] ∧
    parsePemBundle Base64.decode (keyFile extendedBody) = .ok [⟨[0x55],smallConfig⟩] ∧
    smallConfig.encode ≠ some extendedBody := by decide +kernel

variable {codec : Codec}

variable {l : Bytes} {ls : List Bytes} {label : Bytes}

theorem splitLines (free : ∀ l ∈ ls, 10 ∉ l) : (ls.flatMap (· ++ [10])).splitOn 10 = ls ++ [[]] := by
  induction ls with
  | nil => rfl
  | cons l later ih =>
    obtain ⟨here,rest⟩ := List.forall_mem_cons.mp free
    rw [List.flatMap_cons,List.append_assoc,List.singleton_append,List.splitOn_append_cons_self_of_not_mem here,ih rest]
    rfl

theorem linesJoined (free : ∀ l ∈ ls, 10 ∉ l) : lines (ls.flatMap (· ++ [10])) = ls.map chompCr := by
  simp [lines,splitLines free]

theorem chompCrFree (free : 13 ∉ l) : chompCr l = l := by
  rw [chompCr,if_neg]
  intro last
  exact free (List.mem_of_getLast? last)

def Blank (l : Bytes) : Prop := ∀ b ∈ l, asciiWhitespace b = true ∧ b ≠ 10

theorem blankTrim (blank : ∀ b ∈ l, asciiWhitespace b = true) : strTrim l = [] := by
  rw [strTrimPlain fun b mem => blankPlain b (blank b mem),trimAscii,trimAsciiStart,
    List.dropWhile_eq_nil_iff.mpr blank]
  rfl

theorem blankLine (blank : Blank l) : strTrim (chompCr l) = [] := by
  apply blankTrim
  intro b mem
  refine (blank b ?_).1
  unfold chompCr at mem
  split at mem
  · exact List.mem_of_mem_dropLast mem
  · exact mem

theorem letterPlain : ∀ b : UInt8, alphabet b = true →
    plainByte b = true ∧ asciiWhitespace b = false ∧ b ≠ 10 ∧ b ≠ 13 ∧ b ≠ 45 ∧ b < 128 := by
  decide +kernel

theorem chunksOf {fuel} {s : Bytes} (enough : s.length ≤ fuel) :
    (chunks fuel s).flatten = s ∧ ∀ l ∈ chunks fuel s, l ≠ [] ∧ l ⊆ s := by
  induction fuel generalizing s with
  | zero =>
    have empty : s = [] := List.length_eq_zero_iff.mp (by omega)
    simp [chunks,empty]
  | succ fuel ih =>
    rw [chunks]
    split
    · rename_i empty
      simp [empty]
    · rename_i given
      have shorter : (s.drop 64).length ≤ fuel := by
        rw [List.length_drop]
        omega
      obtain ⟨whole,each⟩ := ih shorter
      refine ⟨by rw [List.flatten_cons,whole,List.take_append_drop],?_⟩
      rw [List.forall_mem_cons]
      refine ⟨⟨by simpa using given,List.take_subset 64 s⟩,fun l mem => ?_⟩
      exact ⟨(each l mem).1,List.Subset.trans (each l mem).2 (List.drop_subset 64 s)⟩

def bodyLines (codec : Codec) (body : Bytes) : List Bytes := chunks (codec.encode body).length (codec.encode body)

structure BodyLine (l : Bytes) : Prop where
  filled : l ≠ []
  letters : ∀ b ∈ l, alphabet b = true

theorem bodyLinesOk (body : Bytes) :
    (bodyLines codec body).flatten = codec.encode body ∧ ∀ l ∈ bodyLines codec body, BodyLine l := by
  obtain ⟨whole,each⟩ := chunksOf (le_refl (codec.encode body).length)
  exact ⟨whole,fun l mem => ⟨(each l mem).1,fun b inside => codec.letters body b ((each l mem).2 inside)⟩⟩

theorem BodyLine.trim (h : BodyLine l) : strTrim l = l := by
  rw [strTrimPlain fun b mem => (letterPlain b (h.letters b mem)).1]
  exact trimAsciiNone fun b mem => (letterPlain b (h.letters b mem)).2.1

structure Marked (label : Bytes) : Prop where
  begins : beginLabel (strTrim (beginMarker label)) = some label
  notBlank : strTrim (beginMarker label) ≠ []
  ends : strTrim (endMarker label) = endMarker label
  plain : ∀ b ∈ label, b ≠ 10 ∧ b ≠ 13 ∧ b < 128

theorem keyMarked : Marked pemLabelKey := ⟨by decide +kernel,by decide +kernel,by decide +kernel,by decide +kernel⟩
theorem configMarked : Marked pemLabelConfig :=
  ⟨by decide +kernel,by decide +kernel,by decide +kernel,by decide +kernel⟩

def blockLines (codec : Codec) (label body : Bytes) : List Bytes :=
  beginMarker label::(bodyLines codec body ++ [endMarker label])

theorem blockText (label body : Bytes) :
    writePemBlock codec label body = (blockLines codec label body).flatMap (· ++ [10]) := by
  simp [writePemBlock,blockLines,bodyLines]

theorem bodyRead {decode : Bytes → Option Bytes} (each : ∀ l ∈ ls, BodyLine l)
    (b64 : Bytes) (rest : List Bytes) :
    pemBlocks decode (ls ++ rest) (some (label,b64)) = pemBlocks decode rest (some (label,b64 ++ ls.flatten)) := by
  induction ls generalizing b64 with
  | nil => simp
  | cons l later ih =>
    obtain ⟨here,more⟩ := List.forall_mem_cons.mp each
    have other : l ≠ endMarker label := by
      intro same
      have dash : 45 ∈ l := by
        rw [same]
        exact List.mem_append_right _ (by decide +kernel)
      exact (letterPlain 45 (here.letters 45 dash)).2.2.2.2.1 rfl
    simp only [List.cons_append,pemBlocks,here.trim,if_neg other,if_neg here.filled]
    rw [ih more,List.flatten_cons,List.append_assoc]

theorem blockRead (marked : Marked label) (body : Bytes) (rest : List Bytes) :
    pemBlocks codec.decode (blockLines codec label body ++ rest) none =
      (pemBlocks codec.decode rest none).map (⟨label,body⟩::·) := by
  obtain ⟨whole,each⟩ := bodyLinesOk body
  simp only [blockLines,List.cons_append,pemBlocks,if_neg marked.notBlank,marked.begins,List.append_assoc]
  rw [bodyRead each]
  simp only [List.nil_append,pemBlocks,marked.ends,if_true,whole,codec.inverts]

theorem gapRead {decode : Bytes → Option Bytes} {gap : List Bytes} (blank : ∀ l ∈ gap, strTrim l = [])
    (rest : List Bytes) : pemBlocks decode (gap ++ rest) none = pemBlocks decode rest none := by
  induction gap with
  | nil => rfl
  | cons l later ih =>
    obtain ⟨here,more⟩ := List.forall_mem_cons.mp blank
    simp only [List.cons_append,pemBlocks,here]
    exact ih more

def bundles (codec : Codec) : List (List Bytes × EchKeyPair) → Option Bytes
  | [] => some []
  | (gap,p)::later => do
    let pem ← encodePairPem codec p
    let rest ← bundles codec later
    some (gap.flatMap (· ++ [10]) ++ pem ++ rest)

def decodeTimes : Nat → Bytes → Except EchError (List EchConfig × Bytes)
  | 0,s => .ok ([],s)
  | n+1,s => do
    let (config,s) ← decodeFrom s
    let (later,s) ← decodeTimes n s
    .ok (config::later,s)

def encodedConfig (c : EchConfig) : Bytes := be16 echConfigVersionV18 ++ vec16 c.contents

def pairLines (codec : Codec) (p : EchKeyPair) : List Bytes :=
  blockLines codec pemLabelKey p.privateKey ++ blockLines codec pemLabelConfig (encodedConfig p.config)

def pairBlock (p : EchKeyPair) : List PemBlock :=
  [⟨pemLabelKey,p.privateKey⟩,⟨pemLabelConfig,encodedConfig p.config⟩]

variable {items : List (List Bytes × EchKeyPair)}

theorem bundlesText (fits : ∀ item ∈ items, item.2.config.Fits) :
    bundles codec items = some ((items.flatMap fun item => item.1 ++ pairLines codec item.2).flatMap (· ++ [10])) := by
  induction items with
  | nil => rfl
  | cons item later ih =>
    obtain ⟨here,rest⟩ := List.forall_mem_cons.mp fits
    obtain ⟨gap,p⟩ := item
    have pem : encodePairPem codec p = some ((pairLines codec p).flatMap (· ++ [10])) := by
      rw [encodePairPem,encodeFits here,pairLines,List.flatMap_append,← blockText,← blockText]
      rfl
    rw [bundles,pem,ih rest]
    simp only [bind,Option.bind_some,List.flatMap_cons,List.flatMap_append]

theorem marksPlain : ∀ b ∈ beginMark ++ endMark ++ dashes, b ≠ 10 ∧ b ≠ 13 ∧ b < 128 := by decide +kernel

theorem blockPlain (marked : Marked label) (body : Bytes) :
    ∀ l ∈ blockLines codec label body, ∀ b ∈ l, b ≠ 10 ∧ b ≠ 13 ∧ b < 128 := by
  have marks := marksPlain
  simp only [List.forall_mem_append] at marks
  obtain ⟨⟨begins,ends⟩,dash⟩ := marks
  rw [blockLines,List.forall_mem_cons,List.forall_mem_append]
  refine ⟨?_,fun l mem b inside => ?_,?_⟩
  · simp only [beginMarker,List.forall_mem_append]
    exact ⟨⟨begins,marked.plain⟩,dash⟩
  · have letter := letterPlain b (((bodyLinesOk body).2 l mem).letters b inside)
    exact ⟨letter.2.2.1,letter.2.2.2.1,letter.2.2.2.2.2⟩
  · simp only [List.forall_mem_singleton,endMarker,List.forall_mem_append]
    exact ⟨⟨ends,marked.plain⟩,dash⟩

theorem pairPlain (p : EchKeyPair) : ∀ l ∈ pairLines codec p, ∀ b ∈ l, b ≠ 10 ∧ b ≠ 13 ∧ b < 128 :=
  List.forall_mem_append.mpr ⟨blockPlain keyMarked _,blockPlain configMarked _⟩

theorem pairChomped (p : EchKeyPair) : (pairLines codec p).map chompCr = pairLines codec p := by
  have same : ∀ l ∈ pairLines codec p, chompCr l = id l := fun l mem =>
    chompCrFree fun inside => (pairPlain p l mem 13 inside).2.1 rfl
  rw [List.map_congr_left same,List.map_id]

theorem bundlesPlain (codec : Codec) (blank : ∀ item ∈ items, ∀ l ∈ item.1, Blank l) {last : List Bytes}
    (blankEnd : ∀ l ∈ last, Blank l) :
    (∀ l ∈ (items.flatMap fun item => item.1 ++ pairLines codec item.2) ++ last, 10 ∉ l) ∧
    validUtf8 (((items.flatMap fun item => item.1 ++ pairLines codec item.2) ++ last).flatMap (· ++ [10])) =
      true := by
  have blanks : ∀ l, Blank l → ∀ b ∈ l, b ≠ 10 ∧ b < 128 := by
    intro l all b mem
    have low := blankPlain b (all b mem).1
    simp only [plainByte,Bool.and_eq_true,decide_eq_true_eq] at low
    exact ⟨(all b mem).2,low.1⟩
  have plain : ∀ l ∈ (items.flatMap fun item => item.1 ++ pairLines codec item.2) ++ last,
      ∀ b ∈ l, b ≠ 10 ∧ b < 128 := by
    intro l mem
    rcases List.mem_append.mp mem with inside | after
    · obtain ⟨item,listed,line⟩ := List.mem_flatMap.mp inside
      rcases List.mem_append.mp line with gap | text
      · exact blanks l (blank item listed l gap)
      · exact fun b mem => ⟨(pairPlain item.2 l text b mem).1,(pairPlain item.2 l text b mem).2.2⟩
    · exact blanks l (blankEnd l after)
  refine ⟨fun l mem inside => (plain l mem 10 inside).1 rfl,validUtf8Low fun b mem => ?_⟩
  obtain ⟨l,listed,inside⟩ := List.mem_flatMap.mp mem
  rcases List.mem_append.mp inside with here | feed
  · exact (plain l listed b here).2
  · rw [List.mem_singleton.mp feed]
    decide

theorem bundlesRead (blank : ∀ item ∈ items, ∀ l ∈ item.1, Blank l) {last : List Bytes} (blankEnd : ∀ l ∈ last, Blank l) :
    pemBlocks codec.decode (((items.flatMap fun item => item.1 ++ pairLines codec item.2) ++ last).map chompCr) none =
      .ok (items.flatMap fun item => pairBlock item.2) := by
  have gaps : ∀ {gap : List Bytes}, (∀ l ∈ gap, Blank l) → ∀ l ∈ gap.map chompCr, strTrim l = [] := by
    intro gap all l mem
    obtain ⟨line,listed,rfl⟩ := List.mem_map.mp mem
    exact blankLine (all line listed)
  induction items with
  | nil =>
    have read : pemBlocks codec.decode (last.map chompCr ++ []) none = pemBlocks codec.decode [] none :=
      gapRead (gaps blankEnd) []
    simpa [pemBlocks] using read
  | cons item later ih =>
    obtain ⟨here,rest⟩ := List.forall_mem_cons.mp blank
    simp only [List.flatMap_cons,List.append_assoc,List.map_append,pairChomped]
    rw [gapRead (gaps here),pairLines,List.append_assoc,blockRead keyMarked,blockRead configMarked]
    rw [← List.map_append,ih rest]
    rfl

theorem pairsRead (fits : ∀ item ∈ items, item.2.config.Fits) :
    pairBlocks (items.flatMap fun item => pairBlock item.2) = .ok (items.map Prod.snd) := by
  induction items with
  | nil => rfl
  | cons item later ih =>
    obtain ⟨here,rest⟩ := List.forall_mem_cons.mp fits
    simp only [List.flatMap_cons,pairBlock,List.cons_append,List.nil_append,pairBlocks,encodedConfig,decodeEncoded here]
    have tail := ih rest
    simp only [pairBlock,encodedConfig] at tail
    rw [tail]
    rfl

theorem configsRead {configs : List EchConfig} (fits : ∀ c ∈ configs, c.Fits) :
    configs.mapM EchConfig.encode = some (configs.map encodedConfig) ∧
      decodeTimes configs.length (configs.flatMap encodedConfig) = .ok (configs,[]) := by
  induction configs with
  | nil => exact ⟨rfl,rfl⟩
  | cons c later ih =>
    obtain ⟨here,rest⟩ := List.forall_mem_cons.mp fits
    obtain ⟨encoded,decoded⟩ := ih rest
    constructor
    · rw [List.mapM_cons,encodeFits here,encoded]
      rfl
    · simp only [List.length_cons,decodeTimes,List.flatMap_cons,encodedConfig,bind,Except.bind, decodeFromEncoded here]
      rw [decoded]

theorem echRoundTrip (codec : Codec) (items : List (List Bytes × EchKeyPair)) (last : List Bytes)
    (fits : ∀ item ∈ items, item.2.config.Fits) (blank : ∀ item ∈ items, ∀ l ∈ item.1, Blank l)
    (blankEnd : ∀ l ∈ last, Blank l) : (∃ file, bundles codec items = some file ∧
      parsePemBundle codec.decode (file ++ last.flatMap (· ++ [10])) = .ok (items.map Prod.snd)) ∧
    (((items.map fun item => item.2.config).map fun c => c.contents.length + 4).sum ≤ 65535 →
      ∃ body, encodeList (items.map fun item => item.2.config) = some (be16 body.length ++ body) ∧
        body.length ≤ 65535 ∧ decodeTimes items.length body = .ok (items.map fun item => item.2.config,[])) := by
  constructor
  · refine ⟨_,bundlesText fits,?_⟩
    rw [← List.flatMap_append]
    obtain ⟨free,text⟩ := bundlesPlain codec blank blankEnd
    rw [parsePemBundle,parsePemBlocks,if_pos text,linesJoined free,bundlesRead blank blankEnd]
    exact pairsRead fits
  · intro short
    have each : ∀ c ∈ items.map fun item => item.2.config, c.Fits := by
      simpa only [List.forall_mem_map] using fits
    obtain ⟨encoded,decoded⟩ := configsRead each
    have size : ((items.map fun item => item.2.config).flatMap encodedConfig).length ≤ 65535 := by
      rw [List.length_flatMap]
      exact short
    refine ⟨_,?_,size,by simpa using decoded⟩
    rw [encodeList,encoded]
    simp only [bind,Option.bind_some,← List.flatMap_def]
    rw [if_neg (by omega)]
    rfl

theorem smallFits : smallConfig.Fits :=
  ⟨by decide,by decide,by decide,by decide +kernel,by decide +kernel⟩

theorem smallRoundTrip :
    let items : List (List Bytes × EchKeyPair) := [([],⟨[0x55],smallConfig⟩),([[],[32,9,13]],⟨[],smallConfig⟩)]
    (∃ file, bundles standard items = some file ∧
      parsePemBundle standard.decode (file ++ []) = .ok (items.map Prod.snd)) ∧
    (((items.map fun item => item.2.config).map fun c => c.contents.length + 4).sum ≤ 65535 →
      ∃ body, encodeList (items.map fun item => item.2.config) = some (be16 body.length ++ body) ∧
        body.length ≤ 65535 ∧
        decodeTimes items.length body = .ok (items.map fun item => item.2.config,[])) :=
  echRoundTrip standard _ [] (by simp [smallFits]) (by simp [Blank,asciiWhitespace]) (by simp)

end ZeroServe.Ech
