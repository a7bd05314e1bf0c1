import ZeroServe.ClientHello
import ZeroServe.IpText

/-! The JA4 fingerprint of a TLS ClientHello, over any digest: the order of the cipher suites and of
the extensions and the reserved values a client mixes in do not show in it. -/
namespace ZeroServe.Tls
open ByteText ByteReader
open Ip (hexDigit hexGroup)

def extAlpn : Nat := 0x0010
def extSignatureAlgorithms : Nat := 0x000d

def signatureAlgorithms : Bytes → List Nat
  | lenHi::lenLo::rest =>
    match bytes (number [lenHi,lenLo]) rest with
    | none => []
    | some (values,_) =>
      if values.length % 2 ≠ 0 then [] else (readU16List values).filter fun v => ! isGrease v
  | _ => []

def isAsciiAlphanumeric (b : UInt8) : Bool :=
  (48 ≤ b && b ≤ 57) || (65 ≤ b && b ≤ 90) || (97 ≤ b && b ≤ 122)

/- The first and the last byte of the first protocol; other bytes than letters and digits show
the first digit of the one and the last digit of the other. -/
def alpnMarker (body : Bytes) : Option Bytes :=
  if body.length < 3 then none else do
  let (listLen,body) ← u16 body
  let (list,_) ← bytes listLen body
  let (firstLen,rest) ← u8 list
  if firstLen = 0 then none else do
  let (first,_) ← bytes firstLen.toNat rest
  let firstByte ← first.head?
  let lastByte ← first.getLast?
  if isAsciiAlphanumeric firstByte && isAsciiAlphanumeric lastByte then some [firstByte,lastByte]
  else some [hexDigit (firstByte.toNat / 16),hexDigit (lastByte.toNat % 16)]

def originalHexList (values : List Nat) : Bytes := List.intercalate [44] (values.map hexGroup)

def sortedHexList (values : List Nat) : Bytes := originalHexList (values.insertionSort (· ≤ ·))

def hexPrefix : Bytes → Nat → Bytes
  | [],_ => []
  | _,0 => []
  | b::_,1 => [hexDigit (b.toNat / 16)]
  | b::rest,chars+2 => hexDigit (b.toNat / 16)::hexDigit (b.toNat % 16)::hexPrefix rest chars

def zeroHash : Bytes := ascii "000000000000"

def ja4Version (version : Nat) : Bytes :=
  if version = 0x0304 then ascii "13" else
  if version = 0x0303 then ascii "12" else
  if version = 0x0302 then ascii "11" else
  if version = 0x0301 then ascii "10" else
  if version = 0x0300 then ascii "s3" else
  if version = 0x0002 then ascii "s2" else
  if version = 0xfeff then ascii "d1" else
  if version = 0xfefd then ascii "d2" else
  if version = 0xfefc then ascii "d3" else ascii "00"

def twoDigitCount (count : Nat) : Bytes :=
  [hexDigit (min count 99 / 10),hexDigit (min count 99 % 10)]

namespace ParsedClientHello

def find (parsed : ParsedClientHello) (ty : Nat) : Option Extension :=
  parsed.extensions.find? fun ext => ext.ty == ty

def plainCiphers (parsed : ParsedClientHello) : List Nat :=
  parsed.ciphers.filter fun v => ! isGrease v

def plainExtensions (parsed : ParsedClientHello) : List Extension :=
  parsed.extensions.filter fun ext => ! isGrease ext.ty

def extensionValues (parsed : ParsedClientHello) : List Nat :=
  (parsed.extensions.map Extension.ty).filter fun v => ! isGrease v && v != extSni && v != extAlpn

def sniMarker (parsed : ParsedClientHello) : Bytes :=
  if parsed.extensions.any fun ext => ext.ty == extSni then ascii "d" else ascii "i"

def alpn (parsed : ParsedClientHello) : Bytes :=
  ((parsed.find extAlpn).bind fun ext => alpnMarker ext.body).getD (ascii "00")

def sigAlgs (parsed : ParsedClientHello) : List Nat :=
  ((parsed.find extSignatureAlgorithms).map fun ext => signatureAlgorithms ext.body).getD []

end ParsedClientHello

/- SHA-256 is the digest of the code. -/
variable (sha256 : Bytes → Bytes)

def truncatedSha256 (input : Bytes) : Bytes := hexPrefix (sha256 input) 12

def hashListOrZero (list : Bytes) : Bytes :=
  if list.isEmpty then zeroHash else truncatedSha256 sha256 list

def extensionHash (parsed : ParsedClientHello) : Bytes :=
  let extensionList := sortedHexList parsed.extensionValues
  if extensionList.isEmpty then zeroHash else
  let sigAlgList := originalHexList parsed.sigAlgs
  truncatedSha256 sha256
    (if sigAlgList.isEmpty then extensionList else extensionList ++ ascii "_" ++ sigAlgList)

def parsedFingerprint (parsed : ParsedClientHello) : Bytes :=
  ascii "t" ++ ja4Version (parsed.supportedVersion.getD parsed.legacyVersion) ++ parsed.sniMarker ++
    twoDigitCount parsed.plainCiphers.length ++ twoDigitCount parsed.plainExtensions.length ++
    parsed.alpn ++ ascii "_" ++ hashListOrZero sha256 (sortedHexList parsed.plainCiphers) ++
    ascii "_" ++ extensionHash sha256 parsed

def tlsClientFingerprint (clientHello : Bytes) : Option Bytes :=
  (parseClientHello ((stripHandshakeHeader clientHello).getD clientHello)).map
    (parsedFingerprint sha256)

def SameValues (values values' : List Nat) : Prop :=
  values.filter (fun v => ! isGrease v) = values'.filter fun v => ! isGrease v

def SameVersions (body body' : Bytes) : Prop :=
  ∃ values values' tail, SameValues values values' ∧
    (∀ v ∈ values ++ values', v < 65536) ∧
    (values.flatMap be16).length < 256 ∧ (values'.flatMap be16).length < 256 ∧
    body = vec8 (values.flatMap be16) ++ tail ∧ body' = vec8 (values'.flatMap be16) ++ tail

def SameAlgorithms (body body' : Bytes) : Prop :=
  ∃ values values' tail, SameValues values values' ∧
    (∀ v ∈ values ++ values', v < 65536) ∧
    (values.flatMap be16).length < 65536 ∧ (values'.flatMap be16).length < 65536 ∧
    body = vec16 (values.flatMap be16) ++ tail ∧ body' = vec16 (values'.flatMap be16) ++ tail

inductive SameExtension : Extension → Extension → Prop where
  | same (ext : Extension) : SameExtension ext ext
  | versions {body body' : Bytes} (listed : SameVersions body body') :
      SameExtension ⟨extSupportedVersions,body⟩ ⟨extSupportedVersions,body'⟩
  | algorithms {body body' : Bytes} (listed : SameAlgorithms body body') :
      SameExtension ⟨extSignatureAlgorithms,body⟩ ⟨extSignatureAlgorithms,body'⟩

/- The cipher suites and the extensions of one message are those of the other in another order,
besides the reserved values. -/
structure Alike (parsed parsed' : ParsedClientHello) : Prop where
  legacyVersion : parsed.legacyVersion = parsed'.legacyVersion
  ciphers : parsed.plainCiphers.Perm parsed'.plainCiphers
  distinct : (parsed.plainExtensions.map Extension.ty).Nodup
  extensions : ∃ order, List.Forall₂ SameExtension parsed.plainExtensions order ∧
    order.Perm parsed'.plainExtensions

theorem readU16ListEncoded {values} (fit : ∀ v ∈ values, v < 65536) : readU16List (values.flatMap be16) = values := by
  induction values with
  | nil => rfl
  | cons v later ih =>
    have here := numberBe16 (fit v List.mem_cons_self)
    have rest := ih fun v mem => fit v (List.mem_cons_of_mem _ mem)
    exact congrArg₂ List.cons here rest

theorem supportedVersionsEncoded {values : List Nat} (fit : ∀ v ∈ values, v < 65536)
    (size : (values.flatMap be16).length < 256) (tail : Bytes) :
    supportedVersionsMax (vec8 (values.flatMap be16) ++ tail) = (values.filter fun v => ! isGrease v).max? := by
  have length : (UInt8.ofNat (values.flatMap be16).length).toNat = (values.flatMap be16).length := by
    rw [UInt8.toNat_ofNat']
    omega
  change (bytes (UInt8.ofNat (values.flatMap be16).length).toNat (values.flatMap be16 ++ tail)).bind _ = _
  rw [length,bytesAppend rfl,Option.bind_some]
  simp only [ciphersEven,ne_eq,not_true,if_false,readU16ListEncoded fit]

theorem signatureAlgorithmsEncoded {values : List Nat} (fit : ∀ v ∈ values, v < 65536)
    (size : (values.flatMap be16).length < 65536) (tail : Bytes) :
    signatureAlgorithms (vec16 (values.flatMap be16) ++ tail) = values.filter fun v => ! isGrease v := by
  have even := ciphersEven values
  have read := readU16ListEncoded fit
  generalize values.flatMap be16 = flat at even read size ⊢
  have length : number [UInt8.ofNat (flat.length / 256),UInt8.ofNat flat.length] = flat.length :=
    numberBe16 size
  have shape : vec16 flat ++ tail =
      UInt8.ofNat (flat.length / 256)::UInt8.ofNat flat.length::(flat ++ tail) := rfl
  simp only [shape,signatureAlgorithms,length,bytesAppend rfl,even,ne_eq,not_true,if_false,read]

section
variable {l l' : List Extension}

theorem findPlain {ty} (plain : isGrease ty = false) (l : List Extension) : (l.find? fun ext => ext.ty == ty) =
      (l.filter fun ext => ! isGrease ext.ty).find? fun ext => ext.ty == ty := by
  rw [List.find?_filter]
  congr 1
  funext ext
  by_cases same : ext.ty = ty
  · simp [same,plain]
  · simp [same]

theorem findReordered (reordered : l.Perm l') (distinct : (l.map Extension.ty).Nodup) (ty : Nat) :
    (l.find? fun ext => ext.ty == ty) = l'.find? fun ext => ext.ty == ty := by
  induction reordered with
  | nil => rfl
  | cons ext later ih =>
    rw [List.find?_cons,List.find?_cons,ih (List.nodup_cons.mp distinct).2]
  | swap first second rest =>
    have differ : second.ty ≠ first.ty := fun same =>
      (List.nodup_cons.mp distinct).1 (by simp [same])
    simp only [List.find?_cons]
    cases here : second.ty == ty with
    | false => rfl
    | true =>
      have other : (first.ty == ty) = false := by
        rw [← eq_of_beq here]
        exact beq_false_of_ne differ.symm
      simp only [other]
  | trans first second ihFirst ihSecond =>
    exact (ihFirst distinct).trans (ihSecond ((first.map Extension.ty).nodup_iff.mp distinct))

theorem SameExtension.type {ext ext'} (same : SameExtension ext ext') : ext.ty = ext'.ty := by
  cases same <;> rfl

theorem typesAlike (related : List.Forall₂ SameExtension l l') : l.map Extension.ty = l'.map Extension.ty := by
  induction related with
  | nil => rfl
  | cons here later ih => rw [List.map_cons,List.map_cons,here.type,ih]

theorem findAlike (related : List.Forall₂ SameExtension l l') (ty : Nat) :
    Option.Rel (fun ext ext' => SameExtension ext ext' ∧ ext.ty = ty)
      (l.find? fun ext => ext.ty == ty) (l'.find? fun ext => ext.ty == ty) := by
  induction related with
  | nil => exact .none
  | cons here later ih =>
    rw [List.find?_cons,List.find?_cons,← here.type]
    split
    · rename_i found
      exact .some ⟨here,eq_of_beq found⟩
    · exact ih

end

section
variable {parsed parsed' : ParsedClientHello} (alike : Alike parsed parsed')
include alike

theorem Alike.find {ty} (plain : isGrease ty = false) :
    Option.Rel (fun ext ext' => SameExtension ext ext' ∧ ext.ty = ty) (parsed.find ty) (parsed'.find ty) := by
  obtain ⟨order,related,reordered⟩ := alike.extensions
  have distinct := alike.distinct
  rw [typesAlike related] at distinct
  have found := findAlike related ty
  rw [findReordered reordered distinct] at found
  rw [ParsedClientHello.find,ParsedClientHello.find,findPlain plain parsed.extensions,
    findPlain plain parsed'.extensions]
  exact found

theorem Alike.read {ty} {β : Type} (plain : isGrease ty = false) {f : Bytes → Option β}
    (same : ∀ ext ext', SameExtension ext ext' → ext.ty = ty → f ext.body = f ext'.body) :
    ((parsed.find ty).bind fun ext => f ext.body) = (parsed'.find ty).bind fun ext => f ext.body := by
  have found := alike.find plain
  generalize parsed.find ty = left, parsed'.find ty = right at found ⊢
  cases found with
  | none => rfl
  | some related => exact same _ _ related.1 related.2

theorem Alike.types : (parsed.plainExtensions.map Extension.ty).Perm (parsed'.plainExtensions.map Extension.ty) := by
  obtain ⟨order,related,reordered⟩ := alike.extensions
  rw [typesAlike related]
  exact reordered.map Extension.ty

theorem Alike.sniMarker : parsed.sniMarker = parsed'.sniMarker := by
  have found := alike.find (show isGrease extSni = false from rfl)
  have isSome (p : ParsedClientHello) : (p.extensions.any fun ext => ext.ty == extSni) = (p.find extSni).isSome := by
    rw [ParsedClientHello.find,Bool.eq_iff_iff,List.any_eq_true,List.find?_isSome]
  rw [ParsedClientHello.sniMarker,ParsedClientHello.sniMarker,isSome,isSome]
  generalize parsed.find extSni = left, parsed'.find extSni = right at found ⊢
  cases found <;> rfl

theorem Alike.alpn : parsed.alpn = parsed'.alpn := by
  unfold ParsedClientHello.alpn
  rw [alike.read rfl]
  intro ext ext' same ty
  cases same with
  | same => rfl
  | versions => cases ty
  | algorithms => cases ty

theorem Alike.sigAlgs : parsed.sigAlgs = parsed'.sigAlgs := by
  unfold ParsedClientHello.sigAlgs
  rw [Option.map_eq_bind,Option.map_eq_bind]
  exact congrArg (Option.getD · []) (alike.read (f := some ∘ signatureAlgorithms) rfl (by
    intro ext ext' same ty
    cases same with
    | same => rfl
    | versions => cases ty
    | algorithms listed =>
      obtain ⟨values,values',tail,same,fit,size,size',rfl,rfl⟩ := listed
      have left := signatureAlgorithmsEncoded
        (fun v mem => fit v (List.mem_append_left _ mem)) size tail
      have right := signatureAlgorithmsEncoded
        (fun v mem => fit v (List.mem_append_right _ mem)) size' tail
      exact congrArg some (left.trans (same.trans right.symm))))

theorem Alike.versions : ((parsed.find extSupportedVersions).bind fun ext => supportedVersionsMax ext.body) =
    (parsed'.find extSupportedVersions).bind fun ext => supportedVersionsMax ext.body := by
  refine alike.read rfl ?_
  intro ext ext' same ty
  cases same with
  | same => rfl
  | algorithms => cases ty
  | versions listed =>
    obtain ⟨values,values',tail,same,fit,size,size',rfl,rfl⟩ := listed
    rw [supportedVersionsEncoded (fun v mem => fit v (List.mem_append_left _ mem)) size,
      supportedVersionsEncoded (fun v mem => fit v (List.mem_append_right _ mem)) size',same]

theorem Alike.extensionValues : parsed.extensionValues.Perm parsed'.extensionValues := by
  have plain (p : ParsedClientHello) : p.extensionValues =
      (p.plainExtensions.map Extension.ty).filter fun v => v != extSni && v != extAlpn := by
    rw [ParsedClientHello.extensionValues,ParsedClientHello.plainExtensions,List.filter_map,
      List.filter_map,List.filter_filter]
    congr 2
    funext ext
    simp only [Function.comp_apply]
    cases isGrease ext.ty <;> simp
  rw [plain,plain]
  exact alike.types.filter _

end

theorem sortedHexPerm {values values'} (reordered : values.Perm values') :
    sortedHexList values = sortedHexList values' := by
  have same := ((List.perm_insertionSort (· ≤ ·) values).trans reordered).trans
    (List.perm_insertionSort (· ≤ ·) values').symm
  rw [sortedHexList,sortedHexList,same.eq_of_pairwise' (List.pairwise_insertionSort _ _)
    (List.pairwise_insertionSort _ _)]

theorem parsedVersion {m parsed} (accepted : parseClientHello m = some parsed) : parsed.supportedVersion =
      (parsed.find extSupportedVersions).bind fun ext => supportedVersionsMax ext.body := by
  simp only [parseClientHello,bind,Option.bind_eq_some_iff,Option.ite_none_left_eq_some] at accepted
  obtain ⟨_,_,_,_,_,_,_,_,_,_,_,_,_,_,_,_,_,_,_,whole⟩ := accepted
  cases whole
  rfl

theorem parsedFingerprintAlike {m m' parsed parsed'} (accepted : parseClientHello m = some parsed)
    (accepted' : parseClientHello m' = some parsed') (alike : Alike parsed parsed') :
    parsedFingerprint sha256 parsed = parsedFingerprint sha256 parsed' := by
  have versions := alike.versions
  rw [← parsedVersion accepted,← parsedVersion accepted'] at versions
  have counted : parsed.plainExtensions.length = parsed'.plainExtensions.length := by
    simpa only [List.length_map] using alike.types.length_eq
  have hashed : extensionHash sha256 parsed = extensionHash sha256 parsed' := by
    rw [extensionHash,extensionHash,sortedHexPerm alike.extensionValues,alike.sigAlgs]
  rw [parsedFingerprint,parsedFingerprint,versions,alike.legacyVersion,alike.sniMarker,
    alike.ciphers.length_eq,counted,alike.alpn,sortedHexPerm alike.ciphers,hashed]

def Presents (handed body : Bytes) : Prop :=
  stripHandshakeHeader handed = some body ∨ (stripHandshakeHeader handed = none ∧ handed = body)

theorem presentedFingerprint {handed body parsed} (presents : Presents handed body)
    (accepted : parseClientHello body = some parsed) :
    tlsClientFingerprint sha256 handed = some (parsedFingerprint sha256 parsed) := by
  unfold tlsClientFingerprint
  rcases presents with full | ⟨plain,rfl⟩
  · rw [full,Option.getD_some,accepted,Option.map_some]
  · rw [plain,Option.getD_none,accepted,Option.map_some]

theorem fingerprintStable {handed handed' body body' : Bytes} {parsed parsed' : ParsedClientHello}
    (presents : Presents handed body) (presents' : Presents handed' body')
    (accepted : parseClientHello body = some parsed) (accepted' : parseClientHello body' = some parsed')
    (alike : Alike parsed parsed') : ∃ fingerprint, tlsClientFingerprint sha256 handed = some fingerprint ∧
      tlsClientFingerprint sha256 handed' = some fingerprint := by
  refine ⟨parsedFingerprint sha256 parsed,presentedFingerprint sha256 presents accepted,?_⟩
  rw [presentedFingerprint sha256 presents' accepted', parsedFingerprintAlike sha256 accepted accepted' alike]

def helloBody (ciphers : List Nat) (extensions : List Extension) : Bytes :=
  be16 0x0303 ++ List.replicate 32 7 ++ vec8 [] ++ vec16 (ciphers.flatMap be16) ++ vec8 [0] ++
    vec16 (extensions.flatMap fun ext => be16 ext.ty ++ vec16 ext.body)

def sniSent : Extension := ⟨extSni,[0,4,0,0,1,97]⟩

def reservedExtensions : List Extension :=
  [⟨0x1a1a,[]⟩,sniSent,⟨extSupportedVersions,[4,0x2a,0x2a,3,4]⟩,⟨extSignatureAlgorithms,[0,4,4,3,0x3a,0x3a]⟩]
def plainlySent : List Extension :=
  [⟨extSignatureAlgorithms,[0,2,4,3]⟩,⟨extSupportedVersions,[2,3,4]⟩,sniSent]

def reservedMessage : Bytes :=
  let body := helloBody [0x0a0a,0x1301,0x1302] reservedExtensions
  1::(be24 body.length ++ body)

theorem reservedDropped : ∃ fingerprint, tlsClientFingerprint id reservedMessage = some fingerprint ∧
      tlsClientFingerprint id (helloBody [0x1302,0x1301] plainlySent) = some fingerprint := by
  have full : Presents reservedMessage (helloBody [0x0a0a,0x1301,0x1302] reservedExtensions) :=
    .inl (by decide +kernel)
  have plain : Presents (helloBody [0x1302,0x1301] plainlySent) (helloBody [0x1302,0x1301] plainlySent) :=
    .inr ⟨by decide +kernel,rfl⟩
  have accepted : parseClientHello (helloBody [0x0a0a,0x1301,0x1302] reservedExtensions) =
      some ⟨0x0303,some 0x0304,[0x0a0a,0x1301,0x1302],reservedExtensions⟩ := by decide +kernel
  have accepted' : parseClientHello (helloBody [0x1302,0x1301] plainlySent) =
      some ⟨0x0303,some 0x0304,[0x1302,0x1301],plainlySent⟩ := by decide +kernel
  refine fingerprintStable id full plain accepted accepted'
    ⟨rfl,by decide,by decide,plainlySent.reverse,?_,by decide⟩
  refine .cons (.same sniSent) (.cons (.versions ⟨[0x2a2a,0x0304],[0x0304],[],?_⟩)
    (.cons (.algorithms ⟨[0x0403,0x3a3a],[0x0403],[],?_⟩) .nil))
  · exact ⟨rfl,by decide,by decide,by decide,rfl,rfl⟩
  · exact ⟨rfl,by decide,by decide,by decide,rfl,rfl⟩

def shiftedHello (first second : Nat) : Bytes :=
  [1,0,0,43] ++ List.replicate 30 0 ++ vec8 [0,0,0,2] ++ vec16 (be16 first ++ be16 second) ++ vec8 [0]

theorem orderShows : parseClientHello (shiftedHello 0x0002 0x1301) = some ⟨0x0100,none,[0x0002,0x1301],[]⟩ ∧
      parseClientHello (shiftedHello 0x1301 0x0002) = some ⟨0x0100,none,[0x1301,0x0002],[]⟩ ∧
      Alike ⟨0x0100,none,[0x0002,0x1301],[]⟩ ⟨0x0100,none,[0x1301,0x0002],[]⟩ ∧
      (tlsClientFingerprint id (shiftedHello 0x0002 0x1301)).isSome = true ∧
      tlsClientFingerprint id (shiftedHello 0x1301 0x0002) = none := by
  refine ⟨by decide +kernel,by decide +kernel,?_,by decide +kernel,by decide +kernel⟩
  exact ⟨rfl,by decide,by decide,[],.nil,.nil⟩

end ZeroServe.Tls
