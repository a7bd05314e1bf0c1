import ZeroServe.ByteReader

/-! The server name of a TLS ClientHello: the wire format of the message and the reader
that recovers the name from it. -/
namespace ZeroServe.Tls
open ByteText ByteReader

def extSni : Nat := 0x0000
def extSupportedVersions : Nat := 0x002b

structure Extension where
  ty : Nat
  body : Bytes
  deriving DecidableEq

structure ParsedClientHello where
  legacyVersion : Nat
  supportedVersion : Option Nat
  ciphers : List Nat
  extensions : List Extension
  deriving DecidableEq

def readU16List : Bytes → List Nat
  | a::b::rest => number [a,b]::readU16List rest
  | _ => []

def isGrease (value : Nat) : Bool :=
  value / 256 == value % 256 && value % 16 == 0x0a

def supportedVersionsMax : Bytes → Option Nat
  | [] => none
  | len::rest => do
    let (versions,_) ← bytes len.toNat rest
    if versions.length % 2 ≠ 0 then none else
    ((readU16List versions).filter fun v => ! isGrease v).max?

def parseExtensions : Nat → Bytes → Option (List Extension)
  | _,[] => some []
  | 0,_ => none
  | fuel+1,input => do
    let (ty,input) ← u16 input
    let (len,input) ← u16 input
    let (body,rest) ← bytes len input
    let out ← parseExtensions fuel rest
    some (⟨ty,body⟩::out)

def extensionsAfter (input : Bytes) : Option (List Extension) :=
  if input.isEmpty then some [] else do
  let (extensionsLen,input) ← u16 input
  let (extensionsBytes,input) ← bytes extensionsLen input
  if ! input.isEmpty then none else parseExtensions extensionsBytes.length extensionsBytes

def parseClientHello (input : Bytes) : Option ParsedClientHello := do
  let (legacyVersion,input) ← u16 input
  let (_,input) ← bytes 32 input
  let (sessionIdLen,input) ← u8 input
  let (_,input) ← bytes sessionIdLen.toNat input
  let (ciphersLen,input) ← u16 input
  if ciphersLen % 2 ≠ 0 then none else
  let (ciphersBytes,input) ← bytes ciphersLen input
  let (compressionLen,input) ← u8 input
  let (_,input) ← bytes compressionLen.toNat input
  let extensions ← extensionsAfter input
  let supportedVersion :=
    (extensions.find? fun ext => ext.ty == extSupportedVersions).bind fun ext =>
      supportedVersionsMax ext.body
  some ⟨legacyVersion,supportedVersion,readU16List ciphersBytes,extensions⟩

def stripHandshakeHeader (input : Bytes) : Option Bytes :=
  if input.length < 4 || input.head? != some 1 then none else
  if input.length = number (input.tail.take 3) + 4 then some (input.drop 4) else none

def hostNameEntry : Nat → Bytes → Option Bytes
  | 0,_ => none
  | fuel+1,entries =>
    if entries.isEmpty then none else do
    let (nameType,entries) ← u8 entries
    let (nameLen,entries) ← u16 entries
    let (name,entries) ← bytes nameLen entries
    if nameType = 0 then (if validUtf8 name then some (lower name) else none)
    else hostNameEntry fuel entries

def parseSniHostName (body : Bytes) : Option Bytes := do
  let (listLen,body) ← u16 body
  let (list,_) ← bytes listLen body
  hostNameEntry list.length list

def clientHelloSni (handshakeMessage : Bytes) : Option Bytes := do
  let body ← stripHandshakeHeader handshakeMessage
  let parsed ← parseClientHello body
  let ext ← parsed.extensions.find? fun ext => ext.ty == extSni
  parseSniHostName ext.body

def outerSniFromRecord (record : Bytes) : Option Bytes :=
  if record.length < 5 || record.head? != some 0x16 then none else do
  let (fragment,_) ← bytes (number ((record.drop 3).take 2)) (record.drop 5)
  clientHelloSni fragment

structure ServerNameEntry where
  nameType : UInt8
  name : Bytes
  text : validUtf8 name = true
  size : name.length < 65536

inductive HelloExtension where
  | serverName (entries : List ServerNameEntry)
  | other (ty : Nat) (body : Bytes)

def ServerNameEntry.encode (e : ServerNameEntry) : Bytes := e.nameType::vec16 e.name

def HelloExtension.ty : HelloExtension → Nat
  | .serverName _ => extSni
  | .other ty _ => ty

def HelloExtension.body : HelloExtension → Bytes
  | .serverName entries => vec16 (entries.flatMap ServerNameEntry.encode)
  | .other _ body => body

def HelloExtension.encode (e : HelloExtension) : Bytes := be16 e.ty ++ vec16 e.body

structure HelloExtension.Fits (e : HelloExtension) : Prop where
  ty : e.ty < 65536
  body : e.body.length < 65536
  /- The extension with the server name's number is a server name list. -/
  sni : ∀ ty body, e = .other ty body → ty ≠ extSni

structure Hello where
  recordVersion : UInt8 × UInt8
  version : Nat
  random : Bytes
  sessionId : Bytes
  ciphers : List Nat
  compression : Bytes
  /- Old clients send no extensions block at all. -/
  extensions : Option (List HelloExtension)
  versionFits : version < 65536
  randomFits : random.length = 32
  sessionIdFits : sessionId.length < 256
  ciphersFit : (ciphers.flatMap be16).length < 65536
  compressionFits : compression.length < 256
  extensionFits : ∀ e ∈ extensions.getD [], e.Fits
  extensionsFit : ((extensions.getD []).flatMap HelloExtension.encode).length < 65536

def Hello.extensionsBlock (h : Hello) : Bytes :=
  match h.extensions with
  | none => []
  | some extensions => vec16 (extensions.flatMap HelloExtension.encode)

def Hello.body (h : Hello) : Bytes :=
  be16 h.version ++ (h.random ++ (vec8 h.sessionId ++ (vec16 (h.ciphers.flatMap be16) ++
    (vec8 h.compression ++ h.extensionsBlock))))

def Hello.message (h : Hello) : Bytes := 1::(be24 h.body.length ++ h.body)

def Hello.record (h : Hello) : Bytes := 0x16::h.recordVersion.1::h.recordVersion.2::vec16 h.message

def Hello.serverName (h : Hello) : Option Bytes :=
  ((h.extensions.getD []).findSome? fun
    | .serverName entries => some entries
    | .other _ _ => none).bind fun entries =>
      (entries.find? fun e => e.nameType == 0).map fun e => lower e.name

theorem hostNameEncoded (entries : List ServerNameEntry) (fuel : Nat)
    (enough : (entries.flatMap ServerNameEntry.encode).length ≤ fuel) :
    hostNameEntry fuel (entries.flatMap ServerNameEntry.encode) =
      (entries.find? fun e => e.nameType == 0).map fun e => lower e.name := by
  induction entries generalizing fuel with
  | nil => cases fuel <;> rfl
  | cons e later ih =>
    cases fuel with
    | zero => simp [ServerNameEntry.encode] at enough
    | succ fuel =>
      have tail : (later.flatMap ServerNameEntry.encode).length ≤ fuel := by
        simp only [List.flatMap_cons,List.length_append,ServerNameEntry.encode, List.length_cons] at enough
        omega
      rw [List.flatMap_cons,ServerNameEntry.encode,List.cons_append,hostNameEntry]
      simp only [u8,bind,Option.bind_some,
        u16Vec e.size,bytesAppend rfl,e.text,ih fuel tail]
      cases zero : e.nameType == 0 with
      | true => simp [eq_of_beq zero]
      | false =>
        have other : ¬e.nameType = 0 := by simpa using zero
        simp [other]

theorem parseExtensionsEncoded (extensions : List HelloExtension) (fits : ∀ e ∈ extensions, e.Fits) (fuel : Nat)
    (enough : (extensions.flatMap HelloExtension.encode).length ≤ fuel) :
    parseExtensions fuel (extensions.flatMap HelloExtension.encode) = some (extensions.map fun e => ⟨e.ty,e.body⟩) := by
  induction extensions generalizing fuel with
  | nil => cases fuel <;> rfl
  | cons e later ih =>
    have here := fits e List.mem_cons_self
    cases fuel with
    | zero => simp [HelloExtension.encode,be16] at enough
    | succ fuel =>
      have tail : (later.flatMap HelloExtension.encode).length ≤ fuel := by
        simp only [List.flatMap_cons,List.length_append,HelloExtension.encode,be16, List.length_cons] at enough
        omega
      have rest := ih (fun e mem => fits e (List.mem_cons_of_mem _ mem)) fuel tail
      have body := u16Vec here.body (later.flatMap HelloExtension.encode)
      rw [List.flatMap_cons,HelloExtension.encode,List.append_assoc,parseExtensions]
      · simp only [bind,u16Append here.ty,Option.bind_some,body,bytesAppend rfl,rest,List.map_cons]
      · simp [be16]

variable (h : Hello)

theorem extensionsAfterEncoded : extensionsAfter h.extensionsBlock =
      some ((h.extensions.getD []).map fun e => ⟨e.ty,e.body⟩) := by
  have fits := h.extensionFits
  have size := h.extensionsFit
  unfold Hello.extensionsBlock extensionsAfter
  cases block : h.extensions with
  | none => rfl
  | some extensions =>
    rw [block,Option.getD_some] at fits size
    have read := u16Vec size []
    rw [List.append_nil,List.append_nil] at read
    have nonempty : (vec16 (extensions.flatMap HelloExtension.encode)).isEmpty = false := rfl
    simp only [bind,read,Option.bind_some,bytesWhole]
    exact parseExtensionsEncoded extensions fits _ (Nat.le_refl _)

theorem ciphersEven (ciphers : List Nat) : (ciphers.flatMap be16).length % 2 = 0 := by
  induction ciphers with
  | nil => rfl
  | cons c later ih =>
    simp only [List.flatMap_cons,List.length_append,be16,List.length_cons,List.length_nil] at ih ⊢
    omega

theorem parseClientHelloEncoded : ∃ parsed, parseClientHello h.body = some parsed ∧
      parsed.extensions = (h.extensions.getD []).map fun e => ⟨e.ty,e.body⟩ := by
  obtain ⟨sessionIdLen,session,sessionSize⟩ := u8Vec h.sessionIdFits
    (vec16 (h.ciphers.flatMap be16) ++ (vec8 h.compression ++ h.extensionsBlock))
  obtain ⟨compressionLen,compression,compressionSize⟩ := u8Vec h.compressionFits h.extensionsBlock
  have random := bytesAppend h.randomFits
  have even := ciphersEven h.ciphers
  unfold parseClientHello Hello.body
  simp only [bind,u16Append h.versionFits,Option.bind_some,random,session,
    sessionSize,bytesAppend rfl,u16Vec h.ciphersFit,even,compression,
    compressionSize,extensionsAfterEncoded]
  exact ⟨_,rfl,rfl⟩

theorem stripHandshakeHeaderMessage (bound : h.body.length < 16777216) :
    stripHandshakeHeader h.message = some h.body := by
  have size : number (h.message.tail.take 3) = h.body.length := numberBe24 bound
  have length : h.message.length = h.body.length + 4 := by
    simp [Hello.message,be24]
  unfold stripHandshakeHeader
  rw [size,length]
  simp [Hello.message,be24]

theorem sniFound (extensions : List HelloExtension) (fits : ∀ e ∈ extensions, e.Fits) :
    ((extensions.map fun e => (⟨e.ty,e.body⟩ : Extension)).find? fun ext => ext.ty == extSni) =
      (extensions.findSome? fun
        | .serverName entries => some entries
        | .other _ _ => none).map fun entries =>
          ⟨extSni,vec16 (entries.flatMap ServerNameEntry.encode)⟩ := by
  induction extensions with
  | nil => rfl
  | cons e later ih =>
    have here := fits e List.mem_cons_self
    have rest := ih fun e mem => fits e (List.mem_cons_of_mem _ mem)
    cases e with
    | serverName entries => simp [HelloExtension.ty,HelloExtension.body]
    | other ty body =>
      have differs : (ty == extSni) = false := by simpa using here.sni ty body rfl
      simpa [HelloExtension.ty,differs] using rest

theorem serverNameFits {h : Hello} {entries : List ServerNameEntry}
    (listed : HelloExtension.serverName entries ∈ h.extensions.getD []) :
    (entries.flatMap ServerNameEntry.encode).length < 65536 := by
  have fits := (h.extensionFits _ listed).body
  simp only [HelloExtension.body,vec16,List.length_append] at fits
  omega

theorem clientHelloSniMessage (bound : h.body.length < 16777216) :
    clientHelloSni h.message = h.serverName := by
  obtain ⟨parsed,read,extensions⟩ := parseClientHelloEncoded h
  unfold clientHelloSni Hello.serverName
  simp only [bind,stripHandshakeHeaderMessage h bound,Option.bind_some,read,extensions, sniFound _ h.extensionFits]
  cases named : (h.extensions.getD []).findSome? fun
      | .serverName entries => some entries
      | .other _ _ => none with
  | none => rfl
  | some entries =>
    obtain ⟨e,listed,is⟩ := List.exists_of_findSome?_eq_some named
    cases e with
    | other ty body => cases is
    | serverName entries' =>
      cases is
      have read := u16Vec (serverNameFits listed) []
      rw [List.append_nil,List.append_nil] at read
      simp only [Option.map_some,Option.bind_some,parseSniHostName,bind,read,bytesWhole]
      exact hostNameEncoded entries _ (Nat.le_refl _)

theorem outerSniWhole (bound : h.message.length < 65536) (rest : Bytes) :
    outerSniFromRecord (h.record ++ rest) = h.serverName := by
  have body : h.body.length < 16777216 := by
    simp only [Hello.message,List.length_cons,List.length_append] at bound
    omega
  have size : number (((h.record ++ rest).drop 3).take 2) = h.message.length := numberBe16 bound
  have fragment : (h.record ++ rest).drop 5 = h.message ++ rest := by
    simp [Hello.record,vec16,be16]
  have long : ¬(h.record ++ rest).length < 5 := by
    simp [Hello.record,vec16,be16]
  unfold outerSniFromRecord
  simp only [size,fragment,long,bind,bytesAppend rfl,Option.bind_some,
    clientHelloSniMessage h body]
  simp [Hello.record]

theorem outerSniCut (bound : h.message.length < 65536) {cut} (begins : cut <+: h.record)
    (short : cut.length < h.record.length) : outerSniFromRecord cut = none := by
  unfold outerSniFromRecord
  split
  · rfl
  · rename_i header
    have five : 5 ≤ cut.length := by simp at header; omega
    have length : h.record.length = h.message.length + 5 := by
      simp [Hello.record,vec16,be16]
    obtain ⟨rest,whole⟩ := begins
    have same : (cut.drop 3).take 2 = (h.record.drop 3).take 2 := by
      rw [← whole,List.drop_append_of_le_length (by omega),
        List.take_append_of_le_length (by simp; omega)]
    have size : number ((h.record.drop 3).take 2) = h.message.length := numberBe16 bound
    simp only [same]
    rw [bytesShort (by simp; omega)]
    rfl

end ZeroServe.Tls
