import ZeroServe.ByteReader

/-! The wire format of an ECHConfig: a version and a length before contents that hold three
more lengths. -/
namespace ZeroServe.Ech
open ByteText ByteReader

def echConfigVersionV18 : Nat := 0xfe0d

structure CipherSuite where
  kdfId : UInt16
  aeadId : UInt16
  deriving DecidableEq

structure EchConfig where
  configId : UInt8
  kemId : UInt16
  publicKey : Bytes
  cipherSuites : List CipherSuite
  maximumNameLength : UInt8
  publicName : Bytes
  text : validUtf8 publicName = true
  deriving DecidableEq

def CipherSuite.encode (s : CipherSuite) : Bytes := be16 s.kdfId.toNat ++ be16 s.aeadId.toNat

def EchConfig.suiteBytes (c : EchConfig) : Bytes := c.cipherSuites.flatMap CipherSuite.encode

def EchConfig.fields (c : EchConfig) : Bytes :=
  be8 c.configId.toNat ++ be16 c.kemId.toNat ++ vec16 c.publicKey ++ vec16 c.suiteBytes ++
    be8 c.maximumNameLength.toNat ++ vec8 c.publicName

def EchConfig.contents (c : EchConfig) : Bytes := c.fields ++ [0,0]

/- `none` is a panic: a length does not fit its field. -/
def EchConfig.encode (c : EchConfig) : Option Bytes :=
  if 65536 ≤ c.publicKey.length then none else
  if 65536 ≤ c.cipherSuites.length * 4 then none else
  if 256 ≤ c.publicName.length then none else
  if 65536 ≤ c.contents.length then none else
  some (be16 echConfigVersionV18 ++ vec16 c.contents)

inductive EchError where
  | shortU8 | shortU16
  | shortBytes (n : Nat)
  | unsupportedVersion (version : Nat)
  | cipherSuitesLength
  | publicNameText
  | trailingBytes
  deriving DecidableEq

def readU8 (s : Bytes) : Except EchError (UInt8 × Bytes) :=
  match u8 s with
  | none => .error .shortU8
  | some read => .ok read

def readU16 (s : Bytes) : Except EchError (Nat × Bytes) :=
  match u16 s with
  | none => .error .shortU16
  | some read => .ok read

def readSlice (n : Nat) (s : Bytes) : Except EchError (Bytes × Bytes) :=
  match bytes n s with
  | none => .error (.shortBytes n)
  | some read => .ok read

def readSuites : Bytes → Except EchError (List CipherSuite)
  | [] => .ok []
  | a::b::c::d::rest => do
    let later ← readSuites rest
    .ok (⟨UInt16.ofNat (number [a,b]),UInt16.ofNat (number [c,d])⟩::later)
  | _ => .error .shortU16

def readContents (s : Bytes) : Except EchError (EchConfig × Bytes × Bytes) := do
  let (configId,s) ← readU8 s
  let (kemId,s) ← readU16 s
  let (pkLen,s) ← readU16 s
  let (publicKey,s) ← readSlice pkLen s
  let (csBytesLen,s) ← readU16 s
  if csBytesLen % 4 ≠ 0 || csBytesLen = 0 then .error .cipherSuitesLength else
  let (csBytes,s) ← readSlice csBytesLen s
  let cipherSuites ← readSuites csBytes
  let (maximumNameLength,s) ← readU8 s
  let (pnLen,s) ← readU8 s
  let (pnBytes,s) ← readSlice pnLen.toNat s
  if text : validUtf8 pnBytes = true then do
    let (extLen,s) ← readU16 s
    let (extBytes,s) ← readSlice extLen s
    .ok (⟨configId,UInt16.ofNat kemId,publicKey,cipherSuites,maximumNameLength,pnBytes,text⟩,extBytes,s)
  else .error .publicNameText

def decodeFrom (s : Bytes) : Except EchError (EchConfig × Bytes) := do
  let (version,s) ← readU16 s
  let (contentsLen,s) ← readU16 s
  let (contents,s) ← readSlice contentsLen s
  if version ≠ echConfigVersionV18 then .error (.unsupportedVersion version) else
  let (config,_,_) ← readContents contents
  .ok (config,s)

def EchConfig.decode (s : Bytes) : Except EchError EchConfig := do
  let (config,rest) ← decodeFrom s
  if rest ≠ [] then .error .trailingBytes else .ok config

def encodeList (configs : List EchConfig) : Option Bytes := do
  let encoded ← configs.mapM EchConfig.encode
  if 65536 ≤ encoded.flatten.length then none else some (vec16 encoded.flatten)

theorem readU8Ok {s rest b} (h : readU8 s = .ok (b,rest)) : s = be8 b.toNat ++ rest := by
  cases s with
  | nil => cases h
  | cons c later =>
    cases h
    simp [be8]

theorem readU16Ok {s rest n} (h : readU16 s = .ok (n,rest)) : s = be16 n ++ rest ∧ n < 65536 := by
  unfold readU16 at h
  split at h
  · cases h
  · rename_i read
    cases h
    exact u16Some read

theorem readSliceOk {n} {s a rest} (h : readSlice n s = .ok (a,rest)) : s = a ++ rest ∧ a.length = n := by
  unfold readSlice at h
  split at h
  · cases h
  · rename_i read
    cases h
    exact bytesSome read

theorem readU8Append (b : UInt8) (rest : Bytes) : readU8 (be8 b.toNat ++ rest) = .ok (b,rest) := by
  simp [be8,readU8,u8]

theorem readU16Append {n} (bound : n < 65536) (rest : Bytes) : readU16 (be16 n ++ rest) = .ok (n,rest) := by
  rw [readU16,u16Append bound]

theorem readSliceAppend {n} {s} (size : s.length = n) (rest : Bytes) : readSlice n (s ++ rest) = .ok (s,rest) := by
  rw [readSlice,bytesAppend size]

theorem suitesOk {s suites} (h : readSuites s = .ok suites) : s = suites.flatMap CipherSuite.encode := by
  fun_induction readSuites s generalizing suites with
  | case1 =>
    cases h
    rfl
  | case2 a b c d rest ih =>
    obtain ⟨later,read,same⟩ := bindOk h
    cases same
    obtain ⟨first,firstBack⟩ := numberPair a b
    obtain ⟨second,secondBack⟩ := numberPair c d
    rw [List.flatMap_cons,← ih read,CipherSuite.encode,UInt16.toNat_ofNat_of_lt' first,
      UInt16.toNat_ofNat_of_lt' second,firstBack,secondBack]
    rfl
  | case3 => cases h

theorem suitesEncoded (suites : List CipherSuite) : readSuites (suites.flatMap CipherSuite.encode) = .ok suites := by
  induction suites with
  | nil => rfl
  | cons s later ih =>
    have first := numberBe16 s.kdfId.toNat_lt
    have second := numberBe16 s.aeadId.toNat_lt
    simp only [be16] at first second
    simp only [List.flatMap_cons,CipherSuite.encode,be16,List.cons_append,List.nil_append,readSuites,ih,bind,
      Except.bind,first,second,UInt16.ofNat_toNat]

theorem suiteBytesLength (c : EchConfig) : c.suiteBytes.length = c.cipherSuites.length * 4 := by
  have each : ∀ s ∈ c.cipherSuites, (CipherSuite.encode s).length = 4 := fun s _ => rfl
  rw [EchConfig.suiteBytes,List.length_flatMap,List.map_congr_left each]
  simp

theorem contentsOk {s ext rest c} (h : readContents s = .ok (c,ext,rest)) :
    s = c.fields ++ vec16 ext ++ rest ∧ c.publicKey.length < 65536 ∧ c.suiteBytes.length < 65536 ∧
      c.publicName.length < 256 ∧ ext.length < 65536 := by
  obtain ⟨⟨configId,s1⟩,read1,h⟩ := bindOk h
  obtain ⟨⟨kemId,s2⟩,read2,h⟩ := bindOk h
  obtain ⟨⟨pkLen,s3⟩,read3,h⟩ := bindOk h
  obtain ⟨⟨publicKey,s4⟩,read4,h⟩ := bindOk h
  obtain ⟨⟨csLen,s5⟩,read5,h⟩ := bindOk h
  dsimp only at h
  split at h
  · cases h
  obtain ⟨⟨csBytes,s6⟩,read6,h⟩ := bindOk h
  obtain ⟨suites,read7,h⟩ := bindOk h
  obtain ⟨⟨maximum,s8⟩,read8,h⟩ := bindOk h
  obtain ⟨⟨pnLen,s9⟩,read9,h⟩ := bindOk h
  obtain ⟨⟨name,s10⟩,read10,h⟩ := bindOk h
  split at h
  · rename_i text
    obtain ⟨⟨extLen,s11⟩,read11,h⟩ := bindOk h
    obtain ⟨⟨ext',s12⟩,read12,h⟩ := bindOk h
    cases h
    dsimp only at read6 read7 read8 read9 read10 read11 read12 ⊢
    obtain ⟨is2,kem⟩ := readU16Ok read2
    obtain ⟨is3,pk⟩ := readU16Ok read3
    obtain ⟨is4,pkSize⟩ := readSliceOk read4
    obtain ⟨is5,cs⟩ := readU16Ok read5
    obtain ⟨is6,csSize⟩ := readSliceOk read6
    obtain ⟨is10,nameSize⟩ := readSliceOk read10
    obtain ⟨is11,extBound⟩ := readU16Ok read11
    obtain ⟨is12,extSize⟩ := readSliceOk read12
    have suiteBytes := suitesOk read7
    have short := pnLen.toNat_lt
    refine ⟨?_,by omega,?_,by omega,by omega⟩
    · rw [readU8Ok read1,is2,is3,is4,is5,is6,readU8Ok read8,readU8Ok read9,is10,is11,is12,← pkSize,← csSize,
        ← nameSize,← extSize,suiteBytes]
      simp only [EchConfig.fields,EchConfig.suiteBytes,vec16,vec8,UInt16.toNat_ofNat_of_lt' kem, List.append_assoc]
    · rw [EchConfig.suiteBytes]
      rw [← suiteBytes]
      omega
  · cases h

structure EchConfig.Fits (c : EchConfig) : Prop where
  publicKey : c.publicKey.length ≤ 65535
  someSuite : 1 ≤ c.cipherSuites.length
  fewSuites : c.cipherSuites.length ≤ 16383
  publicName : c.publicName.length ≤ 255
  contents : c.contents.length ≤ 65535

variable {c : EchConfig}

theorem contentsEncoded (fits : c.Fits) : readContents c.contents = .ok (c,[],[]) := by
  have size := suiteBytesLength c
  have name : (UInt8.ofNat c.publicName.length).toNat = c.publicName.length := by
    rw [UInt8.toNat_ofNat']
    have := fits.publicName
    omega
  have pk : c.publicKey.length < 65536 := by have := fits.publicKey; omega
  have cs : c.suiteBytes.length < 65536 := by have := fits.fewSuites; omega
  have whole : ¬(c.suiteBytes.length % 4 ≠ 0 || c.suiteBytes.length = 0) = true := by
    have := fits.someSuite
    simp only [ne_eq,Bool.or_eq_true,decide_eq_true_eq,not_or]
    omega
  have nameRead : ∀ rest, readU8 (be8 c.publicName.length ++ rest) = .ok (UInt8.ofNat c.publicName.length,rest) :=
    fun rest => rfl
  have suites : readSuites c.suiteBytes = .ok c.cipherSuites := suitesEncoded c.cipherSuites
  have extensions : readU16 ([0,0] : Bytes) = .ok (0,[]) := rfl
  have empty : readSlice 0 ([] : Bytes) = .ok ([],[]) := rfl
  simp only [readContents,EchConfig.contents,EchConfig.fields,vec16,vec8,List.append_assoc,bind,Except.bind,
    readU8Append,readU16Append c.kemId.toNat_lt,readU16Append pk,readSliceAppend rfl,readU16Append cs,if_neg whole,
    suites,nameRead,name,c.text,dif_pos,extensions,empty,UInt16.ofNat_toNat]

theorem encodeFits (fits : c.Fits) : c.encode = some (be16 echConfigVersionV18 ++ vec16 c.contents) := by
  obtain ⟨pk,-,cs,pn,whole⟩ := fits
  rw [EchConfig.encode,if_neg (by omega),if_neg (by omega),if_neg (by omega),if_neg (by omega)]

theorem decodeFromEncoded (fits : c.Fits) (rest : Bytes) :
    decodeFrom (be16 echConfigVersionV18 ++ vec16 c.contents ++ rest) = .ok (c,rest) := by
  have size : c.contents.length < 65536 := by have := fits.contents; omega
  have version : ¬echConfigVersionV18 ≠ echConfigVersionV18 := fun other => other rfl
  simp only [decodeFrom,vec16,List.append_assoc,bind,Except.bind,
    readU16Append (show echConfigVersionV18 < 65536 by decide),readU16Append size,readSliceAppend rfl,
    if_neg version,contentsEncoded fits]

theorem decodeEncoded (fits : c.Fits) : EchConfig.decode (be16 echConfigVersionV18 ++ vec16 c.contents) = .ok c := by
  have read := decodeFromEncoded fits []
  rw [List.append_nil] at read
  rw [EchConfig.decode,read]
  rfl

theorem decodeOk {body} (h : EchConfig.decode body = .ok c) :
    ∃ ext rest, body = be16 echConfigVersionV18 ++ vec16 (c.fields ++ vec16 ext ++ rest) ∧
      readContents (c.fields ++ vec16 ext ++ rest) = .ok (c,ext,rest) ∧
      (c.fields ++ vec16 ext ++ rest).length < 65536 := by
  obtain ⟨⟨config,left⟩,from_,h⟩ := bindOk h
  dsimp only at h
  split at h
  · cases h
  rename_i empty
  cases h
  have empty : left = [] := by simpa using empty
  obtain ⟨⟨version,s1⟩,read1,from_⟩ := bindOk from_
  obtain ⟨⟨length,s2⟩,read2,from_⟩ := bindOk from_
  obtain ⟨⟨contents,s3⟩,read3,from_⟩ := bindOk from_
  dsimp only at from_
  split at from_
  · cases from_
  rename_i supported
  obtain ⟨⟨config,ext,rest⟩,read4,from_⟩ := bindOk from_
  cases from_
  have supported : version = echConfigVersionV18 := by simpa using supported
  obtain ⟨is1,-⟩ := readU16Ok read1
  obtain ⟨is2,bound⟩ := readU16Ok read2
  obtain ⟨is3,size⟩ := readSliceOk read3
  obtain ⟨is4,-⟩ := contentsOk read4
  refine ⟨ext,rest,?_,by rw [← is4]; exact read4,by rw [← is4]; omega⟩
  rw [is1,is2,is3,supported,empty,vec16,← is4,size,List.append_nil]

end ZeroServe.Ech
