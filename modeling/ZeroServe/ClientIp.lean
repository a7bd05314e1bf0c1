import ZeroServe.IpText
import ZeroServe.ScriptRequest

/-! The client address behind trusted proxies: `caddy_resolved_client_ip`. In strict mode the list is read from the
right, up to the first address no trusted range holds. -/
namespace ZeroServe.ClientIp
open ByteText Ip H1 Script

def ipPrefixContains (prefixAddr : IpAddr) (prefixLen : Nat) (candidate : IpAddr) : Bool :=
  match prefixAddr,candidate with
  | .v4 a,.v4 c =>
    let mask : BitVec 32 := if prefixLen = 0 then 0 else BitVec.allOnes 32 <<< (32 - prefixLen)
    prefixLen ≤ 32 && (a &&& mask) == (c &&& mask)
  | .v6 a,.v6 c =>
    let mask : BitVec 128 := if prefixLen = 0 then 0 else BitVec.allOnes 128 <<< (128 - prefixLen)
    prefixLen ≤ 128 && (a &&& mask) == (c &&& mask)
  | _,_ => false

structure ClientIpConfig where
  trustedRanges : List Bytes
  headers : List Bytes
  strict : Bool
  trustedUnix : Bool
  deriving DecidableEq

section
variable (ip : IpText)

def caddyIpRangeMatches (peerIp : IpAddr) (peerZone range : Bytes) : Option Bool :=
  let (range,zone) := (splitOnce 37 range).getD (range,[])
  if zone ≠ [] ∧ zone ≠ peerZone then some false else
  match splitOnce 47 range with
  | some (addr,prefixLen) => do
    let addr ← ip.parseIp addr
    let prefixLen ← fromStrRadix 10 256 prefixLen
    some (ipPrefixContains addr prefixLen peerIp)
  | none => (ip.parseIp range).map (· == peerIp)

def trusts (ranges : List Bytes) (a : IpAddr) : Bool :=
  ranges.any fun range => (caddyIpRangeMatches ip a [] range).getD false

def caddyHeaderIpPart (part : Bytes) : Option Bytes :=
  let part := strTrim part
  let host := match ip.parseSocket part with
    | some a => ip.display a
    | none => part
  let host := ((splitOnce 37 host).getD (host,[])).1
  (ip.parseIp (strTrim host)).map ip.display

def parseCaddyIpZone (value : Bytes) : Option (IpAddr × Bytes) :=
  let text := match ip.parseSocket value with
    | some a => ip.display a
    | none => value
  let (text,zone) := (splitOnce 37 text).getD (text,[])
  (ip.parseIp text).map (·,zone)

def caddyClientIpHeaderParts (headers : ValuesMap) (names : List Bytes) : List Bytes :=
  ([44].intercalate (names.flatMap fun name => (headers.lookup (lower name)).getD [])).splitOn 44

def caddyTrustedRealClientIp (headers : ValuesMap) (names : List Bytes) (fallback : Bytes) : Bytes :=
  ((caddyClientIpHeaderParts headers names).findSome? (caddyHeaderIpPart ip)).getD fallback

def untrustedPart (trustedRanges : List Bytes) (part : Bytes) : Option Bytes := do
  let text ← caddyHeaderIpPart ip part
  let (parsed,_) ← parseCaddyIpZone ip text
  if trusts ip trustedRanges parsed then none else some (ip.display parsed)

def caddyStrictUntrustedClientIp (headers : ValuesMap) (names trustedRanges : List Bytes)
    (fallback : Bytes) : Bytes :=
  (names.findSome? fun name =>
    let values := (headers.lookup (lower name)).getD []
    (([44].intercalate values).splitOn 44).reverse.findSome? (untrustedPart ip trustedRanges)).getD
      fallback

def caddyResolvedClientIp (peer : Bytes) (headers : ValuesMap) (config : ClientIpConfig) :
    Option Bytes :=
  let listed (fallback : Bytes) :=
    if config.strict then
      caddyStrictUntrustedClientIp ip headers config.headers config.trustedRanges fallback
    else caddyTrustedRealClientIp ip headers config.headers fallback
  if peer = ascii "@" then
    if ! config.trustedUnix then some [] else some (listed peer)
  else do
    let (peerIp,_) ← parseCaddyIpZone ip peer
    let peer := ip.display peerIp
    if config.trustedRanges = [] then some peer
    else if ! trusts ip config.trustedRanges peerIp then some peer
    else some (listed peer)

end

theorem builtValues (fields : List (HeaderName × HeaderValue)) (maps : StringMap × ValuesMap) (key : Bytes) :
    ((fields.foldl addHeader maps).2.lookup key).getD [] = (maps.2.lookup key).getD [] ++
      fields.filterMap fun f => if lower f.1.text = key then f.2.toStr else none := by
  induction fields generalizing maps with
  | nil => simp
  | cons f later ih =>
    rw [List.foldl_cons,ih]
    cases read : f.2.toStr with
    | none => simp [addHeader,read]
    | some value =>
      by_cases here : lower f.1.text = key
      · subst here
        simp [addHeader,read,push]
      · simp [addHeader,read,here,push,AList.lookup_insert_ne (Ne.symm here)]

structure Listed (ip : IpText) (item : Bytes) (a : IpAddr) : Prop where
  visible : item.all visibleByte = true
  apart : 44 ∉ item
  reads : ip.parseIp (strTrim item) = some a

section
variable {ip : IpText}

theorem trimAddress {x a} (read : ip.parseIp x = some a) : strTrim x = x := by
  have known : ∀ b : UInt8, ipByte b = true → plainByte b = true ∧ asciiWhitespace b = false := by
    decide +kernel
  have all := (ip.plain read).2
  rw [strTrimPlain fun b mem => (known b (all b mem)).1]
  exact trimAsciiNone fun b mem => (known b (all b mem)).2

theorem headerIpPart {item x a} (trimmed : strTrim item = x) (read : ip.parseIp x = some a) :
    caddyHeaderIpPart ip item = some (ip.display a) := by
  have noZone : splitOnce 37 x = none := splitOnceNone (ip.parseIpAbsent read (by decide))
  simp [caddyHeaderIpPart,trimmed,ip.notSocket read,noZone,trimAddress read,read]

theorem zoneOfDisplay (a : IpAddr) : parseCaddyIpZone ip (ip.display a) = some (a,[]) := by
  have read := ip.readsDisplay a
  have noZone : splitOnce 37 (ip.display a) = none :=
    splitOnceNone (ip.parseIpAbsent read (by decide))
  simp [parseCaddyIpZone,ip.notSocket read,noZone,read]

theorem listedPart {item a} (listed : Listed ip item a) (ranges : List Bytes) :
    untrustedPart ip ranges item = if trusts ip ranges a then none else some (ip.display a) := by
  simp [untrustedPart,headerIpPart rfl listed.reads,zoneOfDisplay]

theorem listedBlank {item a} (listed : Listed ip item a) : Listed ip (32::item) a where
  visible := by simpa [visibleByte] using listed.visible
  apart := by simpa using listed.apart
  reads := by
    exact listed.reads

theorem emptyPart (ranges : List Bytes) : untrustedPart ip ranges [] = none := by
  have blank : strTrim [] = [] := rfl
  have noZone : splitOnce 37 [] = none := rfl
  simp [untrustedPart,caddyHeaderIpPart,blank,ip.emptySocket,noZone,ip.parseIpEmpty]

theorem strictList {ranges} (front : Bytes) {item rest a} (listed : Listed ip item a)
    (outside : trusts ip ranges a = false) (proxies : ∀ p ∈ rest, ∃ b, Listed ip p b ∧ trusts ip ranges b = true) :
    ((front ++ ascii ", " ++ [44].intercalate (item::rest)).splitOn 44).reverse.findSome?
      (untrustedPart ip ranges) = some (ip.display a) := by
  have joined : front ++ ascii ", " ++ [44].intercalate (item::rest) =
      front ++ 44::[44].intercalate ((32::item)::rest) := by
    have separator : ascii ", " = [44,32] := by decide
    rw [separator]
    cases rest <;> simp [List.intercalate]
  have split : ([44].intercalate ((32::item)::rest)).splitOn 44 = (32::item)::rest := by
    apply List.splitOn_intercalate _ _ (by simp)
    intro p mem
    rcases List.mem_cons.mp mem with rfl | inside
    · exact (listedBlank listed).apart
    · obtain ⟨b,piece,_⟩ := proxies p inside
      exact piece.apart
  have skipped : rest.reverse.findSome? (untrustedPart ip ranges) = none := by
    rw [List.findSome?_eq_none_iff]
    intro p mem
    obtain ⟨b,piece,held⟩ := proxies p (List.mem_reverse.mp mem)
    rw [listedPart piece,if_pos held]
  have found : untrustedPart ip ranges (32::item) = some (ip.display a) := by
    rw [listedPart (listedBlank listed),outside]
    rfl
  rw [joined,List.splitOn_append_cons_self,split,List.reverse_append,List.reverse_cons,
    List.append_assoc,List.findSome?_append,skipped]
  simp [found]

end

def TrustedPeer (ip : IpText) (config : ClientIpConfig) (peer : Bytes) : Prop :=
  (peer = ascii "@" ∧ config.trustedUnix = true) ∨
  (peer ≠ ascii "@" ∧ ∃ a zone, parseCaddyIpZone ip peer = some (a,zone) ∧ trusts ip config.trustedRanges a = true)

theorem resolvedStrict {ip config peer a} (strict : config.strict = true) (peerTrusted : TrustedPeer ip config peer)
    (outside : trusts ip config.trustedRanges a = false) :
    ∃ fallback, fallback ≠ ip.display a ∧ ∀ headers, caddyResolvedClientIp ip peer headers config =
      some (caddyStrictUntrustedClientIp ip headers config.headers config.trustedRanges fallback) := by
  rcases peerTrusted with ⟨rfl,unix⟩ | ⟨socket,b,zone,read,held⟩
  · refine ⟨ascii "@",fun same => ?_,fun headers => ?_⟩
    · have absent := ip.parseIpAbsent (ip.readsDisplay a) (show ipByte 64 = false by decide)
      rw [← same] at absent
      exact absent (by decide)
    · simp [caddyResolvedClientIp,unix,strict]
  · refine ⟨ip.display b,fun same => ?_,fun headers => ?_⟩
    · rw [ip.displayInj same,outside] at held
      cases held
    · have some : config.trustedRanges ≠ [] := by
        intro none
        simp [trusts,none] at held
      simp [caddyResolvedClientIp,socket,read,some,held,strict]

theorem oneLine {headers : HeaderMap} {names : List Bytes} {name : HeaderName} {value : HeaderValue}
    (line : headers.pairs.filter (fun f => (names.map lower).contains (lower f.1.text)) = [(name,value)])
    {key : Bytes} (mem : key ∈ names.map lower) : (((headers.pairs.foldl addHeader (∅,∅)).2.lookup key).getD []) =
      if lower name.text = key then value.toStr.toList else [] := by
  rw [builtValues]
  have narrowed : (headers.pairs.filterMap fun f => if lower f.1.text = key then f.2.toStr else none) =
      [(name,value)].filterMap fun f => if lower f.1.text = key then f.2.toStr else none := by
    rw [← line,List.filterMap_filter]
    congr 1
    funext f
    by_cases here : lower f.1.text = key
    · simp [here,mem]
    · simp [here]
  rw [narrowed]
  by_cases here : lower name.text = key
  · cases read : value.toStr <;> simp [here,read]
  · simp [here]

section
variable (ip : IpText) (parseForm : Bytes → List (Bytes × Bytes)) (lossy : Bytes → Bytes)

/- The address in front of the trusted proxies is resolved whatever the client wrote before it,
as long as that is text. -/
theorem clientTextInert (config : ClientIpConfig) (peer : Bytes) (headers : HeaderMap)
    (headQuery : Option Bytes) (path : RequestPath.NormalizedPath) (name : HeaderName) (value : HeaderValue)
    (front item : Bytes) (rest : List Bytes) (a : IpAddr)
    (strict : config.strict = true) (peerTrusted : TrustedPeer ip config peer)
    (line : headers.pairs.filter (fun f => (config.headers.map lower).contains (lower f.1.text)) = [(name,value)])
    (whole : value.bytes = front ++ ascii ", " ++ [44].intercalate (item::rest))
    (address : Listed ip item a) (outside : trusts ip config.trustedRanges a = false)
    (proxies : ∀ p ∈ rest, ∃ b, Listed ip p b ∧ trusts ip config.trustedRanges b = true) : caddyResolvedClientIp ip peer
        (buildScriptRequest parseForm lossy headers headQuery path).headerValues config =
      some (ip.display a) ↔ front.all visibleByte = true := by
  obtain ⟨fallback,other,resolved⟩ := resolvedStrict strict peerTrusted outside
  rw [resolved]
  have values (key : Bytes) (mem : key ∈ config.headers.map lower) :
      ((buildScriptRequest parseForm lossy headers headQuery path).headerValues.lookup key).getD [] =
        if lower name.text = key then value.toStr.toList else [] := oneLine line mem
  have listText : ([44].intercalate (item::rest)).all visibleByte = true := by
    rw [List.all_eq_true]
    intro b mem
    rcases memIntercalate mem with rfl | ⟨w,inside,here⟩
    · decide
    · rcases List.mem_cons.mp inside with rfl | later
      · exact List.all_eq_true.mp address.visible b here
      · obtain ⟨_,piece,_⟩ := proxies w later
        exact List.all_eq_true.mp piece.visible b here
  have text : value.bytes.all visibleByte = front.all visibleByte := by
    rw [whole,List.all_append,listText]
    simp [visibleByte,ascii]
  have configured : lower name.text ∈ config.headers.map lower := by
    have mem : (name,value) ∈ headers.pairs.filter fun f =>
        (config.headers.map lower).contains (lower f.1.text) := by rw [line]; simp
    exact List.contains_iff_mem.mp (List.mem_filter.mp mem).2
  constructor
  · intro same
    by_contra hidden
    -- the line is left out, and every name finds nothing
    have none : value.toStr = none := if_neg (by rw [text]; exact hidden)
    apply other
    rw [← Option.some.inj same,caddyStrictUntrustedClientIp,List.findSome?_eq_none_iff.mpr]
    · rfl
    intro key mem
    rw [values _ (List.mem_map_of_mem mem),none]
    simp [emptyPart]
  · intro visible
    have read : value.toStr = some value.bytes := if_pos (by rw [text]; exact visible)
    have lines := strictList front address outside proxies
    rw [← whole] at lines
    -- each name finds the line or nothing, and one of them finds it
    have each : ∀ key ∈ config.headers,
        (([44].intercalate (((buildScriptRequest parseForm lossy headers headQuery path).headerValues.lookup
          (lower key)).getD [])).splitOn 44).reverse.findSome? (untrustedPart ip config.trustedRanges) =
        if lower name.text = lower key then some (ip.display a) else none := by
      intro key mem
      rw [values _ (List.mem_map_of_mem mem),read]
      split
      · simpa [List.intercalate] using lines
      · simp [emptyPart]
    rw [caddyStrictUntrustedClientIp]
    obtain ⟨own,mem,same⟩ := List.mem_map.mp configured
    cases found : config.headers.findSome? fun key =>
        (([44].intercalate (((buildScriptRequest parseForm lossy headers headQuery path).headerValues.lookup
          (lower key)).getD [])).splitOn 44).reverse.findSome? (untrustedPart ip config.trustedRanges) with
    | none =>
      have nothing := List.findSome?_eq_none_iff.mp found own mem
      rw [each own mem,if_pos same.symm] at nothing
      cases nothing
    | some result =>
      obtain ⟨key,inside,hit⟩ := List.exists_of_findSome?_eq_some found
      rw [each key inside] at hit
      split at hit
      · simp only [Option.getD_some]
        exact hit.symm
      · cases hit

end

def behindProxy : ClientIpConfig where
  trustedRanges := [ascii "10.0.0.0/8"]
  headers := [ascii "X-Forwarded-For"]
  strict := true
  trustedUnix := false

def forwardedFor (value : Bytes) (valid : value.all valueByte = true) : HeaderMap :=
  ⟨[(.ofAscii "x-forwarded-for",⟨value,valid⟩)]⟩

def clientSeen (value : Bytes) (valid : value.all valueByte = true) : Option Bytes :=
  caddyResolvedClientIp canonical (ascii "10.0.0.1:4711")
    (buildScriptRequest (fun _ => []) id (forwardedFor value valid) none ⟨[],[],false⟩).headerValues behindProxy

theorem plainTextInert :
    clientSeen (ascii "junk, 203.0.113.9,10.0.0.2") (by decide +kernel) = some (ascii "203.0.113.9") := by
  have client : Listed canonical (ascii "203.0.113.9") (.v4 0xCB007109) :=
    ⟨by decide +kernel,by decide +kernel,by decide +kernel⟩
  have proxy : Listed canonical (ascii "10.0.0.2") (.v4 0x0A000002) :=
    ⟨by decide +kernel,by decide +kernel,by decide +kernel⟩
  have resolved := (clientTextInert canonical (fun _ => []) id behindProxy (ascii "10.0.0.1:4711")
    (forwardedFor (ascii "junk, 203.0.113.9,10.0.0.2") (by decide +kernel)) none ⟨[],[],false⟩
    (.ofAscii "x-forwarded-for") ⟨ascii "junk, 203.0.113.9,10.0.0.2",by decide +kernel⟩ (ascii "junk")
    (ascii "203.0.113.9") [ascii "10.0.0.2"] (.v4 0xCB007109) rfl
    (.inr ⟨by decide +kernel,.v4 0x0A000001,[],by decide +kernel,by decide +kernel⟩) (by decide +kernel)
    (by decide +kernel) client (by decide +kernel)
    (by rintro p mem; cases List.mem_singleton.mp mem; exact ⟨_,proxy,by decide +kernel⟩)).mpr
      (by decide +kernel)
  rw [clientSeen,resolved]
  decide +kernel

theorem highByteHidesClient :
    clientSeen (0xFF::ascii ", 203.0.113.9") (by decide +kernel) = some (ascii "10.0.0.1") := by
  decide +kernel

end ZeroServe.ClientIp
