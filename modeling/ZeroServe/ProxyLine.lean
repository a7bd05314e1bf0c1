import ZeroServe.BodyDrip
import ZeroServe.IpText

/-! The PROXY protocol line in front of a connection, looked for in what the socket has buffered, without taking it
out, and otherwise read byte by byte. -/
namespace ZeroServe.ProxyProtocol
open ByteText H1 Ip

structure SocketAddr where
  ip : IpAddr
  port : Nat
  deriving DecidableEq

inductive HeaderPart where
  | family | sourceAddress | destinationAddress | sourcePort | destinationPort
  deriving DecidableEq

inductive LineError where
  | read | tooLong | notUtf8 | empty
  | start (found : Bytes)
  | missing (part : HeaderPart)
  | port | ipv4 | ipv6
  | family (found : Bytes)
  deriving DecidableEq

def maxProxyLineLen : Nat := 108

def dropLineEnds : Bytes → Bytes
  | 10::13::rest => dropLineEnds rest
  | s => s

def trimLineEnds (s : Bytes) : Bytes := (dropLineEnds s.reverse).reverse

/- The pieces between White_Space characters that are not empty; `word` is the piece being read. -/
def wordsFrom : Nat → Bytes → Bytes → List Bytes
  | 0, word, _ => if word = [] then [] else [word]
  | _+1, word, [] => if word = [] then [] else [word]
  | fuel+1, word, b::rest =>
    match whiteSpace.find? (·.isPrefixOf (b::rest)) with
    | some blank =>
      let later := wordsFrom fuel [] ((b::rest).drop blank.length)
      if word = [] then later else word::later
    | none => wordsFrom fuel (word ++ [b]) rest

def splitWhitespace (s : Bytes) : List Bytes := wordsFrom s.length [] s

section
variable (ip : IpText)

def parseV4 (text : Bytes) : Option IpAddr :=
  match ip.parseIp text with
  | some (.v4 bits) => some (.v4 bits)
  | _ => none

def parseV6 (text : Bytes) : Option IpAddr :=
  match ip.parseIp text with
  | some (.v6 bits) => some (.v6 bits)
  | _ => none

def parseAddresses (family : Bytes) (parts : List Bytes) : Except LineError SocketAddr :=
  match parts with
  | [] => .error (.missing .sourceAddress)
  | [_] => .error (.missing .destinationAddress)
  | [_,_] => .error (.missing .sourcePort)
  | [_,_,_] => .error (.missing .destinationPort)
  | srcIp::_::srcPort::_::_ =>
    match fromStrRadix 10 65536 srcPort with
    | none => .error .port
    | some port =>
      if family = ascii "TCP4" then
        match parseV4 ip srcIp with
        | none => .error .ipv4
        | some addr => .ok ⟨addr,port⟩
      else
        match parseV6 ip srcIp with
        | none => .error .ipv6
        | some addr => .ok ⟨addr,port⟩

def parseProxyProtocolV1 (header : Bytes) (fallback : SocketAddr) : Except LineError SocketAddr :=
  if validUtf8 header then
    match splitWhitespace (trimLineEnds header) with
    | [] => .error .empty
    | start::parts =>
      if start ≠ ascii "PROXY" then .error (.start start) else
      match parts with
      | [] => .error (.missing .family)
      | family::parts =>
        if family = ascii "UNKNOWN" then .ok fallback
        else if family = ascii "TCP4" ∨ family = ascii "TCP6" then parseAddresses ip family parts
        else .error (.family family)
  else .error .notUtf8

def readExact (n : Nat) (stream : Bytes) : Option Bytes × Bytes :=
  if n ≤ stream.length then (some (stream.take n),stream.drop n) else (none,[])

def readLineLoop (fallback : SocketAddr) : Nat → Bytes → Bytes → Except LineError SocketAddr × Bytes
  | 0, _, stream => (.error .tooLong,stream)
  | room+1, line, stream =>
    match readExact 1 stream with
    | (none,stream) => (.error .read,stream)
    | (some byte,stream) =>
      if crlf.isSuffixOf (line ++ byte) then (parseProxyProtocolV1 ip (line ++ byte) fallback,stream)
      else readLineLoop fallback room (line ++ byte) stream

def readByByte (fallback : SocketAddr) (stream : Bytes) : Except LineError SocketAddr × Bytes :=
  readLineLoop ip fallback maxProxyLineLen [] stream

/- `peeked` is how many bytes `recv` with `MSG_PEEK` finds, 0 if it fails. -/
def readProxyProtocolPeer (disableFastPath : Bool) (peeked : Nat) (fallback : SocketAddr) (stream : Bytes) :
    Except LineError SocketAddr × Bytes :=
  if disableFastPath then readByByte ip fallback stream else
  match find crlf (stream.take peeked) with
  | none => readByByte ip fallback stream
  | some len =>
    match readExact (len + 2) stream with
    | (none,stream) => (.error .read,stream)
    | (some _,rest) => (parseProxyProtocolV1 ip ((stream.take peeked).take len) fallback,rest)

variable (line : Bytes)

theorem trimLineEnd : trimLineEnds (line ++ crlf) = trimLineEnds line := by
  simp only [trimLineEnds,crlf,List.reverse_append,List.reverse_cons,List.reverse_nil,List.nil_append,
    List.cons_append,dropLineEnds]

theorem lineEndUtf8 : validUtf8 (line ++ crlf) = validUtf8 line := by
  cases valid : validUtf8 line with
  | true => exact validUtf8Append valid (by decide)
  | false =>
    cases whole : validUtf8 (line ++ crlf) with
    | false => rfl
    | true =>
      have front := (validUtf8Cut (by decide) whole).1
      rw [valid] at front
      cases front

theorem parseLineEnd (fallback : SocketAddr) :
    parseProxyProtocolV1 ip (line ++ crlf) fallback = parseProxyProtocolV1 ip line fallback := by
  rw [parseProxyProtocolV1,lineEndUtf8,trimLineEnd,parseProxyProtocolV1]

theorem readByte (b : UInt8) (rest : Bytes) : readExact 1 (b::rest) = (some [b],rest) := by
  rw [readExact,if_pos (by simp)]
  rfl

theorem loopFinds {fallback room len} {line stream} (absent : find crlf line = none)
    (found : find crlf (line ++ stream) = some len) (fits : len + 2 ≤ line.length + room) :
    readLineLoop ip fallback room line stream =
      (parseProxyProtocolV1 ip ((line ++ stream).take (len + 2)) fallback,(line ++ stream).drop (len + 2)) := by
  induction room generalizing line stream with
  | zero =>
    rw [findFront found (by omega)] at absent
    cases absent
  | succ room ih =>
    cases stream with
    | nil =>
      rw [List.append_nil,absent] at found
      cases found
    | cons b rest =>
      have whole : line ++ b::rest = (line ++ [b]) ++ rest := by simp
      rw [whole] at found ⊢
      rw [readLineLoop,readByte]
      dsimp only
      cases next : find crlf (line ++ [b]) with
      | none =>
        have open_ : crlf.isSuffixOf (line ++ [b]) = false := by
          rw [Bool.eq_false_iff]
          intro ends
          obtain ⟨before,same⟩ := List.isSuffixOf_iff_suffix.mp ends
          exact findStarts (by decide) (by rw [← same,List.drop_left]) next
        rw [open_,if_neg Bool.false_ne_true]
        exact ih next found (by rw [List.length_append,List.length_singleton]; omega)
      | some idx =>
        have same : idx = len := Option.some.inj ((findAppend next).symm.trans found)
        subst same
        have last : idx + 2 = (line ++ [b]).length := by
          rw [List.length_append]
          exact findGrown (by decide) absent (by simp) next
        have ends : crlf.isSuffixOf (line ++ [b]) = true := by
          rw [List.isSuffixOf_iff_suffix]
          have cut := findSound next
          rw [List.drop_of_length_le (by simp only [crlf,List.length_cons,List.length_nil]; omega),
            List.append_nil] at cut
          exact ⟨_,cut.symm⟩
        rw [ends,if_pos rfl,last,List.take_left,List.drop_left]

theorem byByteFinds {fallback stream len} (found : find crlf stream = some len) (fits : len + 2 ≤ maxProxyLineLen) :
    readByByte ip fallback stream = (parseProxyProtocolV1 ip (stream.take len) fallback,stream.drop (len + 2)) := by
  rw [readByByte,loopFinds ip rfl (by rw [List.nil_append]; exact found) (by simpa using fits),List.nil_append]
  have size : len + 2 = (stream.take len ++ crlf).length := by
    have bound := findBound found
    rw [List.length_append,List.length_take,Nat.min_eq_left (by omega)]
    rfl
  have line : stream.take (len + 2) = stream.take len ++ crlf := by
    conv_lhs => rw [findSound found,size]
    exact List.take_left
  rw [line,parseLineEnd]

theorem peekTransparent (fallback : SocketAddr) (stream : Bytes) (peeked : Nat)
    (few : peeked ≤ maxProxyLineLen) (there : peeked ≤ stream.length) :
    readProxyProtocolPeer ip false peeked fallback stream = readProxyProtocolPeer ip true peeked fallback stream := by
  rw [readProxyProtocolPeer,readProxyProtocolPeer,if_neg Bool.false_ne_true,if_pos rfl]
  cases seen : find crlf (stream.take peeked) with
  | none => rfl
  | some len =>
    have bound := findBound seen
    rw [List.length_take,Nat.min_eq_left there] at bound
    have found : find crlf stream = some len := by
      rw [← List.take_append_drop peeked stream]
      exact findAppend seen
    have inside : len + 2 ≤ stream.length := by
      simp only [crlf,List.length_cons,List.length_nil] at bound
      omega
    have short : min len peeked = len := Nat.min_eq_left (by omega)
    rw [byByteFinds ip found (by simp only [crlf,List.length_cons,List.length_nil] at bound; omega)]
    simp only [readExact,if_pos inside,List.take_take,short]

end

def peekedStream : Bytes := ascii "PROXY TCP4 192.0.2.1 192.0.2.2 5000 80\r\nGET"

theorem peekedStreamTransparent : readProxyProtocolPeer canonical false 41 ⟨.v4 0,0⟩ peekedStream =
      readProxyProtocolPeer canonical true 41 ⟨.v4 0,0⟩ peekedStream ∧
    readProxyProtocolPeer canonical false 41 ⟨.v4 0,0⟩ peekedStream = (.ok ⟨.v4 0xC0000201,5000⟩,ascii "GET") :=
  ⟨peekTransparent canonical ⟨.v4 0,0⟩ peekedStream 41 (by decide) (by decide +kernel),by decide +kernel⟩

end ZeroServe.ProxyProtocol
