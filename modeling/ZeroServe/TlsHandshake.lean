import ZeroServe.ClientHello

/-! Driving a TLS handshake over a socket through an in-memory bridge. The reads the TLS library makes in each call,
what it writes and how the call ends are given. -/
namespace ZeroServe.Tls
open ByteText

structure MemBridge where
  inbound : Bytes
  inboundPos : Nat
  outbound : Bytes
  deriving DecidableEq

def MemBridge.new : MemBridge := ⟨[],0,[]⟩

/- `none` is the would-block error. -/
def MemBridge.read (b : MemBridge) (bufLen : Nat) : Option (Bytes × MemBridge) :=
  let avail := b.inbound.drop b.inboundPos
  if avail.isEmpty then none else
  let n := min avail.length bufLen
  some (avail.take n,{b with inboundPos := b.inboundPos + n})

def MemBridge.write (b : MemBridge) (buf : Bytes) : MemBridge := {b with outbound := b.outbound ++ buf}

inductive Ending (Target : Type) where
  | complete (echAccepted : Bool)
  /- The certificate callback asks to be called again, with the name the client sent. -/
  | pendingCertificate (sni : Option Bytes)
  | wantRead
  /- The relay target, if the certificate callback has set one. -/
  | failure (relay : Option Target)
  | setupFailure
  deriving DecidableEq

structure Call (Target : Type) where
  buffers : List Nat
  written : Bytes
  ending : Ending Target
  /- Whether the socket takes what the call has written. -/
  flushes : Bool
  deriving DecidableEq

inductive AcceptError where
  | closed | failed | setup | pausedTwice | selection | socket
  deriving DecidableEq

/- Both outcomes hold on to the socket: the reads that have not been made. -/
inductive Outcome (Target : Type) where
  | stream (echAccepted : Bool) (outerSni : Option Bytes) (io : List Bytes)
  | relay (target : Target) (prelude : Bytes) (io : List Bytes)
  | error (e : AcceptError)
  /- The given calls end here. -/
  | handshaking
  deriving DecidableEq

section
variable {Target : Type}

def MemBridge.reads (b : MemBridge) (buffers : List Nat) : MemBridge :=
  buffers.foldl (fun b n => ((b.read n).map Prod.snd).getD b) b

def Call.handshake (c : Call Target) (b : MemBridge) : MemBridge := (b.reads c.buffers).write c.written

def flushOut (b : MemBridge) (flushes : Bool) : Option MemBridge :=
  if b.outbound.isEmpty then some b else if flushes then some {b with outbound := []} else none

def fillIn (b : MemBridge) (chunk : Bytes) : Option MemBridge :=
  if chunk.isEmpty then none else
  let b := if b.inboundPos = b.inbound.length then {b with inbound := [],inboundPos := 0} else b
  some {b with inbound := b.inbound ++ chunk}

/- `waiting` says that the certificate selector has not been used. A list of reads that
ends before the end of the stream is a socket error. -/
def driveHandshake (selector : Option Bytes → Bool) (waiting : Bool) (firstFlight : Option Bytes) :
    MemBridge → List (Call Target) → List Bytes → Outcome Target
  | _,[],_ => .handshaking
  | b,c::later,io =>
    let b := c.handshake b
    match c.ending with
    | .complete ech =>
      match flushOut b c.flushes with
      | none => .error .socket
      | some _ => .stream ech (if ech then firstFlight.bind outerSniFromRecord else none) io
    | .pendingCertificate sni =>
      if ! waiting then .error .pausedTwice
      else if ! selector (sni.map lower) then .error .selection
      else driveHandshake selector false firstFlight b later io
    | .wantRead =>
      match flushOut b c.flushes,io with
      | none,_ => .error .socket
      | some _,[] => .error .socket
      | some b,chunk::io =>
        match fillIn b chunk with
        | none => .error .closed
        | some b =>
          let firstFlight := match firstFlight with
            | none => if b.inbound.isEmpty then none else some b.inbound
            | some flight => some flight
          driveHandshake selector waiting firstFlight b later io
    | .failure (some target) => .relay target b.inbound io
    | .failure none => .error .failed
    | .setupFailure => .error .setup

def accept (selector : Option Bytes → Bool) (calls : List (Call Target)) (io : List Bytes) :
    Outcome Target :=
  driveHandshake selector true none MemBridge.new calls io

def MemBridge.left (b : MemBridge) : Nat := b.inbound.length - b.inboundPos

def Lagging : Nat → Bool → List (Call Target) → List Bytes → Prop
  | _,_,[],_ => True
  | left,filled,c::later,io =>
    match c.ending,io with
    | .pendingCertificate _,_ => Lagging (left - c.buffers.sum) filled later io
    | .wantRead,chunk::io =>
      (filled = true → c.buffers.sum < left) ∧
      Lagging (left - c.buffers.sum + chunk.length) true later io
    | _,_ => True

def asksFirst : List (Call Target) → Bool
  | [] => false
  | c::later =>
    match c.ending with
    | .pendingCertificate _ => asksFirst later
    | .wantRead => true
    | _ => false

def MemBridge.Within (b : MemBridge) : Prop := b.inboundPos ≤ b.inbound.length

theorem withinNew : MemBridge.new.Within := Nat.le_refl 0

structure Consumed (b after : MemBridge) (n : Nat) : Prop where
  left : after.left = b.left - n
  inbound : after.inbound = b.inbound
  within : b.Within → after.Within

theorem readConsumed (b : MemBridge) (n : Nat) : Consumed b (((b.read n).map Prod.snd).getD b) n := by
  unfold MemBridge.read
  simp only [List.isEmpty_iff,List.drop_eq_nil_iff,List.length_drop]
  split
  · rename_i spent
    refine ⟨?_,rfl,id⟩
    simp only [Option.map_none,Option.getD_none,MemBridge.left]
    omega
  · rename_i available
    constructor
    · simp only [Option.map_some,Option.getD_some,MemBridge.left]
      omega
    · rfl
    · intro within
      simp only [Option.map_some,Option.getD_some,MemBridge.Within]
      omega

theorem readsConsumed (b : MemBridge) (buffers : List Nat) : Consumed b (b.reads buffers) buffers.sum := by
  induction buffers generalizing b with
  | nil => exact ⟨rfl,rfl,id⟩
  | cons n later ih =>
    have first := readConsumed b n
    have rest := ih (((b.read n).map Prod.snd).getD b)
    have both : b.reads (n::later) = (((b.read n).map Prod.snd).getD b).reads later := rfl
    rw [both]
    refine ⟨?_,rest.inbound.trans first.inbound,fun within => rest.within (first.within within)⟩
    rw [rest.left,first.left,List.sum_cons]
    omega

theorem handshakeConsumed (c : Call Target) (b : MemBridge) : Consumed b (c.handshake b) c.buffers.sum :=
  have reads := readsConsumed b c.buffers
  ⟨reads.left,reads.inbound,reads.within⟩

theorem flushOutConsumed {b after flushes} (h : flushOut b flushes = some after) : Consumed b after 0 := by
  unfold flushOut at h
  split at h
  · cases h
    exact ⟨rfl,rfl,id⟩
  · split at h
    · cases h
      exact ⟨rfl,rfl,id⟩
    · cases h

structure Filled (b after : MemBridge) (chunk : Bytes) : Prop where
  nonempty : chunk ≠ []
  inbound : after.inbound = (if b.left = 0 then [] else b.inbound) ++ chunk
  left : after.left = b.left + chunk.length
  within : after.Within

theorem fillInFilled {b after chunk} (within : b.Within) (h : fillIn b chunk = some after) : Filled b after chunk := by
  unfold MemBridge.Within at within
  unfold fillIn at h
  split at h
  · cases h
  · rename_i nonempty
    have nonempty : chunk ≠ [] := by simpa using nonempty
    cases h
    by_cases spent : b.inboundPos = b.inbound.length
    · have none : b.left = 0 := by
        unfold MemBridge.left
        omega
      simp only [spent]
      refine ⟨nonempty,?_,?_,?_⟩
      · simp [none]
      · simp [MemBridge.left,spent]
      · simp [MemBridge.Within]
    · have some : b.left ≠ 0 := by
        unfold MemBridge.left
        omega
      simp only [if_neg spent]
      refine ⟨nonempty,?_,?_,?_⟩
      · rw [if_neg some]
      · simp only [MemBridge.left,List.length_append]
        omega
      · simp only [MemBridge.Within,List.length_append]
        omega

theorem suffixFilled {inbound prelude chunk received : Bytes} {left}
    (suffix : prelude <:+ ((if left = 0 then [] else inbound) ++ chunk) ++ received) :
    prelude <:+ inbound ++ (chunk ++ received) ∧ (prelude = inbound ++ (chunk ++ received) ↔
      ((! inbound.isEmpty) = true → 0 < left) ∧
      prelude = ((if left = 0 then [] else inbound) ++ chunk) ++ received) := by
  cases left with
  | succ left =>
    simp only [Nat.add_eq_zero_iff] at suffix ⊢
    simpa using suffix
  | zero =>
    simp only [if_true,List.nil_append] at suffix ⊢
    refine ⟨suffix.trans (List.suffix_append _ _),?_,?_⟩
    · intro whole
      have size := suffix.length_le
      rw [whole] at size
      have empty : inbound = [] := by
        simp only [List.length_append] at size
        exact List.length_eq_zero_iff.mp (by omega)
      simp [whole,empty]
    · rintro ⟨kept,whole⟩
      have empty : inbound = [] := by simpa using kept
      simp [whole,empty]

variable {selector : Option Bytes → Bool} {b : MemBridge} {calls : List (Call Target)} {io rest : List Bytes}

theorem preludeReceived {waiting : Bool} {firstFlight : Option Bytes}
    {target : Target}
    {prelude : Bytes} (within : b.Within)
    (relayed : driveHandshake selector waiting firstFlight b calls io = .relay target prelude rest) :
    ∃ received, io = received ++ rest ∧ prelude <:+ b.inbound ++ received.flatten ∧
      (prelude = b.inbound ++ received.flatten ↔ Lagging b.left (! b.inbound.isEmpty) calls io) := by
  induction calls generalizing waiting firstFlight b io with
  | nil => cases relayed
  | cons c later ih =>
    have consumed := handshakeConsumed c b
    cases ending : c.ending with
    | complete ech =>
      simp only [driveHandshake,ending] at relayed
      split at relayed <;> cases relayed
    | setupFailure => simp [driveHandshake,ending] at relayed
    | failure relay =>
      cases relay with
      | none => simp [driveHandshake,ending] at relayed
      | some target' =>
        simp only [driveHandshake,ending] at relayed
        cases relayed
        refine ⟨[],rfl,?_⟩
        simp [consumed.inbound,Lagging,ending]
    | pendingCertificate sni =>
      simp only [driveHandshake,ending] at relayed
      split at relayed
      · cases relayed
      · split at relayed
        · cases relayed
        · have next := ih (consumed.within within) relayed
          simpa only [consumed.inbound,consumed.left,Lagging,ending] using next
    | wantRead =>
      simp only [driveHandshake,ending] at relayed
      split at relayed
      · cases relayed
      · cases relayed
      · rename_i flushed chunk io' flush
        have sent := flushOutConsumed flush
        split at relayed
        · cases relayed
        · rename_i after fill
          have filled := fillInFilled (sent.within (consumed.within within)) fill
          obtain ⟨received,reads,suffix,whole⟩ := ih filled.within relayed
          have isFilled : (! after.inbound.isEmpty) = true := by
            simp [filled.inbound,filled.nonempty]
          have left : flushed.left = b.left - c.buffers.sum := by
            rw [sent.left,consumed.left,Nat.sub_zero]
          rw [isFilled,filled.left,left] at whole
          rw [filled.inbound,left,sent.inbound,consumed.inbound] at suffix whole
          obtain ⟨suffix,precise⟩ := suffixFilled suffix
          refine ⟨chunk::received,by rw [reads]; rfl,suffix,?_⟩
          simp only [List.flatten_cons,Lagging,ending,precise,whole,Nat.sub_pos_iff_lt]

theorem flightKept {waiting : Bool} {flight : Bytes}
    {outer : Option Bytes}
    (streamed : driveHandshake selector waiting (some flight) b calls io = .stream true outer rest) :
    outer = outerSniFromRecord flight := by
  induction calls generalizing waiting b io with
  | nil => cases streamed
  | cons c later ih =>
    unfold driveHandshake at streamed
    cases ending : c.ending with
    | complete ech =>
      simp only [ending] at streamed
      split at streamed
      · cases streamed
      · cases streamed
        rfl
    | pendingCertificate sni =>
      simp only [ending] at streamed
      split at streamed
      · cases streamed
      · split at streamed
        · cases streamed
        · exact ih streamed
    | wantRead =>
      simp only [ending] at streamed
      split at streamed
      · cases streamed
      · cases streamed
      · split at streamed
        · cases streamed
        · exact ih streamed
    | failure relay => cases relay <;> simp [ending] at streamed
    | setupFailure => simp [ending] at streamed

theorem flightFirstRead {waiting : Bool}
    {outer : Option Bytes} (within : b.Within)
    (empty : b.inbound = []) (streamed : driveHandshake selector waiting none b calls io = .stream true outer rest) :
    outer = if asksFirst calls then io.head?.bind outerSniFromRecord else none := by
  induction calls generalizing waiting b with
  | nil => cases streamed
  | cons c later ih =>
    have consumed := handshakeConsumed c b
    unfold driveHandshake at streamed
    cases ending : c.ending with
    | complete ech =>
      simp only [ending] at streamed
      split at streamed
      · cases streamed
      · cases streamed
        simp [asksFirst,ending]
    | pendingCertificate sni =>
      simp only [ending] at streamed
      split at streamed
      · cases streamed
      · split at streamed
        · cases streamed
        · simpa only [asksFirst,ending] using
            ih (consumed.within within) (consumed.inbound.trans empty) streamed
    | wantRead =>
      simp only [ending] at streamed
      split at streamed
      · cases streamed
      · cases streamed
      · rename_i flushed chunk io' flush
        have sent := flushOutConsumed flush
        split at streamed
        · cases streamed
        · rename_i after fill
          have filled := fillInFilled (sent.within (consumed.within within)) fill
          have first : after.inbound = chunk := by
            rw [filled.inbound,sent.inbound,consumed.inbound,empty,ite_self,List.nil_append]
          have nonempty : chunk.isEmpty = false := by simpa using filled.nonempty
          simp only [first,nonempty] at streamed
          simpa [asksFirst,ending] using flightKept streamed
    | failure relay => cases relay <;> simp [ending] at streamed
    | setupFailure => simp [ending] at streamed

end

def HoldsRecord (h : Hello) (io : List Bytes) : Prop :=
  ∃ chunk later, io = chunk::later ∧ h.record.length ≤ chunk.length

theorem firstReadSni {h} (bound : h.message.length < 65536) {io rest} (starts : io.flatten = h.record ++ rest) :
    io.head?.bind outerSniFromRecord = h.serverName ↔ HoldsRecord h io ∨ h.serverName = none := by
  cases io with
  | nil => simp [Hello.record] at starts
  | cons chunk later =>
    rw [List.head?_cons,Option.bind_some]
    have begins : chunk <+: h.record ++ rest := by
      rw [← starts,List.flatten_cons]
      exact List.prefix_append _ _
    have holds : HoldsRecord h (chunk::later) ↔ h.record.length ≤ chunk.length := by
      simp [HoldsRecord]
    rw [holds]
    by_cases long : h.record.length ≤ chunk.length
    · obtain ⟨tail,whole⟩ :=
        List.prefix_of_prefix_length_le (List.prefix_append _ _) begins long
      rw [← whole,outerSniWhole h bound]
      simp
    · have cut :=
        List.prefix_of_prefix_length_le begins (List.prefix_append _ _) (by omega)
      rw [outerSniCut h bound cut (by omega)]
      simp [long,eq_comm]

/- A relayed connection's prelude is everything received exactly when every later read
found unconsumed bytes; after ECH the outer name is the client's exactly when the first read
held the whole record, or there is no name. -/
theorem acceptSegmentation {Target : Type} (selector : Option Bytes → Bool)
    (calls : List (Call Target)) (io : List Bytes) :
    (∀ target prelude rest received, accept selector calls io = .relay target prelude rest →
      io = received ++ rest → (prelude = received.flatten ↔ Lagging 0 false calls io)) ∧
    (∀ outer rest (h : Hello) tail, accept selector calls io = .stream true outer rest →
      h.message.length < 65536 → io.flatten = h.record ++ tail → (outer = h.serverName ↔
        (asksFirst calls = true ∧ HoldsRecord h io) ∨ h.serverName = none)) := by
  constructor
  · intro target prelude rest received relayed reads
    obtain ⟨received',reads',-,precise⟩ := preludeReceived withinNew relayed
    have same := List.append_cancel_right (reads.symm.trans reads')
    rw [same]
    exact precise
  · intro outer rest h tail streamed bound starts
    rw [flightFirstRead withinNew rfl streamed]
    cases asks : asksFirst calls with
    | true =>
      rw [if_pos rfl,firstReadSni bound starts]
      simp
    | false => simp [eq_comm]

def namedHello : Hello where
  recordVersion := (3,1)
  version := 0x0303
  random := List.replicate 32 0
  sessionId := []
  ciphers := [0x1301]
  compression := [0]
  extensions := some [.serverName [⟨0,ascii "a.b",by decide,by decide⟩]]
  versionFits := by decide
  randomFits := by decide
  sessionIdFits := by decide
  ciphersFit := by decide
  compressionFits := by decide
  extensionFits := by
    intro e mem
    cases List.mem_singleton.mp mem
    exact ⟨by decide,by decide,fun _ _ is => by cases is⟩
  extensionsFit := by decide

def relayCalls : List (Call Bytes) :=
  [⟨[],[],.wantRead,true⟩,⟨[5],[],.wantRead,true⟩,⟨[16384],[],.failure (some (ascii "a.b")),true⟩]

def echCalls : List (Call Bytes) :=
  [⟨[],[],.wantRead,true⟩,⟨[5],[],.wantRead,true⟩,⟨[16384],[],.complete true,true⟩]

theorem segmentedHelloLost : (¬∀ (calls : List (Call Bytes)) (io : List Bytes) target prelude rest received,
      accept (fun _ => true) calls io = .relay target prelude rest → io = received ++ rest →
      prelude = received.flatten) ∧ ¬∀ (calls : List (Call Bytes)) (io : List Bytes) outer rest (h : Hello) tail,
      accept (fun _ => true) calls io = .stream true outer rest → h.message.length < 65536 →
      io.flatten = h.record ++ tail → outer = h.serverName := by
  constructor
  · intro always
    have kept := always relayCalls [namedHello.record.take 5,namedHello.record.drop 5] (ascii "a.b")
      (namedHello.record.drop 5) [] [namedHello.record.take 5,namedHello.record.drop 5]
      (by decide +kernel) rfl
    exact absurd kept (by decide +kernel)
  · intro always
    have found := always echCalls [namedHello.record.take 5,namedHello.record.drop 5] none [] namedHello []
      (by decide +kernel) (by decide +kernel) (by decide +kernel)
    exact absurd found (by decide +kernel)

end ZeroServe.Tls
