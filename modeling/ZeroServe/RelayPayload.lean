import ZeroServe.BodyDrip
import ZeroServe.ProxyReply

/-! The relay of a response body to the client, for every size of its batch and every cut of the backend's bytes: what
it writes is the payload, either as it is or in chunks of its own. -/
namespace ZeroServe.Proxy
open H1 ByteText ByteSource ChunkCoding

theorem writeBatchSound {r} (sound : r.client.Sound) : ∃ r', writeProxyBodyBatch r = (true,r') ∧ r'.client.Sound ∧
      r'.client.written = r.client.written ++ r.batch ∧ r'.batch = [] ∧ r'.body = r.body ∧ r'.conn = r.conn := by
  cases step : writeProxyBodyBatch r with
  | mk ok r' =>
    have fine : ok = true ∧ r'.client.Sound := by
      unfold writeProxyBodyBatch at step
      split at step
      · cases step
        exact ⟨rfl,sound⟩
      · cases wrote : writeAll r.batch r.client with
        | mk done client =>
          rw [wrote] at step
          cases step
          exact writeAllSound sound wrote
    obtain ⟨rfl,still⟩ := fine
    obtain ⟨written,empty,body,conn⟩ := writeBatchOk step
    exact ⟨r',rfl,still,written,empty,body,conn⟩

def relayTurns (r : Relay) : Nat :=
  2 * r.conn.buf.length + 3 * r.conn.io.bytes.length + (if r.batch = [] then 0 else 1) +
    (if finished r.body then 0 else 1)

theorem relayTurnsLe (r : Relay) : relayTurns r ≤ 2 * r.conn.buf.length + 3 * r.conn.io.bytes.length + 2 := by
  unfold relayTurns
  split <;> split <;> omega

theorem relayTurnsFlushed {r} (flushed : r.batch = []) :
    relayTurns r ≤ 2 * r.conn.buf.length + 3 * r.conn.io.bytes.length + 1 := by
  unfold relayTurns
  rw [if_pos flushed]
  split <;> omega

def Relayed (size : Nat) (rechunk : Bool) (r : Relay) : Bool × Relay → Prop
  | (ok,r') => ok = true ∧
      (decode r.body r.conn.unread).outcome = .ok r'.conn.unread ∧
      ∃ pieces, (∀ d ∈ pieces, d ≠ [] ∧ d.length ≤ max size 1) ∧
        pieces.flatten = (decode r.body r.conn.unread).payload ∧
        r'.client.written = r.client.written ++ (r.batch ++ wireBody rechunk pieces)

theorem relayedBack (ls data : List Bytes) {size} {rechunk r} (r1 : Relay) {x}
    (reading : decode r.body r.conn.unread = .after ls data.flatten (decode r1.body r1.conn.unread))
    (sizes : ∀ d ∈ data, d ≠ [] ∧ d.length ≤ max size 1) (wrote : r1.client.written ++ r1.batch =
      r.client.written ++ r.batch ++ data.flatMap (framePiece rechunk)) (relayed : Relayed size rechunk r1 x) :
    Relayed size rechunk r x := by
  obtain ⟨ok,r'⟩ := x
  obtain ⟨rfl,ended,pieces,small,payload,written⟩ := relayed
  refine ⟨rfl,?_,data ++ pieces,?_,?_,?_⟩
  · rw [reading]
    exact ended
  · intro d mem
    rcases List.mem_append.mp mem with here | later
    · exact sizes d here
    · exact small d later
  · rw [reading,List.flatten_append,payload]
    rfl
  · rw [written,← List.append_assoc,wrote]
    simp only [wireBody,List.flatMap_append,List.append_assoc]

/- A body that the relay can bring to its end. -/
structure Relayable (rest : Bytes) (r : Relay) : Prop where
  steady : Steady r.conn.io
  sound : r.client.Sound
  fits : LinesFit (decode r.body r.conn.unread)
  complete : (decode r.body r.conn.unread).outcome = .ok rest

def RelaysWithin (size : Nat) (rechunk : Bool) (rest : Bytes) (fuel : Nat) : Prop :=
  ∀ r, relayTurns r < fuel → Relayable rest r → Relayed size rechunk r (relayLoop size rechunk fuel r)

section
variable {size fuel : Nat} {rechunk : Bool} {rest : Bytes} {r : Relay} (later : RelaysWithin size rechunk rest fuel)
include later

theorem turnGoesOn (ls data : List Bytes) {r1} (able : Relayable rest r) (turns : relayTurns r1 < fuel)
    (steady : Steady r1.conn.io) (sound : r1.client.Sound)
    (reading : decode r.body r.conn.unread = .after ls data.flatten (decode r1.body r1.conn.unread))
    (sizes : ∀ d ∈ data, d ≠ [] ∧ d.length ≤ max size 1) (wrote : r1.client.written ++ r1.batch =
      r.client.written ++ r.batch ++ data.flatMap (framePiece rechunk)) :
    Relayed size rechunk r (relayLoop size rechunk fuel r1) := by
  have fits := able.fits
  have complete := able.complete
  rw [reading] at fits complete
  exact relayedBack ls data r1 reading sizes wrote (later r1 turns ⟨steady,sound,fitsAfter fits,complete⟩)

/- The batch is written and the loop goes round. -/
theorem turnFlushes (ls data : List Bytes) {q : Relay} (able : Relayable rest r)
    (turns : 2 * q.conn.buf.length + 3 * q.conn.io.bytes.length + 1 < fuel) (same : q.conn.io = r.conn.io)
    (client : q.client = r.client)
    (reading : decode r.body r.conn.unread = .after ls data.flatten (decode q.body q.conn.unread))
    (sizes : ∀ d ∈ data, d ≠ [] ∧ d.length ≤ max size 1) (batch : q.batch = r.batch ++ data.flatMap (framePiece rechunk)) :
    Relayed size rechunk r (match writeProxyBodyBatch q with
      | (false,r) => (false,r)
      | (true,r) => relayLoop size rechunk fuel r) := by
  obtain ⟨r1,wrote,still,written,flushed,sameBody,sameConn⟩ := writeBatchSound (r := q) (client ▸ able.sound)
  rw [wrote]
  have bound := relayTurnsFlushed flushed
  rw [sameConn] at bound
  refine turnGoesOn later ls data able (by omega) (by rw [sameConn,same]; exact able.steady) still
    (by rw [sameBody,sameConn]; exact reading) sizes ?_
  rw [written,flushed,client,batch]
  simp

theorem turnCopied {body : Body} {conn : Conn} {batch : Bytes} (able : Relayable rest r)
    (active : finished r.body = false) (enough : relayTurns r < fuel + 1)
    (meets : DrainMeets (max (size - r.batch.length) 1) rechunk r.body r.conn r.batch (.ok .copied,body,conn,batch)) :
    Relayed size rechunk r (if size ≤ batch.length then
        match writeProxyBodyBatch {r with body,conn,batch} with
        | (false,r) => (false,r)
        | (true,r) => relayLoop size rechunk fuel r
      else relayLoop size rechunk fuel {r with body,conn,batch}) := by
  obtain ⟨same,less,ls,data,some,small,rfl,reading⟩ := meets
  have budget : 2 * r.conn.buf.length + 3 * r.conn.io.bytes.length + 1 ≤ relayTurns r := by
    unfold relayTurns
    rw [active]
    split <;> simp
  have sizes : ∀ d ∈ [data], d ≠ [] ∧ d.length ≤ max size 1 := by
    intro d mem
    rw [List.mem_singleton.mp mem]
    exact ⟨some,by omega⟩
  have reading : decode r.body r.conn.unread = .after ls [data].flatten (decode body conn.unread) := by
    simpa using reading
  split
  · exact turnFlushes later ls [data] able (by dsimp only; rw [same]; omega) same rfl reading sizes (by simp)
  · have bound := relayTurnsLe {r with body, conn, batch := r.batch ++ framePiece rechunk data}
    dsimp only at bound
    rw [same] at bound
    exact turnGoesOn later ls [data] able (by omega) (by rw [same]; exact able.steady) able.sound reading sizes (by simp)

theorem turnReads {body : Body} {conn : Conn} {batch : Bytes} (able : Relayable rest r)
    (active : finished r.body = false) (enough : relayTurns r < fuel + 1)
    (meets : DrainMeets (max (size - r.batch.length) 1) rechunk r.body r.conn r.batch (.ok .needRead,body,conn,batch)) :
    Relayed size rechunk r (if batch ≠ [] then
        match writeProxyBodyBatch {r with body,conn,batch} with
        | (false,r) => (false,r)
        | (true,r) => relayLoop size rechunk fuel r
      else
        match fill body conn size with
        | (.error _,body,conn) => (false,{r with body,conn,batch})
        | (.ok _,body,conn) => relayLoop size rechunk fuel {r with body,conn,batch}) := by
  obtain ⟨rfl,same,less,starved,ls,reading⟩ := meets
  have none : ∀ d ∈ ([] : List Bytes), d ≠ [] ∧ d.length ≤ max size 1 := by
    intro d mem
    cases mem
  split
  · rename_i pending
    have budget : relayTurns r = 2 * r.conn.buf.length + 3 * r.conn.io.bytes.length + 2 := by
      unfold relayTurns
      rw [active,if_neg pending]
      rfl
    exact turnFlushes later ls [] able (by dsimp only; rw [same]; omega) same rfl reading none (by simp)
  · rename_i flushed
    have flushed : r.batch = [] := by simpa using flushed
    have budget : relayTurns r = 2 * r.conn.buf.length + 3 * r.conn.io.bytes.length + 1 := by
      unfold relayTurns
      rw [active,if_pos flushed]
      rfl
    have filled := fillMeets (b := body) (c := conn) size (same ▸ able.steady) (same ▸ starved)
    cases read : fill body conn size with
    | mk result after =>
      obtain ⟨body2,conn2⟩ := after
      rw [read] at filled
      cases result with
      | error e =>
        have stopped := filled.2
        have fine := able.complete
        rw [reading] at fine
        have fine : (decode body conn.unread).outcome = .ok rest := fine
        rw [fine] at stopped
        cases stopped
      | ok _ =>
        obtain ⟨still,next,progress⟩ := filled
        have turns : relayTurns {r with body := body2, conn := conn2} < fuel := by
          rcases progress with ⟨-,shorter,total⟩ | ⟨-,rfl,kept,gone⟩
          · have bound := relayTurnsFlushed (r := {r with body := body2, conn := conn2}) flushed
            rw [same] at shorter total
            dsimp only at bound
            omega
          · simp only [relayTurns,flushed,finished,kept,gone]
            simp only [if_true,List.length_nil]
            omega
        exact turnGoesOn later ls [] able turns still able.sound (by rw [reading,next]; rfl) none (by simp)

end

theorem relayLoopMeets {size rechunk rest} (fuel : Nat) : RelaysWithin size rechunk rest fuel := by
  induction fuel with
  | zero =>
    intro r enough
    omega
  | succ fuel ih =>
    intro r enough able
    have meets := tryDrainMeets r.batch (size - r.batch.length) rechunk able.fits
    have unfinished : finished r.body = false ∨
        tryDrainInto r.body r.conn r.batch (size - r.batch.length) rechunk =
          (.ok .done,r.body,r.conn,r.batch) := by
      cases ended : finished r.body with
      | false => exact .inl rfl
      | true => exact .inr (tryDrainFinished ended)
    unfold relayLoop
    cases step : tryDrainInto r.body r.conn r.batch (size - r.batch.length) rechunk with
    | mk result later =>
      obtain ⟨body,conn,batch⟩ := later
      rw [step] at meets unfinished
      cases result with
      | error e =>
        obtain ⟨-,-,stopped⟩ := meets
        rw [able.complete] at stopped
        cases stopped
      | ok kind =>
        cases kind with
        | done =>
          obtain ⟨rfl,empty,ended⟩ := meets
          obtain ⟨r',wrote,-,written,-,-,same⟩ := writeBatchSound
            (r := {r with body, conn, batch := if rechunk then r.batch ++ lastChunk else r.batch}) able.sound
          dsimp only
          rw [wrote]
          refine ⟨rfl,by rw [same]; exact ended,[],by simp,empty.symm,?_⟩
          rw [written]
          cases rechunk <;> simp [wireBody,frameEnd]
        | copied => exact turnCopied ih able (unfinished.resolve_right (by simp)) enough meets
        | needRead => exact turnReads ih able (unfinished.resolve_right (by simp)) enough meets

theorem readAllMeets {fuel} {seen pieces b b' c c'} (steady : Steady c.io) (fits : LinesFit (decode b c.unread))
    (h : readAllLoop fuel seen b c = (.ok pieces,b',c')) :
    pieces.flatten = seen.flatten ++ (decode b c.unread).payload ∧ (decode b c.unread).outcome = .ok c'.unread := by
  induction fuel generalizing seen b c with
  | zero => cases h
  | succ fuel ih =>
    have meets := nextDataMeets steady fits
    unfold readAllLoop at h
    split at h
    · rename_i b1 c1 last
      cases h
      rw [last] at meets
      obtain ⟨empty,ended⟩ := meets
      exact ⟨by rw [empty,List.append_nil],ended⟩
    · cases h
    · rename_i data b1 c1 step
      rw [step] at meets
      obtain ⟨still,ls,reading⟩ := meets
      rw [reading] at fits ⊢
      obtain ⟨whole,ended⟩ := ih still (fitsAfter fits) h
      refine ⟨?_,ended⟩
      rw [whole]
      simp [Reading.after]

theorem readAllReturns {fuel} {seen b c rest} (enough : c.unread.length < fuel) (steady : Steady c.io)
    (fits : LinesFit (decode b c.unread)) (complete : (decode b c.unread).outcome = .ok rest) :
    ∃ pieces b' c', readAllLoop fuel seen b c = (.ok pieces,b',c') := by
  induction fuel generalizing seen b c with
  | zero => omega
  | succ fuel ih =>
    have meets := nextDataMeets steady fits
    unfold readAllLoop
    cases step : nextData b c with
    | mk r later =>
      rw [step] at meets
      cases r with
      | none => exact ⟨_,_,_,rfl⟩
      | some r =>
        cases r with
        | error e =>
          obtain ⟨failed,-,-⟩ := meets
          rw [complete] at failed
          cases failed
        | ok data =>
          obtain ⟨still,ls,reading⟩ := meets
          have less := nextDataShrinks step
          rw [reading] at fits complete
          exact ih (by omega) still (fitsAfter fits) complete

/- The bytes of a fixed body as they are; any other body as chunks that hold data and one
last chunk. -/
def RelayedAs (body : Body) (unread payload wire : Bytes) : Prop :=
  match body with
  | .none => wire = []
  | .fixed n => wire = unread.take n
  | _ => Coded chunkSize wire payload [] ∧
      ∃ pieces : List Bytes, (∀ d ∈ pieces, d ≠ []) ∧ pieces.flatten = payload ∧
        wire = pieces.flatMap chunkOf ++ lastChunk

theorem relayedAs {size} {rechunk body conn client x} (machine : size < 2^64) (way : hint body ≠ .none)
    (kind : rechunk = rechunked body) {rest} (complete : (decode body conn.unread).outcome = .ok rest)
    (relayed : Relayed size rechunk ⟨body,conn,client,[]⟩ x) :
    ∃ r wire, x = (true,r) ∧ r.client.written = client.written ++ wire ∧
      r.conn.unread = rest ∧ RelayedAs body conn.unread (decode body conn.unread).payload wire := by
  obtain ⟨ok,r⟩ := x
  obtain ⟨rfl,ended,pieces,sizes,payload,written⟩ := relayed
  have same : r.conn.unread = rest := by
    rw [complete] at ended
    cases ended
    rfl
  refine ⟨r,wireBody rechunk pieces,rfl,by simpa using written,same,?_⟩
  have chunked : rechunk = true → Coded chunkSize (wireBody rechunk pieces)
      (decode body conn.unread).payload [] ∧ ∃ pieces' : List Bytes, (∀ d ∈ pieces', d ≠ []) ∧
        pieces'.flatten = (decode body conn.unread).payload ∧
        wireBody rechunk pieces = pieces'.flatMap chunkOf ++ lastChunk := by
    intro on
    subst on
    refine ⟨?_,pieces,fun d mem => (sizes d mem).1,payload,rfl⟩
    rw [← payload]
    exact chunkedWire fun d mem => by
      have := (sizes d mem).2
      omega
  cases body with
  | none => exact absurd rfl way
  | fixed n =>
    subst kind
    change wireBody false pieces = conn.unread.take n
    rw [wireBodyPlain,payload]
    simp only [decode] at complete ⊢
    split
    · rename_i short
      rw [if_pos short] at complete
      cases complete
    · rfl
  | chunked n a t d => exact chunked kind
  | eof d => exact chunked kind

/- A body that `next_data` reads to its end is relayed whole, for every cut of its bytes and every size of the
batch, if its lines are short of the limit. -/
theorem relayKeepsPayload (size : Nat) (body : Body) (conn : Conn) (client : Sink)
    (machine : size < 2^64) (kind : body ≠ .none) (steady : Steady conn.io) (sound : client.Sound)
    (fits : ∀ line ∈ (decode body conn.unread).lines, line.length < maxLineSize)
    (decodes : ∃ pieces b' c', readAll body conn = (.ok pieces,b',c')) :
    ∃ payload r wire, forwardProxyBodyOf size body conn client = (true,r) ∧ r.client.written = client.written ++ wire ∧
      RelayedAs body conn.unread payload wire ∧
      (size = proxyWriteBatchSize → forwardProxyBody body conn client = (true,r)) ∧
      ∀ c : Conn, c.unread = conn.unread → Steady c.io → ∃ pieces b' c',
        readAll body c = (.ok pieces,b',c') ∧ pieces.flatten = payload ∧ c'.unread = r.conn.unread := by
  obtain ⟨_,_,_,own⟩ := decodes
  obtain ⟨-,complete⟩ := readAllMeets steady fits own
  have turns : ∀ b, relayTurns ⟨b,conn,client,[]⟩ < relayFuel conn := by
    intro b
    have bound := relayTurnsLe ⟨b,conn,client,[]⟩
    unfold relayFuel
    dsimp only at bound
    omega
  have way : hint body ≠ .none := by
    cases body with
    | none => exact absurd rfl kind
    | fixed n => simp [hint]
    | chunked n a t d => simp [hint]
    | eof d => simp [hint]
  have relayed : Relayed size (rechunked body) ⟨body,conn,client,[]⟩
      (relayLoop size (rechunked body) (relayFuel conn) ⟨body,conn,client,[]⟩) :=
    relayLoopMeets _ _ (turns body) ⟨steady,sound,fits,complete⟩
  have same : forwardProxyBodyOf size body conn client =
      relayLoop size (rechunked body) (relayFuel conn) ⟨body,conn,client,[]⟩ := by
    cases body with
    | none => exact absurd rfl kind
    | fixed n => rfl
    | chunked n a t d => rfl
    | eof d => rfl
  obtain ⟨r,wire,run,written,left,form⟩ := relayedAs machine way rfl complete relayed
  refine ⟨_,r,wire,by rw [same,run],written,form,fun own => ?_,?_⟩
  · rw [forwardProxyBody,← own,same,run]
  intro c bytes still
  rw [← bytes] at fits complete
  obtain ⟨pieces,b',c',read⟩ := readAllReturns (Nat.lt_succ_self _) still fits complete
  obtain ⟨whole,ended⟩ := readAllMeets still fits read
  rw [bytes] at whole
  have behind := Except.ok.inj (ended.symm.trans complete)
  exact ⟨pieces,b',c',read,by simpa using whole,behind.trans left.symm⟩

theorem relayKeepsChunks : ∃ payload r wire, forwardProxyBodyOf 3 newChunked
        ⟨ascii "4\r\nwx",⟨ascii "yz\r\n0\r\n\r\nnext",[some 0,some 2]⟩⟩ ⟨ascii "head",[],0⟩ = (true,r) ∧
      r.client.written = ascii "head" ++ wire ∧ RelayedAs newChunked (ascii "4\r\nwxyz\r\n0\r\n\r\nnext") payload wire ∧
      (3 = proxyWriteBatchSize → forwardProxyBody newChunked
        ⟨ascii "4\r\nwx",⟨ascii "yz\r\n0\r\n\r\nnext",[some 0,some 2]⟩⟩ ⟨ascii "head",[],0⟩ = (true,r)) ∧
      ∀ c : Conn, c.unread = ascii "4\r\nwxyz\r\n0\r\n\r\nnext" → Steady c.io → ∃ pieces b' c',
        readAll newChunked c = (.ok pieces,b',c') ∧ pieces.flatten = payload ∧ c'.unread = r.conn.unread := by
  have fits : ∀ line ∈ (decode newChunked (ascii "4\r\nwxyz\r\n0\r\n\r\nnext")).lines, line.length < maxLineSize := by
    decide +kernel
  have complete : (decode newChunked (ascii "4\r\nwxyz\r\n0\r\n\r\nnext")).outcome =
      .ok (ascii "next") := by decide +kernel
  exact relayKeepsPayload 3 newChunked
    ⟨ascii "4\r\nwx",⟨ascii "yz\r\n0\r\n\r\nnext",[some 0,some 2]⟩⟩ ⟨ascii "head",[],0⟩
    (by decide) (by decide) (by unfold Steady; decide) (fun o mem => by cases mem) fits
    (readAllReturns (Nat.lt_succ_self _) (by unfold Steady; decide) fits complete)

/- A size line at the limit is read where its end is buffered, and refused where only half of its end is. -/
theorem longLineDiffers {line rest : Bytes} {b c} (free : CrlfFree line) (size : line.length = maxLineSize)
    (value : parseChunkSizeLine line = .ok 1) (data : chunkData 1 false ⟨rest,⟨[],[]⟩⟩ = (some (.ok [120]),b,c))
    (last : (nextData b c).1 = none) (client : Sink) :
    (readAll newChunked ⟨line ++ crlf ++ rest,⟨[],[]⟩⟩).1 = .ok [[120]] ∧
      ∃ r, forwardProxyBody newChunked ⟨line ++ [13],⟨10::rest,[]⟩⟩ client = (false,r) ∧ r.client = client := by
  have found := WireMessage.findLine rest free
  constructor
  · have sized : readChunkSize ⟨line ++ crlf ++ rest,⟨[],[]⟩⟩ = (.ok (some 1),⟨rest,⟨[],[]⟩⟩) := by
      have read : readLine ⟨line ++ crlf ++ rest,⟨[],[]⟩⟩ = (.ok (some line),⟨rest,⟨[],[]⟩⟩) := by
        have small : ¬ maxLineSize < line.length := by omega
        simp only [readLine,readUntil,found,small,decide_false,Bool.and_false,Bool.false_eq_true,if_false]
        simp [crlf]
      rw [readChunkSize,read]
      simp only [value]
      rfl
    have start : nextData newChunked ⟨line ++ crlf ++ rest,⟨[],[]⟩⟩ = (some (.ok [120]),b,c) := by
      change chunkStart false _ = _
      simp only [chunkStart,Bool.false_eq_true,if_false,sized,data]
    obtain ⟨fuel,enough⟩ : ∃ fuel, (line ++ crlf ++ rest).length + 1 = fuel + 2 :=
      ⟨(line ++ rest).length + 1,by simp [crlf]; omega⟩
    rw [readAll,Conn.unread,List.append_nil,enough,readAllLoop]
    simp only [start]
    cases ended : nextData b c with
    | mk result after =>
      rw [ended] at last
      cases last
      simp only [readAllLoop,ended]
      rfl
  · have long : maxLineSize < (line ++ [(13 : UInt8)]).length := by
      rw [List.length_append,size]
      decide
    have absent : find crlf (line ++ [13]) = none := by
      cases half : find crlf (line ++ [13]) with
      | none => rfl
      | some i =>
        have whole := findAppend half (t := 10::rest)
        have bound := findBound half
        simp only [crlf,List.append_assoc,List.cons_append,List.nil_append] at found whole
        cases found.symm.trans whole
        simp [crlf] at bound
    have refused : tryDrainInto newChunked ⟨line ++ [13],⟨10::rest,[]⟩⟩ [] proxyWriteBatchSize true =
        (.error .lineTooLong,newChunked,⟨line ++ [13],⟨10::rest,[]⟩⟩,[]) := by
      simp only [tryDrainInto,drainLoop,newChunked,drainStart,tryReadChunkSize,tryFindLine,absent,long,
        Bool.false_eq_true,if_false,if_true]
    refine ⟨⟨newChunked,⟨line ++ [13],⟨10::rest,[]⟩⟩,client,[]⟩,?_,rfl⟩
    change relayLoop proxyWriteBatchSize true (_ + 1) _ = _
    simp only [relayLoop,List.length_nil,Nat.sub_zero,refused]

theorem longLineLost : ∃ c c' : Conn, c.unread = c'.unread ∧ Steady c.io ∧ Steady c'.io ∧
    (readAll newChunked c).1 = .ok [[120]] ∧
    ∃ r, forwardProxyBody newChunked c' ⟨[],[],0⟩ = (false,r) ∧ r.client.written = [] := by
  let line : Bytes := 49::59::List.replicate 8190 97
  have bytes : ∀ b ∈ line, b ≠ 13 ∧ b < 128 := by
    simp only [line,List.forall_mem_cons]
    refine ⟨by decide,by decide,fun b mem => ?_⟩
    rw [(List.mem_replicate.mp mem).2]
    decide
  have value : parseChunkSizeLine line = .ok 1 := by
    have first : line.takeWhile (· != 59) = [49] := rfl
    rw [parseChunkSizeLine,validUtf8Low fun b mem => (bytes b mem).2,first]
    decide +kernel
  have size : line.length = maxLineSize := by
    rw [List.length_cons,List.length_cons,List.length_replicate]
    rfl
  have data : chunkData 1 false ⟨[120,13,10,48,13,10,13,10],⟨[],[]⟩⟩ =
      (some (.ok [120]),.chunked 0 true false false,⟨[13,10,48,13,10,13,10],⟨[],[]⟩⟩) := by decide +kernel
  obtain ⟨read,r,refused,kept⟩ := longLineDiffers (crlfFreeOfNoCr fun mem => (bytes 13 mem).1 rfl) size value data
    (by decide +kernel) ⟨[],[],0⟩
  exact ⟨_,_,by simp [Conn.unread,crlf],by simp [Steady],by simp [Steady],read,r,refused,by rw [kept]⟩

end ZeroServe.Proxy
