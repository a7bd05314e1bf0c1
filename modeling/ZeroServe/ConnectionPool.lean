import ZeroServe.BackendReuse
import ZeroServe.EventRun
import ZeroServe.SimpleRequest

/-! The pool of idle backend connections and every interleaving of its requests: a connection is taken or dialed,
carries one exchange and is put back if the exchange says so. The poll for idleness is an input. -/
namespace ZeroServe.Proxy
open ByteText ByteSource ChunkCoding H1 EventRun

def maxPoolPerKey : Nat := 128

structure PoolKey where
  host : Bytes
  port : Nat
  tls : Bool
  deriving DecidableEq

def PoolKey.new (host : Bytes) (port : Nat) (tls : Bool) : PoolKey := ⟨lower host,port,tls⟩
def PoolKey.unix (path : Bytes) : PoolKey := ⟨ascii "unix:" ++ path,0,false⟩

def BackendTarget.poolKey (t : BackendTarget) : PoolKey :=
  match t.scheme with
  | .unix => .unix t.host
  | _ => .new t.host t.port (t.scheme == .https)

/- The entries of a key, the last one put first; no entry is the same as no vector. -/
structure Pool where
  entries : PoolKey → List Backend

def Pool.empty : Pool := ⟨fun _ => []⟩

def Pool.set (p : Pool) (key : PoolKey) (entries : List Backend) : Pool :=
  ⟨fun k => if k = key then entries else p.entries k⟩

def takeIdle (idle : Nat → Bool) : Nat → List Backend → Option Backend × List Backend
  | _,[] => (none,[])
  | i,b::later => if idle i then (some b,later) else takeIdle idle (i+1) later

def Pool.take (idle : Nat → Bool) (key : PoolKey) (p : Pool) : Option Backend × Pool :=
  let (taken,left) := takeIdle idle 0 (p.entries key)
  (taken,p.set key left)

def Pool.put (key : PoolKey) (b : Backend) (p : Pool) : Pool :=
  if b.conn.buf ≠ [] then p
  else if maxPoolPerKey ≤ (p.entries key).length then p
  else p.set key (b::p.entries key)

inductive Attempt where
  | general (x : Exchange) (head : RequestHead)
  | simple (requestHead : Bytes)

def Attempt.run : Attempt → ExchangeState → ExchangeResult
  | .general x head => proxyOverConnection x head
  | .simple requestHead => proxySimpleOverConnection requestHead

def Attempt.method : Attempt → Method
  | .general _ head => head.method
  | .simple _ => .get

def Attempt.Sent (inbound : Inbound) (before after : Sink) : Attempt → Prop
  | .general x head => SentInFull head x.sendRequestBody inbound before after
  | .simple requestHead => after.written = before.written ++ requestHead

def Attempt.Condition (inbound : Inbound) (backend : Backend) : Attempt → Prop
  | .general x head =>
    ReuseCondition (canUseRawFixedProxyResponse x.rules x.isWsRequest x.headOnly &&
      ! pickedEarly x head inbound backend) x.headOnly head.method backend.conn.unread
  | .simple _ => ReuseCondition true false .get backend.conn.unread

theorem attemptReuse {a : Attempt} {s s' : ExchangeState} {out : ProxyOutcome}
    (h : a.run s = (.ok out,s')) (reused : out.reuseBackend = true) : a.Sent s.inbound s.backend.out s'.backend.out ∧
      (EndsClean a.method s.backend.conn.unread s'.backend.conn.unread ↔ a.Condition s.inbound s.backend) := by
  cases a with
  | general x head => exact exchangeReuse h reused
  | simple requestHead => exact simpleReuse h reused

structure Lent where
  key : PoolKey
  backend : Backend

structure PoolState where
  pool : Pool
  lent : List Lent

/- What the backend does for one request: the bytes and how they can be read, and what the
polls and the bounded waits find meanwhile. -/
structure Answer where
  source : Source
  readable : List Bool
  timeouts : List Bool

inductive PoolEvent where
  | take (key : PoolKey) (idle : Nat → Bool)
  | dial (key : PoolKey) (out : Sink)
  | attempt (i : Nat) (a : Attempt) (inbound : Inbound) (client : Sink) (answer : Answer)

def answered (a : Answer) (b : Backend) : Backend :=
  ⟨⟨b.conn.buf,⟨b.conn.io.bytes ++ a.source.bytes,a.source.grants⟩⟩,b.out,a.readable,a.timeouts⟩

def settle (l : Lent) (r : ExchangeResult) (p : Pool) : Pool :=
  match r with
  | (.ok out,s) => if out.reuseBackend then p.put l.key s.backend else p
  | (.error _,_) => p

def poolStep (s : PoolState) : PoolEvent → PoolState
  | .take key idle =>
    match s.pool.take idle key with
    | (some b,pool) => ⟨pool,s.lent ++ [⟨key,b⟩]⟩
    | (none,pool) => {s with pool}
  | .dial key out => {s with lent := s.lent ++ [⟨key,⟨⟨[],⟨[],[]⟩⟩,out,[],[]⟩⟩]}
  | .attempt i a inbound client answer =>
    match s.lent[i]? with
    | none => s
    | some l => ⟨settle l (a.run ⟨inbound,answered answer l.backend,client⟩) s.pool, s.lent.eraseIdx i⟩

def Answered (s : PoolState) : PoolEvent → Prop
  | .attempt i a inbound _ answer => ∀ l, s.lent[i]? = some l →
      (∀ rest, EndsClean a.method answer.source.bytes rest → rest = []) ∧
      a.Condition inbound (answered answer l.backend)
  | _ => True

def Quiet (s : PoolState) : Prop :=
  (∀ key, ∀ b ∈ s.pool.entries key, b.conn.unread = []) ∧ ∀ l ∈ s.lent, l.backend.conn.unread = []

variable {idle : Nat → Bool} {p : Pool} {key k : PoolKey} {b : Backend}

theorem takeIdleSome {i} {entries left b} (h : takeIdle idle i entries = (some b,left)) :
    b ∈ entries := by
  induction entries generalizing i with
  | nil => cases h
  | cons e later ih =>
    unfold takeIdle at h
    split at h
    · cases h
      exact List.mem_cons_self
    · exact List.mem_cons_of_mem _ (ih h)

theorem takeIdleLeft (idle : Nat → Bool) (i : Nat) (entries : List Backend) :
    (takeIdle idle i entries).2.Sublist entries := by
  induction entries generalizing i with
  | nil => exact List.Sublist.slnil
  | cons e later ih =>
    unfold takeIdle
    split
    · exact List.sublist_cons_self _ _
    · exact (ih (i+1)).cons _

theorem setEntries {entries : List Backend}
    (mem : b ∈ (p.set key entries).entries k) : b ∈ entries ∨ b ∈ p.entries k := by
  unfold Pool.set at mem
  dsimp only at mem
  split at mem
  · exact Or.inl mem
  · exact Or.inr mem

theorem takeEntries {p p' : Pool} {taken : Option Backend}
    (h : p.take idle key = (taken,p')) (mem : b ∈ p'.entries k) : ∃ k', b ∈ p.entries k' := by
  cases h
  rcases setEntries mem with left | other
  · exact ⟨key,(takeIdleLeft idle 0 _).subset left⟩
  · exact ⟨k,other⟩

theorem takeSome {p p' : Pool} {key : PoolKey}
    (h : p.take idle key = (some b,p')) : b ∈ p.entries key := by
  unfold Pool.take at h
  cases found : takeIdle idle 0 (p.entries key) with
  | mk taken left =>
    rw [found] at h
    cases h
    exact takeIdleSome found

theorem putEntries {b e : Backend}
    (mem : e ∈ (p.put key b).entries k) : e = b ∧ b.conn.buf = [] ∨ ∃ k', e ∈ p.entries k' := by
  unfold Pool.put at mem
  split at mem
  · exact Or.inr ⟨k,mem⟩
  · rename_i empty
    split at mem
    · exact Or.inr ⟨k,mem⟩
    · rcases setEntries mem with here | other
      · rcases List.mem_cons.mp here with same | old
        · exact Or.inl ⟨same,not_not.mp empty⟩
        · exact Or.inr ⟨key,old⟩
      · exact Or.inr ⟨k,other⟩

theorem settleEntries {l : Lent} {r : ExchangeResult} {k : PoolKey} {e : Backend}
    (mem : e ∈ (settle l r p).entries k) : (∃ k', e ∈ p.entries k') ∨
      ∃ out s, r = (.ok out,s) ∧ out.reuseBackend = true ∧ s.backend.conn.buf = [] ∧ e = s.backend := by
  unfold settle at mem
  split at mem
  · rename_i out s
    split at mem
    · rename_i reused
      rcases putEntries mem with ⟨same,empty⟩ | old
      · exact Or.inr ⟨out,s,rfl,reused,empty,same⟩
      · exact Or.inl old
    · exact Or.inl ⟨k,mem⟩
  · exact Or.inl ⟨k,mem⟩

theorem answeredUnread {a b} (quiet : b.conn.unread = []) : (answered a b).conn.unread = a.source.bytes := by
  obtain ⟨buf,io⟩ := List.append_eq_nil_iff.mp quiet
  simp [answered,Conn.unread,buf,io]

def Everywhere (P : Backend → Prop) (s : PoolState) : Prop :=
  (∀ key, ∀ b ∈ s.pool.entries key, P b) ∧ ∀ l ∈ s.lent, P l.backend

theorem poolStepKeeps {P : Backend → Prop} {s : PoolState} {e : PoolEvent} (dialed : ∀ out, P ⟨⟨[],⟨[],[]⟩⟩,out,[],[]⟩)
    (returned : ∀ {i a inbound client answer l out s'}, e = .attempt i a inbound client answer →
      s.lent[i]? = some l → a.run ⟨inbound,answered answer l.backend,client⟩ = (.ok out,s') →
      out.reuseBackend = true → s'.backend.conn.buf = [] → P s'.backend)
    (all : Everywhere P s) : Everywhere P (poolStep s e) := by
  obtain ⟨pooled,inUse⟩ := all
  cases e with
  | take key idle =>
    unfold poolStep
    dsimp only
    split
    · rename_i b pool taken
      refine ⟨fun k e mem => ?_,fun l mem => ?_⟩
      · obtain ⟨k',old⟩ := takeEntries taken mem
        exact pooled k' e old
      · rcases List.mem_append.mp mem with old | new
        · exact inUse l old
        · rw [List.mem_singleton.mp new]
          exact pooled key b (takeSome taken)
    · rename_i pool taken
      refine ⟨fun k e mem => ?_,inUse⟩
      obtain ⟨k',old⟩ := takeEntries taken mem
      exact pooled k' e old
  | dial key out =>
    refine ⟨pooled,fun l mem => ?_⟩
    rcases List.mem_append.mp mem with old | new
    · exact inUse l old
    · rw [List.mem_singleton.mp new]
      exact dialed out
  | attempt i a inbound client answer =>
    unfold poolStep
    dsimp only
    split
    · exact ⟨pooled,inUse⟩
    · rename_i l lent
      refine ⟨fun k e mem => ?_,fun l mem => inUse l (List.mem_of_mem_eraseIdx mem)⟩
      rcases settleEntries mem with ⟨k',old⟩ | ⟨out,s',run,reused,empty,rfl⟩
      · exact pooled k' e old
      · exact returned rfl lent run reused empty

theorem poolStepQuiet (s : PoolState) (e : PoolEvent) (quiet : Quiet s) (ok : Answered s e) : Quiet (poolStep s e) := by
  refine poolStepKeeps (P := fun b => b.conn.unread = []) (fun _ => rfl) ?_ quiet
  intro i a inbound client answer l out s' same lent run reused empty
  subst same
  obtain ⟨single,condition⟩ := ok l lent
  have clean := (attemptReuse run reused).2.mpr condition
  rw [answeredUnread (quiet.2 l (List.mem_of_getElem? lent))] at clean
  exact single _ clean

def idlePool : PoolState := ⟨.empty,[]⟩

/- A reusable attempt sent its request in full and ends right behind a response that lets
the connection go on, exactly when the condition holds. If it holds of every attempt, no
connection that is taken has a byte of an earlier response before it. -/
theorem backendReuseExact (a : Attempt) (s s' : ExchangeState) (out : ProxyOutcome) (events : List PoolEvent) :
    (a.run s = (.ok out,s') → out.reuseBackend = true → (a.Sent s.inbound s.backend.out s'.backend.out ∧
        EndsClean a.method s.backend.conn.unread s'.backend.conn.unread ↔ a.Condition s.inbound s.backend)) ∧
    (Guarded poolStep Answered idlePool events → ∀ idle key b p,
      (run poolStep idlePool events).pool.take idle key = (some b,p) → b.conn.unread = []) := by
  refine ⟨fun ran reused => ?_,fun guarded idle key b p taken => ?_⟩
  · obtain ⟨sent,same⟩ := attemptReuse ran reused
    exact ⟨fun h => same.mp h.2,fun h => ⟨sent,same.mpr h⟩⟩
  · have start : Quiet idlePool :=
      ⟨fun _ _ mem => (List.not_mem_nil mem).elim,fun _ mem => (List.not_mem_nil mem).elim⟩
    exact (runInvariant poolStepQuiet start guarded).1 key b (takeSome taken)

def getText : Attempt := .simple (ascii "GET / HTTP/1.1\r\nhost: a\r\n\r\n")
def lengthHead : Bytes := ascii "HTTP/1.1 200 OK\r\nContent-Length: 5"
def codedHead : Bytes := ascii "HTTP/1.1 200 OK\r\nTransfer-Encoding: chunked\r\nContent-Length: 5"
def fiveBytes : Bytes := ascii "hello"
def oneChunk : Bytes := ascii "5\r\nhello\r\n0\r\n\r\n"

def cutAnswer (head body : Bytes) (n : Nat) : Answer :=
  ⟨⟨head ++ (crlf ++ crlf) ++ body,[some (head.length + 4 + n - 1)]⟩,[],[]⟩

def unused : Inbound := ⟨.none,⟨[],⟨[],[]⟩⟩⟩

def answeredState (a : Answer) : ExchangeState :=
  ⟨unused,answered a ⟨⟨[],⟨[],[]⟩⟩,⟨[],[],0⟩,[],[]⟩,⟨[],[],0⟩⟩

def rootKey : PoolKey := backendRoot.poolKey

def oneRequest (a : Answer) : List PoolEvent :=
  [.dial rootKey ⟨[],[],0⟩,.attempt 0 getText unused ⟨[],[],0⟩ a]

theorem parsedWith {α : Type} (raw : Bytes) (f : ResponseHead → α) {v}
    (h : (parseResponseHead raw).toOption.map f = some v) : ∃ head, parseResponseHead raw = .ok head ∧ f head = v := by
  cases parsed : parseResponseHead raw with
  | error e => rw [parsed] at h; cases h
  | ok head =>
    rw [parsed] at h
    exact ⟨head,rfl,Option.some.inj h⟩

theorem lengthAnswerReused : (getText.Sent unused ⟨[],[],0⟩
        (getText.run (answeredState (cutAnswer lengthHead fiveBytes 2))).2.backend.out ∧
      EndsClean .get (lengthHead ++ (crlf ++ crlf) ++ fiveBytes)
        (getText.run (answeredState (cutAnswer lengthHead fiveBytes 2))).2.backend.conn.unread) ∧ ∀ idle key b p,
      (run poolStep idlePool (oneRequest (cutAnswer lengthHead fiveBytes 2))).pool.take idle key =
        (some b,p) → b.conn.unread = [] := by
  obtain ⟨head,parsed,facts⟩ := parsedWith lengthHead (v := (false,200,false,.fixed 5))
    (fun head => (isInterimResponseStatus head.status,head.status.code,
      listsClose head.headers,responseBodyFromHeaders head)) (by decide +kernel)
  simp only [Prod.mk.injEq] at facts
  obtain ⟨final,status,stays,body⟩ := facts
  have place : FinalHead (lengthHead ++ (crlf ++ crlf) ++ fiveBytes) lengthHead fiveBytes :=
    finalHeadParsed ⟨rfl,by decide +kernel⟩ parsed final
  have taken : takenRaw true lengthHead = some 5 := by decide +kernel
  have condition : getText.Condition unused
      (answeredState (cutAnswer lengthHead fiveBytes 2)).backend := by
    refine (conditionAt place parsed).mpr ⟨by rw [status]; decide,stays,?_⟩
    rw [taken,body]
    exact ⟨by decide,rfl,fiveBytes,rfl,rfl⟩
  have ran : getText.run (answeredState (cutAnswer lengthHead fiveBytes 2)) =
      (.ok (outcome true true 200), (getText.run (answeredState (cutAnswer lengthHead fiveBytes 2))).2) :=
    Prod.ext (by decide +kernel) rfl
  obtain ⟨exchange,pool⟩ := backendReuseExact getText _ _ (outcome true true 200)
    (oneRequest (cutAnswer lengthHead fiveBytes 2))
  have first := (exchange ran rfl).mpr condition
  refine ⟨first,pool ⟨trivial,fun l lent => ?_,trivial⟩⟩
  cases lent
  refine ⟨fun rest clean => clean.unique ?_,condition⟩
  have ended : (getText.run (answeredState (cutAnswer lengthHead fiveBytes 2))).2.backend.conn.unread
      = [] := by decide +kernel
  rw [← ended]
  exact first.2

theorem codedAnswerPooled :
    (getText.run (answeredState (cutAnswer codedHead oneChunk 5))).1 = .ok (outcome true true 200) ∧
    ¬ EndsClean .get (codedHead ++ (crlf ++ crlf) ++ oneChunk)
      (getText.run (answeredState (cutAnswer codedHead oneChunk 5))).2.backend.conn.unread ∧
    ((run poolStep idlePool (oneRequest (cutAnswer codedHead oneChunk 5))).pool.take
      (fun _ => true) rootKey).1.map (·.conn.unread) = some (ascii "llo\r\n0\r\n\r\n") := by
  refine ⟨by decide +kernel,?_,by decide +kernel⟩
  obtain ⟨head,parsed,facts⟩ := parsedWith codedHead (v := (false,newChunked))
    (fun head => (isInterimResponseStatus head.status,responseBodyFromHeaders head))
    (by decide +kernel)
  simp only [Prod.mk.injEq] at facts
  have place : FinalHead (codedHead ++ (crlf ++ crlf) ++ oneChunk) codedHead oneChunk :=
    finalHeadParsed ⟨rfl,by decide +kernel⟩ parsed facts.1
  rw [cleanAt place parsed,responseBodyFor,if_neg (by decide),facts.2]
  rintro ⟨_,_,_,_,payload,delimited⟩
  have whole : readAll newChunked ⟨oneChunk,⟨[],[]⟩⟩ =
      (.ok [fiveBytes],(readAll newChunked ⟨oneChunk,⟨[],[]⟩⟩).2.1,⟨[],⟨[],[]⟩⟩) := by
    decide +kernel
  have rest := (delimitsUnique delimited (readAllSpec whole)).2
  have left : (getText.run (answeredState (cutAnswer codedHead oneChunk 5))).2.backend.conn.unread =
      ascii "llo\r\n0\r\n\r\n" := by decide +kernel
  rw [left] at rest
  exact absurd rest (by decide +kernel)

end ZeroServe.Proxy
