import ZeroServe.BodySteps

/-! One call of `try_drain_into` and of `fill` against the meaning of the body on the whole stream. A call that asks
for more has kept the reading. -/
namespace ZeroServe.H1
open ByteText ByteSource ChunkCoding

def Starved (b : Body) (c : Conn) : Prop :=
  b = .eof false ∧ c.unread = [] ∨
    finished b = false ∧ b.isEof = false ∧ Stops .unexpectedEof (decode b c.unread)

def DrainMeets (maxTake : Nat) (rechunk : Bool) (b : Body) (c : Conn) (out : Bytes) :
    Except HttpError TryBodyData × Body × Conn × Bytes → Prop
  | (.error e,_,_,out') => out' = out ∧ Stops e (decode b c.unread)
  | (.ok .done,_,c',out') => out' = out ∧ (decode b c.unread).payload = [] ∧
      (decode b c.unread).outcome = .ok c'.unread
  | (.ok .needRead,b',c',out') => out' = out ∧ c'.io = c.io ∧ c'.buf.length ≤ c.buf.length ∧
      (c.io.bytes = [] → Starved b' c') ∧
      ∃ ls, decode b c.unread = .after ls [] (decode b' c'.unread)
  | (.ok .copied,b',c',out') => c'.io = c.io ∧ c'.buf.length < c.buf.length ∧
      ∃ ls data, data ≠ [] ∧ data.length ≤ maxTake ∧ out' = out ++ framePiece rechunk data ∧
        decode b c.unread = .after ls data (decode b' c'.unread)

theorem drainMeetsBack {maxTake} {rechunk b b1 c c1 out ls x}
    (reading : decode b c.unread = .after ls [] (decode b1 c1.unread)) (same : c1.io = c.io)
    (less : c1.buf.length ≤ c.buf.length) (meets : DrainMeets maxTake rechunk b1 c1 out x) :
    DrainMeets maxTake rechunk b c out x := by
  obtain ⟨r,b',c',out'⟩ := x
  cases r with
  | error e =>
    rw [DrainMeets,reading]
    exact meets
  | ok kind =>
    cases kind with
    | done =>
      rw [DrainMeets,reading]
      exact meets
    | needRead =>
      obtain ⟨kept,io,size,starved,ls',inner⟩ := meets
      refine ⟨kept,io.trans same,size.trans less,fun gone => starved (same ▸ gone),ls ++ ls',?_⟩
      rw [reading,inner,afterAfter,List.nil_append]
    | copied =>
      obtain ⟨io,size,ls',data,some,small,wrote,inner⟩ := meets
      refine ⟨io.trans same,by omega,ls ++ ls',data,some,small,wrote,?_⟩
      rw [reading,inner,afterAfter,List.nil_append]

theorem drainWaits {maxTake} {rechunk b c out} (starved : c.io.bytes = [] → Starved b c) :
    DrainMeets maxTake rechunk b c out (.ok .needRead,b,c,out) :=
  ⟨rfl,rfl,le_rfl,starved,[],rfl⟩

variable {c : Conn} {out : Bytes}

theorem consumeLess {n} (positive : 0 < n) (some : c.buf ≠ []) :
    (c.consume n).buf.length < c.buf.length := by
  have := List.length_pos_iff.mpr some
  simp only [Conn.consume,List.length_drop]
  omega

theorem consumeUnread {n} (within : n ≤ c.buf.length) : (c.consume n).unread = c.unread.drop n := by
  rw [Conn.consume,Conn.unread,Conn.unread,List.drop_append_of_le_length within]

theorem bufferedTake {n} (within : n ≤ c.buf.length) : c.buf.take n = c.unread.take n := by
  rw [Conn.unread,List.take_append_of_le_length within]

theorem unreadBuffered (gone : c.io.bytes = []) : c.unread = c.buf := by
  rw [Conn.unread,gone,List.append_nil]

theorem tryFindLineMeets (fits : FirstFits c.unread) :
    match tryFindLine c with
    | .error e => find crlf c.unread = none ∧ e = noLine c.unread
    | .ok none => c.io.bytes = [] → find crlf c.unread = none ∧ noLine c.unread = .unexpectedEof
    | .ok (some idx) => find crlf c.unread = some idx ∧ idx + 2 ≤ c.buf.length := by
  unfold tryFindLine
  cases buffered : find crlf c.buf with
  | none =>
    dsimp only
    split
    · rename_i e failed
      split at failed
      · rename_i crowded
        cases failed
        exact ⟨crowdedNone fits buffered crowded,(noLineLong crowded).symm⟩
      · cases failed
    · rename_i waits
      split at waits
      · cases waits
      · rename_i room
        intro gone
        rw [unreadBuffered gone]
        exact ⟨buffered,if_neg room⟩
    · rename_i idx found
      split at found <;> cases found
  | some idx =>
    have found : find crlf c.unread = some idx := findAppend buffered
    have bound := findBound buffered
    have short := fits idx found
    dsimp only
    rw [if_neg (by omega)]
    exact ⟨found,bound⟩

theorem copyMeets {maxTake k} {rechunk : Bool} {b b' : Body} (buffered : c.buf ≠ [])
    (positive : 0 < k) (there : k ≤ c.buf.length) (small : k ≤ maxTake)
    (reading : decode b c.unread = .after [] (c.unread.take k) (decode b' (c.unread.drop k))) :
    DrainMeets maxTake rechunk b c out (.ok .copied,b',c.consume k,out ++ framePiece rechunk (c.buf.take k)) := by
  refine ⟨rfl,consumeLess positive buffered,[],c.buf.take k,takeNonempty buffered positive,?_,rfl,?_⟩
  · rw [List.length_take]; omega
  · rw [consumeUnread there,bufferedTake there]
    exact reading

theorem drainChunkMeets {maxTake remaining} {rechunk needCrlf : Bool} (room : 0 < maxTake)
    (some : remaining ≠ 0) : DrainMeets maxTake rechunk (.chunked remaining needCrlf false false) c out
      (drainChunk maxTake rechunk remaining needCrlf c out) := by
  unfold drainChunk
  split
  · rename_i empty
    refine drainWaits fun gone => .inr ⟨rfl,rfl,?_⟩
    obtain ⟨m,rfl⟩ := Nat.exists_eq_succ_of_ne_zero some
    have none := (unreadBuffered gone).trans empty
    have reading : decode (.chunked (m + 1) needCrlf false false) c.unread =
        ⟨[],c.unread,.error .unexpectedEof⟩ := if_pos (by rw [none]; simp)
    rw [reading]
    exact ⟨none,rfl⟩
  · rename_i buffered
    have positive := List.length_pos_iff.mpr buffered
    have total : c.buf.length ≤ c.unread.length := by
      rw [Conn.unread,List.length_append]; omega
    exact copyMeets buffered (by omega) (by omega) (by omega)
      (decodeChunkTaken some (by omega) (by omega))

theorem tryReadChunkSizeMeets (fits : LinesFit (decodeChunks c.unread)) :
    match tryReadChunkSize c with
    | (.error e,_) => Stops e (decodeChunks c.unread)
    | (.ok none,c') => c' = c ∧ (c.io.bytes = [] → Stops .unexpectedEof (decodeChunks c.unread))
    | (.ok (some n),c') => c'.io = c.io ∧ c'.buf.length < c.buf.length ∧ ∃ ls, decodeChunks c.unread = .after ls []
          (if n = 0 then decodeTrailers c'.unread else decodeInside n c'.unread) := by
  rw [decodeChunksLine] at fits
  have first := onLineFits fits
  have line := tryFindLineMeets first
  unfold tryReadChunkSize
  cases found : tryFindLine c with
  | error e =>
    rw [found] at line
    obtain ⟨absent,rfl⟩ := line
    rw [decodeChunksLine,onLineNone absent]
    exact ⟨rfl,rfl⟩
  | ok r =>
    rw [found] at line
    cases r with
    | none =>
      refine ⟨rfl,fun gone => ?_⟩
      obtain ⟨absent,eof⟩ := line gone
      rw [decodeChunksLine,onLineNone absent,eof]
      exact ⟨rfl,rfl⟩
    | some idx =>
      obtain ⟨there,bound⟩ := line
      have reading := onLineFound there first pastSize
      rw [← decodeChunksLine,← consumeUnread bound,← bufferedTake (by omega)] at reading
      have less : (c.consume (idx + 2)).buf.length < c.buf.length :=
        consumeLess (by omega) (List.length_pos_iff.mp (by omega))
      dsimp only
      cases parsed : parseChunkSizeLine (c.buf.take idx) with
      | error e =>
        simp only [pastSize,parsed] at reading
        rw [reading]
        exact ⟨rfl,rfl⟩
      | ok n =>
        simp only [pastSize,parsed] at reading
        cases n with
        | zero => exact ⟨rfl,less,_,reading⟩
        | succ n => exact ⟨rfl,less,_,reading⟩

theorem tryConsumeCrlfMeets (c : Conn) :
    match tryConsumeCrlf c with
    | (.error e,_) => Stops e (decodeCrlf c.unread)
    | (.ok false,c') => c' = c ∧ (c.io.bytes = [] → Stops .unexpectedEof (decodeCrlf c.unread))
    | (.ok true,c') => c'.io = c.io ∧ c'.buf.length < c.buf.length ∧ decodeCrlf c.unread = decodeChunks c'.unread := by
  unfold tryConsumeCrlf
  by_cases short : c.buf.length < 2
  · rw [if_pos short]
    refine ⟨rfl,fun gone => ?_⟩
    rw [decodeCrlf,if_pos (by rwa [unreadBuffered gone])]
    exact ⟨rfl,rfl⟩
  · have total : ¬ c.unread.length < 2 := by
      rw [Conn.unread,List.length_append]; omega
    rw [if_neg short,bufferedTake (by omega)]
    by_cases same : c.unread.take 2 ≠ crlf
    · rw [if_pos same]
      rw [decodeCrlf,if_neg total,if_pos same]
      exact ⟨rfl,rfl⟩
    · rw [if_neg same]
      refine ⟨rfl,consumeLess (by omega) (List.length_pos_iff.mp (by omega)),?_⟩
      rw [decodeCrlf,if_neg total,if_neg same,consumeUnread (by omega)]

theorem drainSizeMeets {maxTake} {rechunk c out}
    {again : Body → Conn → Bytes → Except HttpError TryBodyData × Body × Conn × Bytes} (room : 0 < maxTake)
    (fits : LinesFit (decodeChunks c.unread))
    (next : ∀ c1, c1.buf.length < c.buf.length → LinesFit (decodeTrailers c1.unread) →
      DrainMeets maxTake rechunk (.chunked 0 false true false) c1 out
        (again (.chunked 0 false true false) c1 out)) : DrainMeets maxTake rechunk (.chunked 0 false false false) c out
      (drainStart maxTake rechunk false again c out) := by
  have sized := tryReadChunkSizeMeets fits
  unfold drainStart
  simp only [Bool.false_eq_true,if_false]
  cases read : tryReadChunkSize c with
  | mk r c1 =>
    rw [read] at sized
    cases r with
    | error e => exact ⟨rfl,sized⟩
    | ok size =>
      cases size with
      | none =>
        obtain ⟨rfl,starved⟩ := sized
        exact drainWaits fun gone => .inr ⟨rfl,rfl,starved gone⟩
      | some n =>
        obtain ⟨same,less,ls,reading⟩ := sized
        cases n with
        | zero =>
          rw [reading] at fits
          have back : decode (.chunked 0 false false false) c.unread =
              .after ls [] (decode (.chunked 0 false true false) c1.unread) := reading
          exact drainMeetsBack back same less.le (next c1 less (fitsAfter fits))
        | succ n =>
          have back : decode (.chunked 0 false false false) c.unread =
              .after ls [] (decode (.chunked (n + 1) false false false) c1.unread) := reading
          exact drainMeetsBack back same less.le (drainChunkMeets room (Nat.succ_ne_zero n))

theorem drainStartMeets {maxTake} {rechunk needCrlf c out}
    {again : Body → Conn → Bytes → Except HttpError TryBodyData × Body × Conn × Bytes} (room : 0 < maxTake)
    (fits : LinesFit (decode (.chunked 0 needCrlf false false) c.unread))
    (next : ∀ c1, c1.buf.length < c.buf.length → LinesFit (decodeTrailers c1.unread) →
      DrainMeets maxTake rechunk (.chunked 0 false true false) c1 out (again (.chunked 0 false true false) c1 out)) :
    DrainMeets maxTake rechunk (.chunked 0 needCrlf false false) c out
      (drainStart maxTake rechunk needCrlf again c out) := by
  cases needCrlf with
  | false => exact drainSizeMeets room fits next
  | true =>
    have ended := tryConsumeCrlfMeets c
    have open_ : drainStart maxTake rechunk true again c out = match tryConsumeCrlf c with
        | (.error e,c) => (.error e,.chunked 0 true false false,c,out)
        | (.ok false,c) => (.ok .needRead,.chunked 0 true false false,c,out)
        | (.ok true,c) => drainStart maxTake rechunk false again c out := by
      unfold drainStart
      cases tryConsumeCrlf c with
      | mk r c1 =>
        cases r with
        | error e => rfl
        | ok whole => cases whole <;> rfl
    rw [open_]
    cases read : tryConsumeCrlf c with
    | mk r c1 =>
      rw [read] at ended
      cases r with
      | error e => exact ⟨rfl,ended⟩
      | ok whole =>
        cases whole with
        | false =>
          obtain ⟨rfl,starved⟩ := ended
          exact drainWaits fun gone => .inr ⟨rfl,rfl,starved gone⟩
        | true =>
          obtain ⟨same,less,reading⟩ := ended
          have back : decode (.chunked 0 true false false) c.unread =
              .after [] [] (decode (.chunked 0 false false false) c1.unread) := reading
          rw [back] at fits
          exact drainMeetsBack back same less.le
            (drainSizeMeets room fits fun c2 fewer => next c2 (fewer.trans less))

theorem drainTrailersMeets {maxTake n} {rechunk needCrlf : Bool}
    {again : Conn → Except HttpError TryBodyData × Body × Conn × Bytes} (fits : LinesFit (decodeTrailers c.unread))
    (next : ∀ c1, c1.buf.length < c.buf.length → LinesFit (decodeTrailers c1.unread) →
      DrainMeets maxTake rechunk (.chunked n needCrlf true false) c1 out (again c1)) :
    DrainMeets maxTake rechunk (.chunked n needCrlf true false) c out (match trySkipLine c with
      | (.error e,c) => (.error e,.chunked n needCrlf true false,c,out)
      | (.ok none,c) => (.ok .needRead,.chunked n needCrlf true false,c,out)
      | (.ok (some true),c) => (.ok .done,.chunked n needCrlf true true,c,out)
      | (.ok (some false),c) => again c) := by
  have cursor : ∀ s, decode (.chunked n needCrlf true false) s = decodeTrailers s := by
    intro s; simp [decode]
  have whole := fits
  rw [decodeTrailersLine] at whole
  have first := onLineFits whole
  have line := tryFindLineMeets first
  unfold trySkipLine
  cases found : tryFindLine c with
  | error e =>
    rw [found] at line
    obtain ⟨absent,rfl⟩ := line
    refine ⟨rfl,?_⟩
    rw [cursor,decodeTrailersLine,onLineNone absent]
    exact ⟨rfl,rfl⟩
  | ok r =>
    rw [found] at line
    cases r with
    | none =>
      refine drainWaits fun gone => .inr ⟨rfl,rfl,?_⟩
      obtain ⟨absent,eof⟩ := line gone
      rw [cursor,decodeTrailersLine,onLineNone absent,eof]
      exact ⟨rfl,rfl⟩
    | some idx =>
      obtain ⟨there,bound⟩ := line
      have reading := onLineFound there first pastTrailer
      rw [← decodeTrailersLine,← consumeUnread bound,pastTrailer] at reading
      have less : (c.consume (idx + 2)).buf.length < c.buf.length :=
        consumeLess (by omega) (List.length_pos_iff.mp (by omega))
      have nil : c.unread.take idx = [] ↔ idx = 0 := by
        rw [← bufferedTake (by omega),List.take_eq_nil_iff]
        constructor
        · rintro (zero | empty)
          · exact zero
          · rw [empty] at bound
            simp at bound
        · exact .inl
      cases idx with
      | zero =>
        change DrainMeets maxTake rechunk (.chunked n needCrlf true false) c out
          (.ok .done,.chunked n needCrlf true true,c.consume 2,out)
        simp only [DrainMeets,cursor,reading]
        exact ⟨trivial,rfl,rfl⟩
      | succ idx =>
        rw [if_neg (fun empty => by simpa using nil.mp empty)] at reading
        rw [reading] at fits
        have back : decode (.chunked n needCrlf true false) c.unread = .after [c.unread.take (idx + 1)]
            [] (decode (.chunked n needCrlf true false) (c.consume (idx + 1 + 2)).unread) := by
          exact reading
        exact drainMeetsBack back rfl less.le (next _ less (fitsAfter fits))

theorem drainLoopMeets {maxTake fuel} {rechunk : Bool} {b : Body} (room : 0 < maxTake)
    (enough : c.buf.length < fuel) (fits : LinesFit (decode b c.unread)) :
    DrainMeets maxTake rechunk b c out (drainLoop maxTake rechunk fuel b c out) := by
  induction fuel generalizing b c with
  | zero => omega
  | succ fuel ih =>
    have total : c.buf.length ≤ c.unread.length := by
      rw [Conn.unread,List.length_append]; omega
    cases b with
    | none => exact ⟨rfl,rfl,rfl⟩
    | fixed n =>
      simp only [drainLoop]
      split
      · rename_i zero
        subst zero
        exact ⟨rfl,rfl,rfl⟩
      · rename_i some
        split
        · rename_i empty
          refine drainWaits fun gone => .inr ⟨by simpa [finished] using some,rfl,?_⟩
          have none := (unreadBuffered gone).trans empty
          have reading : decode (.fixed n) c.unread = ⟨[],c.unread,.error .unexpectedEof⟩ :=
            if_pos (by rw [none]; simpa using Nat.pos_of_ne_zero some)
          rw [reading]
          exact ⟨none,rfl⟩
        · rename_i buffered
          have positive := List.length_pos_iff.mpr buffered
          exact copyMeets buffered (by omega) (by omega) (by omega)
            (decodeFixedTaken (by omega) (by omega))
    | chunked n a t done =>
      simp only [drainLoop]
      cases done with
      | true =>
        exact ⟨rfl,by simp [decode],by simp [decode]⟩
      | false =>
        rw [if_neg (by simp)]
        cases t with
        | true =>
          have cursor : ∀ s, decode (.chunked n a true false) s = decodeTrailers s := by
            intro s; simp [decode]
          exact drainTrailersMeets fits fun c1 less rest =>
            ih (by omega) (by rwa [cursor])
        | false =>
          rw [if_neg (by simp)]
          split
          · rename_i zero
            subst zero
            exact drainStartMeets room fits fun c1 less rest => ih (by omega) rest
          · rename_i some
            exact drainChunkMeets room some
    | eof done =>
      simp only [drainLoop]
      cases done with
      | true => exact ⟨rfl,rfl,rfl⟩
      | false =>
        rw [if_neg (by simp)]
        split
        · rename_i empty
          exact drainWaits fun gone => .inl ⟨rfl,(unreadBuffered gone).trans empty⟩
        · rename_i buffered
          have positive := List.length_pos_iff.mpr buffered
          refine copyMeets buffered (by omega) (by omega) (by omega) ?_
          simp only [decode,Reading.after,List.nil_append,List.take_append_drop]

theorem tryDrainMeets {b c} (out : Bytes) (maxTake : Nat) (rechunk : Bool) (fits : LinesFit (decode b c.unread)) :
    DrainMeets (max maxTake 1) rechunk b c out (tryDrainInto b c out maxTake rechunk) :=
  drainLoopMeets (by omega) (Nat.lt_succ_self _) fits

theorem fillMeets {b c} (maxReadSize : Nat) (steady : Steady c.io) (starved : c.io.bytes = [] → Starved b c) :
    match fill b c maxReadSize with
    | (.error e,_,_) => Stops e (decode b c.unread)
    | (.ok _,b',c') => Steady c'.io ∧ decode b c.unread = decode b' c'.unread ∧
        (b' = b ∧ c'.io.bytes.length < c.io.bytes.length ∧
            c'.buf.length + c'.io.bytes.length = c.buf.length + c.io.bytes.length ∨
          b = .eof false ∧ b' = .eof true ∧ c'.buf = c.buf ∧ c'.io.bytes = []) := by
  obtain ⟨n,c1,more,still⟩ := fillBufSteady maxReadSize steady
  have same := fillBufUnread more
  obtain ⟨grown,shrunk,ended⟩ := fillBufOk more
  unfold fill
  rw [more]
  cases n with
  | succ n => exact ⟨still,by rw [same],.inl ⟨rfl,by omega,by omega⟩⟩
  | zero =>
    obtain ⟨kept,gone⟩ := ended rfl
    have left : c1.io.bytes = [] := by
      rw [gone,Nat.zero_add] at shrunk
      exact List.length_eq_zero_iff.mp shrunk.symm
    rcases starved gone with ⟨rfl,none⟩ | ⟨active,lasting,stops⟩
    · refine ⟨still,?_,.inr ⟨rfl,rfl,kept,left⟩⟩
      rw [same,none]
      rfl
    · cases b with
      | none => cases active
      | eof done => cases lasting
      | fixed r =>
        dsimp only
        rw [if_pos (Nat.pos_of_ne_zero (by simpa [finished] using active))]
        exact stops
      | chunked r a t done =>
        have open_ := active
        subst open_
        exact stops

end ZeroServe.H1
