import ZeroServe.DrainSteps

/-! Whole bodies read in the two ways the server has: with repeated `next_data`, and with `try_drain_into` and `fill`
in turns. Both follow the one reading of the stream. -/
namespace ZeroServe.H1
open ByteText ByteSource ChunkCoding

def dataRun : Nat → Body → Conn → Option (Bytes × Except HttpError Conn)
  | 0, _, _ => none
  | turns+1, b, c =>
    match nextData b c with
    | (none,_,c) => some ([],.ok c)
    | (some (.error e),_,_) => some ([],.error e)
    | (some (.ok data),b,c) => (dataRun turns b c).map fun run => (data ++ run.1,run.2)

def drainRun (takes reads : Nat → Nat) :
    Nat → Body → Conn → Bytes → Option (Bytes × Except HttpError Conn)
  | 0, _, _, _ => none
  | turns+1, b, c, out =>
    match tryDrainInto b c out (takes turns) false with
    | (.error e,_,_,out) => some (out,.error e)
    | (.ok .done,_,c,out) => some (out,.ok c)
    | (.ok .copied,b,c,out) => drainRun takes reads turns b c out
    | (.ok .needRead,b,c,out) =>
      match fill b c (reads turns) with
      | (.error e,_,_) => some (out,.error e)
      | (.ok _,b,c) => drainRun takes reads turns b c out

def endOf (run : Except HttpError Conn) : Except HttpError Bytes := run.map Conn.unread

theorem dataRunMeets {turns} {b c} (enough : c.unread.length < turns) (steady : Steady c.io)
    (fits : LinesFit (decode b c.unread)) : ∃ payload lost ended, dataRun turns b c = some (payload,ended) ∧
      (decode b c.unread).payload = payload ++ lost ∧
      endOf ended = (decode b c.unread).outcome ∧ lost.length < readBufSize ∧
      (lost ≠ [] → ended = .error .unexpectedEof) := by
  induction turns generalizing b c with
  | zero => omega
  | succ turns ih =>
    have meets := nextDataMeets steady fits
    unfold dataRun
    cases step : nextData b c with
    | mk r rest =>
      obtain ⟨b1,c1⟩ := rest
      rw [step] at meets
      cases r with
      | none =>
        obtain ⟨empty,ended⟩ := meets
        exact ⟨[],[],.ok c1,rfl,empty,ended.symm,by decide,fun no => absurd rfl no⟩
      | some r =>
        cases r with
        | error e =>
          obtain ⟨ended,small,kind⟩ := meets
          exact ⟨[],_,.error e,rfl,rfl,ended.symm,small,fun some => by rw [kind some]⟩
        | ok data =>
          obtain ⟨still,ls,reading⟩ := meets
          have less := nextDataShrinks step
          rw [reading] at fits
          obtain ⟨payload,lost,ended,run,whole,same,small,kind⟩ :=
            ih (b := b1) (c := c1) (by omega) still (fitsAfter fits)
          refine ⟨data ++ payload,lost,ended,by simp [run],?_,?_,small,kind⟩
          · rw [reading,Reading.after,whole,List.append_assoc]
          · rw [reading]
            exact same

theorem tryDrainFinished {b c out maxTake} {rechunk} (over_ : finished b = true) :
    tryDrainInto b c out maxTake rechunk = (.ok .done,b,c,out) := by
  cases b with
  | none => rfl
  | fixed n =>
    have zero : n = 0 := by simpa [finished] using over_
    subst zero
    rfl
  | chunked n a t done =>
    have ended := over_
    subst ended
    rfl
  | eof done =>
    have ended := over_
    subst ended
    rfl

def drainTurns (b : Body) (c : Conn) : Nat :=
  c.buf.length + 2 * c.io.bytes.length + if finished b then 0 else 1

theorem drainTurnsLe (b : Body) (c : Conn) : drainTurns b c ≤ c.buf.length + 2 * c.io.bytes.length + 1 := by
  unfold drainTurns
  split <;> omega

theorem drainRunMeets (takes reads : Nat → Nat) {turns} {b c} (out : Bytes) (enough : drainTurns b c < turns)
    (steady : Steady c.io) (fits : LinesFit (decode b c.unread)) : ∃ ended, drainRun takes reads turns b c out =
      some (out ++ (decode b c.unread).payload,ended) ∧ endOf ended = (decode b c.unread).outcome := by
  induction turns generalizing b c out with
  | zero => omega
  | succ turns ih =>
    unfold drainRun
    have meets := tryDrainMeets out (takes turns) false fits
    by_cases over_ : finished b = true
    · rw [tryDrainFinished over_] at meets ⊢
      obtain ⟨-,empty,ended⟩ := meets
      exact ⟨.ok c,by rw [empty,List.append_nil],ended.symm⟩
    have budget : drainTurns b c = c.buf.length + 2 * c.io.bytes.length + 1 := by
      rw [drainTurns,if_neg over_]
    cases step : tryDrainInto b c out (takes turns) false with
    | mk r rest =>
      obtain ⟨b1,c1,out1⟩ := rest
      rw [step] at meets
      cases r with
      | error e =>
        obtain ⟨rfl,empty,ended⟩ := meets
        exact ⟨.error e,by rw [empty,List.append_nil],ended.symm⟩
      | ok kind =>
        cases kind with
        | done =>
          obtain ⟨rfl,empty,ended⟩ := meets
          exact ⟨.ok c1,by rw [empty,List.append_nil],ended.symm⟩
        | copied =>
          obtain ⟨same,less,ls,data,_,_,rfl,reading⟩ := meets
          rw [reading] at fits ⊢
          have bound := drainTurnsLe b1 c1
          rw [same] at bound
          obtain ⟨ended,run,outcome⟩ := ih (b := b1) (c := c1) (out ++ framePiece false data)
            (by omega) (same ▸ steady) (fitsAfter fits)
          refine ⟨ended,?_,outcome⟩
          dsimp only
          rw [run,List.append_assoc]
          rfl
        | needRead =>
          obtain ⟨rfl,same,less,starved,ls,reading⟩ := meets
          have filled := fillMeets (b := b1) (c := c1) (reads turns) (same ▸ steady)
            (same ▸ starved)
          rw [reading] at fits ⊢
          dsimp only
          cases read : fill b1 c1 (reads turns) with
          | mk r rest =>
            obtain ⟨b2,c2⟩ := rest
            rw [read] at filled
            cases r with
            | error e =>
              obtain ⟨empty,ended⟩ := filled
              refine ⟨.error e,?_,ended.symm⟩
              simp [Reading.after,empty]
            | ok _ =>
              obtain ⟨still,later,progress⟩ := filled
              have rest := fitsAfter fits
              rw [later] at rest ⊢
              have sizes : drainTurns b2 c2 < turns := by
                rcases progress with ⟨-,shorter,total⟩ | ⟨-,rfl,kept,none⟩
                · have bound := drainTurnsLe b2 c2
                  rw [same] at shorter total
                  omega
                · have none : drainTurns (.eof true) c2 = c2.buf.length := by
                    simp [drainTurns,finished,none]
                  rw [none,kept]
                  omega
              exact ih (b := b2) (c := c2) _ sizes still rest

/- Both ways end alike on any two cuts of one stream; only at an unexpected end can the
first one have handed over less, by less than a buffer. -/
theorem drainsAgree (b : Body) (stream : Bytes) (first second : Conn) (takes reads : Nat → Nat)
    (turns turns' : Nat) (whole : first.unread = stream) (whole' : second.unread = stream)
    (steady : Steady first.io) (steady' : Steady second.io)
    (fits : ∀ line ∈ (decode b stream).lines, line.length < maxLineSize)
    (enough : stream.length < turns) (enough' : 2 * stream.length + 1 < turns') :
    ∃ payload lost ended ended', dataRun turns b first = some (payload,ended) ∧
      drainRun takes reads turns' b second [] = some (payload ++ lost,ended') ∧
      endOf ended = endOf ended' ∧ lost.length < readBufSize ∧ (lost ≠ [] → ended = .error .unexpectedEof) := by
  obtain ⟨payload,lost,ended,run,data,outcome,small,kind⟩ :=
    dataRunMeets (b := b) (whole ▸ enough) steady (whole ▸ fits)
  have budget : drainTurns b second < turns' := by
    have bound := drainTurnsLe b second
    have size : second.buf.length + second.io.bytes.length = stream.length := by
      rw [← whole',Conn.unread,List.length_append]
    omega
  obtain ⟨ended',run',outcome'⟩ :=
    drainRunMeets takes reads [] budget steady' (whole' ▸ fits)
  rw [whole] at data outcome
  rw [whole',data] at run'
  rw [whole'] at outcome'
  exact ⟨payload,lost,ended,ended',run,run',outcome.trans outcome'.symm,small,kind⟩

theorem drainsAgreeChunked : ∃ payload lost ended ended',
      dataRun 40 newChunked ⟨[],⟨ascii "1\r\nh\r\n0\r\nab: c\r\n\r\nX",[some 0,some 4]⟩⟩ = some (payload,ended) ∧
      drainRun (fun turn => turn) (fun _ => 3) 60 newChunked
        ⟨ascii "1",⟨ascii "\r\nh\r\n0\r\nab: c\r\n\r\nX",[some 0,some 1]⟩⟩ [] = some (payload ++ lost,ended') ∧
      endOf ended = endOf ended' ∧ lost.length < readBufSize ∧ (lost ≠ [] → ended = .error .unexpectedEof) :=
  drainsAgree newChunked (ascii "1\r\nh\r\n0\r\nab: c\r\n\r\nX") _ _ _ _ _ _ (by decide +kernel)
    (by decide +kernel) (by unfold Steady; decide +kernel) (by unfold Steady; decide +kernel)
    (by decide +kernel) (by decide +kernel) (by decide +kernel)

theorem cutOffBodyDiffers : dataRun 2 (.fixed 2) ⟨[],⟨ascii "a",[]⟩⟩ = some ([],.error .unexpectedEof) ∧
      drainRun (fun _ => 1) (fun _ => 1) 4 (.fixed 2) ⟨[],⟨ascii "a",[]⟩⟩ [] =
        some (ascii "a",.error .unexpectedEof) := ⟨rfl,rfl⟩

end ZeroServe.H1
