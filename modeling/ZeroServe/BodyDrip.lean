import ZeroServe.BodyAgreement

/-! A stream that arrives byte by byte: the limit on a line is then checked after every byte. -/
namespace ZeroServe.H1
open ByteText ByteSource ChunkCoding

structure Drips (s : Source) : Prop where
  single : ∀ g ∈ s.grants, g = some 0
  lasting : s.bytes.length ≤ s.grants.length

structure Drip (c : Conn) : Prop where
  empty : c.buf = []
  drips : Drips c.io

def dripped (s : Bytes) : Conn := ⟨[],⟨s,List.replicate s.length (some 0)⟩⟩

theorem drippedDrip (s : Bytes) : Drip (dripped s) :=
  ⟨rfl,⟨fun _ mem => List.eq_of_mem_replicate mem,by simp [dripped]⟩⟩

theorem Drips.steady {s} (drips : Drips s) : Steady s :=
  fun g mem => by rw [drips.single g mem]; simp

theorem pullDrips (cap : Nat) {s} (drips : Drips s) (room : 0 < cap) :
    ∃ got s', pull cap s = (some got,s') ∧ Drips s' ∧ got.length ≤ 1 := by
  obtain ⟨single,lasting⟩ := drips
  unfold pull
  split
  · rename_i none
    rw [none] at lasting
    have gone := List.length_eq_zero_iff.mp (Nat.le_zero.mp lasting)
    refine ⟨_,_,rfl,⟨fun g mem => (by cases mem),?_⟩,?_⟩ <;> simp [gone]
  · rename_i later same
    cases single none (by rw [same]; exact List.mem_cons_self)
  · rename_i n later same
    cases single (some n) (by rw [same]; exact List.mem_cons_self)
    rw [same] at lasting single
    refine ⟨_,_,rfl,⟨fun g mem => single g (List.mem_cons_of_mem _ mem),?_⟩,?_⟩
    · simp only [List.length_cons] at lasting
      simp only [List.length_drop]
      omega
    · simp only [List.length_take]
      omega

theorem findGrown {pat s got idx} (filled : pat ≠ []) (absent : find pat s = none) (few : got.length ≤ 1)
    (found : find pat (s ++ got) = some idx) : idx + pat.length = s.length + got.length := by
  have bound := findBound found
  rw [List.length_append] at bound
  by_cases inside : idx + pat.length ≤ s.length
  · rw [findWithin filled found inside] at absent
    cases absent
  · omega

theorem dripUntil {pat limit} {capped tooBig fuel} {c c' out} (filled : pat ≠ []) (drips : Drips c.io)
    (absent : find pat c.buf = none) (h : readUntil pat limit capped tooBig fuel c = (.ok (some out),c')) :
    out.length + pat.length ≤ limit + 1 ∧ Drip c' := by
  have size := List.length_pos_of_ne_nil filled
  induction fuel generalizing c with
  | zero => cases h
  | succ fuel ih =>
    unfold readUntil at h
    rw [absent] at h
    dsimp only at h
    split at h
    · cases h
    · rename_i room
      obtain ⟨got,io,pulled,still,few⟩ := pullDrips (max readBufSize 1) drips (by omega)
      simp only [readMore,fillBuf,pulled] at h
      cases found : find pat (c.buf ++ got) with
      | some idx =>
        have last := findGrown filled absent few found
        cases got with
        | nil =>
          rw [List.append_nil,absent] at found
          cases found
        | cons x xs =>
          cases fuel with
          | zero => cases h
          | succ fuel =>
            change readUntil pat limit capped tooBig (fuel + 1) ⟨c.buf ++ x::xs,io⟩ = (.ok (some out),c') at h
            unfold readUntil at h
            simp only [found,Bool.and_eq_true,decide_eq_true_eq] at h
            rw [if_neg (by omega)] at h
            cases h
            refine ⟨?_,⟨?_,still⟩⟩
            · rw [List.length_take]; omega
            · apply List.drop_eq_nil_of_le
              rw [List.length_append]
              omega
      | none =>
        cases got with
        | nil =>
          change (if c.buf ++ [] = [] then (.ok none,⟨c.buf ++ [],io⟩)
            else (.error HttpError.unexpectedEof,⟨c.buf ++ [],io⟩)) = (Except.ok (some out),c') at h
          split at h <;> cases h
        | cons x xs => exact ih (c := ⟨c.buf ++ x::xs,io⟩) still found h

end ZeroServe.H1
