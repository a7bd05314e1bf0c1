import ZeroServe.H1Flow

/-! What a body means on the whole stream at once: its payload, how it ends and the size and trailer lines met on the
way, with no buffer and no reads. -/
namespace ZeroServe.H1
open ByteText ByteSource ChunkCoding

structure Reading where
  lines : List Bytes
  payload : Bytes
  /- What follows the body, or why it does not end. -/
  outcome : Except HttpError Bytes

def Reading.after (lines : List Bytes) (data : Bytes) (r : Reading) : Reading :=
  ⟨lines ++ r.lines,data ++ r.payload,r.outcome⟩

def Reading.stop (e : HttpError) : Reading := ⟨[],[],.error e⟩

def noLine (s : Bytes) : HttpError :=
  if maxLineSize < s.length then .lineTooLong else .unexpectedEof

def onLine (s : Bytes) (next : Bytes → Bytes → Reading) : Reading :=
  match find crlf s with
  | none => .stop (noLine s)
  | some idx =>
    if maxLineSize < idx then .after [s.take idx] [] (.stop .lineTooLong)
    else .after [s.take idx] [] (next (s.take idx) (s.drop (idx + 2)))

def decodeTrailers (s : Bytes) : Reading :=
  match _found : find crlf s with
  | none => .stop (noLine s)
  | some idx =>
    if maxLineSize < idx then .after [s.take idx] [] (.stop .lineTooLong)
    else .after [s.take idx] []
      (if s.take idx = [] then ⟨[],[],.ok (s.drop (idx + 2))⟩
      else decodeTrailers (s.drop (idx + 2)))
termination_by s.length
decreasing_by
  have bound := findBound _found
  simp only [crlf,List.length_cons,List.length_nil] at bound
  rw [List.length_drop]
  omega

def decodeChunks (s : Bytes) : Reading :=
  match _found : find crlf s with
  | none => .stop (noLine s)
  | some idx =>
    if maxLineSize < idx then .after [s.take idx] [] (.stop .lineTooLong)
    else .after [s.take idx] []
      (match parseChunkSizeLine (s.take idx) with
      | .error e => .stop e
      | .ok 0 => decodeTrailers (s.drop (idx + 2))
      | .ok (n+1) =>
        let rest := s.drop (idx + 2)
        if rest.length < n + 1 then ⟨[],rest,.error .unexpectedEof⟩
        else .after [] (rest.take (n + 1))
          (if (rest.drop (n + 1)).length < 2 then .stop .unexpectedEof
          else if (rest.drop (n + 1)).take 2 ≠ crlf then .stop .invalidChunked
          else decodeChunks ((rest.drop (n + 1)).drop 2)))
termination_by s.length
decreasing_by
  have bound := findBound _found
  simp only [crlf,List.length_cons,List.length_nil] at bound
  simp only [List.length_drop]
  omega

def decodeCrlf (s : Bytes) : Reading :=
  if s.length < 2 then .stop .unexpectedEof
  else if s.take 2 ≠ crlf then .stop .invalidChunked
  else decodeChunks (s.drop 2)

def decodeInside (n : Nat) (s : Bytes) : Reading :=
  if s.length < n then ⟨[],s,.error .unexpectedEof⟩
  else .after [] (s.take n) (decodeCrlf (s.drop n))

def decode : Body → Bytes → Reading
  | .none, s => ⟨[],[],.ok s⟩
  | .fixed n, s =>
    if s.length < n then ⟨[],s,.error .unexpectedEof⟩ else ⟨[],s.take n,.ok (s.drop n)⟩
  | .chunked _ _ _ true, s => ⟨[],[],.ok s⟩
  | .chunked _ _ true false, s => decodeTrailers s
  | .chunked 0 true false false, s => decodeCrlf s
  | .chunked 0 false false false, s => decodeChunks s
  | .chunked (n+1) _ false false, s => decodeInside (n + 1) s
  | .eof true, s => ⟨[],[],.ok s⟩
  | .eof false, s => ⟨[],s,.ok []⟩

def LinesFit (r : Reading) : Prop := ∀ line ∈ r.lines, line.length < maxLineSize

def pastTrailer (line rest : Bytes) : Reading :=
  if line = [] then ⟨[],[],.ok rest⟩ else decodeTrailers rest

def pastSize (line rest : Bytes) : Reading :=
  match parseChunkSizeLine line with
  | .error e => .stop e
  | .ok 0 => decodeTrailers rest
  | .ok (n+1) => decodeInside (n + 1) rest

theorem decodeTrailersLine (s : Bytes) : decodeTrailers s = onLine s pastTrailer := by
  rw [decodeTrailers,onLine]
  split <;> rename_i found <;> rw [found]
  rfl

theorem decodeChunksLine (s : Bytes) : decodeChunks s = onLine s pastSize := by
  rw [decodeChunks,onLine]
  split <;> rename_i found <;> rw [found]
  rfl

@[simp] theorem afterNil (r : Reading) : Reading.after [] [] r = r := rfl

@[simp] theorem afterAfter (ls ls' : List Bytes) (d d' : Bytes) (r : Reading) :
    Reading.after ls d (.after ls' d' r) = .after (ls ++ ls') (d ++ d') r := by
  simp only [Reading.after,List.append_assoc]

theorem fitsAfter {ls d r} (fits : LinesFit (.after ls d r)) :
    LinesFit r := fun line mem => fits line (List.mem_append_right _ mem)

theorem decodeInsideCut {n k} {s} (within : k ≤ n) (there : k ≤ s.length) :
    decodeInside n s = .after [] (s.take k) (decodeInside (n - k) (s.drop k)) := by
  unfold decodeInside
  by_cases short : s.length < n
  · rw [if_pos short,if_pos (by rw [List.length_drop]; omega)]
    simp only [Reading.after,List.nil_append,List.take_append_drop]
  · rw [if_neg short,if_neg (by rw [List.length_drop]; omega),afterAfter,List.drop_drop,
      Nat.add_sub_cancel' within]
    have joined : s.take n = s.take k ++ (s.drop k).take (n - k) := by
      rw [← List.take_add,Nat.add_sub_cancel' within]
    rw [joined,List.nil_append]

theorem decodeChunkCursor (n : Nat) (a : Bool) (s : Bytes) :
    decode (.chunked n (a || n == 0) false false) s = decodeInside n s := by
  cases n with
  | zero => simp [decode,decodeInside]
  | succ n => rfl

theorem decodeChunkTaken {n k} {a a' s} (some : n ≠ 0) (within : k ≤ n) (there : k ≤ s.length) :
    decode (.chunked n a' false false) s =
      .after [] (s.take k) (decode (.chunked (n - k) (a || n - k == 0) false false) (s.drop k)) := by
  obtain ⟨m,rfl⟩ := Nat.exists_eq_succ_of_ne_zero some
  rw [decodeChunkCursor,← decodeInsideCut within there]
  rfl

theorem decodeFixedTaken {n k} {s} (within : k ≤ n) (there : k ≤ s.length) :
    decode (.fixed n) s = .after [] (s.take k) (decode (.fixed (n - k)) (s.drop k)) := by
  simp only [decode]
  by_cases short : s.length < n
  · rw [if_pos short,if_pos (by rw [List.length_drop]; omega)]
    simp only [Reading.after,List.nil_append,List.take_append_drop]
  · rw [if_neg short,if_neg (by rw [List.length_drop]; omega)]
    simp only [Reading.after,List.nil_append,← List.take_add,List.drop_drop, Nat.add_sub_cancel' within]

def Steady (s : Source) : Prop := ∀ g ∈ s.grants, g ≠ none

theorem pullSteady (cap : Nat) {s} (steady : Steady s) : ∃ got s', pull cap s = (some got,s') ∧ Steady s' := by
  unfold pull
  split
  · exact ⟨_,_,rfl,fun g mem => by cases mem⟩
  · rename_i later same
    exact absurd rfl (steady none (by rw [same]; exact List.mem_cons_self))
  · rename_i n later same
    exact ⟨_,_,rfl,fun g mem => steady g (by rw [same]; exact List.mem_cons_of_mem _ mem)⟩

theorem fillBufSteady (size : Nat) {c} (steady : Steady c.io) : ∃ n c', fillBuf size c = (.ok n,c') ∧ Steady c'.io := by
  obtain ⟨got,io,pulled,still⟩ := pullSteady (max size 1) steady
  exact ⟨got.length,⟨c.buf ++ got,io⟩,by rw [fillBuf,pulled],still⟩

theorem findStarts {pat s j} (some : pat ≠ []) (start : pat <+: s.drop j) : find pat s ≠ none := by
  induction s generalizing j with
  | nil =>
    rw [List.drop_nil] at start
    exact absurd (List.prefix_nil.mp start) some
  | cons b rest ih =>
    rw [findCons]
    split
    · simp
    · rename_i away
      cases j with
      | zero => exact absurd (List.isPrefixOf_iff_prefix.mpr start) away
      | succ j => simpa using ih start

theorem findWithin {pat s t idx} (filled : pat ≠ []) (found : find pat (s ++ t) = some idx)
    (inside : idx + pat.length ≤ s.length) : find pat s = some idx := by
  have start : pat <+: s.drop idx := by
    have sound := findSound found
    have cut : (s ++ t).drop idx = pat ++ (s ++ t).drop (idx + pat.length) := by
      have size : ((s ++ t).take idx).length = idx := by
        rw [List.length_take,List.length_append]; omega
      conv_lhs => rw [sound]
      rw [List.append_assoc,List.drop_append_of_le_length (by rw [size]),
        List.drop_of_length_le (by rw [size]),List.nil_append]
    have whole : pat <+: s.drop idx ++ t := by
      rw [← List.drop_append_of_le_length (by omega),cut]
      exact List.prefix_append _ _
    apply List.prefix_of_prefix_length_le whole (List.prefix_append _ _)
    rw [List.length_drop]
    omega
  cases front : find pat s with
  | none => exact absurd front (findStarts filled start)
  | some i => rw [← findAppend front (t := t),found]

theorem findFront {s t idx} (found : find crlf (s ++ t) = some idx) (inside : idx + 2 ≤ s.length) :
    find crlf s = some idx :=
  findWithin (by decide) found inside

end ZeroServe.H1
