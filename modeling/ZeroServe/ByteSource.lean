import ZeroServe.ByteText

/-! Byte streams as a reader and a writer meet them. A source holds the bytes still to come and how the coming reads
cut them; a sink records what was written and which writes fail part-way. -/
namespace ZeroServe.ByteSource
open ByteText

structure Source where
  bytes : Bytes
  /- One entry per read: `none` fails, `some n` hands over at most n+1 bytes. Reads
  beyond the list take what fits. -/
  grants : List (Option Nat)
  deriving DecidableEq

def pull (cap : Nat) (s : Source) : Option Bytes × Source :=
  match s.grants with
  | [] => (some (s.bytes.take cap),⟨s.bytes.drop cap,[]⟩)
  | none::later => (none,⟨s.bytes,later⟩)
  | some n::later =>
    (some (s.bytes.take (min cap (n+1))),⟨s.bytes.drop (min cap (n+1)),later⟩)

theorem pullCut {cap} {s s' got} (h : pull cap s = (some got,s')) :
    ∃ n ≤ cap, (0 < cap → 0 < n) ∧ got = s.bytes.take n ∧ s'.bytes = s.bytes.drop n := by
  unfold pull at h
  split at h
  · cases h
    exact ⟨cap,le_rfl,id,rfl,rfl⟩
  · cases h
  · rename_i n later _
    cases h
    exact ⟨min cap (n+1),Nat.min_le_left _ _,by omega,rfl,rfl⟩

theorem pullBytes {cap} {s s' got} (h : pull cap s = (some got,s')) : s.bytes = got ++ s'.bytes ∧ got.length ≤ cap := by
  obtain ⟨n,small,_,rfl,rest⟩ := pullCut h
  refine ⟨by rw [rest,List.take_append_drop],?_⟩
  exact (List.length_take_le _ _).trans small

theorem pullFault {cap} {s s'} (h : pull cap s = (none,s')) : s'.bytes = s.bytes := by
  unfold pull at h
  split at h <;> cases h
  rfl

theorem pullEnd {cap} {s s'} (room : 0 < cap) (h : pull cap s = (some [],s')) : s.bytes = [] ∧ s'.bytes = [] := by
  obtain ⟨n,_,positive,empty,rest⟩ := pullCut h
  have none : s.bytes = [] := by
    rcases List.take_eq_nil_iff.mp empty.symm with zero | nil
    · exact absurd (positive room) (by omega)
    · exact nil
  exact ⟨none,by rw [rest,none,List.drop_nil]⟩

structure Sink where
  written : Bytes
  /- One entry per write: `none` succeeds, `some k` fails after k bytes. Writes beyond
  the list succeed. -/
  outcomes : List (Option Nat)
  attempts : Nat
  deriving DecidableEq

def writeAll (data : Bytes) (w : Sink) : Bool × Sink :=
  match w.outcomes with
  | [] => (true,⟨w.written ++ data,[],w.attempts + 1⟩)
  | none::later => (true,⟨w.written ++ data,later,w.attempts + 1⟩)
  | some k::later => (false,⟨w.written ++ data.take k,later,w.attempts + 1⟩)

theorem writeAllOk {data w w'} (h : writeAll data w = (true,w')) : w'.written = w.written ++ data := by
  unfold writeAll at h
  split at h <;> cases h <;> rfl

def Sink.Sound (w : Sink) : Prop := ∀ o ∈ w.outcomes, o = none

theorem writeAllSound {data w w' ok} (sound : w.Sound) (h : writeAll data w = (ok,w')) : ok = true ∧ w'.Sound := by
  unfold writeAll at h
  split at h
  · cases h
    exact ⟨rfl,fun o mem => by cases mem⟩
  · rename_i later same
    cases h
    exact ⟨rfl,fun o mem => sound o (by rw [same]; exact List.mem_cons_of_mem _ mem)⟩
  · rename_i k later same
    cases sound (some k) (by rw [same]; exact List.mem_cons_self)

end ZeroServe.ByteSource
