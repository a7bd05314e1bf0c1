import ZeroServe.CSource

/-! Texts of the configuration in the generated C: `c_str` as a string literal and
`c_comment` inside a comment. -/
namespace ZeroServe.CQuote
open ByteText CSource

def cByte (b : UInt8) : Bytes :=
  if b = 92 then ascii "\\\\"
  else if b = 34 then ascii "\\\""
  else if b = 10 then ascii "\\n"
  else if b = 13 then ascii "\\r"
  else if b = 9 then ascii "\\t"
  else if 0x20 ≤ b ∧ b ≤ 0x7e then [b]
  else [92,48 + b / 64,48 + b / 8 % 8,48 + b % 8]

def cStr (s : Bytes) : Bytes := 34::s.flatMap cByte ++ [34]

def cComment : Bytes → Bytes
  | 42::47::rest => 42::32::47::cComment rest
  | b::rest => b::cComment rest
  | [] => []

variable (b : UInt8)

theorem cByteOneLine : (10 : UInt8) ∉ cByte b := by
  revert b; decide +kernel

theorem octalDigits : digitVal 8 (48 + b / 64) = some (b.toNat / 64) ∧
    digitVal 8 (48 + b / 8 % 8) = some (b.toNat / 8 % 8) ∧ digitVal 8 (48 + b % 8) = some (b.toNat % 8) := by
  revert b; decide +kernel

variable (s rest : Bytes)

theorem readCByte :
    readChars .plain (cByte b ++ rest) = emit [b] (readChars .plain rest) := by
  unfold cByte
  split
  · rename_i same; subst same; exact readCharsSimple rfl rfl rest
  split
  · rename_i same; subst same; exact readCharsSimple rfl rfl rest
  split
  · rename_i same; subst same; exact readCharsSimple rfl rfl rest
  split
  · rename_i same; subst same; exact readCharsSimple rfl rfl rest
  split
  · rename_i same; subst same; exact readCharsSimple rfl rfl rest
  rename_i escape quote line _ _
  split
  · exact readCharsPlain quote line escape rest
  · obtain ⟨first,second,third⟩ := octalDigits b
    have bound := b.toNat_lt
    have whole : 64 * (b.toNat / 64) + 8 * (b.toNat / 8 % 8) + b.toNat % 8 = b.toNat := by omega
    have read := readCharsOctal first second third (by omega) rest
    rw [whole,UInt8.ofNat_toNat] at read
    exact read

theorem readCBytes : readChars .plain (s.flatMap cByte ++ 34::rest) = some (s,rest) := by
  induction s with
  | nil => simp [readChars]
  | cons b s ih => rw [List.flatMap_cons,List.append_assoc,readCByte,ih]; rfl

theorem spliceCStr (s t : Bytes) : splice (cStr s ++ t) = cStr s ++ splice t := by
  have oneLine : (10 : UInt8) ∉ 34::s.flatMap cByte := by
    simp only [List.mem_cons,List.mem_flatMap,not_or,not_exists,not_and]
    exact ⟨by decide,fun b _ => cByteOneLine b⟩
  have closing : splice (34::t) = 34::splice t := spliceCons (by simp)
  rw [cStr,List.append_assoc,List.singleton_append,spliceAppend _ _ (by decide),
    spliceOneLine oneLine,closing,List.append_assoc,List.singleton_append]

theorem readCStr (s t : Bytes) : readString (splice (cStr s ++ t)) = some (s,splice t) := by
  rw [spliceCStr,cStr,List.append_assoc]
  exact readCBytes s (splice t)

def SplitClose (s : Bytes) : Prop :=
  ∃ before joins after, 0 < joins ∧
    s = before ++ 42::((List.replicate joins [92,10]).flatten ++ 47::after)

def slashNext : Bytes → Bool
  | 47::_ => true
  | 92::10::rest => slashNext rest
  | _ => false

theorem slashNextSplice : slashNext s = true ↔ (splice s).head? = some 47 := by
  fun_induction slashNext s with
  | case1 rest => rw [spliceCons (by simp)]; simp
  | case2 rest ih => exact ih
  | case3 s slash join =>
    cases s with
    | nil => simp [splice]
    | cons b rest =>
      rw [spliceCons]
      · have other : b ≠ 47 := fun same => slash rest (by rw [same])
        simpa using other
      · rintro ⟨rfl,next⟩
        cases rest with
        | nil => simp at next
        | cons c rest => exact join rest (by simpa using next)

theorem slashNextForm : slashNext s = true ↔
    ∃ joins after, s = (List.replicate joins [92,10]).flatten ++ 47::after := by
  fun_induction slashNext s with
  | case1 rest => exact ⟨fun _ => ⟨0,rest,rfl⟩,fun _ => rfl⟩
  | case2 rest ih =>
    rw [ih]
    constructor
    · rintro ⟨joins,after,rfl⟩
      exact ⟨joins + 1,after,by simp [List.replicate_succ]⟩
    · rintro ⟨joins,after,same⟩
      cases joins with
      | zero => simp at same
      | succ joins => exact ⟨joins,after,by simpa [List.replicate_succ] using same⟩
  | case3 s slash join =>
    refine ⟨by simp,?_⟩
    rintro ⟨joins,after,rfl⟩
    cases joins with
    | zero => exact absurd rfl (slash after)
    | succ joins => exact absurd rfl (join ((List.replicate joins [92,10]).flatten ++ 47::after))

def closes : Bytes → Bool
  | [] => false
  | b::rest => (b == 42 && slashNext rest) || closes rest

theorem closeCommentCons : closeComment (b::rest) = none ↔
    ¬ (b = 42 ∧ rest.head? = some 47) ∧ closeComment rest = none := by
  by_cases ends : b = 42 ∧ rest.head? = some 47
  · obtain ⟨rfl,next⟩ := ends
    obtain ⟨tail,rfl⟩ := List.head?_eq_some_iff.mp next
    simp [closeComment]
  · rw [and_iff_right ends,closeComment]
    intro tail hb hr
    exact ends ⟨hb,by simp [hr]⟩

theorem closeCommentSplice : closeComment (splice s) = none ↔ closes s = false := by
  fun_induction splice s with
  | case1 rest ih => rw [ih]; simp [closes]
  | case2 b rest away ih =>
    rw [closeCommentCons,← slashNextSplice,ih,closes]
    simp
  | case3 => simp [closes,closeComment]

theorem headCComment : (cComment s).head? = s.head? := by
  fun_cases cComment s <;> rfl

theorem cCommentCons {b rest} (apart : ¬ (b = 42 ∧ rest.head? = some 47)) : cComment (b::rest) = b::cComment rest := by
  rw [cComment]
  intro tail hb hr
  exact apart ⟨hb,by simp [hr]⟩

theorem slashNextCComment : slashNext (cComment s) = slashNext s := by
  fun_induction slashNext s with
  | case1 rest => rw [cCommentCons (by simp)]; rfl
  | case2 rest ih => rw [cCommentCons (by simp)]; exact ih
  | case3 s slash join =>
    fun_cases cComment s with
    | case1 rest => rfl
    | case2 b rest away =>
      rw [slashNext]
      · intro tail same
        exact slash rest (by rw [(List.cons.inj same).1])
      · intro tail same
        obtain ⟨rfl,behind⟩ := List.cons.inj same
        have next : rest.head? = some 10 := by rw [← headCComment,behind]; rfl
        cases rest with
        | nil => simp at next
        | cons c rest => exact join rest (by simpa using next)
    | case3 => rfl

theorem splitCloseCons : SplitClose (b::rest) ↔
    (b = 42 ∧ slashNext rest = true ∧ rest.head? ≠ some 47) ∨ SplitClose rest := by
  constructor
  · rintro ⟨before,joins,after,some,same⟩
    cases before with
    | nil =>
      obtain ⟨rfl,rfl⟩ := List.cons.inj same
      refine .inl ⟨rfl,(slashNextForm _).mpr ⟨joins,after,rfl⟩,?_⟩
      obtain ⟨joins,rfl⟩ := Nat.exists_eq_succ_of_ne_zero some.ne'
      simp [List.replicate_succ]
    | cons c before => exact .inr ⟨before,joins,after,some,(List.cons.inj same).2⟩
  · rintro (⟨rfl,slash,apart⟩ | ⟨before,joins,after,some,rfl⟩)
    · obtain ⟨joins,after,rfl⟩ := (slashNextForm rest).mp slash
      refine ⟨[],joins,after,Nat.pos_of_ne_zero ?_,rfl⟩
      rintro rfl
      exact apart rfl
    · exact ⟨b::before,joins,after,some,rfl⟩

theorem splitCloseNil : ¬ SplitClose [] := by
  rintro ⟨before,joins,after,_,same⟩
  simp at same

theorem closesCComment : closes (cComment s) = true ↔ SplitClose s := by
  fun_induction cComment s with
  | case1 rest ih =>
    rw [splitCloseCons,splitCloseCons,← ih]
    simp [closes,slashNext]
  | case2 b rest away ih =>
    rw [splitCloseCons,← ih,closes,slashNextCComment]
    have apart : b = 42 → rest.head? ≠ some 47 := by
      rintro rfl next
      cases rest with
      | nil => simp at next
      | cons c rest => exact away rest rfl (by simpa using next)
    simp only [Bool.or_eq_true,Bool.and_eq_true,beq_iff_eq]
    exact or_congr_left ⟨fun h => ⟨h.1,h.2,apart h.1⟩,fun h => ⟨h.1,h.2.1⟩⟩
  | case3 => simp [closes,splitCloseNil]

theorem readCComment (s t : Bytes) :
    readComment (splice (ascii "/* " ++ cComment s ++ ascii " */" ++ t)) = some (splice t) ↔ ¬ SplitClose s := by
  have opening : ascii "/* " = [47,42,32] := by decide
  have closing : ascii " */" = [32,42,47] := by decide
  have tail : splice (32::42::47::t) = 32::42::47::splice t := by
    rw [spliceCons (by simp),spliceCons (by simp),spliceCons (by simp)]
  have text : splice (ascii "/* " ++ cComment s ++ ascii " */" ++ t) =
      47::42::32::(splice (cComment s) ++ 32::42::47::splice t) := by
    rw [opening,closing,← tail,← spliceAppend _ _ (by decide)]
    simp only [List.cons_append,List.nil_append,List.append_assoc]
    rw [spliceCons (by simp),spliceCons (by simp),spliceCons (by simp)]
  have front : closeComment (32::(splice (cComment s) ++ 32::42::47::splice t)) =
      closeComment (splice (cComment s) ++ 32::42::47::splice t) := rfl
  rw [text,readComment,front,closeCommentAppend,← closesCComment,Bool.not_eq_true, ← closeCommentSplice]
  cases closeComment (splice (cComment s)) with
  | none => exact iff_of_true rfl rfl
  | some rest =>
    -- a comment that ends inside the text leaves its own end behind
    refine iff_of_false (fun same => ?_) (by simp)
    have lengths := congrArg List.length (Option.some.inj same)
    simp at lengths
    omega

/- A literal is read back as its text and a comment as a whole, except for a comment whose
end is put together by splicing. -/
theorem textContained (s t : Bytes) : readString (splice (cStr s ++ t)) = some (s,splice t) ∧
    (nextString (splice t) = none → readLiteral (cStr s ++ t) = some (s,splice t)) ∧
    (readComment (splice (ascii "/* " ++ cComment s ++ ascii " */" ++ t)) = some (splice t) ↔ ¬ SplitClose s) := by
  refine ⟨readCStr s t,fun apart => ?_,readCComment s t⟩
  rw [readLiteral,readCStr,Option.map_some]
  cases length : (splice t).length with
  | zero => simp [joinFollowing]
  | succ n => simp [joinFollowing,apart]

theorem quotedLineContained : nextString (splice (ascii ");")) = none ∧
    readLiteral (cStr (ascii "a\"\\\n1") ++ ascii ");") = some (ascii "a\"\\\n1",splice (ascii ");")) ∧
    readComment (splice (ascii "/* " ++ cComment (ascii "**/") ++ ascii " */" ++ ascii "x")) =
      some (splice (ascii "x")) := by
  refine ⟨by decide,(textContained _ _).2.1 (by decide),(textContained _ _).2.2.mpr ?_⟩
  rw [← closesCComment]
  decide

theorem splicedCommentEnds :
    readComment (splice (ascii "/* " ++ cComment (ascii "*\\\n/ evil();") ++ ascii " */" ++ [])) =
      some (ascii " evil(); */") := by
  decide +kernel

end ZeroServe.CQuote
