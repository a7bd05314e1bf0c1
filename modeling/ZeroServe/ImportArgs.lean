import ZeroServe.CaddyLexer
import ZeroServe.Substitution

/-! What an import puts into the text of a snippet's token: the arguments, one placeholder after the other, each in
the text the one before left. -/
namespace ZeroServe.Caddyfile
open CharText Substitution

def bracketed (i : Nat) : Str := '{'::(str "args[" ++ digits i ++ [']'] ++ ['}'])
def dotted (i : Nat) : Str := '{'::(str "args." ++ digits i ++ ['}'])

def replaceArgs (text : Str) (args : List Str) : Str :=
  args.zipIdx.foldl (fun result p => replaceAll (dotted p.2) p.1 (replaceAll (bracketed p.2) p.1 result)) text

def argStages (args : List Str) : List (Str × Str) :=
  args.zipIdx.flatMap fun p => [(bracketed p.2,p.1),(dotted p.2,p.1)]

theorem replaceArgsPasses (text : Str) (args : List Str) :
    replaceArgs text args = oneByOne (argStages args) (argStages args).length text := by
  rw [replaceArgs,argStages]
  generalize args.zipIdx = l
  induction l generalizing text with
  | nil => rfl
  | cons p l ih => exact ih _

theorem digitsPlain (i : Nat) : '{' ∉ digits i ∧ '}' ∉ digits i := by
  constructor <;> intro mem <;> exact absurd (Nat.isDigit_of_mem_toDigits (by decide) (by decide) mem) (by decide)

theorem digitsInj {i j} (same : digits i = digits j) : i = j := by
  have value := congrArg (fun l => Nat.ofDigitChars 10 l 0) same
  simpa only [digits,Nat.ofDigitChars_toDigits (by decide : 1 < 10) (by decide : 10 ≤ 10)] using value

theorem bracketedMarked (i : Nat) : Marked '{' '}' (bracketed i) := by
  refine ⟨⟨str "args[" ++ digits i ++ [']'],rfl,?_,?_⟩,by decide⟩
  · have front : '{' ∉ str "args[" := by decide
    simp [front,(digitsPlain i).1]
  · have front : '}' ∉ str "args[" := by decide
    simp [front,(digitsPlain i).2]

theorem dottedMarked (i : Nat) : Marked '{' '}' (dotted i) := by
  refine ⟨⟨str "args." ++ digits i,rfl,?_,?_⟩,by decide⟩
  · have front : '{' ∉ str "args." := by decide
    simp [front,(digitsPlain i).1]
  · have front : '}' ∉ str "args." := by decide
    simp [front,(digitsPlain i).2]

theorem bracketedInj {i j} (same : bracketed i = bracketed j) : i = j := by
  rw [bracketed,bracketed,List.cons.injEq,List.append_left_inj,List.append_left_inj,List.append_right_inj] at same
  exact digitsInj same.2

theorem dottedInj {i j} (same : dotted i = dotted j) : i = j := by
  rw [dotted,dotted,List.cons.injEq,List.append_left_inj,List.append_right_inj] at same
  exact digitsInj same.2

theorem bracketedDotted (i j : Nat) : bracketed i ≠ dotted j := by
  intro same
  have sixth := congrArg (·[5]?) same
  revert sixth
  exact (by decide : ¬ some '[' = some '.')

theorem argPlaceholders (args : List Str) : Placeholders (argStages args) '{' '}' := by
  constructor
  · intro stage mem
    obtain ⟨p,-,inside⟩ := List.mem_flatMap.mp mem
    rcases List.mem_pair.mp inside with rfl | rfl
    · exact bracketedMarked p.2
    · exact dottedMarked p.2
  · have texts : (argStages args).map Prod.fst = (args.zipIdx.map Prod.snd).flatMap fun i => [bracketed i,dotted i] := by
      rw [argStages,List.map_flatMap,List.flatMap_map]
      rfl
    rw [texts,List.nodup_flatMap]
    refine ⟨fun i _ => ?_,?_⟩
    · simp [bracketedDotted i i]
    · have distinct : (args.zipIdx.map Prod.snd).Nodup := by
        rw [List.zipIdx_map_snd]
        exact List.nodup_range'
      refine distinct.imp fun {i j} ne => ?_
      intro s first second
      rcases List.mem_pair.mp first with rfl | rfl
      · rcases List.mem_pair.mp second with same | same
        · exact ne (bracketedInj same)
        · exact bracketedDotted i j same
      · rcases List.mem_pair.mp second with same | same
        · exact bracketedDotted j i same.symm
        · exact ne (dottedInj same)

theorem replaceArgsExact (text : Str) (args : List Str) :
    ((∀ k < (argStages args).length, Apart (argStages args) text k) →
      replaceArgs text args = simultaneous (argStages args) text) ∧
    ((∀ n ≤ (argStages args).length, oneByOne (argStages args) n text = filled (argStages args) n (pieces (argStages args) text)) ↔
      ∀ k < (argStages args).length, Apart (argStages args) text k) := by
  refine ⟨fun apart => ?_,oneByOneExact (argPlaceholders args) text⟩
  rw [replaceArgsPasses]
  exact oneByOneSimultaneous (argPlaceholders args) apart

theorem twoArguments : replaceArgs ('{'::str "args[1]" ++ '}':: '{'::str "args.0" ++ ['}']) [str "a",str "b"] =
      simultaneous (argStages [str "a",str "b"]) ('{'::str "args[1]" ++ '}':: '{'::str "args.0" ++ ['}']) :=
  (replaceArgsExact ('{'::str "args[1]" ++ '}':: '{'::str "args.0" ++ ['}']) [str "a",str "b"]).1 (by
    intro k low
    exact .inr (by
      revert k
      decide +kernel))

theorem argumentRescanned : replaceArgs (bracketed 0) [bracketed 1,str "b"] = str "b" ∧
    simultaneous (argStages [bracketed 1,str "b"]) (bracketed 0) = bracketed 1 := by
  decide +kernel

end ZeroServe.Caddyfile
