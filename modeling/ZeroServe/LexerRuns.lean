import ZeroServe.CaddyLexer

/-! The lexer as one run over the characters of the text, and where a run stops. A token leaves the loop in a fresh
state. -/
namespace ZeroServe.Caddyfile
open CharText

def lexFrom : Str → Nat → Nat → Nat → Word → Lexing (List Placed)
  | [],pos,line,skipped,w => do
    let found ← atEnd pos line skipped w
    return found.toList
  | ch::rest,pos,line,skipped,w => do
    match ← stepChar pos line skipped w ch with
    | .more w line skipped => lexFrom rest (pos + 1) line skipped w
    | .token t line skipped => do
      let rest ← lexFrom rest (pos + 1) line skipped (Word.fresh line)
      return t::rest

section
variable {ch : Char} {rest : Str} {pos line skipped line' skipped' : Nat} {w : Word}

theorem lexMore {w'} (step : stepChar pos line skipped w ch = .ok (.more w' line' skipped')) :
    lexFrom (ch::rest) pos line skipped w = lexFrom rest (pos + 1) line' skipped' w' := by
  rw [lexFrom,step]
  rfl

theorem lexToken {t} (step : stepChar pos line skipped w ch = .ok (.token t line' skipped')) :
    lexFrom (ch::rest) pos line skipped w = (lexFrom rest (pos + 1) line' skipped' (Word.fresh line')).map (t::·) := by
  rw [lexFrom,step]
  rfl

theorem lexFault {e} (step : stepChar pos line skipped w ch = .error e) :
    lexFrom (ch::rest) pos line skipped w = .error e := by
  rw [lexFrom,step]
  rfl

end

theorem nextTokenShorter {rest pos line skipped} {w t lexer}
    (found : nextTokenLoop rest pos line skipped w = .ok (some (t,lexer))) : lexer.rest.length ≤ rest.length - 1 := by
  induction rest generalizing pos line skipped w with
  | nil =>
    rw [nextTokenLoop] at found
    cases ending : atEnd pos line skipped w with
    | error e =>
      rw [ending] at found
      cases found
    | ok last =>
      rw [ending] at found
      cases last with
      | none => cases found
      | some t =>
        cases found
        exact Nat.le_refl 0
  | cons ch rest ih =>
    rw [nextTokenLoop] at found
    cases step : stepChar pos line skipped w ch with
    | error e =>
      rw [step] at found
      cases found
    | ok out =>
      rw [step] at found
      cases out with
      | more w line skipped => exact (ih found).trans (by simp)
      | token t line skipped =>
        cases found
        exact Nat.le_refl _

theorem lexNext (rest : Str) (pos line skipped : Nat) (w : Word) :
    lexFrom rest pos line skipped w = nextTokenLoop rest pos line skipped w >>= fun found =>
      found.elim (.ok []) fun p => (lexFrom p.2.rest p.2.pos p.2.line p.2.skippedLines (Word.fresh p.2.line)).map (p.1::·) := by
  induction rest generalizing pos line skipped w with
  | nil =>
    rw [lexFrom,nextTokenLoop]
    cases atEnd pos line skipped w with
    | error e => rfl
    | ok last => cases last <;> rfl
  | cons ch rest ih =>
    rw [nextTokenLoop]
    cases step : stepChar pos line skipped w ch with
    | error e => exact lexFault step
    | ok out =>
      cases out with
      | more w line skipped => exact (lexMore step).trans (ih _ _ _ _)
      | token t line skipped => exact lexToken step

theorem tokensLexed {fuel} {lexer} (enough : lexer.rest.length < fuel) : tokensLoop fuel lexer =
      lexFrom lexer.rest lexer.pos lexer.line lexer.skippedLines (Word.fresh lexer.line) := by
  induction fuel generalizing lexer with
  | zero => cases enough
  | succ fuel ih =>
    rw [tokensLoop,lexNext,nextToken]
    cases found : nextTokenLoop lexer.rest lexer.pos lexer.line lexer.skippedLines (Word.fresh lexer.line) with
    | error e => rfl
    | ok next =>
      cases next with
      | none => rfl
      | some p =>
        have shorter := nextTokenShorter found
        change tokensLoop fuel p.2 >>= (fun rest => pure (p.1::rest)) = _
        have filled : lexer.rest ≠ [] := by
          intro empty
          rw [empty] at found
          cases found
        have positive := List.length_pos_iff.mpr filled
        rw [ih (by omega)]
        rfl

end ZeroServe.Caddyfile
