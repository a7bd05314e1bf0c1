import ZeroServe.LexerFaults

/-! The addresses of a site block. A key is cut at 4096 bytes before it is read, wherever that offset falls. -/
namespace ZeroServe.Caddyfile
open CharText

structure Address where
  original : Str
  scheme : Str
  host : Str
  port : Str
  path : Str
  deriving DecidableEq

def invalidDigit : Str := str "invalid digit found in string"
def overflowed (negative : Bool) : Str :=
  if negative then str "number too small to fit in target type" else str "number too large to fit in target type"

def inI64 (n : Int) : Bool := -2 ^ 63 ≤ n && n < 2 ^ 63

def readI64 (negative : Bool) : Int → Str → Except Str Int
  | n,[] => .ok n
  | n,c::s =>
    if c.isDigit then
      let next := if negative then n * 10 - (c.toNat - 48 : Nat) else n * 10 + (c.toNat - 48 : Nat)
      if inI64 (n * 10) && inI64 next then readI64 negative next s else .error (overflowed negative)
    else .error invalidDigit

def parseI64 : Str → Except Str Int
  | [] => .error (str "cannot parse integer from empty string")
  | ['+'] => .error invalidDigit
  | ['-'] => .error invalidDigit
  | '+'::s => readI64 false 0 s
  | '-'::s => readI64 true 0 s
  | s => readI64 false 0 s

def displayInt (n : Int) : Str := if n < 0 then '-'::digits n.natAbs else digits n.natAbs

def splitOnceStr (pat : Str) : Str → Option (Str × Str)
  | [] => if pat = [] then some ([],[]) else none
  | c::s => if pat.isPrefixOf (c::s) then some ([],(c::s).drop pat.length)
    else (splitOnceStr pat s).map fun p => (c::p.1,p.2)

def rfindChar (c : Char) : Str → Option Nat
  | [] => none
  | x::s => match rfindChar c s with
    | some n => some (x.utf8Size + n)
    | none => if x = c then some 0 else none

def splitHostPort (s : Str) : Lexing (Str × Str) :=
  if s = [] then return ([],[])
  else if s.head? = some '[' then
    match findStr [']'] (s.drop 1) with
    | some close => do
      let host ← splitAt (s.drop 1) close
      let after ← splitAt (s.drop 1) (close + 1)
      if after.2.head? = some ':' then return (host.1,after.2.drop 1) else return (host.1,[])
    | none => return (s,[])
  else
    match findStr [':'] s,rfindChar ':' s with
    | some i,some j =>
      if i = j then do
        let host ← splitAt s i
        let port ← splitAt s (i + 1)
        return (host.1,port.2)
      else return (s,[])
    | _,_ => return (s,[])

def maxLen : Nat := 4096

def checkPort (port : Str) : Lexing Unit :=
  if port = [] then return ()
  else match parseI64 port with
    | .ok n => if 0 ≤ n ∧ n ≤ 65535 then return ()
      else .error (.reported (str "port " ++ displayInt n ++ str " is out of range"))
    | .error e => .error (.reported (str "invalid port '" ++ port ++ str "': " ++ e))

def checkScheme (scheme : Str) : Lexing Unit :=
  if scheme = [] ∨ scheme = str "http" ∨ scheme = str "https" then return ()
  else if scheme = str "wss" then
    .error (.reported (str "the scheme wss:// is only supported in browsers; use https:// instead"))
  else if scheme = str "ws" then
    .error (.reported (str "the scheme ws:// is only supported in browsers; use http:// instead"))
  else .error (.reported (str "unsupported URL scheme " ++ scheme ++ str "://"))

def parseTrimmed (remaining : Str) : Lexing Address := do
  let schemed := (splitOnceStr (str "://") remaining).getD ([],remaining)
  let parts := (splitOnceStr ['/'] schemed.2).elim (schemed.2,[]) fun p => (p.1,'/'::p.2)
  let hostPort ← splitHostPort parts.1
  checkPort hostPort.2
  checkScheme schemed.1
  return ⟨remaining,schemed.1,hostPort.1,hostPort.2,parts.2⟩

def Address.parse (s : Str) : Lexing Address :=
  if maxLen < strLen s then do
    let cut ← splitAt s maxLen
    parseTrimmed (trim cut.1)
  else parseTrimmed (trim s)

theorem splitHostPortTotal (s : Str) : ∃ p, splitHostPort s = .ok p := by
  rw [splitHostPort]
  split
  · exact ⟨_,rfl⟩
  split
  · split
    · rename_i close found
      obtain ⟨a,b,same,rfl⟩ := findStrSome found
      have host : splitAt (s.drop 1) (strLen a) = .ok (a,']'::b) := by
        rw [same,List.append_assoc]
        exact splitAtAppend a _
      have after : splitAt (s.drop 1) (strLen a + 1) = .ok (a ++ [']'],b) := by
        have length : strLen a + 1 = strLen (a ++ [']']) := by
          rw [strLenAppend]
          rfl
        rw [same,length]
        exact splitAtAppend _ b
      rw [host,after]
      simp only [okBind]
      split
      · exact ⟨_,rfl⟩
      · exact ⟨_,rfl⟩
    · exact ⟨_,rfl⟩
  split
  · rename_i i j found last
    split
    · obtain ⟨a,b,same,rfl⟩ := findStrSome found
      have host : splitAt s (strLen a) = .ok (a,':'::b) := by
        rw [same,List.append_assoc]
        exact splitAtAppend a _
      have port : splitAt s (strLen a + 1) = .ok (a ++ [':'],b) := by
        have length : strLen a + 1 = strLen (a ++ [':']) := by
          rw [strLenAppend]
          rfl
        rw [same,length]
        exact splitAtAppend _ b
      rw [host,port]
      exact ⟨_,rfl⟩
    · exact ⟨_,rfl⟩
  · exact ⟨_,rfl⟩

def Returns {α : Type} (r : Lexing α) : Prop := (∃ a, r = .ok a) ∨ ∃ m, r = .error (.reported m)

theorem returnsBind {α β : Type} {r} {f : α → Lexing β} (first : Returns r) (next : ∀ a, Returns (f a)) :
    Returns (r >>= f) := by
  rcases first with ⟨a,rfl⟩ | ⟨m,rfl⟩
  · exact next a
  · exact .inr ⟨m,rfl⟩

theorem checkPortReturns (port : Str) : Returns (checkPort port) := by
  rw [checkPort]
  split
  · exact .inl ⟨(),rfl⟩
  split
  · split
    · exact .inl ⟨(),rfl⟩
    · exact .inr ⟨_,rfl⟩
  · exact .inr ⟨_,rfl⟩

theorem checkSchemeReturns (scheme : Str) : Returns (checkScheme scheme) := by
  rw [checkScheme]
  split
  · exact .inl ⟨(),rfl⟩
  split
  · exact .inr ⟨_,rfl⟩
  split
  · exact .inr ⟨_,rfl⟩
  · exact .inr ⟨_,rfl⟩

theorem parseTrimmedReturns (remaining : Str) : Returns (parseTrimmed remaining) := by
  refine returnsBind (.inl (splitHostPortTotal _)) fun hostPort => ?_
  refine returnsBind (checkPortReturns _) fun _ => ?_
  refine returnsBind (checkSchemeReturns _) fun _ => ?_
  exact .inl ⟨_,rfl⟩

def CutBetween (s : Str) : Prop := strLen s ≤ maxLen ∨ ∃ a b, s = a ++ b ∧ strLen a = maxLen

theorem parseExact (s : Str) : Returns (Address.parse s) ↔ CutBetween s := by
  rw [Address.parse]
  split
  · rename_i long
    cases cut : splitBytes s maxLen with
    | none =>
      have panics : splitAt s maxLen = .error .panic := by
        rw [splitAt,cut]
        rfl
      rw [panics]
      refine iff_of_false ?_ ?_
      · rintro (⟨a,result⟩ | ⟨m,result⟩)
        · cases result
        · cases result
      · rintro (short | ⟨a,b,whole,length⟩)
        · omega
        · rw [splitBytesIff.mpr ⟨whole,length⟩] at cut
          cases cut
    | some p =>
      obtain ⟨a,b⟩ := p
      have split : splitAt s maxLen = .ok (a,b) := by
        rw [splitAt,cut]
        rfl
      rw [split]
      exact iff_of_true (parseTrimmedReturns _) (.inr ⟨a,b,splitBytesIff.mp cut⟩)
  · rename_i short
    exact iff_of_true (parseTrimmedReturns _) (.inl (Nat.le_of_not_lt short))

def textRead (expanded : Str) : Str := (Lexer.new expanded).rest

theorem placedLexed (expanded : Str) : placedTokens expanded = lexFrom (textRead expanded) 0 1 0 (Word.fresh 1) := by
  apply tokensLexed
  have shorter : (textRead expanded).length ≤ expanded.length := by
    change (if _ then _ else _ : Str).length ≤ _
    split
    · exact (List.drop_sublist 1 expanded).length_le
    · exact Nat.le_refl _
  exact Nat.lt_succ_of_le shorter

theorem placedReturns (expanded : Str) : Returns (placedTokens expanded) ↔ ¬ EmptyHeredoc (textRead expanded) := by
  rw [placedLexed,← lexPanicsIff]
  cases run : lexFrom (textRead expanded) 0 1 0 (Word.fresh 1) with
  | ok l => exact iff_of_true (.inl ⟨l,rfl⟩) (by simp)
  | error e =>
    rcases lexFaults run .start with rfl | ⟨m,rfl⟩
    · refine iff_of_false ?_ (by simp)
      rintro (⟨a,result⟩ | ⟨m,result⟩)
      · cases result
      · cases result
    · exact iff_of_true (.inr ⟨m,rfl⟩) (by simp)

theorem returnsMap {α β : Type} {r} {f : α → β} : Returns (r >>= fun a => (return f a)) ↔ Returns r := by
  constructor
  · intro mapped
    cases r with
    | ok a => exact .inl ⟨a,rfl⟩
    | error e =>
      rcases mapped with ⟨a,result⟩ | ⟨m,result⟩
      · cases result
      · cases result
        exact .inr ⟨m,rfl⟩
  · intro plain
    exact returnsBind plain fun a => .inl ⟨f a,rfl⟩

/- Reading a Caddyfile gives tokens or an error unless a heredoc ends where it begins, and a key of it gives an
address or an error unless it is cut inside a character. -/
theorem lexingReturnsExact (env : Str → Option Str) (input filename : Str) :
    (∃ expanded, replaceEnvVars env input = .ok expanded ∧
      (Returns (tokenize env input filename) ↔ ¬ EmptyHeredoc (textRead expanded))) ∧
    ∀ key, Returns (Address.parse key) ↔ CutBetween key := by
  obtain ⟨expanded,done⟩ := replaceEnvTotal env input
  refine ⟨⟨expanded,done,?_⟩,parseExact⟩
  rw [tokenize,done,okBind,returnsMap]
  exact placedReturns expanded

def longKey (n : Nat) : Str := List.replicate n 'a' ++ [Char.ofNat 0xE9]

theorem longKeyInside (n : Nat) : splitBytes (longKey n) (n + 1) = none := by
  induction n with
  | zero => decide
  | succ n ih =>
    change (splitBytes (longKey n) (n + 1)).map _ = none
    rw [ih]
    rfl

theorem longKeyLength (n : Nat) : strLen (longKey n) = n + 2 := by
  have letters : strLen (List.replicate n 'a') = n := by
    rw [strLen,List.map_replicate,List.sum_replicate]
    exact Nat.mul_one n
  rw [longKey,strLenAppend,letters]
  rfl

theorem emptyHeredocPanics : tokenize (fun _ => none) (str "<<EOF\nEOF") (str "Caddyfile") = .error .panic ∧
    Address.parse (longKey 4095) = .error .panic := by
  refine ⟨by decide +kernel,?_⟩
  rw [Address.parse,longKeyLength,if_pos (by decide),splitAt]
  change ((splitBytes (longKey 4095) (4095 + 1)).elim _ _ >>= _) = _
  rw [longKeyInside]
  rfl

end ZeroServe.Caddyfile
