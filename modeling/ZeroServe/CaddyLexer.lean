import ZeroServe.CharText

/-! The Caddyfile lexer: environment variables are put in, then one loop makes the tokens. Positions and escaped line
ends are kept beside the loop, which does not read them. -/
namespace ZeroServe.Caddyfile
open CharText

inductive Fault where
  | reported (message : Str)
  | panic
  | unfinished
  deriving DecidableEq

abbrev Lexing (α : Type) := Except Fault α

@[simp] theorem okBind {α β : Type} (a : α) (f : α → Lexing β) : (Except.ok a : Lexing α) >>= f = f a := rfl

inductive Quote where
  | none
  | double
  | backtick
  | heredoc
  deriving DecidableEq

structure Token where
  file : Str
  imports : List Str
  line : Nat
  text : Str
  quote : Quote
  heredocMarker : Str
  snippetName : Str
  deriving DecidableEq

def Token.numLineBreaks (t : Token) : Nat := t.text.count '\n' + if t.quote = .heredoc then 2 else 0

def isNextOnNewLine (t1 t2 : Token) : Bool :=
  if t1.file ≠ t2.file then true
  else if t1.imports.length ≠ t2.imports.length then true
  else if (t1.imports.zip t2.imports).any fun p => p.1 ≠ p.2 then true
  else t1.line + t1.numLineBreaks < t2.line

def splitAt (s : Str) (n : Nat) : Lexing (Str × Str) := (splitBytes s n).elim (.error .panic) .ok

def replaceEnvLoop (env : Str → Option Str) : Nat → Str → Nat → Lexing Str
  | 0,_,_ => .error .unfinished
  | fuel + 1,input,offset => do
    let rest ← splitAt input offset
    match findStr ['{','$'] rest.2 with
    | none => return input
    | some beginRel =>
      let begin_ := beginRel + offset
      let searchFrom := begin_ + 2
      let tail ← splitAt input searchFrom
      match findStr ['}'] tail.2 with
      | none => return input
      | some endRel =>
        let end_ := endRel + searchFrom
        let envString ← splitAt tail.2 endRel
        if envString.1 = [] then replaceEnvLoop env fuel input (end_ + 1)
        else
          let before ← splitAt input begin_
          let after ← splitAt input (end_ + 1)
          let key := envString.1.takeWhile (· ≠ ':')
          let default := (envString.1.dropWhile (· ≠ ':')).drop 1
          let value := (env key).getD default
          replaceEnvLoop env fuel (before.1 ++ value ++ after.2) (begin_ + strLen value)

def replaceEnvVars (env : Str → Option Str) (input : Str) : Lexing Str :=
  replaceEnvLoop env (input.length + 1) input 0

def slice (v : Str) (first last : Nat) : Lexing Str :=
  if first ≤ last ∧ last ≤ v.length then .ok ((v.drop first).take (last - first)) else .error .panic

def digits (n : Nat) : Str := Nat.toDigits 10 n

def mismatched (marker line padding : Str) (number : Nat) : Fault :=
  .reported (str "mismatched leading whitespace in heredoc <<" ++ marker ++ str " on line #" ++ digits number ++
    str " [" ++ line.rdropWhile (fun c => c == '\r' || c == '\n') ++ str "], expected whitespace [" ++ padding ++
    str "] to match the closing marker")

def stripLines (marker padding : Str) : Nat → List Str → Lexing Str
  | _,[] => return []
  | number,line::lines =>
    if line = [] ∨ line = ['\r'] then do
      let rest ← stripLines marker padding (number + 1) lines
      return '\n'::rest
    else if padding.isPrefixOf line then do
      let rest ← stripLines marker padding (number + 1) lines
      return (line.drop padding.length).filter (· ≠ '\r') ++ '\n'::rest
    else .error (mismatched marker line padding number)

def lastNewline (val : Str) : Nat := (val.reverse.findIdx? (· == '\n')).elim 0 (val.length - 1 - ·)

def finalizeHeredoc (val marker : Str) (startLine : Nat) : Lexing Str := do
  let last := lastNewline val
  let head ← slice val 0 (last + 1)
  let lines := head.splitOn '\n'
  let padding ← slice val (last + 1) (val.length - marker.length)
  let out ← stripLines marker padding (startLine + 1) lines.dropLast
  return if out.getLast? = some '\n' then out.dropLast else out

def isValidHeredocMarker (marker : Str) : Bool :=
  marker ≠ [] && marker.all fun c => c.isAlphanum || c == '_' || c == '-'

section

/- A token with its place: the offsets of its first character and behind its last one, and the escaped
line ends before it that are not counted yet. -/
structure Placed where
  token : Token
  start : Nat
  finish : Nat
  before : Nat
  deriving DecidableEq

structure Word where
  val : Str
  comment : Bool
  quoted : Bool
  btQuoted : Bool
  inHeredoc : Bool
  heredocEscaped : Bool
  escaped : Bool
  heredocMarker : Str
  tokenLine : Nat
  start : Nat
  finish : Nat
  before : Nat
  deriving DecidableEq

def Word.fresh (line : Nat) : Word := ⟨[],false,false,false,false,false,false,[],line,0,0,0⟩

/- The lexer between two characters: what is unread, how much was read, and the two line counters. -/
structure Lexer where
  rest : Str
  pos : Nat
  line : Nat
  skippedLines : Nat
  deriving DecidableEq

inductive Step where
  | more (w : Word) (line skippedLines : Nat)
  | token (t : Placed) (line skippedLines : Nat)
  deriving DecidableEq

def makeToken (w : Word) (val : Str) (quote : Quote) (finish : Nat) : Placed :=
  ⟨⟨[],[],w.tokenLine,val,quote,w.heredocMarker,[]⟩,w.start,finish,w.before⟩

/- A word ends in front of the character behind it, but before the backslash of an escaped line end. -/
def Word.bare (w : Word) (pos : Nat) (ch : Char) : Placed :=
  makeToken w w.val .none (if ch = '\n' then w.finish else pos)

def Word.push (w : Word) (pos : Nat) (ch : Char) : Word := { w with val := w.val ++ [ch], finish := pos + 1 }

def opensHeredoc : Str → Bool
  | '<':: '<'::_ => true
  | _ => false

variable (pos line skippedLines : Nat) (w : Word) (ch : Char)

def openingStep : Lexing Step :=
  if ch = ' ' then return .token (w.bare pos ch) line skippedLines
  else if ch = '\r' then return .more w line skippedLines
  else if ch = '\n' then
    if w.val.length = 2 then
      .error (.reported (str "missing opening heredoc marker on line #" ++ digits line ++
        str "; must contain only alphanumeric characters, dashes and underscores; got empty string"))
    else if (w.val.drop 2).head? = some '<' then
      .error (.reported (str "too many '<' for heredoc on line #" ++ digits line ++
        str "; only use two, for example <<END"))
    else if isValidHeredocMarker (w.val.drop 2) then
      return .more { w with inHeredoc := true, heredocMarker := w.val.drop 2, val := [] } line (skippedLines + 1)
    else
      .error (.reported (str "heredoc marker on line #" ++ digits line ++
        str " must contain only alphanumeric characters, dashes and underscores; got '" ++ w.val.drop 2 ++ str "'"))
  else return .more (w.push pos ch) line skippedLines

def heredocStep : Lexing Step :=
  let val := w.val ++ [ch]
  let skipped := if ch = '\n' then skippedLines + 1 else skippedLines
  if w.heredocMarker.isSuffixOf val then do
    let finalized ← finalizeHeredoc val w.heredocMarker w.tokenLine
    return .token (makeToken w finalized .heredoc (pos + 1)) (line + skipped) 0
  else return .more { w with val := val } line skipped

def quotedPush (val : Str) : Step :=
  let w := { w with val := val ++ [ch], escaped := if w.quoted && w.escaped then false else w.escaped }
  if ch = '\n' then .more w (line + 1 + skippedLines) 0 else .more w line skippedLines

def quotedStep : Step :=
  if w.quoted && w.escaped then quotedPush line skippedLines w ch (if ch = '"' then w.val else w.val ++ ['\\'])
  else if (w.quoted && ch == '"') || (w.btQuoted && ch == '`') then
    .token (makeToken w w.val (if w.quoted then .double else .backtick) (pos + 1)) line skippedLines
  else quotedPush line skippedLines w ch w.val

def afterSpace (w : Word) : Step :=
  if w.val = [] then .more w line skippedLines else .token (w.bare pos ch) line skippedLines

def spaceStep : Step :=
  if ch = '\r' then .more w line skippedLines
  else if ch = '\n' then
    if w.escaped then afterSpace pos line (skippedLines + 1) ch { w with escaped := false, comment := false }
    else afterSpace pos (line + 1 + skippedLines) 0 ch { w with comment := false }
  else afterSpace pos line skippedLines ch w

def plainPush (w : Word) : Word :=
  if w.escaped then
    if ch = '<' then ({ w with heredocEscaped := true, escaped := false }).push pos ch
    else ({ w with val := w.val ++ ['\\'], escaped := false }).push pos ch
  else w.push pos ch

def plainStep : Step :=
  if w.comment || (ch == '#' && w.val == []) then .more { w with comment := true } line skippedLines
  else if w.val = [] then
    let w := { w with tokenLine := line, start := pos, before := skippedLines }
    if ch = '"' then .more { w with quoted := true } line skippedLines
    else if ch = '`' then .more { w with btQuoted := true } line skippedLines
    else .more (plainPush pos ch w) line skippedLines
  else .more (plainPush pos ch w) line skippedLines

def stepChar : Lexing Step :=
  if !w.quoted && !w.btQuoted && !w.inHeredoc && !w.heredocEscaped && opensHeredoc w.val then
    openingStep pos line skippedLines w ch
  else if w.inHeredoc then heredocStep pos line skippedLines w ch
  else if !w.escaped && !w.btQuoted && ch == '\\' then return .more { w with escaped := true } line skippedLines
  else if w.quoted || w.btQuoted then return quotedStep pos line skippedLines w ch
  else if isWhitespace ch then return spaceStep pos line skippedLines w ch
  else return plainStep pos line skippedLines w ch

def atEnd : Lexing (Option Placed) :=
  if w.val = [] then return none
  else if w.inHeredoc then
    .error (.reported (str "incomplete heredoc <<" ++ w.heredocMarker ++ str " on line #" ++
      digits (line + skippedLines) ++ str ", expected ending marker " ++ w.heredocMarker))
  else return some (makeToken w w.val .none pos)

end

def nextTokenLoop : Str → Nat → Nat → Nat → Word → Lexing (Option (Placed × Lexer))
  | [],pos,line,skipped,w => do
    let found ← atEnd pos line skipped w
    return found.map fun t => (t,⟨[],pos,line,skipped⟩)
  | ch::rest,pos,line,skipped,w => do
    match ← stepChar pos line skipped w ch with
    | .more w line skipped => nextTokenLoop rest (pos + 1) line skipped w
    | .token t line skipped => return some (t,⟨rest,pos + 1,line,skipped⟩)

def nextToken (lexer : Lexer) : Lexing (Option (Placed × Lexer)) :=
  nextTokenLoop lexer.rest lexer.pos lexer.line lexer.skippedLines (Word.fresh lexer.line)

def Lexer.new (input : Str) : Lexer := ⟨if input.head? = some (Char.ofNat 0xFEFF) then input.drop 1 else input,0,1,0⟩

def tokensLoop : Nat → Lexer → Lexing (List Placed)
  | 0,_ => .error .unfinished
  | fuel + 1,lexer => do
    match ← nextToken lexer with
    | none => return []
    | some (t,lexer) => do
      let rest ← tokensLoop fuel lexer
      return t::rest

def placedTokens (expanded : Str) : Lexing (List Placed) := tokensLoop (expanded.length + 1) (Lexer.new expanded)

def tokenize (env : Str → Option Str) (input filename : Str) : Lexing (List Token) := do
  let expanded ← replaceEnvVars env input
  let placed ← placedTokens expanded
  return placed.map fun p => { p.token with file := filename }

end ZeroServe.Caddyfile
