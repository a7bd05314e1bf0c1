import ZeroServe.ScriptRequest
import ZeroServe.RegexMatch
import ZeroServe.FileMatcher

/-! Rewriting the target of a request: `apply_caddy_uri_template` on a template, and
`zs_caddy_set_path_preserve_query`, which puts a literal path together in buffers of fixed size. -/
namespace ZeroServe.UriTemplate
open ByteText RequestPath Script SiteFiles
open FileMatcher (slashPathWithLeading)
open RegexMatch (writeCstr zsCaddyClampLen readUtf8 expandCaddyPlaceholders openBrace closeBrace
  containsPlaceholder)

def splitCaddyRewriteUriTemplate (template : Bytes) : Option Bytes × Option Bytes :=
  let path := template.takeWhile fun b => b != 63 && b != 35
  let query := match template.drop path.length with
    | 63::query => some (query.takeWhile (· != 35))
    | _ => none
  (if path = [] then none else some path,query)

def unreserved (b : UInt8) : Bool :=
  (65 ≤ b && b ≤ 90) || (97 ≤ b && b ≤ 122) || (48 ≤ b && b ≤ 57) || (ascii "-_.~").contains b

/- Percent escapes for all but the unreserved bytes and one that has a form of its own. -/
def escapeBut (own : UInt8) (form value : Bytes) : Bytes :=
  value.flatMap fun b =>
    if unreserved b then [b] else if b = own then form
    else [percent,hexUpper (b / 16),hexUpper (b % 16)]

def caddyQueryEscape : Bytes → Bytes := escapeBut 32 (ascii "+")
def caddyPathEscapePreservingSlashes : Bytes → Bytes := escapeBut slash [slash]

def fileRelativeKey : Bytes := ascii "http.matchers.file.relative"

def placeholder (key : Bytes) : Bytes := openBrace::key ++ [closeBrace]

variable (resolve : Bytes → Option Bytes)

def escapeCaddyRewritePathPlaceholders (s : ScriptRequest) (path : Bytes) : Bytes :=
  let path := strReplace (placeholder (ascii "http.request.uri.path")) s.path path
  if (find (placeholder fileRelativeKey) path).isSome then
    match resolve fileRelativeKey with
    | some relative => strReplace (placeholder fileRelativeKey)
        (caddyPathEscapePreservingSlashes (slashPathWithLeading relative)) path
    | none => path
  else path

def queryComponentLoop (s : ScriptRequest) (raw : Bool) : Nat → Bytes → Bytes
  | 0,input => input
  | fuel + 1,input =>
    let before := input.takeWhile (· != openBrace)
    match input.drop before.length with
    | [] => input
    | _::after =>
      let key := after.takeWhile (· != closeBrace)
      match after.drop key.length with
      | [] => input
      | _::rest =>
        let value := if raw && key == ascii "http.request.uri.query" then s.query
          else ((resolve key).map caddyQueryEscape).getD []
        before ++ value ++ queryComponentLoop s raw fuel rest

def expandCaddyQueryComponent (s : ScriptRequest) (input : Bytes) (raw : Bool) : Bytes :=
  queryComponentLoop resolve s raw input.length input

def rewriteQueryLoop (s : ScriptRequest) : Nat → Bytes → Bool → Bytes → Bytes
  | 0,_,_,out => out
  | fuel + 1,query,wroteValue,out =>
    if query = [] then out else
    let nextEq := query.findIdx? (· == 61)
    let nextAmp := query.findIdx? (· == 38)
    let ampIsNext := match nextAmp,nextEq with
      | some amp,some eq => decide (amp < eq)
      | some _,none => true
      | none,_ => false
    let end_ := if ampIsNext then nextAmp.getD 0 else nextEq.getD query.length
    let component := expandCaddyQueryComponent resolve s (query.take end_) wroteValue
    let out := if wroteValue then (if out ≠ [] ∧ component ≠ [] then out ++ [38] else out)
      else out ++ [61]
    rewriteQueryLoop s fuel (query.drop (end_ + 1)) ampIsNext (out ++ component)

def caddyBuildRewriteQuery (s : ScriptRequest) (query : Bytes) : Bytes :=
  rewriteQueryLoop resolve s query.length query true []

variable (parseForm : Bytes → List (Bytes × Bytes)) (lossy : Bytes → Bytes)
variable (parseUri : Bytes → Option (Bytes × Option Bytes))

def expandedPath (s : ScriptRequest) (pathTemplate queryTemplate : Option Bytes) :
    Option Bytes × Option Bytes :=
  match pathTemplate with
  | none => (none,none)
  | some template =>
    let expanded := expandCaddyPlaceholders resolve (escapeCaddyRewritePathPlaceholders resolve s template)
    match splitOnce 63 expanded with
    | none => (some expanded,none)
    | some (path,injected) =>
      let injected := strReplace (ascii "\x7d") (ascii "%7D") (strReplace (ascii "\x7b") (ascii "%7B") injected)
      (some path,
        if queryTemplate = none ∨ queryTemplate = some [] then some (caddyBuildRewriteQuery resolve s injected)
        else none)

def applyCaddyUriTemplate (s : ScriptRequest) (template : Bytes) : Option ScriptRequest :=
  let (pathTemplate,queryTemplate) := splitCaddyRewriteUriTemplate template
  let (newPath,injected) := expandedPath resolve s pathTemplate queryTemplate
  let newQuery := match queryTemplate with
    | some query =>
      if query ≠ [] ∨ injected = none then some (caddyBuildRewriteQuery resolve s query) else injected
    | none => injected
  match newPath,newQuery with
  | some path,some query =>
    s.setUri parseForm lossy parseUri (if query = [] then path else path ++ 63::query)
  | some path,none => some (s.setPath path)
  | none,some query => some (s.setQuery parseForm lossy query)
  | none,none => some s

def zsCaddyCopy (cap : Nat) (dst src : Bytes) : Bytes := dst ++ src.take (cap - 1 - dst.length)

def queryCap : Nat := 512
def uriCap : Nat := 1024

def preservedTarget (path query : Bytes) : Bytes :=
  let loaded := writeCstr query queryCap
  let query := loaded.bytes.take (zsCaddyClampLen loaded.raw queryCap)
  let uri := zsCaddyCopy uriCap [] path
  if query = [] then uri else zsCaddyCopy uriCap (zsCaddyCopy uriCap uri [63]) query

def zsReqSetUri (s : ScriptRequest) (buffer : Bytes) : Option ScriptRequest :=
  (readUtf8 buffer buffer.length).bind (s.setUri parseForm lossy parseUri)

def zsCaddySetPathPreserveQuery (s : ScriptRequest) (path : Bytes) : Option ScriptRequest :=
  zsReqSetUri parseForm lossy parseUri s (preservedTarget path s.query)

def emitRewriteUri (s : ScriptRequest) (uri : Bytes) : Option ScriptRequest :=
  if containsPlaceholder uri || uri.contains 63 || uri.contains 35 then
    (readUtf8 uri uri.length).bind (applyCaddyUriTemplate resolve parseForm lossy parseUri s)
  else zsCaddySetPathPreserveQuery parseForm lossy parseUri s uri

end ZeroServe.UriTemplate
