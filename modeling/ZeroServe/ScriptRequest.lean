import ZeroServe.H1Headers
import ZeroServe.SiteFiles

/-! The request as scripts see it: the fields derived from its target and its header fields, the calls that change
them, and the log of header changes that is replayed on the head afterwards. -/
namespace ZeroServe.Script
open ByteText RequestPath H1 SiteFiles

abbrev StringMap := AList fun _ : Bytes => Bytes
abbrev ValuesMap := AList fun _ : Bytes => List Bytes

def retain {β : Bytes → Type} (m : AList β) (keep : Bytes → Bool) : AList β :=
  ⟨m.entries.filter fun e => keep e.1,m.nodupKeys.sublist List.filter_sublist⟩

def push (m : ValuesMap) (key value : Bytes) : ValuesMap :=
  m.insert key ((m.lookup key).getD [] ++ [value])

inductive HeaderChange where
  | set (name value : Bytes)
  | append (name value : Bytes)
  | remove (name : Bytes)
  | removePattern (pattern : Bytes)
  | clear
  deriving DecidableEq

structure ScriptRequest where
  path : Bytes
  originalPath : Bytes
  normalizedPath : Bytes
  uri : Bytes
  originalUri : Bytes
  query : Bytes
  originalQuery : Bytes
  headers : StringMap
  headerValues : ValuesMap
  queryParams : StringMap
  queryParamValues : ValuesMap
  caddyQueryParams : ValuesMap
  caddyQueryValid : Bool
  proxyMethod : Option Bytes
  proxyUri : Option Bytes
  proxyHeaders : Option HeaderMap
  uriChanged : Bool
  headerChanges : List HeaderChange

section
variable (parseForm : Bytes → List (Bytes × Bytes)) (lossy : Bytes → Bytes)

def parseQueryParamValues (query : Bytes) : ValuesMap :=
  if query = [] then ∅ else (parseForm query).foldl (fun params (key,value) => push params key value) ∅

def firstValues (values : ValuesMap) : StringMap :=
  values.entries.foldl (fun params e =>
    match e.2 with
    | value::_ => params.insert e.1 value
    | [] => params) ∅

def parseQueryParams (query : Bytes) : StringMap := firstValues (parseQueryParamValues parseForm query)

def unescapeBytes : Bytes → Option Bytes
  | [] => some []
  | b::rest =>
    if b = 43 then (unescapeBytes rest).map (32::·)
    else if b = percent then
      match rest with
      | h::l::later => do
        let high ← hexValue h
        let low ← hexValue l
        let out ← unescapeBytes later
        some ((high <<< 4 ||| low)::out)
      | _ => none
    else (unescapeBytes rest).map (b::·)

def caddyQueryUnescape (value : Bytes) : Option Bytes := (unescapeBytes value).map lossy

def caddyQueryPair (state : ValuesMap × Bool) (pair : Bytes) : ValuesMap × Bool :=
  if pair = [] then state
  else if pair.contains 59 then (state.1,false)
  else
    let key := pair.takeWhile (· != 61)
    let value := (pair.drop key.length).tail
    match caddyQueryUnescape lossy key,caddyQueryUnescape lossy value with
    | some key,some value => (push state.1 key value,state.2)
    | _,_ => (state.1,false)

def parseCaddyQueryParams (query : Bytes) : ValuesMap × Bool :=
  if query = [] then (∅,true) else (query.splitOn 38).foldl (caddyQueryPair lossy) (∅,true)

def addHeader (maps : StringMap × ValuesMap) (field : HeaderName × HeaderValue) : StringMap × ValuesMap :=
  match field.2.toStr with
  | none => maps
  | some value => (maps.1.insert (lower field.1.text) value,push maps.2 (lower field.1.text) value)

def buildScriptRequest (headers : HeaderMap) (headQuery : Option Bytes) (n : NormalizedPath) : ScriptRequest :=
  let maps := headers.pairs.foldl addHeader (∅,∅)
  let encodedPath := n.encodedPathWithDirHint
  let query := headQuery.getD []
  let values := parseQueryParamValues parseForm query
  let uri := match headQuery with
    | some q => encodedPath ++ 63::q
    | none => encodedPath
  let caddyQuery := parseCaddyQueryParams lossy query
  { path := encodedPath
    originalPath := encodedPath
    normalizedPath := n.relative
    uri := uri
    originalUri := uri
    query := query
    originalQuery := query
    headers := maps.1
    headerValues := maps.2
    queryParams := firstValues values
    queryParamValues := values
    caddyQueryParams := caddyQuery.1
    caddyQueryValid := caddyQuery.2
    proxyMethod := none
    proxyUri := none
    proxyHeaders := none
    uriChanged := false
    headerChanges := [] }

namespace ScriptRequest

def clearProxyOverrides (s : ScriptRequest) : ScriptRequest :=
  { s with proxyMethod := none, proxyUri := none, proxyHeaders := none }

def withQuery (s : ScriptRequest) (query : Bytes) : ScriptRequest :=
  { s with
    query := query
    queryParams := parseQueryParams parseForm query
    queryParamValues := parseQueryParamValues parseForm query
    caddyQueryParams := (parseCaddyQueryParams lossy query).1
    caddyQueryValid := (parseCaddyQueryParams lossy query).2
    uriChanged := true }

def restoreOriginalUri (s : ScriptRequest) : ScriptRequest :=
  clearProxyOverrides (withQuery parseForm lossy
    { s with uri := s.originalUri, path := s.originalPath } s.originalQuery)

end ScriptRequest

def derivedPath (path : Bytes) : Bytes :=
  match normalizeRequestPath path with
  | some n => n.relative
  | none => trimSlashStart path

def splitRelativeRequestTarget (uri : Bytes) : Option (Bytes × Bytes) :=
  if uri.head? = some slash || uri.head? = some 63 || (find (ascii "://") uri).isSome then none
  else
    let withoutFragment := uri.takeWhile (· != 35)
    let path := withoutFragment.takeWhile (· != 63)
    if path = [] then none else some (path,(withoutFragment.drop path.length).tail)

/- `parseUri` is the parser of the http crate: the path and the query of a target. -/
def requestTarget (parseUri : Bytes → Option (Bytes × Option Bytes)) (uri : Bytes) : Option (Bytes × Bytes) :=
  match splitRelativeRequestTarget uri with
  | some parts => some parts
  | none => (parseUri uri).map fun (path,query) =>
    (if path = [] && uri.head? != some 63 then uri.takeWhile (fun b => b != 63 && b != 35) else path,
      query.getD [])

namespace ScriptRequest

def setUri (parseUri : Bytes → Option (Bytes × Option Bytes)) (s : ScriptRequest) (uri : Bytes) :
    Option ScriptRequest :=
  let uri := strTrim uri
  if uri = [] then none else
  (requestTarget parseUri uri).map fun (path,query) =>
    withQuery parseForm lossy
      { s with
        uri := if query = [] then path else path ++ 63::query
        path := path
        normalizedPath := derivedPath path } query

def setQuery (s : ScriptRequest) (query : Bytes) : ScriptRequest :=
  withQuery parseForm lossy
    { s with uri := if query = [] then s.path else s.path ++ 63::query } query

def setPath (s : ScriptRequest) (path : Bytes) : ScriptRequest :=
  { s with
    uri := if s.query = [] then path else path ++ 63::s.query
    path := path
    normalizedPath := derivedPath path
    uriChanged := true }

end ScriptRequest
end

def headerPatternMatches (name pattern : Bytes) : Bool :=
  let name := lower name
  let pattern := lower pattern
  let starts := pattern.head? == some 42
  let ends := pattern.getLast? == some 42
  if starts && ends && 2 ≤ pattern.length then (find pattern.tail.dropLast name).isSome
  else if starts then pattern.tail.isSuffixOf name
  else if ends then pattern.dropLast.isPrefixOf name
  else name == pattern

def replaceLoop (search replacement : Bytes) : Nat → Bytes → Bytes
  | 0,s => s
  | fuel+1,s =>
    match find search s with
    | none => s
    | some i => s.take i ++ replacement ++ replaceLoop search replacement fuel (s.drop (i + search.length))

def strReplace (search replacement s : Bytes) : Bytes :=
  if search = [] then
    s.flatMap (fun b => if continuation b then [b] else replacement ++ [b]) ++ replacement
  else replaceLoop search replacement s.length s

namespace ScriptRequest

def setHeader (s : ScriptRequest) (name : Bytes) (value : Option Bytes) : Option ScriptRequest :=
  let name := strTrim name
  if name = [] then none else
  let name := lower name
  if HeaderName.fromBytes name = none then none else
  match value with
  | some value =>
    if HeaderValue.fromBytes value = none then none else
    some { s with
      headers := s.headers.insert name value
      headerValues := s.headerValues.insert name [value]
      headerChanges := s.headerChanges ++ [.set name value] }
  | none =>
    some { s with
      headers := s.headers.erase name
      headerValues := s.headerValues.erase name
      headerChanges := s.headerChanges ++ [.remove name] }

def appendHeader (s : ScriptRequest) (name value : Bytes) : Option ScriptRequest :=
  let name := strTrim name
  if name = [] then none else
  let name := lower name
  if HeaderName.fromBytes name = none || HeaderValue.fromBytes value = none then none
  else if name = ascii "host" then
    some { s with
      headers := s.headers.insert name value
      headerValues := push s.headerValues name value
      headerChanges := s.headerChanges ++ [.set name value] }
  else
    some { s with
      headers := s.headers.insert name (match s.headers.lookup name with
        | some existing => existing ++ 44::value
        | none => value)
      headerValues := push s.headerValues name value
      headerChanges := s.headerChanges ++ [.append name value] }

def deleteHeaderPattern (s : ScriptRequest) (pattern : Bytes) : Option ScriptRequest :=
  let pattern := lower (strTrim pattern)
  if pattern = [] then none
  else if pattern = ascii "*" then
    some { s with headers := ∅, headerValues := ∅, headerChanges := s.headerChanges ++ [.clear] }
  else
    some { s with
      headers := retain s.headers (fun name => ! headerPatternMatches name pattern)
      headerValues := retain s.headerValues (fun name => ! headerPatternMatches name pattern)
      headerChanges := s.headerChanges ++ [.removePattern pattern] }

/- One target of a replacement: the values that are still field values are kept, and if none
is, the field is left alone. -/
def replaceTarget (rewrite : Bytes → Bytes) (s : ScriptRequest) (target : Bytes) : ScriptRequest :=
  match (s.headerValues.lookup target).or ((s.headers.lookup target).map ([·])) with
  | none => s
  | some old =>
    let values := (old.map rewrite).filter fun value => HeaderValue.fromBytes value != none
    match values.getLast? with
    | none => s
    | some last =>
      if target = ascii "host" then
        { s with
          headers := s.headers.insert target last
          headerValues := s.headerValues.insert target values
          headerChanges := s.headerChanges ++ [.set target last] }
      else
        { s with
          headers := s.headers.insert target ([44].intercalate values)
          headerValues := s.headerValues.insert target values
          headerChanges := s.headerChanges ++ .remove target::values.map (.append target) }

def replaceWith (s : ScriptRequest) (name : Bytes) (rewrite : Bytes → Bytes) : Option ScriptRequest :=
  let name := strTrim name
  if name = [] then none
  else if name = ascii "*" then some (s.headers.keys.foldl (replaceTarget rewrite) s)
  else
    let name := lower name
    if HeaderName.fromBytes name = none then none
    else some ((s.headers.keys.filter (eqIgnoreAsciiCase · name)).foldl (replaceTarget rewrite) s)

def replaceHeader (s : ScriptRequest) (name search replacement : Bytes) : Option ScriptRequest :=
  s.replaceWith name (strReplace search replacement)

def replaceHeaderRegex (s : ScriptRequest) (name : Bytes) (replaceAll : Bytes → Bytes) : Option ScriptRequest :=
  s.replaceWith name replaceAll

end ScriptRequest

def applyHeaderChange (headers : HeaderMap) : HeaderChange → HeaderMap
  | .set name value =>
    match HeaderName.fromBytes name,HeaderValue.fromBytes value with
    | some name,some value => headers.insert name value
    | _,_ => headers
  | .append name value =>
    match HeaderName.fromBytes name,HeaderValue.fromBytes value with
    | some name,some value => headers.append name value
    | _,_ => headers
  | .remove name =>
    match HeaderName.fromBytes name with
    | some name => headers.remove name
    | none => headers
  | .removePattern pattern => headers.removeWhere fun name => headerPatternMatches name.text pattern
  | .clear => .empty

def applyScriptRequest (headers : HeaderMap) (s : ScriptRequest) : HeaderMap :=
  s.headerChanges.foldl applyHeaderChange headers

end ZeroServe.Script
