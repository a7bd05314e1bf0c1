import ZeroServe.RouteProgram

/-! The generator of request middleware from a server's routes: handlers, subroutes, named routes and error routes.
The fuel bounds the nesting of the generators. -/
namespace ZeroServe.RouteGenerator
open ByteText
open RouteProgram

variable {σ : Type}

/- A handler with no code for errors: static responses, proxies, header operations. Its code
may depend on standing in an error route. -/
structure Action (σ : Type) where
  run : Bool → Core σ → Effect σ
  terminal : Bool
  noFailure : ∀ inErrorRoute core core', run inErrorRoute core ≠ .failed core'
  ends : terminal = true → ∀ inErrorRoute core core', run inErrorRoute core ≠ .passed core'

structure FileServer (σ : Type) where
  passThru : Bool
  serve : Core σ → Effect σ
  preflight : Core σ → Effect σ
  decides : passThru = false → ∀ core core', serve core ≠ .passed core'

structure Route (σ H : Type) where
  matcher : Option (Matcher σ)
  handlers : List H
  terminal : Bool
  group : Option Nat
  exactHost : Option Nat

inductive Handler (σ : Type) where
  | action (a : Action σ)
  | error (status : Status σ)
  | authentication (check : Option (Core σ → Effect σ))
  | zeroserveCall (run : Core σ → Effect σ)
  | fileServer (f : FileServer σ)
  | subroute (routes errors : List (Route σ (Handler σ)))
  | invoke (name : Bytes)

abbrev Routes (σ : Type) := List (Route σ (Handler σ))

structure Generator (σ : Type) where
  namedRoutes : Bytes → Option (Route σ (Handler σ))
  errorRoutes : Routes σ
  inErrorRoute : Bool
  errorRoutesFallthrough : Bool

def Route.match_ {H : Type} (route : Route σ H) : Matcher σ :=
  route.matcher.getD ⟨fun core => some (core,true),false,false⟩

def emitRouteGroupGuard (group : Option Nat) (body : Code σ) : Code σ :=
  match group with
  | none => body
  | some id => .group id body

def emitTerminalEmptyHandler (g : Generator σ) : Code σ :=
  .seq (.respond g.inErrorRoute (if g.inErrorRoute then .errorCode else .literal 200)) .ret

def Status.accepted : Status σ → Bool
  | .literal n => 100 ≤ n && n ≤ 999 && n != 103
  | _ => true

def routeContainsErrorHandler : Nat → Route σ (Handler σ) → Option Bool
  | 0,_ => none
  | fuel+1,route => route.handlers.foldlM (fun found handler =>
    match handler with
    | .error _ => some true
    | .subroute routes _ => routes.foldlM (fun found route => do
        let inner ← routeContainsErrorHandler fuel route
        some (found || inner)) found
    | _ => some found) false

def validateErrorRoutes (fuel : Nat) (routes : Routes σ) : Option Unit := do
  for route in routes do
    let contains ← routeContainsErrorHandler fuel route
    if contains then none
  some ()

mutual

def emitHandlers : Nat → Generator σ → List (Handler σ) → Option (Code σ × Bool)
  | 0,_,_ => none
  | _+1,_,[] => some (.skip,false)
  | fuel+1,g,handler::later => do
    let (code,terminal) ← emitHandler fuel g handler
    -- what follows a terminal handler is unreachable
    if terminal then some (code,true) else
    let (more,stopped) ← emitHandlers fuel g later
    some (.seq code more,stopped)

def emitHandler : Nat → Generator σ → Handler σ → Option (Code σ × Bool)
  | 0,_,_ => none
  | fuel+1,g,handler => do
    let (code,terminal) ← match handler with
      | .action a => some (.attempt g.inErrorRoute (a.run g.inErrorRoute) .skip .skip,a.terminal)
      | .error status => emitStaticError fuel g status
      | .authentication check => emitAuthentication fuel g check
      | .zeroserveCall run => emitZeroserveCall fuel g run
      | .fileServer f => emitFileServer fuel g f
      | .subroute routes errors => do
        validateErrorRoutes fuel errors
        let inner := { g with errorRoutes := if errors.isEmpty then g.errorRoutes else errors,
                              errorRoutesFallthrough := true }
        let code ← emitSubrouteRoutes fuel inner routes false
        some (code,false)
      | .invoke name => do
        let code ← emitInvokeInline fuel g name
        some (.call code,false)
    some (.seq (.mark g.inErrorRoute) code,terminal)

def emitStaticError : Nat → Generator σ → Status σ → Option (Code σ × Bool)
  | 0,_,_ => none
  | fuel+1,g,status =>
    if ! Status.accepted status then none
    else if g.errorRoutes.isEmpty then
      some (.seq (.raise g.inErrorRoute false status) (.seq (.respond g.inErrorRoute status) .ret),true)
    else do
      let routes ← emitErrorRoutes fuel g
      if g.errorRoutesFallthrough then
        some (.seq (.raise g.inErrorRoute true status) (.seq routes
          (.seq (.whenPending .ret) (.unanswered g.inErrorRoute none))),false)
      else
        some (.seq (.raise g.inErrorRoute true status)
          (.seq routes (.seq (.unlessPending
            (.seq (.unanswered g.inErrorRoute (some status)) (.respond g.inErrorRoute status))) .ret)),true)

def emitAuthentication : Nat → Generator σ → Option (Core σ → Effect σ) → Option (Code σ × Bool)
  | 0,_,_ => none
  | fuel+1,g,check => do
    let answer ← (if g.errorRoutes.isEmpty then some (.respond g.inErrorRoute .errorCode)
      else (emitErrorRoutes fuel g).map fun routes =>
        .seq routes (.unlessPending (.respond g.inErrorRoute .errorCode)))
    match check with
    | some check => some (.attempt g.inErrorRoute check .skip (.seq answer .ret),false)
    | none => some (.seq (.setError 401) (.seq answer .ret),false)

def emitZeroserveCall : Nat → Generator σ → (Core σ → Effect σ) → Option (Code σ × Bool)
  | 0,_,_ => none
  | fuel+1,g,run => do
    let failed ← (if g.errorRoutes.isEmpty then some (.seq (.respond g.inErrorRoute .errorCode) .ret)
      else (emitErrorRoutes fuel g).map fun routes =>
        if g.errorRoutesFallthrough then .seq routes (.whenPending .ret)
        else .seq routes (.seq (.unlessPending (.respond g.inErrorRoute .errorCode)) .ret))
    some (.attempt g.inErrorRoute run .skip failed,false)

def emitFileServerErrorResponse : Nat → Generator σ → Option (Code σ)
  | 0,_ => none
  | fuel+1,g =>
    if g.errorRoutes.isEmpty || g.inErrorRoute then some (.respond g.inErrorRoute .errorCode)
    else (emitErrorRoutes fuel g).map fun routes =>
      .seq routes (.unlessPending (.respond g.inErrorRoute .errorCode))

def emitFileServer : Nat → Generator σ → FileServer σ → Option (Code σ × Bool)
  | 0,_,_ => none
  | fuel+1,g,f => do
    let answer ← emitFileServerErrorResponse fuel g
    if f.passThru then
      some (.attempt g.inErrorRoute f.serve .skip (.seq answer .ret),false)
    else if ! g.inErrorRoute && ! g.errorRoutes.isEmpty then
      some (.seq (.attempt g.inErrorRoute f.preflight (.setError 404) .skip) (.seq answer .ret),true)
    else
      -- a file server that does not pass through has answered or failed
      some (.seq (.attempt g.inErrorRoute f.serve .ret answer) .ret,true)

def emitErrorRoutes : Nat → Generator σ → Option (Code σ)
  | 0,_ => none
  | fuel+1,g => emitErrorRouteList fuel { g with inErrorRoute := true } g.errorRoutes

def emitErrorRouteList : Nat → Generator σ → Routes σ → Option (Code σ)
  | 0,_,_ => none
  | _+1,_,[] => some .skip
  | fuel+1,g,route::later => do
    let body ← emitErrorRouteInline fuel g route
    let more ← emitErrorRouteList fuel g later
    some (.seq (.call body) more)

def emitErrorRouteInline : Nat → Generator σ → Route σ (Handler σ) → Option (Code σ)
  | 0,_,_ => none
  | fuel+1,g,route =>
    if route.match_.staticallyFalse then some (.test route.match_ .skip .skip .skip)
    else do
      let (handlers,stopped) ← emitHandlers fuel g route.handlers
      let last := if route.terminal && ! stopped then
          .seq (.unlessPending (.respond g.inErrorRoute .errorCode)) .ret
        else .skip
      some (.test route.match_ .skip (.seq (.whenPending .ret) (emitRouteGroupGuard route.group (.seq handlers last)))
        (.whenPending .clear))

def emitPendingMatcherError : Nat → Generator σ → Option (Code σ)
  | 0,_ => none
  | fuel+1,g => do
    let answer ← (if g.errorRoutes.isEmpty || g.inErrorRoute then some (.respond g.inErrorRoute .errorCode)
      else (emitErrorRoutes fuel g).map fun routes =>
        .seq routes (.unlessPending (.respond g.inErrorRoute .errorCode)))
    some (.whenError (.seq answer .ret))

def emitSubrouteRoutes : Nat → Generator σ → Routes σ → Bool → Option (Code σ)
  | 0,_,_,_ => none
  | _+1,_,[],_ => some .skip
  | fuel+1,g,route::later,pendingCleanupNeeded => do
    let (body,canLeavePending) ← emitSubrouteRouteInline fuel g route pendingCleanupNeeded
    let more ← emitSubrouteRoutes fuel g later (pendingCleanupNeeded || canLeavePending)
    some (.seq (.call body) more)

def emitSubrouteRouteInline :
    Nat → Generator σ → Route σ (Handler σ) → Bool → Option (Code σ × Bool)
  | 0,_,_,_ => none
  | fuel+1,g,route,pendingPossible =>
    if route.match_.staticallyFalse then some (.test route.match_ .skip .skip .skip,false)
    else do
      let before ← (if route.match_.canSetError then emitPendingMatcherError fuel g else some .skip)
      let (handlers,terminal) ← emitHandlers fuel g route.handlers
      let last := if route.terminal && ! terminal then emitTerminalEmptyHandler g else .skip
      let checked := pendingPossible || route.match_.canSetError
      some (.test route.match_ before (.seq (if checked then .whenPending .ret else .skip)
          (emitRouteGroupGuard route.group (.seq handlers last)))
        (if checked then .whenPending .clear else .skip),! route.terminal && ! terminal)

def emitInvokeInline : Nat → Generator σ → Bytes → Option (Code σ)
  | 0,_,_ => none
  | fuel+1,g,name => do
    let route ← g.namedRoutes name
    if route.match_.staticallyFalse then some (.test route.match_ .skip .skip .skip)
    else
      let before ← (if route.match_.canSetError then emitPendingMatcherError fuel g else some .skip)
      let (handlers,terminal) ← emitHandlers fuel g route.handlers
      let last := if route.terminal && ! terminal then emitTerminalEmptyHandler g else .skip
      some (.test route.match_ before (.seq (.whenPending .ret) (emitRouteGroupGuard route.group (.seq handlers last)))
        (.whenPending .clear))

end

structure Server (σ : Type) where
  routes : Routes σ
  errorRoutes : Routes σ
  namedRoutes : Bytes → Option (Route σ (Handler σ))
  /- The number of route groups over all routes. -/
  groups : Nat
  /- The entry of the host table for the request's host, if it fits and is there. -/
  hostId : Core σ → Option Nat

def Server.generator (server : Server σ) : Generator σ :=
  ⟨server.namedRoutes,server.errorRoutes,false,false⟩

def emptyHandler : Code σ := .seq (.respond false (.literal 200)) .ret

/- The switch over exact hosts; the matchers are only the hosts. -/
def switchCases (fuel : Nat) (value : Core σ → Option Nat) : List (Generator σ × List (Handler σ) × Nat) → Option (Code σ)
  | [] => some .skip
  | (g,body,id)::later => do
    let (handlers,stopped) ← emitHandlers fuel g body
    let body := if stopped then handlers else .seq handlers (emitTerminalEmptyHandler g)
    let rest ← switchCases fuel value later
    some (.caseOf value id (.call body) rest)

def emitServerRoute (fuel : Nat) (server : Server σ) (route : Route σ (Handler σ)) (pendingCleanupNeeded : Bool) :
    Option (Code σ × Bool) := do
  let g := server.generator
  let start ← (if g.errorRoutes.isEmpty then some .skip else emitPendingMatcherError fuel g)
  if route.match_.staticallyFalse then some (.seq start (.test route.match_ .skip .skip .skip),true)
  else
    let before ← (if route.match_.canSetError then emitPendingMatcherError fuel g else some .skip)
    let (handlers,stopped) ← emitHandlers fuel g route.handlers
    let last := if route.terminal && ! stopped then emitTerminalEmptyHandler g else .skip
    some (.seq start (.test route.match_ before
      (.seq (.whenPending .ret) (emitRouteGroupGuard route.group (.seq handlers last)))
      (if route.match_.canSetError || pendingCleanupNeeded then .whenPending .clear else .skip)),stopped)

def Ctx.start (core : Core σ) : Ctx σ := ⟨core,none,[],[]⟩

end ZeroServe.RouteGenerator
