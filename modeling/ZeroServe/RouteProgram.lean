import ZeroServe.ByteText

/-! Straight-line request programs: code that runs handlers, may install a response and may
return early, with rules of pre- and postconditions for it. -/
namespace ZeroServe.RouteProgram
open ByteText

/- What helpers read and write, and the status of the last error. -/
structure Core (σ : Type) where
  store : σ
  error : Option Nat

inductive Answer where
  | fixed (status : Nat) (body : Bytes)
  /- A file, a backend's response or a dropped connection. -/
  | other
  deriving DecidableEq

inductive Effect (σ : Type) where
  | passed (core : Core σ)
  | ended (core : Core σ) (answer : Answer)
  | failed (core : Core σ)
  | crashed

inductive Event where
  | handler (inErrorRoute : Bool)
  | error (status : Nat)
  /- A handler of an error route decides the request. -/
  | ended
  /- The error routes of an error have gone on, and nothing else answers it with its status. -/
  | unanswered
  deriving DecidableEq

def Event.inErrorRoute : Event → Bool
  | .handler inErrorRoute => inErrorRoute
  | .error _ => false
  | .ended => true
  | .unanswered => true

structure Ctx (σ : Type) where
  core : Core σ
  response : Option Answer
  groups : List Nat
  trace : List Event

inductive Status (σ : Type) where
  | literal (status : Nat)
  | errorCode
  | template (expand : Core σ → Option Nat)

def Status.eval {σ : Type} (s : Status σ) (core : Core σ) : Option Nat :=
  let value := match s with
    | .literal status => some status
    | .errorCode => core.error
    | .template expand => expand core
  value.filter fun n => 100 ≤ n && n ≤ 999

structure Matcher (σ : Type) where
  eval : Core σ → Option (Core σ × Bool)
  staticallyFalse : Bool
  canSetError : Bool

inductive Code (σ : Type) where
  | skip
  | seq (first second : Code σ)
  | ret
  /- A route in a function of its own, whose early return returns from the caller. -/
  | call (body : Code σ)
  | mark (inErrorRoute : Bool)
  | attempt (inErrorRoute : Bool) (run : Core σ → Effect σ) (passed failed : Code σ)
  | test (m : Matcher σ) (before yes no : Code σ)
  | caseOf (pick : Core σ → Option Nat) (id : Nat) (body rest : Code σ)
  | group (id : Nat) (body : Code σ)
  | whenPending (body : Code σ)
  | unlessPending (body : Code σ)
  | whenError (body : Code σ)
  | clear
  | respond (inErrorRoute : Bool) (status : Status σ)
  /- An error handler; `stored` says whether the error's status is kept. -/
  | raise (inErrorRoute stored : Bool) (status : Status σ)
  /- No code: notes an error whose routes have gone on, where `again` is the status it is answered with. -/
  | unanswered (inErrorRoute : Bool) (again : Option (Status σ))
  | setError (status : Nat)

inductive Outcome (σ : Type) where
  | next (ctx : Ctx σ)
  | stop (ctx : Ctx σ)
  | fail (ctx : Ctx σ)

variable {σ : Type}

def Outcome.ctx : Outcome σ → Ctx σ
  | .next ctx => ctx
  | .stop ctx => ctx
  | .fail ctx => ctx

def Outcome.failed : Outcome σ → Bool
  | .fail _ => true
  | _ => false

def noteEnded (inErrorRoute : Bool) : List Event := if inErrorRoute then [.ended] else []

def Event.status : Event → Option Nat
  | .error n => some n
  | _ => none

/- Evaluated again, the status is the one the last error was raised with. -/
def Ctx.sameStatus (ctx : Ctx σ) (again : Option (Status σ)) : Bool :=
  again.any fun status => (status.eval ctx.core).all fun n => ctx.trace.reverse.findSome? Event.status == some n

def noteUnanswered (inErrorRoute : Bool) (again : Option (Status σ)) (ctx : Ctx σ) : List Event :=
  if inErrorRoute || ctx.sameStatus again then [] else [.unanswered]

@[simp] def exec : Code σ → Ctx σ → Outcome σ
  | .skip,ctx => .next ctx
  | .seq first second,ctx =>
    match exec first ctx with
    | .next ctx => exec second ctx
    | .stop ctx => .stop ctx
    | .fail ctx => .fail ctx
  | .ret,ctx => .stop ctx
  | .call body,ctx => exec body ctx
  | .mark inErrorRoute,ctx => .next { ctx with trace := ctx.trace ++ [.handler inErrorRoute] }
  | .attempt inErrorRoute run passed failed,ctx =>
    match run ctx.core with
    | .passed core => exec passed { ctx with core := core }
    | .ended core answer => .stop { ctx with core := core, response := some answer,
                                             trace := ctx.trace ++ noteEnded inErrorRoute }
    | .failed core => exec failed { ctx with core := core }
    | .crashed => .fail ctx
  | .test m before yes no,ctx =>
    match m.eval ctx.core with
    | none => .fail ctx
    | some (core,matched) =>
      match exec before { ctx with core := core } with
      | .next ctx => if matched then exec yes ctx else exec no ctx
      | .stop ctx => .stop ctx
      | .fail ctx => .fail ctx
  | .caseOf pick id body rest,ctx => if pick ctx.core = some id then exec body ctx else exec rest ctx
  | .group id body,ctx =>
    if id ∈ ctx.groups then .next ctx else exec body { ctx with groups := id::ctx.groups }
  | .whenPending body,ctx => if ctx.response.isSome then exec body ctx else .next ctx
  | .unlessPending body,ctx => if ctx.response.isSome then .next ctx else exec body ctx
  /- The status text is read into four bytes with its end. -/
  | .whenError body,ctx => if ctx.core.error.any (· < 1000) then exec body ctx else .next ctx
  | .clear,ctx => .next { ctx with response := none }
  | .respond inErrorRoute status,ctx =>
    match status.eval ctx.core with
    | none => .fail ctx
    | some n => if n = 103 then .fail ctx else
        .next { ctx with response := some (.fixed n []), trace := ctx.trace ++ noteEnded inErrorRoute }
  | .raise inErrorRoute stored status,ctx =>
    match status.eval ctx.core with
    | none => .fail ctx
    | some n => .next { ctx with core := if stored then { ctx.core with error := some n } else ctx.core,
                                 trace := ctx.trace ++ if inErrorRoute then [] else [.error n] }
  | .unanswered inErrorRoute again,ctx =>
    .next { ctx with trace := ctx.trace ++ noteUnanswered inErrorRoute again ctx }
  | .setError n,ctx => .next { ctx with core := { ctx.core with error := some n } }

structure Post (σ : Type) where
  next : Ctx σ → Prop
  stop : Ctx σ → Prop
  fail : Ctx σ → Prop

def Post.holds (q : Post σ) : Outcome σ → Prop
  | .next ctx => q.next ctx
  | .stop ctx => q.stop ctx
  | .fail ctx => q.fail ctx

def Triple (p : Ctx σ → Prop) (c : Code σ) (q : Post σ) : Prop := ∀ ctx, p ctx → q.holds (exec c ctx)

section
variable {p r : Ctx σ → Prop} {q : Post σ} {a b : Code σ}

end

def Ends (c : Code σ) : Prop := ∀ ctx ctx', exec c ctx ≠ .next ctx'

theorem endsRet : Ends (.ret : Code σ) := by
  intro ctx ctx' h
  cases h

theorem endsSecond {a b : Code σ} (h : Ends b) : Ends (.seq a b) := by
  intro ctx ctx' out
  rw [exec] at out
  cases first : exec a ctx with
  | next mid =>
    rw [first] at out
    exact h mid ctx' out
  | stop _ => rw [first] at out; cases out
  | fail _ => rw [first] at out; cases out

end ZeroServe.RouteProgram
