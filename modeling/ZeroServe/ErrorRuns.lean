import ZeroServe.ErrorRoutes

/-! Errors in generated middleware: once an error handler has run, only error routes run. -/
namespace ZeroServe.ErrorRuns
open ByteText
open RouteProgram
open RouteGenerator
open RouteModes
open ErrorRoutes

variable {σ : Type} {g : Generator σ} {code : Code σ}

/- Every error so far has been left unanswered. -/
def Left (trace : List Event) : Prop :=
  ∀ before n after, trace = before ++ Event.error n::after → Event.unanswered ∈ after

def Quiet (ctx : Ctx σ) : Prop := ctx.response = none ∧ Left ctx.trace

section
open Mode

variable {status : Status σ} {server : Server σ}

end

def page (status : Nat) (body : Bytes) : Handler Unit :=
  .action ⟨fun _ core => .ended core (.fixed status body),true,nofun,nofun⟩

def plainRoute (handlers : List (Handler Unit)) : Route Unit (Handler Unit) :=
  ⟨none,handlers,false,none,none⟩

def deniedSite : Handler Unit :=
  .subroute [plainRoute [.error (.literal 403)],plainRoute [page 200 (ascii "secret")]] []

def site (errorRoutes : Routes Unit) : Server Unit :=
  ⟨[⟨none,[deniedSite],true,none,none⟩],errorRoutes,fun _ => none,0,fun _ => none⟩

end ZeroServe.ErrorRuns
