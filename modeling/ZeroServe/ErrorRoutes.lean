import ZeroServe.RouteModes

/-! The code of error routes: it runs nothing but error routes. Terminal handlers never go on. -/
namespace ZeroServe.ErrorRoutes
open ByteText
open RouteProgram
open RouteGenerator
open RouteModes

variable {σ : Type} {g : Generator σ} {code : Code σ}

def Within (base : List Event) (ctx : Ctx σ) : Prop :=
  ∃ extra, ctx.trace = base ++ extra ∧ ∀ e ∈ extra, e.inErrorRoute = true

section
variable {base : List Event}
open Mode

end

theorem actionEnds {a : Action σ} {inErrorRoute : Bool} (terminal : a.terminal = true) {p f : Code σ} :
    Ends (.attempt inErrorRoute (a.run inErrorRoute) p f) := by
  intro ctx ctx' out
  rw [exec] at out
  cases step : a.run inErrorRoute ctx.core with
  | passed core => exact a.ends terminal _ _ _ step
  | ended core answer => rw [step] at out; cases out
  | failed core => exact a.noFailure _ _ _ step
  | crashed => rw [step] at out; cases out

theorem errorEnds {fuel} {status : Status σ}
    (h : emitStaticError fuel g status = some (code,true)) : Ends code := by
  cases fuel with
  | zero => cases h
  | succ fuel =>
    rw [emitStaticError] at h
    split at h
    · cases h
    · split at h
      · cases h
        exact endsSecond (endsSecond endsRet)
      · simp only [bind,Option.bind_eq_some_iff] at h
        obtain ⟨routes,_,h⟩ := h
        split at h
        · cases h
        · cases h
          exact endsSecond (endsSecond (endsSecond endsRet))

theorem fileServerEnds {fuel} {f : FileServer σ}
    (h : emitFileServer fuel g f = some (code,true)) : Ends code := by
  cases fuel with
  | zero => cases h
  | succ fuel =>
    simp only [emitFileServer,bind,Option.bind_eq_some_iff] at h
    obtain ⟨answer,_,h⟩ := h
    split at h
    · cases h
    · split at h
      · cases h
        exact endsSecond (endsSecond endsRet)
      · cases h
        exact endsSecond endsRet

theorem handlerEnds {fuel} {handler : Handler σ}
    (h : emitHandler fuel g handler = some (code,true)) : Ends code := by
  cases fuel with
  | zero => cases h
  | succ fuel =>
    cases handler with
    | action a =>
      simp only [emitHandler,bind,Option.bind_some,Option.some.injEq,Prod.mk.injEq] at h
      obtain ⟨rfl,terminal⟩ := h
      exact endsSecond (actionEnds terminal)
    | error status =>
      simp only [emitHandler,bind,Option.bind_eq_some_iff] at h
      obtain ⟨⟨body,terminal⟩,emitted,same⟩ := h
      cases same
      exact endsSecond (errorEnds emitted)
    | fileServer f =>
      simp only [emitHandler,bind,Option.bind_eq_some_iff] at h
      obtain ⟨⟨body,terminal⟩,emitted,same⟩ := h
      cases same
      exact endsSecond (fileServerEnds emitted)
    | authentication check =>
      simp only [emitHandler,bind,Option.bind_eq_some_iff] at h
      obtain ⟨⟨body,terminal⟩,emitted,same⟩ := h
      cases same
      cases fuel with
      | zero => cases emitted
      | succ fuel =>
        simp only [emitAuthentication,bind,Option.bind_eq_some_iff] at emitted
        obtain ⟨_,_,emitted⟩ := emitted
        cases check <;> cases emitted
    | zeroserveCall run =>
      simp only [emitHandler,bind,Option.bind_eq_some_iff] at h
      obtain ⟨⟨body,terminal⟩,emitted,same⟩ := h
      cases same
      cases fuel with
      | zero => cases emitted
      | succ fuel =>
        simp only [emitZeroserveCall,bind,Option.bind_eq_some_iff] at emitted
        obtain ⟨_,_,emitted⟩ := emitted
        cases emitted
    | subroute routes errors =>
      simp only [emitHandler,bind,Option.bind_eq_some_iff,Option.bind_some] at h
      obtain ⟨_,_,_,_,same⟩ := h
      cases same
    | invoke name =>
      simp only [emitHandler,bind,Option.bind_eq_some_iff,Option.bind_some] at h
      obtain ⟨_,_,same⟩ := h
      cases same

theorem handlersEnd {fuel} {handlers : List (Handler σ)}
    (h : emitHandlers fuel g handlers = some (code,true)) : Ends code := by
  induction fuel generalizing handlers code with
  | zero => cases h
  | succ fuel ih =>
    cases handlers with
    | nil => cases h
    | cons handler later =>
      simp only [emitHandlers,bind,Option.bind_eq_some_iff] at h
      obtain ⟨⟨first,terminal⟩,emitted,h⟩ := h
      split at h
      · rename_i last
        cases h
        have last : terminal = true := last
        exact handlerEnds (last ▸ emitted)
      · obtain ⟨⟨more,_⟩,rest,same⟩ := Option.bind_eq_some_iff.mp h
        cases same
        exact endsSecond (ih rest)

end ZeroServe.ErrorRoutes
