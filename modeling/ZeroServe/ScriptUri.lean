import ZeroServe.ScriptRequest
import ZeroServe.EventRun
import ZeroServe.PathNormal

/-! The fields a script reads that are derived from the request target: the normalised path and the parameters of the
query. Every call keeps them in step but the one that restores the original target. -/
namespace ZeroServe.Script
open ByteText RequestPath SiteFiles

section
variable (parseForm : Bytes → List (Bytes × Bytes)) (lossy : Bytes → Bytes)
variable (parseUri : Bytes → Option (Bytes × Option Bytes))

structure QueryInStep (s : ScriptRequest) : Prop where
  params : s.queryParams = parseQueryParams parseForm s.query
  values : s.queryParamValues = parseQueryParamValues parseForm s.query
  caddy : s.caddyQueryParams = (parseCaddyQueryParams lossy s.query).1
  valid : s.caddyQueryValid = (parseCaddyQueryParams lossy s.query).2

structure InStep (s : ScriptRequest) : Prop where
  path : s.normalizedPath = derivedPath s.path
  query : QueryInStep parseForm lossy s

inductive TargetCall where
  | setUri (uri : Bytes)
  | setQuery (query : Bytes)
  | setPath (path : Bytes)
  | restoreOriginalUri
  deriving DecidableEq

def targetStep (s : ScriptRequest) : TargetCall → ScriptRequest
  | .setUri uri => (s.setUri parseForm lossy parseUri uri).getD s
  | .setQuery query => s.setQuery parseForm lossy query
  | .setPath path => s.setPath path
  | .restoreOriginalUri => s.restoreOriginalUri parseForm lossy

/- The original target is restored while the current path has the same normalised form. -/
def Unmoved (s : ScriptRequest) : TargetCall → Prop
  | .restoreOriginalUri => derivedPath s.path = derivedPath s.originalPath
  | .setUri _ | .setQuery _ | .setPath _ => True

instance unmovedDecidable (s : ScriptRequest) : (call : TargetCall) → Decidable (Unmoved s call)
  | .restoreOriginalUri => inferInstanceAs (Decidable (_ = _))
  | .setUri _ | .setQuery _ | .setPath _ => isTrue trivial

variable {parseForm lossy parseUri}

theorem withQueryInStep (s : ScriptRequest) (query : Bytes) :
    QueryInStep parseForm lossy (s.withQuery parseForm lossy query) := ⟨rfl,rfl,rfl,rfl⟩

theorem setUriInStep {s s' : ScriptRequest} {uri : Bytes}
    (call : s.setUri parseForm lossy parseUri uri = some s') : InStep parseForm lossy s' := by
  unfold ScriptRequest.setUri at call
  dsimp only at call
  split at call
  · contradiction
  · obtain ⟨⟨path,query⟩,_,last⟩ := Option.map_eq_some_iff.mp call
    cases last
    exact ⟨rfl,withQueryInStep _ query⟩

theorem restoreInStep {s} (inStep : InStep parseForm lossy s) :
    InStep parseForm lossy (s.restoreOriginalUri parseForm lossy) ↔
      derivedPath s.path = derivedPath s.originalPath := by
  have query : QueryInStep parseForm lossy (s.restoreOriginalUri parseForm lossy) := ⟨rfl,rfl,rfl,rfl⟩
  constructor
  · intro restored
    rw [← inStep.path]
    exact restored.path
  · intro unmoved
    exact ⟨inStep.path.trans unmoved,query⟩

theorem targetStepInStep (s : ScriptRequest) (call : TargetCall) (inStep : InStep parseForm lossy s)
    (unmoved : Unmoved s call) : InStep parseForm lossy (targetStep parseForm lossy parseUri s call) := by
  cases call with
  | setUri uri =>
    cases done : s.setUri parseForm lossy parseUri uri with
    | none => rwa [targetStep,done]
    | some s' =>
      rw [targetStep,done]
      exact setUriInStep done
  | setQuery query => exact ⟨inStep.path,withQueryInStep _ query⟩
  | setPath path => exact ⟨rfl,⟨inStep.query.params,inStep.query.values,inStep.query.caddy,inStep.query.valid⟩⟩
  | restoreOriginalUri => exact (restoreInStep inStep).mpr unmoved

end

theorem derivedAgain {raw n} (h : normalizeRequestPath raw = some n) :
    derivedPath n.encodedPathWithDirHint = n.relative := by
  obtain ⟨hint,again⟩ := normalizedAgain h
  rw [derivedPath,again]

theorem builtInStep (parseForm : Bytes → List (Bytes × Bytes)) (lossy : Bytes → Bytes) (headers : H1.HeaderMap)
    (query : Option Bytes) {raw n} (normal : normalizeRequestPath raw = some n) :
    InStep parseForm lossy (buildScriptRequest parseForm lossy headers query n) :=
  ⟨(derivedAgain normal).symm,⟨rfl,rfl,rfl,rfl⟩⟩

section
variable (parseForm : Bytes → List (Bytes × Bytes)) (lossy : Bytes → Bytes)
variable (parseUri : Bytes → Option (Bytes × Option Bytes))

/- In a run that restores the original target only while the path has the same normalised
form, the derived fields are in step in every state, and one more restore keeps them so
exactly under the same condition. -/
theorem targetFieldsInStep (headers : H1.HeaderMap) (query : Option Bytes) {raw : Bytes} {n : NormalizedPath}
    (normal : normalizeRequestPath raw = some n) (calls : List TargetCall)
    (guarded : EventRun.Guarded (targetStep parseForm lossy parseUri) Unmoved
      (buildScriptRequest parseForm lossy headers query n) calls) :
    let s := EventRun.run (targetStep parseForm lossy parseUri)
      (buildScriptRequest parseForm lossy headers query n) calls
    InStep parseForm lossy s ∧
    (InStep parseForm lossy (s.restoreOriginalUri parseForm lossy) ↔
      derivedPath s.path = derivedPath s.originalPath) := by
  have inStep := EventRun.runInvariant targetStepInStep
    (builtInStep parseForm lossy headers query normal) guarded
  exact ⟨inStep,restoreInStep inStep⟩

end

def builtFrom (n : NormalizedPath) : ScriptRequest :=
  buildScriptRequest (fun _ => []) id .empty none n

theorem restoredUnmoved : InStep (fun _ => []) id (EventRun.run (targetStep (fun _ => []) id (fun _ => none))
      (builtFrom ⟨ascii "a",ascii "a",false⟩) [.setPath (ascii "/x/../a"),.restoreOriginalUri]) := by
  have normal : normalizeRequestPath (ascii "/a") = some ⟨ascii "a",ascii "a",false⟩ := by decide +kernel
  exact (targetFieldsInStep (fun _ => []) id (fun _ => none) .empty none normal
    [.setPath (ascii "/x/../a"),.restoreOriginalUri] (by decide +kernel)).1

theorem restoredMoved : normalizeRequestPath (ascii "/a") = some ⟨ascii "a",ascii "a",false⟩ ∧
    (EventRun.run (targetStep (fun _ => []) id (fun _ => none)) (builtFrom ⟨ascii "a",ascii "a",false⟩)
      [.setPath (ascii "/b"),.restoreOriginalUri]).path = ascii "/a" ∧ derivedPath (ascii "/a") = ascii "a" ∧
    (EventRun.run (targetStep (fun _ => []) id (fun _ => none)) (builtFrom ⟨ascii "a",ascii "a",false⟩)
      [.setPath (ascii "/b"),.restoreOriginalUri]).normalizedPath = ascii "b" := by
  decide +kernel

end ZeroServe.Script
