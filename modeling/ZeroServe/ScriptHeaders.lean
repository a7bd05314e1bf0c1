import ZeroServe.ScriptRequest
import ZeroServe.EventRun

/-! The two readings of a script's header edits: a call changes the maps the script sees at once and adds to a log,
which is replayed on the head later. -/
namespace ZeroServe.Script
open ByteText H1

def field (headers : HeaderMap) (name : HeaderName) : Option (List Bytes) :=
  match headers.getAll name with
  | [] => none
  | value::values => some ((value::values).map HeaderValue.bytes)

theorem fieldCongr {headers headers' name} (same : headers'.getAll name = headers.getAll name) :
    field headers' name = field headers name := by
  rw [field,field,same]

theorem fieldSome {headers name values} (are : headers.getAll name = values) (filled : values ≠ []) :
    field headers name = some (values.map HeaderValue.bytes) := by
  obtain ⟨value,later,shape⟩ := List.exists_cons_of_ne_nil filled
  rw [field,are,shape]

theorem fieldNone {headers name} : field headers name = none ↔ headers.getAll name = [] := by
  cases are : headers.getAll name with
  | nil => simp [field,are]
  | cons value later => simp [field,are]

variable (headers : HeaderMap) (name : HeaderName)

theorem fieldValues :
    (field headers name).getD [] = (headers.getAll name).map HeaderValue.bytes := by
  cases are : headers.getAll name with
  | nil => simp [field,are]
  | cons value later => simp [field,are]

variable (value : HeaderValue)

theorem fieldAppend :
    field (headers.append name value) name = some ((field headers name).getD [] ++ [value.bytes]) := by
  rw [fieldSome (FieldMap.getAllAppendSelf headers name value) (by simp),fieldValues]
  simp

theorem fromBytesName : HeaderName.fromBytes name.text = some name := by
  have valid : headerNameText (lower name.text) = true := by rw [nameLower]; exact name.valid
  rw [HeaderName.fromBytes,dif_pos valid]
  exact congrArg some (nameExt (nameLower name))

theorem fromBytesValue : HeaderValue.fromBytes value.bytes = some value :=
  dif_pos value.valid

theorem lookupRetained {β : Bytes → Type} (m : AList β) (keep : Bytes → Bool) (key : Bytes) :
    (retain m keep).lookup key = if keep key then m.lookup key else none := by
  ext b
  rw [← Option.mem_def,AList.mem_lookup_iff]
  simp only [retain]
  split
  · rename_i kept
    rw [← Option.mem_def,AList.mem_lookup_iff]
    simp [kept]
  · rename_i dropped
    simp [dropped]

theorem memRetained {β : Bytes → Type} (m : AList β) (keep : Bytes → Bool) (key : Bytes) :
    key ∈ retain m keep ↔ keep key = true ∧ key ∈ m := by
  rw [← AList.lookup_isSome,← AList.lookup_isSome,lookupRetained]
  split
  · rename_i kept
    simp [kept]
  · rename_i dropped
    simp [dropped]

structure Agrees (headers : HeaderMap) (strings : StringMap) (values : ValuesMap) : Prop where
  same : ∀ name, name ≠ .host → values.lookup name.text = field headers name
  keys : ∀ key, key ∈ strings ↔ key ∈ values
  names : ∀ key ∈ values, headerNameText key = true

section
variable {headers headers' : HeaderMap} {strings : StringMap} {values : ValuesMap} {name : HeaderName}

theorem agreesEmpty : Agrees .empty ∅ ∅ where
  same _ _ := rfl
  keys _ := Iff.rfl
  names key mem := absurd mem (AList.notMem_empty key)

theorem agreesWrite (agrees : Agrees headers strings values)
    (others : ∀ other, other ≠ name → headers'.getAll other = headers.getAll other) {list}
    (here : name ≠ .host → field headers' name = some list) (joined : Bytes) :
    Agrees headers' (strings.insert name.text joined) (values.insert name.text list) where
  same other notHost := by
    by_cases is : other = name
    · rw [is,AList.lookup_insert,here (is ▸ notHost)]
    · have apart : other.text ≠ name.text := fun text => is (nameExt text)
      rw [AList.lookup_insert_ne apart,agrees.same other notHost,fieldCongr (others other is)]
  keys key := by rw [AList.mem_insert,AList.mem_insert,agrees.keys]
  names key mem := by
    rcases (AList.mem_insert _).mp mem with same | old
    · rw [same]
      exact name.valid
    · exact agrees.names key old

theorem agreesErase (agrees : Agrees headers strings values) :
    Agrees (headers.remove name) (strings.erase name.text) (values.erase name.text) where
  same other notHost := by
    by_cases is : other = name
    · rw [is,AList.lookup_erase,eq_comm,fieldNone,FieldMap.getAllRemoveSelf]
    · have apart : other.text ≠ name.text := fun text => is (nameExt text)
      rw [AList.lookup_erase_ne apart,agrees.same other notHost, fieldCongr (FieldMap.getAllRemoveOther headers is)]
  keys key := by rw [AList.mem_erase,AList.mem_erase,agrees.keys]
  names key mem := agrees.names key (AList.mem_erase.mp mem).2

theorem agreesRetain (agrees : Agrees headers strings values) (drop : Bytes → Bool) :
    Agrees (headers.removeWhere fun name => drop name.text) (retain strings fun key => ! drop key)
      (retain values fun key => ! drop key) where
  same other notHost := by
    have kept := FieldMap.getAllRemoveWhere headers (fun name => drop name.text) other
    rw [lookupRetained]
    cases gone : drop other.text with
    | true =>
      rw [gone] at kept
      simp [fieldNone.mpr kept]
    | false =>
      rw [gone] at kept
      simp [agrees.same other notHost,fieldCongr kept]
  keys key := by rw [memRetained,memRetained,agrees.keys]
  names key mem := agrees.names key ((memRetained _ _ _).mp mem).2

end

def LogAgrees (original : HeaderMap) (s : ScriptRequest) : Prop :=
  Agrees (applyScriptRequest original s) s.headers s.headerValues

theorem logged {original : HeaderMap} {s : ScriptRequest} {more : List HeaderChange} {strings : StringMap}
    {values : ValuesMap}
    (agrees : Agrees (more.foldl applyHeaderChange (applyScriptRequest original s)) strings values) :
    LogAgrees original { s with headers := strings, headerValues := values,
                                headerChanges := s.headerChanges ++ more } := by
  rw [LogAgrees,applyScriptRequest,List.foldl_append]
  exact agrees

theorem acceptedName {text} (accepted : HeaderName.fromBytes (lower text) ≠ none) :
    ∃ name : HeaderName, lower text = name.text := by
  obtain ⟨name,read⟩ := Option.ne_none_iff_exists'.mp accepted
  exact ⟨name,by rw [fromBytesText read,lowerIdem]⟩

theorem acceptedValue {text} (accepted : HeaderValue.fromBytes text ≠ none) :
    ∃ value : HeaderValue, text = value.bytes := by
  obtain ⟨value,read⟩ := Option.ne_none_iff_exists'.mp accepted
  exact ⟨value,(valueFromBytes read).symm⟩

theorem applySet :
    applyHeaderChange headers (.set name.text value.bytes) = headers.insert name value := by
  simp only [applyHeaderChange,fromBytesName,fromBytesValue]

theorem applyAppend :
    applyHeaderChange headers (.append name.text value.bytes) = headers.append name value := by
  simp only [applyHeaderChange,fromBytesName,fromBytesValue]

theorem applyRemove :
    applyHeaderChange headers (.remove name.text) = headers.remove name := by
  simp only [applyHeaderChange,fromBytesName]

variable (values : List HeaderValue)

theorem applyAppends :
    ((values.map HeaderValue.bytes).map (.append name.text)).foldl applyHeaderChange headers =
      values.foldl (fun headers value => headers.append name value) headers := by
  induction values generalizing headers with
  | nil => rfl
  | cons value later ih => rw [List.map_cons,List.map_cons,List.foldl_cons,List.foldl_cons,applyAppend,ih]

theorem appendsSelf :
    (values.foldl (fun headers value => headers.append name value) headers).getAll name =
      headers.getAll name ++ values := by
  induction values generalizing headers with
  | nil => simp
  | cons value later ih => rw [List.foldl_cons,ih]; simp

theorem appendsOther {name other} (apart : other ≠ name) (values : List HeaderValue) :
    (values.foldl (fun headers value => headers.append name value) headers).getAll other =
      headers.getAll other := by
  induction values generalizing headers with
  | nil => rfl
  | cons value later ih => rw [List.foldl_cons,ih,FieldMap.getAllAppendOther headers value apart]

section
variable {original : HeaderMap} {s s' : ScriptRequest}

theorem setHeaderAgrees {name : Bytes} {value : Option Bytes} (agrees : LogAgrees original s)
    (call : s.setHeader name value = some s') : LogAgrees original s' := by
  unfold ScriptRequest.setHeader at call
  dsimp only at call
  split at call
  · contradiction
  · split at call
    · contradiction
    · rename_i accepted
      obtain ⟨key,same⟩ := acceptedName accepted
      rw [same] at call
      split at call
      · split at call
        · contradiction
        · rename_i text valid
          obtain ⟨v,rfl⟩ := acceptedValue valid
          cases call
          apply logged
          rw [List.foldl_cons,applySet]
          refine agreesWrite agrees (fun other apart => FieldMap.getAllInsertOther _ v apart) (fun _ => ?_) v.bytes
          exact fieldSome (FieldMap.getAllInsertSelf _ key v) (by simp)
      · cases call
        apply logged
        rw [List.foldl_cons,applyRemove]
        exact agreesErase agrees

theorem appendHeaderAgrees {name value : Bytes} (agrees : LogAgrees original s)
    (call : s.appendHeader name value = some s') : LogAgrees original s' := by
  unfold ScriptRequest.appendHeader at call
  dsimp only at call
  split at call
  · contradiction
  · split at call
    · contradiction
    · rename_i accepted
      simp only [Bool.or_eq_true,decide_eq_true_eq,not_or] at accepted
      obtain ⟨key,same⟩ := acceptedName accepted.1
      obtain ⟨v,rfl⟩ := acceptedValue accepted.2
      rw [same] at call
      split at call
      · rename_i host
        have isHost : key = .host := nameExt host
        cases call
        apply logged
        rw [List.foldl_cons,applySet]
        exact agreesWrite agrees (fun other apart => FieldMap.getAllInsertOther _ v apart)
          (fun notHost => absurd isHost notHost) v.bytes
      · cases call
        apply logged
        rw [List.foldl_cons,applyAppend]
        refine agreesWrite agrees (fun other apart => FieldMap.getAllAppendOther _ v apart) (fun notHost => ?_) _
        rw [fieldAppend,agrees.same key notHost]

theorem deleteHeaderPatternAgrees {pattern : Bytes} (agrees : LogAgrees original s)
    (call : s.deleteHeaderPattern pattern = some s') : LogAgrees original s' := by
  unfold ScriptRequest.deleteHeaderPattern at call
  dsimp only at call
  split at call
  · contradiction
  · split at call
    · cases call
      exact logged agreesEmpty
    · cases call
      exact logged (agreesRetain agrees fun key => headerPatternMatches key (lower (strTrim pattern)))

theorem keptValues (values : List Bytes) : ∃ kept : List HeaderValue,
      values.filter (fun value => HeaderValue.fromBytes value != none) = kept.map HeaderValue.bytes := by
  induction values with
  | nil => exact ⟨[],rfl⟩
  | cons text later ih =>
    obtain ⟨kept,are⟩ := ih
    rw [List.filter_cons,are]
    split
    · rename_i valid
      obtain ⟨v,same⟩ := acceptedValue (by simpa using valid)
      exact ⟨v::kept,by rw [same,List.map_cons]⟩
    · exact ⟨kept,rfl⟩

theorem replaceTargetAgrees (rewrite : Bytes → Bytes) {target : Bytes} (agrees : LogAgrees original s)
    (valid : headerNameText target = true) : LogAgrees original (s.replaceTarget rewrite target) := by
  obtain ⟨key,rfl⟩ : ∃ key : HeaderName, target = key.text := ⟨⟨target,valid⟩,rfl⟩
  unfold ScriptRequest.replaceTarget
  split
  · exact agrees
  · rename_i old _
    obtain ⟨kept,are⟩ := keptValues (old.map rewrite)
    dsimp only
    rw [are]
    split
    · exact agrees
    · rename_i last found
      have filled : kept ≠ [] := by
        rintro rfl
        cases found
      split
      · rename_i host
        have isHost : key = .host := nameExt host
        obtain ⟨v,_,rfl⟩ := List.mem_map.mp (List.mem_of_getLast? found)
        apply logged
        rw [List.foldl_cons,applySet]
        exact agreesWrite agrees (fun other apart => FieldMap.getAllInsertOther _ v apart)
          (fun notHost => absurd isHost notHost) v.bytes
      · apply logged
        rw [List.foldl_cons,applyRemove,applyAppends]
        refine agreesWrite agrees (fun other apart => ?_) (fun _ => ?_) _
        · rw [appendsOther _ apart,FieldMap.getAllRemoveOther _ apart]
        · refine fieldSome ?_ filled
          rw [appendsSelf,FieldMap.getAllRemoveSelf,List.nil_append]

theorem replaceTargetsAgree (rewrite : Bytes → Bytes) {targets : List Bytes} (agrees : LogAgrees original s)
    (valid : ∀ target ∈ targets, headerNameText target = true) :
    LogAgrees original (targets.foldl (ScriptRequest.replaceTarget rewrite) s) := by
  induction targets generalizing s with
  | nil => exact agrees
  | cons target later ih =>
    obtain ⟨here,rest⟩ := List.forall_mem_cons.mp valid
    exact ih (replaceTargetAgrees rewrite agrees here) rest

theorem replaceWithAgrees {name : Bytes} {rewrite : Bytes → Bytes} (agrees : LogAgrees original s)
    (call : s.replaceWith name rewrite = some s') : LogAgrees original s' := by
  have valid : ∀ target ∈ s.headers.keys, headerNameText target = true := fun target mem =>
    agrees.names target ((agrees.keys target).mp (AList.mem_keys.mpr mem))
  unfold ScriptRequest.replaceWith at call
  dsimp only at call
  split at call
  · contradiction
  · split at call
    · cases call
      exact replaceTargetsAgree rewrite agrees valid
    · split at call
      · contradiction
      · cases call
        exact replaceTargetsAgree rewrite agrees fun target mem => valid target (List.mem_of_mem_filter mem)

end

inductive HeaderCall where
  | setHeader (name : Bytes) (value : Option Bytes)
  | appendHeader (name value : Bytes)
  | deleteHeaderPattern (pattern : Bytes)
  | replaceHeader (name search replacement : Bytes)
  | replaceHeaderRegex (name : Bytes) (replaceAll : Bytes → Bytes)

def HeaderCall.result (s : ScriptRequest) : HeaderCall → Option ScriptRequest
  | setHeader name value => s.setHeader name value
  | appendHeader name value => s.appendHeader name value
  | deleteHeaderPattern pattern => s.deleteHeaderPattern pattern
  | replaceHeader name search replacement => s.replaceHeader name search replacement
  | replaceHeaderRegex name replaceAll => s.replaceHeaderRegex name replaceAll

def headerStep (s : ScriptRequest) (call : HeaderCall) : ScriptRequest := (call.result s).getD s

theorem headerStepAgrees {original} (s : ScriptRequest) (call : HeaderCall) (agrees : LogAgrees original s) :
    LogAgrees original (headerStep s call) := by
  cases done : call.result s with
  | none => rwa [headerStep,done]
  | some s' =>
    rw [headerStep,done]
    cases call with
    | setHeader name value => exact setHeaderAgrees agrees done
    | appendHeader name value => exact appendHeaderAgrees agrees done
    | deleteHeaderPattern pattern => exact deleteHeaderPatternAgrees agrees done
    | replaceHeader name search replacement => exact replaceWithAgrees agrees done
    | replaceHeaderRegex name replaceAll => exact replaceWithAgrees agrees done

theorem builtAgrees {fields} (before : HeaderMap) (maps : StringMap × ValuesMap)
    (visible : ∀ f ∈ fields, f.2.bytes.all visibleByte = true) (agrees : Agrees before maps.1 maps.2) :
    Agrees ⟨before.pairs ++ fields⟩ (fields.foldl addHeader maps).1 (fields.foldl addHeader maps).2 := by
  induction fields generalizing before maps with
  | nil => simpa using agrees
  | cons f later ih =>
    obtain ⟨here,rest⟩ := List.forall_mem_cons.mp visible
    have read : f.2.toStr = some f.2.bytes := if_pos here
    have next : Agrees (before.append f.1 f.2) (addHeader maps f).1 (addHeader maps f).2 := by
      simp only [addHeader,read,nameLower]
      refine agreesWrite agrees (fun other apart => FieldMap.getAllAppendOther _ f.2 apart) (fun notHost => ?_) _
      rw [fieldAppend,agrees.same f.1 notHost]
    have whole : before.pairs ++ f::later = (before.append f.1 f.2).pairs ++ later := by
      simp [FieldMap.append]
    rw [whole]
    exact ih _ _ rest next

theorem scriptViewReplayed (parseForm : Bytes → List (Bytes × Bytes)) (lossy : Bytes → Bytes)
    (headers : HeaderMap) (query : Option Bytes) (path : RequestPath.NormalizedPath)
    (visible : ∀ f ∈ headers.pairs, f.2.bytes.all visibleByte = true) (calls : List HeaderCall)
    (name : HeaderName) (notHost : name ≠ .host) :
    let s := EventRun.run headerStep (buildScriptRequest parseForm lossy headers query path) calls
    let replayed := applyScriptRequest headers s
    (s.headerValues.lookup name.text).getD [] = (replayed.getAll name).map HeaderValue.bytes ∧
    (s.headerValues.lookup name.text = none ↔ replayed.getAll name = []) := by
  have start : LogAgrees headers (buildScriptRequest parseForm lossy headers query path) :=
    builtAgrees .empty (∅,∅) visible agreesEmpty
  have agrees := EventRun.runKeeps headerStepAgrees start calls
  dsimp only
  rw [agrees.same name notHost]
  exact ⟨fieldValues _ name,fieldNone⟩

def twoValues : HeaderMap :=
  ⟨[(.ofAscii "x-a",.ofAscii "1"),(.ofAscii "x-b",.ofAscii "b"),(.ofAscii "x-a",.ofAscii "2")]⟩

def threeCalls : List HeaderCall :=
  [.replaceHeader (ascii "X-A") (ascii "1") (ascii "3"),.deleteHeaderPattern (ascii "*-b"),
   .appendHeader (ascii "x-a") (ascii "4")]

theorem threeCallsSeen : ((applyScriptRequest twoValues (EventRun.run headerStep
      (buildScriptRequest (fun _ => []) id twoValues none ⟨[],[],true⟩) threeCalls)).getAll
      (.ofAscii "x-a")).map HeaderValue.bytes = [ascii "3",ascii "2",ascii "4"] := by
  have seen := scriptViewReplayed (fun _ => []) id twoValues none ⟨[],[],true⟩ (by decide +kernel) threeCalls
    (.ofAscii "x-a") (by decide)
  rw [← seen.1]
  decide +kernel

end ZeroServe.Script
