import ZeroServe.AcmeChallenge

/-! The challenges of one order: put into the map of this process and published as files, whatever the outcomes of
the operations in between. -/
namespace ZeroServe.Acme
open ByteText

/- How the steps for one authorization end. `written` is the atomic write of the file, which leaves none if it fails,
and `removed` the removal of the file. -/
structure Authorization (Ctx : Type) where
  challenge : Option Bytes
  ctx : Option Ctx
  written : Bool
  signaled : Bool
  valid : Bool
  removed : Bool

/- `inserted` has the identifiers of the challenges put into the map, `unremoved` the files whose removal failed. -/
structure Provision (Ctx : Type) where
  certs : SharedCerts Ctx
  files : List Bytes
  inserted : List Bytes
  unremoved : List Bytes

variable {Ctx : Type}

def Provision.insert (s : Provision Ctx) (identifier : Bytes) (ctx : Ctx) : Provision Ctx :=
  { s with certs := s.certs.insertChallenge identifier ctx, inserted := identifier::s.inserted }

def Provision.publish (s : Provision Ctx) (identifier : Bytes) : Provision Ctx :=
  { s with files := challengeFileName identifier::s.files }

def Provision.remove (s : Provision Ctx) (identifier : Bytes) (ok : Bool) : Provision Ctx :=
  let name := challengeFileName identifier
  { s with
    certs := s.certs.removeChallenge identifier
    files := if ok then s.files.filter (· ≠ name) else s.files
    unremoved := if ok then s.unremoved else name::s.unremoved }

def authorize : List (Authorization Ctx) → Provision Ctx → Bool × Provision Ctx
  | [],s => (true,s)
  | a::later,s =>
    match a.challenge,a.ctx with
    | some identifier,some ctx =>
      let s := s.insert identifier ctx
      if ! a.written then (false,s) else
      let s := (s.publish identifier).remove identifier a.removed
      if a.signaled && a.valid then authorize later s else (false,s)
    | _,_ => (false,s)

/- `order` is none if the lock, the renewal check or the order ends the function; `issued` is what comes after the
authorizations. -/
def provisionDomain (order : Option (List (Authorization Ctx))) (issued : Bool) (s : Provision Ctx) :
    Bool × Provision Ctx :=
  match order with
  | none => (false,s)
  | some authorizations =>
    let done := authorize authorizations s
    (done.1 && issued,done.2)

def Provision.Cleared (s : Provision Ctx) : Prop := ∀ id ∈ s.inserted, s.certs.challenges (lower id) = none

/- Every file that was not there before is one whose removal failed. -/
def Provision.Tidy (files : List Bytes) (s : Provision Ctx) : Prop := ∀ f ∈ s.files, f ∈ files ∨ f ∈ s.unremoved

/- The writes the loop comes to succeed. -/
def Published : List (Authorization Ctx) → Prop
  | [] => True
  | a::later => a.challenge.isSome → a.ctx.isSome →
    a.written = true ∧ (a.signaled = true → a.valid = true → Published later)

variable {s : Provision Ctx} {files : List Bytes}

theorem removeTidy (tidy : s.Tidy files) (identifier : Bytes) (ok : Bool) :
    ((s.publish identifier).remove identifier ok).Tidy files := by
  intro f there
  cases ok with
  | true =>
    simp only [Provision.remove,Provision.publish,if_true,List.mem_filter,List.mem_cons,decide_eq_true_eq] at there
    exact tidy f (there.1.resolve_left there.2)
  | false =>
    rcases List.mem_cons.mp there with rfl | old
    · exact .inr List.mem_cons_self
    · exact (tidy f old).imp_right (List.mem_cons_of_mem _)

theorem removeCleared (cleared : s.Cleared) (identifier : Bytes) (ctx : Ctx) (ok : Bool) :
    (((s.insert identifier ctx).publish identifier).remove identifier ok).Cleared := by
  intro id mem
  by_cases same : lower id = lower identifier
  · simp [Provision.remove,SharedCerts.removeChallenge,same]
  · rcases List.mem_cons.mp mem with rfl | old
    · exact absurd rfl same
    · simpa [Provision.remove,Provision.publish,Provision.insert,SharedCerts.removeChallenge,SharedCerts.insertChallenge,
        same] using cleared id old

theorem authorizeEnds (authorizations : List (Authorization Ctx)) (cleared : s.Cleared) (tidy : s.Tidy files) :
    ((authorize authorizations s).2.Cleared ↔ Published authorizations) ∧ (authorize authorizations s).2.Tidy files := by
  induction authorizations generalizing s with
  | nil => exact ⟨iff_of_true cleared trivial,tidy⟩
  | cons a later ih =>
    obtain ⟨challenge,ctx,written,signaled,valid,removed⟩ := a
    cases challenge with
    | none => exact ⟨iff_of_true cleared nofun,tidy⟩
    | some identifier =>
    cases ctx with
    | none => exact ⟨iff_of_true cleared fun _ => nofun,tidy⟩
    | some ctx =>
    cases written with
    | false =>
      -- the early return: the challenge that was just put in stays
      refine ⟨iff_of_false (fun clear => ?_) (fun all => nomatch (all rfl rfl).1),tidy⟩
      have here := clear identifier List.mem_cons_self
      simp [authorize,Provision.insert,SharedCerts.insertChallenge] at here
    | true =>
      have emptied := removeCleared cleared identifier ctx removed
      have neat := @removeTidy Ctx (s.insert identifier ctx) files tidy identifier removed
      have next := ih emptied neat
      cases signaled <;> cases valid <;> simp [authorize,Published,emptied,neat,next]

/- The challenges are gone from the map exactly if no write that is come to fails; the files are gone in any case,
those apart whose removal failed. -/
theorem challengesTornDown (order : Option (List (Authorization Ctx))) (issued : Bool) (s : Provision Ctx)
    (fresh : s.inserted = []) :
    ((provisionDomain order issued s).2.Cleared ↔ ∀ authorizations ∈ order, Published authorizations) ∧
    (provisionDomain order issued s).2.Tidy s.files := by
  have cleared : s.Cleared := by simp [Provision.Cleared,fresh]
  have tidy : s.Tidy s.files := fun f mem => .inl mem
  cases order with
  | none => exact ⟨iff_of_true cleared nofun,tidy⟩
  | some authorizations => simpa [provisionDomain] using authorizeEnds authorizations cleared tidy

def oneOrder (written : Bool) : Option (List (Authorization Unit)) :=
  some [⟨some (ascii "a.example"),some (),written,true,true,true⟩]

theorem oneOrderTornDown : (provisionDomain (oneOrder true) true ⟨emptyCerts,[],[],[]⟩).2.Cleared :=
  (challengesTornDown (oneOrder true) true ⟨emptyCerts,[],[],[]⟩ rfl).1.mpr (by simp [oneOrder,Published])

/- The file cannot be written, and the challenge stays in the map. -/
theorem unpublishedStays :
    (provisionDomain (oneOrder false) true ⟨emptyCerts,[],[],[]⟩).2.certs.challenges (ascii "a.example") = some () := by
  decide +kernel

end ZeroServe.Acme
