import ZeroServe.AcmeChallenge

/-! The certificates an ACME store keeps, and crashes while they are replaced. `save_cert` replaces `cert.pem` and
then `key.pem`, each atomically. Every stored file remembers the call it comes from. -/
namespace ZeroServe.Acme
open ByteText FileTree

structure SaveCall where
  domain : Bytes
  certPem : Bytes
  keyPem : Bytes
  done : Nat
  deriving DecidableEq

structure Stored where
  call : Nat
  pem : Bytes
  deriving DecidableEq

abbrev Files := Path → Option Stored

def Files.write (f : Files) (path : Path) (s : Stored) : Files :=
  fun p => if p = path then some s else f p

def certDir (root : Path) (domain : Bytes) : Path := root ++ [ascii "certs",dirName domain]
def certFile (root : Path) (domain : Bytes) : Path := certDir root domain ++ [ascii "cert.pem"]
def keyFile (root : Path) (domain : Bytes) : Path := certDir root domain ++ [ascii "key.pem"]

def replacements (root : Path) (c : SaveCall) : List (Path × Bytes) :=
  [(certFile root c.domain,c.certPem),(keyFile root c.domain,c.keyPem)]

def saveCert (root : Path) (call : Nat) (c : SaveCall) (f : Files) : Files :=
  ((replacements root c).take c.done).foldl (fun f r => f.write r.1 ⟨call,r.2⟩) f

def stored (root : Path) : List SaveCall → Files
  | [] => fun _ => none
  | c::older => saveCert root older.length c (stored root older)

def loadCert (root : Path) (f : Files) (domain : Bytes) : Option (Stored × Stored) := do
  let cert ← f (certFile root domain)
  let key ← f (keyFile root domain)
  some (cert,key)

/- `expires` is `cert_expires_within` for the renewal window; it fails on unreadable text. -/
def needsRenewal (root : Path) (expires : Bytes → Option Bool) (f : Files) (domain : Bytes) : Bool :=
  match loadCert root f domain with
  | none => true
  | some (cert,_) => (expires cert.pem).getD true

def newest (p : SaveCall → Bool) : List SaveCall → Option (Nat × SaveCall)
  | [] => none
  | c::older => if p c then some (older.length,c) else newest p older

def replacedCert (domain : Bytes) (c : SaveCall) : Bool :=
  dirName c.domain = dirName domain && decide (1 ≤ c.done)
def replacedKey (domain : Bytes) (c : SaveCall) : Bool :=
  dirName c.domain = dirName domain && decide (2 ≤ c.done)

theorem certFileInj {root d e} (h : certFile root d = certFile root e) : dirName d = dirName e := by
  simpa [certFile,certDir] using h

theorem keyFileInj {root d e} (h : keyFile root d = keyFile root e) : dirName d = dirName e := by
  simpa [keyFile,certDir] using h

variable (root : Path)

theorem certFileNeKeyFile (d e : Bytes) : certFile root d ≠ keyFile root e := by
  intro same
  have last := congrArg List.getLast? same
  simp only [certFile,keyFile,List.getLast?_concat] at last
  exact absurd last (by decide +kernel)

theorem saveCertCert (call : Nat) (c : SaveCall) (f : Files) (domain : Bytes) :
    saveCert root call c f (certFile root domain) =
      if replacedCert domain c then some ⟨call,c.certPem⟩ else f (certFile root domain) := by
  have apart := certFileNeKeyFile root domain c.domain
  have paths : certFile root domain = certFile root c.domain ↔ dirName c.domain = dirName domain :=
    ⟨fun h => (certFileInj h).symm,fun h => by simp [certFile,certDir,h]⟩
  unfold saveCert replacements replacedCert
  match c.done with
  | 0 => simp
  | 1 => simp [Files.write,paths]
  | n+2 => simp [Files.write,apart,paths]

theorem saveCertKey (call : Nat) (c : SaveCall) (f : Files) (domain : Bytes) :
    saveCert root call c f (keyFile root domain) =
      if replacedKey domain c then some ⟨call,c.keyPem⟩ else f (keyFile root domain) := by
  have apart := (certFileNeKeyFile root c.domain domain).symm
  have paths : keyFile root domain = keyFile root c.domain ↔ dirName c.domain = dirName domain :=
    ⟨fun h => (keyFileInj h).symm,fun h => by simp [keyFile,certDir,h]⟩
  unfold saveCert replacements replacedKey
  match c.done with
  | 0 => simp
  | 1 => simp [Files.write,apart]
  | n+2 => simp [Files.write,apart,paths]

variable (domain : Bytes)

theorem storedCert (history : List SaveCall) :
    stored root history (certFile root domain) =
      (newest (replacedCert domain) history).map (fun r => ⟨r.1,r.2.certPem⟩) := by
  induction history with
  | nil => rfl
  | cons c older ih =>
    rw [stored,saveCertCert,newest,ih]
    split <;> rfl

theorem storedKey (history : List SaveCall) : stored root history (keyFile root domain) =
      (newest (replacedKey domain) history).map (fun r => ⟨r.1,r.2.keyPem⟩) := by
  induction history with
  | nil => rfl
  | cons c older ih =>
    rw [stored,saveCertKey,newest,ih]
    split <;> rfl

theorem newestHolds {p : SaveCall → Bool} {history i} {c} (h : newest p history = some (i,c)) :
    p c = true ∧ history.reverse[i]? = some c := by
  induction history with
  | nil => cases h
  | cons d older ih =>
    unfold newest at h
    split at h
    · rename_i here
      cases h
      exact ⟨here,by simp⟩
    · obtain ⟨holds,place⟩ := ih h
      refine ⟨holds,?_⟩
      rw [List.reverse_cons,List.getElem?_append_left]
      · exact place
      · exact (List.getElem?_eq_some_iff.mp place).1

theorem newestBoth {domain history i} {c} (h : newest (replacedCert domain) history = some (i,c)) (whole : 2 ≤ c.done) :
    newest (replacedKey domain) history = some (i,c) := by
  induction history with
  | nil => cases h
  | cons d older ih =>
    unfold newest at h ⊢
    split at h
    · rename_i here
      cases h
      simp only [replacedCert,Bool.and_eq_true] at here
      rw [if_pos (by simp only [replacedKey,here.1,whole,decide_true,Bool.and_self])]
    · rename_i other
      rw [if_neg (by
        intro key
        simp only [replacedKey,replacedCert,Bool.and_eq_true,decide_eq_true_eq] at key other
        exact other ⟨key.1,by omega⟩)]
      exact ih h

theorem loadStored (history : List SaveCall) :
    loadCert root (stored root history) domain = (newest (replacedCert domain) history).bind (fun r =>
        (newest (replacedKey domain) history).map (fun k =>
          (⟨r.1,r.2.certPem⟩,⟨k.1,k.2.keyPem⟩))) := by
  rw [loadCert,storedCert,storedKey]
  cases newest (replacedCert domain) history with
  | none => rfl
  | some r => cases newest (replacedKey domain) history <;> rfl

def KeptTogether (root : Path) (expires : Bytes → Option Bool) (accepts : Bytes → Bytes → Bool)
    (f : Files) (domain : Bytes) : Prop :=
  needsRenewal root expires f domain = false →
    ∃ cert key, loadCert root f domain = some (cert,key) ∧ cert.call = key.call ∧
      accepts cert.pem key.pem = true

/- The newest call that replaced the certificate was not cut before the key, unless there
is no key at all or the certificate asks to be renewed anyway. -/
def NotTorn (expires : Bytes → Option Bool) (history : List SaveCall) (domain : Bytes) : Prop :=
  ∀ i c, newest (replacedCert domain) history = some (i,c) → expires c.certPem = some false →
    2 ≤ c.done ∨ newest (replacedKey domain) history = none

theorem storedTogetherExact (root : Path) (expires : Bytes → Option Bool)
    {accepts : Bytes → Bytes → Bool} {history : List SaveCall}
    (own : ∀ c ∈ history, accepts c.certPem c.keyPem = true) (domain : Bytes) :
    KeptTogether root expires accepts (stored root history) domain ↔ NotTorn expires history domain := by
  unfold KeptTogether NotTorn needsRenewal
  rw [loadStored]
  cases certs : newest (replacedCert domain) history with
  | none => simp
  | some r =>
    obtain ⟨i,c⟩ := r
    cases keys : newest (replacedKey domain) history with
    | none => simp
    | some k =>
      obtain ⟨j,k⟩ := k
      simp only [Option.bind_some,Option.map_some,Option.some.injEq,Prod.mk.injEq, reduceCtorEq,or_false]
      constructor
      · rintro kept i' c' ⟨rfl,rfl⟩ lasting
        obtain ⟨cert,key,⟨rfl,rfl⟩,same,_⟩ := kept (by rw [lasting]; rfl)
        -- one index in the history, so one call
        have place := (newestHolds keys).2
        rw [← show i = j from same,(newestHolds certs).2] at place
        cases Option.some.inj place
        have whole := (newestHolds keys).1
        simp only [replacedKey,Bool.and_eq_true,decide_eq_true_eq] at whole
        exact whole.2
      · intro whole fresh
        have lasting : expires c.certPem = some false := by
          cases found : expires c.certPem with
          | none => rw [found] at fresh; cases fresh
          | some b => rw [found] at fresh; exact congrArg some fresh
        have both := newestBoth certs (whole i c ⟨rfl,rfl⟩ lasting)
        rw [keys] at both
        cases Option.some.inj both
        refine ⟨_,_,⟨rfl,rfl⟩,rfl,own c ?_⟩
        exact List.mem_reverse.mp (List.mem_of_getElem? (newestHolds certs).2)

def firstCall : SaveCall := ⟨ascii "a.example",ascii "cert 1",ascii "key 1",2⟩
def secondCall (done : Nat) : SaveCall := ⟨ascii "a.example",ascii "cert 2",ascii "key 2",done⟩

def samePair (cert key : Bytes) : Bool := cert.getLast? == key.getLast?

theorem renewedTogether : KeptTogether [] (fun _ => some false) samePair (stored [] [secondCall 2,firstCall])
      (ascii "a.example") := by
  refine (storedTogetherExact [] (fun _ => some false) ?_ (ascii "a.example")).mpr ?_
  · decide +kernel
  · intro i c found _
    have newer : newest (replacedCert (ascii "a.example")) [secondCall 2,firstCall] =
        some (1,secondCall 2) := by decide +kernel
    rw [newer] at found
    cases Option.some.inj found
    exact Or.inl (by decide)

theorem tornRenewalKept :
    needsRenewal [] (fun _ => some false) (stored [] [secondCall 1,firstCall]) (ascii "a.example") =
      false ∧ loadCert [] (stored [] [secondCall 1,firstCall]) (ascii "a.example") =
      some (⟨1,ascii "cert 2"⟩,⟨0,ascii "key 1"⟩) ∧
    ¬ KeptTogether [] (fun _ => some false) samePair (stored [] [secondCall 1,firstCall])
      (ascii "a.example") := by
  have loaded : loadCert [] (stored [] [secondCall 1,firstCall]) (ascii "a.example") =
      some (⟨1,ascii "cert 2"⟩,⟨0,ascii "key 1"⟩) := by decide +kernel
  have fresh : needsRenewal [] (fun _ => some false) (stored [] [secondCall 1,firstCall])
      (ascii "a.example") = false := by decide +kernel
  refine ⟨fresh,loaded,fun kept => ?_⟩
  obtain ⟨cert,key,found,same,_⟩ := kept fresh
  rw [loaded] at found
  cases Option.some.inj found
  cases same

end ZeroServe.Acme
