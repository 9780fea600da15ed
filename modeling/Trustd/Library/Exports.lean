import Trustd.Client.Certificate
import Trustd.Client.Resolvers
import Trustd.Library.Results
import Trustd.Shared.Snapshot

/-
  The functions of the C interface.

  Each reads what it is lent, has the core do the work, and
  boxes what came of it. What the core does with the socket,
  the registry and the clock is a parameter; what it computes
  from its arguments alone is the core's own code.

  Key definitions include:
    * `Trustd.LibTrust.Core`
    * `Trustd.LibTrust.entry`

  Key theorems include:
    * `Trustd.LibTrust.replyResult_shared`
    * `Trustd.LibTrust.entry_checked`
-/

------------------------------------------------------------
-- The Core
------------------------------------------------------------

namespace Trustd

namespace LibTrust

open General Results

/- Work that is done in a world. -/
abbrev Work (σ ε α : Type) : Type :=
  σ → Except ε α × σ

/-
  What the library calls. `exchange` connects, sends the
  request and receives the whole reply, of a kind that was
  asked for; a system error it gives has a code that is not
  zero.
-/
structure Core (σ : Type) where
  exchange : Bytes → Nat → Wire.Request →
    Work σ IoError Wire.Reply
  exchange_code : ∀ path timeout request w e,
    (exchange path timeout request w).1 = .error e →
      e.rawOsError ≠ some 0
  exchange_expected : ∀ path timeout request w reply,
    (exchange path timeout request w).1 = .ok reply →
      Shared.expected request reply = true
  vet : Bytes → Work σ Cert.Error Cert.Parsed
  mayReload : σ → Bool × σ
  mayChange : Work σ ClientCore.Error Unit
  maySetCompat : Work σ ClientCore.Error Unit
  setCompat : UInt32 → Work σ ClientCore.Error Unit
  add : Text → Bytes → List Text →
    Work σ ClientCore.Error Cert.Parsed
  remove : Text → Work σ ClientCore.Error Unit
  distrusted :
    Work σ ClientCore.Error (List ClientCore.Distrusted)
  distrust : Text → Text →
    Work σ ClientCore.Error (Option Text)
  restore : Text → Work σ ClientCore.Error Text
  resolve : Text → Work σ ClientCore.Error Text

variable {σ ε α β : Type}

/- Work with its errors as the library passes them on. -/
def Work.failing
    (failure : ε → Failure)
    (x : Work σ ε α) :
    Work σ Failure α :=
  fun w => ((x w).1.mapError failure, (x w).2)

def Work.map
    (f : α → β)
    (x : Work σ ε α) :
    Work σ ε β :=
  fun w => ((x w).1.map f, (x w).2)

/- An outcome that takes no work. -/
def Work.done (outcome : Except ε α) : Work σ ε α :=
  fun w => (outcome, w)

/- The `?` of the inputs: the first refusal is the outcome. -/
def Work.checked
    (checked : Except IoError α)
    (work : α → Work σ Failure β) :
    Work σ Failure β :=
  match checked with
  | .ok args => work args
  | .error e => Work.done (.error { error := e })

/- `reply_result`. -/
def replyResult : Wire.Reply → Outcome
  | .ok => .ok .empty
  | .error message =>
      .error { error := Shared.otherError message }
  | .status status => .ok (.status status)
  | .roots generation roots _ =>
      .ok (.rootList generation roots)

/- The value a result of a reply holds. -/
def valueOf (handle : Shared.ResultHandle) : Value :=
  match handle.payload with
  | .empty => .empty
  | .status status => .status status
  | .rootList roots => .rootList handle.generation roots

/- Which is what the two client libraries make of it. -/
theorem replyResult_shared (reply : Wire.Reply) :
    replyResult reply =
      ((Shared.replyResult reply).map valueOf).mapError
        (fun e => { error := e }) := by
  cases reply <;> rfl

end LibTrust

end Trustd

------------------------------------------------------------
-- Entry Points
------------------------------------------------------------

namespace Trustd

namespace LibTrust

open General Results

variable {σ α : Type}

/-
  A function that is called with memory and a world. There is
  no outcome where memory is misused.
-/
abbrev Call (σ α : Type) : Type :=
  Heap Abi.Block → σ → Option (α × Heap Abi.Block × σ)

variable (A : Allocator)

/-
  What every entry point does: a closure of `finish`, whose
  first failure is the result.
-/
def entry
    (inputs : Inputs.Input α)
    (work : α → Work σ Failure Value) :
    Call σ Nat :=
  fun heap w =>
    (inputs heap).map (fun checked =>
      let done := Work.checked checked work w
      let result := finish A done.1 (Region.start heap)
      (result.1, result.2.heap, done.2))

variable (core : Core σ)
variable (crates : Cert.Crates)
variable (describers : Cert.Describers)

/- `exchange`. -/
def exchange
    (path : Bytes)
    (timeout : Nat)
    (request : Wire.Request) :
    Work σ Failure Value :=
  fun w =>
    match core.exchange path timeout request w with
    | (.ok reply, w) => (replyResult reply, w)
    | (.error e, w) => (.error { error := e }, w)

/- `peios_trust_get_status`. -/
def getStatus
    (path : Abi.Bytes)
    (timeout : Nat) :
    Call σ Nat :=
  entry A (Inputs.bytes path)
    (fun path => exchange core path timeout .status)

/- `peios_trust_roots`. -/
def roots
    (path : Abi.Bytes)
    (timeout withDer : Nat)
    (purpose : Abi.Bytes) :
    Call σ Nat :=
  entry A
    (do
      let path ← Inputs.bytes path
      let withDer ← Inputs.boolean withDer
      let purpose ← Inputs.maybeText purpose
      return (path, withDer, purpose))
    (fun args => exchange core args.1 timeout
      (.roots args.2.1 args.2.2))

/- `peios_trust_reload`. -/
def reload
    (path : Abi.Bytes)
    (timeout : Nat) :
    Call σ Nat :=
  entry A (Inputs.bytes path)
    (fun path => exchange core path timeout .reload)

/- `peios_trust_certificate`. -/
def certificate
    (bytes description : Abi.Bytes) :
    Call σ Nat :=
  entry A
    (do
      let bytes ← Inputs.bytes bytes
      let description ← Inputs.text description
      return (bytes, description))
    (fun args => ((Work.done (ClientCore.certificate args.1
      args.2)).failing managementError).map .bytes)

/- `peios_trust_inspect`. -/
def inspect (der : Abi.Bytes) : Call σ Nat :=
  entry A (Inputs.bytes der)
    (fun der => ((Work.done (Cert.describe crates describers
      der)).failing certError).map .details)

/- `peios_trust_vet`. -/
def vet (der : Abi.Bytes) : Call σ Nat :=
  entry A (Inputs.bytes der)
    (fun der => ((core.vet der).failing certError).map .parsed)

/- `peios_trust_usable_name`. -/
def usableName (name : Abi.Bytes) : Call σ Nat :=
  entry A (Inputs.text name)
    (fun name => Work.done
      (.ok (.boolean (ClientCore.usableName name))))

/- `peios_trust_may_reload`. -/
def mayReload : Call σ Nat :=
  entry A (pure ())
    (fun _ w => (.ok (.boolean (core.mayReload w).1),
      (core.mayReload w).2))

/- `peios_trust_may_change`. -/
def mayChange : Call σ Nat :=
  entry A (pure ())
    (fun _ => (core.mayChange.failing managementError).map
      (fun _ => .empty))

/- `peios_trust_may_set_compat`. -/
def maySetCompat : Call σ Nat :=
  entry A (pure ())
    (fun _ => (core.maySetCompat.failing managementError).map
      (fun _ => .empty))

/- `peios_trust_set_compat`. -/
def setCompat (mode : UInt32) : Call σ Nat :=
  entry A (pure ())
    (fun _ => ((core.setCompat mode).failing
      managementError).map (fun _ => .empty))

/- `peios_trust_add`. -/
def add
    (name der : Abi.Bytes)
    (purposes : Abi.Strings) :
    Call σ Nat :=
  entry A
    (do
      let name ← Inputs.text name
      let der ← Inputs.bytes der
      let purposes ← Inputs.strings purposes
      return (name, der, purposes))
    (fun args => ((core.add args.1 args.2.1
      args.2.2).failing managementError).map .parsed)

/- `peios_trust_remove`. -/
def remove (name : Abi.Bytes) : Call σ Nat :=
  entry A (Inputs.text name)
    (fun name => ((core.remove name).failing
      managementError).map (fun _ => .empty))

/- `peios_trust_get_distrusted`. -/
def getDistrusted : Call σ Nat :=
  entry A (pure ())
    (fun _ => (core.distrusted.failing managementError).map
      .distrustedList)

/- `peios_trust_distrust`. -/
def distrust
    (fingerprint reason : Abi.Bytes) :
    Call σ Nat :=
  entry A
    (do
      let fingerprint ← Inputs.text fingerprint
      let reason ← Inputs.text reason
      return (fingerprint, reason))
    (fun args => ((core.distrust args.1 args.2).failing
      managementError).map .text)

/- `peios_trust_restore`. -/
def restore (fingerprint : Abi.Bytes) : Call σ Nat :=
  entry A (Inputs.text fingerprint)
    (fun fingerprint => ((core.restore fingerprint).failing
      managementError).map (fun value => .text (some value)))

/- `peios_trust_resolve`. -/
def resolve (argument : Abi.Bytes) : Call σ Nat :=
  entry A (Inputs.text argument)
    (fun argument => ((core.resolve argument).failing
      managementError).map (fun value => .text (some value)))

/- `peios_trust_fingerprint`. -/
def fingerprint (der : Abi.Bytes) : Call σ Nat :=
  entry A (Inputs.bytes der)
    (fun der => Work.done
      (.ok (.text (some (Cert.fingerprint crates der)))))

/- `peios_trust_to_pem`. -/
def toPem (der : Abi.Bytes) : Call σ Nat :=
  entry A (Inputs.bytes der)
    (fun der => Work.done
      (.ok (.text (some (Cert.toPem der)))))

/- `peios_trust_from_pem`. -/
def fromPem (text : Abi.Bytes) : Call σ Nat :=
  entry A (Inputs.text text)
    (fun text => Work.done
      (.ok (.byteList (Cert.fromPem text))))

/- `peios_trust_normalise_fingerprint`. -/
def normaliseFingerprint (text : Abi.Bytes) : Call σ Nat :=
  entry A (Inputs.text text)
    (fun text => Work.done
      (.ok (.text (some (Store.normaliseFingerprint text)))))

/- `peios_trust_fingerprint_in`. -/
def fingerprintIn
    (text : Abi.Bytes)
    (fingerprints : Abi.Strings) :
    Call σ Nat :=
  entry A
    (do
      let text ← Inputs.text text
      let fingerprints ← Inputs.strings fingerprints
      return (text, fingerprints))
    (fun args => ((Work.done (ClientCore.fingerprintAmong
      args.1 args.2)).failing managementError).map
        (fun value => .text (some value)))

/- `peios_trust_default_control_security`. -/
def defaultControlSecurity
    (descriptor : Bytes) :
    Call σ Nat :=
  entry A (pure ())
    (fun _ => Work.done (.ok (.bytes descriptor)))

/- An entry point boxes what came of its checked inputs. -/
theorem entry_checked
    {inputs : Inputs.Input α}
    {work : α → Work σ Failure Value}
    {heap : Heap Abi.Block}
    {checked : Except IoError α}
    (hInputs : inputs heap = some checked)
    (w : σ) :
    entry A inputs work heap w =
      let done := Work.checked checked work w
      let result := finish A done.1 (Region.start heap)
      some (result.1, result.2.heap, done.2) := by
  rw [entry, hInputs, Option.map_some]

end LibTrust

end Trustd
