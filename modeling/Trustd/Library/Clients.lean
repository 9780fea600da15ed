import Trustd.Library.Exports

/-
  The safe client over the C interface.

  Each function lends its arguments, takes the result it is
  given, copies out of it what it is after and frees it. What
  comes of a call is what the core made of the arguments, and
  memory is as it was before.

  Key definitions include:
    * `Trustd.TrustClient.Client`
    * `Trustd.TrustClient.take`
    * `Trustd.TrustClient.calling`
    * `Trustd.TrustClient.Offers`
    * `Trustd.LibTrust.Coded`

  Key theorems include:
    * `Trustd.TrustClient.readAs_offered`
    * `Trustd.TrustClient.owned_made`
    * `Trustd.LibTrust.exchange_eq`
-/

------------------------------------------------------------
-- Calling
------------------------------------------------------------

namespace Trustd

namespace TrustClient

open General Results Decode

/- `ErrorKind::from_failure`. -/
def fromFailure : Nat → Decode.ErrorKind
  | 2 => .denied
  | 3 => .notFound
  | 4 => .malformed
  | 5 => .notACa
  | 6 => .expired
  | 7 => .noCertificate
  | _ => .other

/- A borrowed text, or other bytes. -/
structure Ref where
  data : Nat
  len : Nat
deriving DecidableEq, Repr

/- `span`. -/
def span (value : Ref) : Abi.Bytes :=
  ⟨value.data, value.len⟩

/- `maybe_span`. -/
def maybeSpan : Option Ref → Abi.Bytes
  | none => Abi.absent
  | some value => span value

/- `timeout_ms`, of so many nanoseconds. -/
def timeoutMs (nanoseconds : Nat) : Except Error Nat :=
  if nanoseconds = 0 then
    .error (invalid "timeout must be positive".toList)
  else
    let milliseconds := (nanoseconds + 999999) / 1000000
    if milliseconds < 2 ^ 64 then .ok milliseconds
    else .error (invalid "timeout is too large".toList)

/- A path that a socket can be at. -/
def IsSocketPath (path : Bytes) : Prop :=
  path ≠ [] ∧ path.length < 108 ∧ (0 : UInt8) ∉ path

instance (path : Bytes) : Decidable (IsSocketPath path) :=
  inferInstanceAs (Decidable (_ ∧ _ ∧ _))

/- `Client`. -/
structure Client where
  path : Bytes
  timeoutMs : Nat
  socketPath : IsSocketPath path
  timeout_pos : 0 < timeoutMs
  timeout_lt : timeoutMs < 2 ^ 64

theorem timeoutMs_ok
    {nanoseconds milliseconds : Nat}
    (hOk : timeoutMs nanoseconds = .ok milliseconds) :
    0 < milliseconds ∧ milliseconds < 2 ^ 64 := by
  unfold timeoutMs at hOk
  dsimp only at hOk
  split_ifs at hOk with hZero hLt
  cases hOk
  omega

/- `Client::new`. -/
def Client.new
    (path : Bytes)
    (timeout : Nat) :
    Except Error Client :=
  if hPath : IsSocketPath path then
    match hTimeout : TrustClient.timeoutMs timeout with
    | .error e => .error e
    | .ok milliseconds =>
        .ok {
          path
          timeoutMs := milliseconds
          socketPath := hPath
          timeout_pos := (timeoutMs_ok hTimeout).1
          timeout_lt := (timeoutMs_ok hTimeout).2 }
  else
    .error (invalid "invalid Unix socket path".toList)

/-
  `OwnedResult::take`. A result that reports an error is
  dropped once its message is copied.
-/
def take
    (result : Nat)
    (heap : Heap Abi.Block) :
    Option (Except Error Nat × Heap Abi.Block) :=
  if result = 0 then
    some (.error (invalid "libtrust returned null".toList),
      heap)
  else do
    let code ← resultError result heap
    if code = 0 then some (.ok result, heap)
    else do
      let view ← resultMessage result heap
      let message ← Decode.text view heap
      let failure ← resultFailure result heap
      let heap ← free result heap
      match message with
      | .error e => some (.error e, heap)
      | .ok message =>
          some (.error {
            code
            kind := fromFailure failure
            message }, heap)

section

variable {α ν σ : Type}

/- Take a result, read it, and drop it. -/
def owned
    (read : Nat → Heap Abi.Block → Option (Except Error α))
    (result : Nat)
    (heap : Heap Abi.Block) :
    Option (Except Error α × Heap Abi.Block) := do
  let taken ← take result heap
  match taken.1 with
  | .error e => some (.error e, taken.2)
  | .ok result => do
      let out ← read result taken.2
      let heap ← free result taken.2
      some (out, heap)

/- A view of the payload, copied. -/
def readAs
    (view : Abi.Payload → Option ν)
    (decode : ν → Copy α)
    (missing : Text)
    (result : Nat)
    (heap : Heap Abi.Block) :
    Option (Except Error α) := do
  let payload ← resultPayload result heap
  match view payload with
  | none => some (.error (invalid missing))
  | some view => decode view heap

/- Of a result that says nothing more. -/
def readNothing
    (_result : Nat)
    (_heap : Heap Abi.Block) :
    Option (Except Error Unit) :=
  some (.ok ())

/- A call, and what is made of the result it gives. -/
def calling
    (call : LibTrust.Call σ Nat)
    (read : Nat → Heap Abi.Block → Option (Except Error α)) :
    LibTrust.Call σ (Except Error α) :=
  fun heap w =>
    (call heap w).bind (fun called =>
      (owned read called.1 called.2.1).map (fun read =>
        (read.1, read.2, called.2.2)))

/- Spans side by side for the length of a call. -/
def lending
    (A : Allocator)
    (values : List Ref)
    (call : Abi.Strings → LibTrust.Call σ α) :
    LibTrust.Call σ α :=
  fun heap w =>
    let views := Filling.place A Abi.spans (values.map span)
      (Region.start heap)
    (call ⟨views.1, values.length⟩ views.2.heap w).map
      (fun called =>
        (called.1, called.2.1.freeAll views.2.owned,
          called.2.2))

end

end TrustClient

end Trustd

------------------------------------------------------------
-- The Client's Functions
------------------------------------------------------------

namespace Trustd

namespace TrustClient

open General Results Decode

variable {σ : Type}
variable (A : Allocator)
variable (core : LibTrust.Core σ)
variable (crates : Cert.Crates)
variable (describers : Cert.Describers)

def missingResult : Text :=
  "missing library result".toList

/- `Client::status`, with the path it borrows. -/
def Client.status
    (client : Client)
    (path : Ref) :
    LibTrust.Call σ (Except Error Wire.Status) :=
  calling
    (LibTrust.getStatus A core (span path) client.timeoutMs)
    (readAs statusView Decode.status missingResult)

/- `Client::roots`. -/
def Client.roots
    (client : Client)
    (path : Ref)
    (withDer : Bool)
    (purpose : Option Ref) :
    LibTrust.Call σ (Except Error (List Wire.Root)) :=
  calling
    (LibTrust.roots A core (span path) client.timeoutMs
      withDer.toNat (maybeSpan purpose))
    (readAs rootListView Decode.rootList missingResult)

/- `Client::reload`. -/
def Client.reload
    (client : Client)
    (path : Ref) :
    LibTrust.Call σ (Except Error Unit) :=
  calling
    (LibTrust.reload A core (span path) client.timeoutMs)
    readNothing

/- `certificate`. -/
def certificate (bytes description : Ref) :
    LibTrust.Call σ (Except Error Bytes) :=
  calling
    (LibTrust.certificate A (span bytes) (span description))
    (readAs bytesView Decode.bytes missingResult)

/- `inspect`. -/
def inspect (der : Ref) :
    LibTrust.Call σ (Except Error Cert.Details) :=
  calling
    (LibTrust.inspect A crates describers (span der))
    (readAs detailsView Decode.details missingResult)

/- `vet`. -/
def vet (der : Ref) :
    LibTrust.Call σ (Except Error Cert.Parsed) :=
  calling (LibTrust.vet A core (span der))
    (readAs parsedView Decode.parsed missingResult)

/- `*view != 0`. -/
def flag (view : Nat) : Copy Bool :=
  pure (decide (view ≠ 0))

/- `usable_name`. -/
def usableName (name : Ref) :
    LibTrust.Call σ (Except Error Bool) :=
  calling (LibTrust.usableName A (span name))
    (readAs booleanView flag missingResult)

/- `may_reload`. -/
def mayReload : LibTrust.Call σ (Except Error Bool) :=
  calling (LibTrust.mayReload A core)
    (readAs booleanView flag missingResult)

/- `may_change`. -/
def mayChange : LibTrust.Call σ (Except Error Unit) :=
  calling (LibTrust.mayChange A core) readNothing

/- `may_set_compat`. -/
def maySetCompat : LibTrust.Call σ (Except Error Unit) :=
  calling (LibTrust.maySetCompat A core) readNothing

/- `set_compat`. -/
def setCompat (mode : UInt32) :
    LibTrust.Call σ (Except Error Unit) :=
  calling (LibTrust.setCompat A core mode) readNothing

/- `add`. -/
def add
    (name der : Ref)
    (purposes : List Ref) :
    LibTrust.Call σ (Except Error Cert.Parsed) :=
  lending A purposes (fun purposes =>
    calling
      (LibTrust.add A core (span name) (span der) purposes)
      (readAs parsedView Decode.parsed missingResult))

/- `remove`. -/
def remove (name : Ref) :
    LibTrust.Call σ (Except Error Unit) :=
  calling (LibTrust.remove A core (span name)) readNothing

/- `distrusted`. -/
def distrusted :
    LibTrust.Call σ
      (Except Error (List ClientCore.Distrusted)) :=
  calling (LibTrust.getDistrusted A core)
    (readAs distrustedListView Decode.distrustedList
      missingResult)

/- `distrust`. -/
def distrust (fingerprint reason : Ref) :
    LibTrust.Call σ (Except Error (Option Text)) :=
  calling
    (LibTrust.distrust A core (span fingerprint) (span reason))
    (readAs textView Decode.maybeText missingResult)

/- `restore`. -/
def restore (fingerprint : Ref) :
    LibTrust.Call σ (Except Error Text) :=
  calling (LibTrust.restore A core (span fingerprint))
    (readAs textView Decode.text missingResult)

/- `resolve`. -/
def resolve (argument : Ref) :
    LibTrust.Call σ (Except Error Text) :=
  calling (LibTrust.resolve A core (span argument))
    (readAs textView Decode.text "missing fingerprint".toList)

/- `result_text`. -/
def resultText : Nat → Heap Abi.Block →
    Option (Except Error Text) :=
  readAs textView Decode.text missingResult

/- `fingerprint`. -/
def fingerprint (der : Ref) :
    LibTrust.Call σ (Except Error Text) :=
  calling (LibTrust.fingerprint A crates (span der)) resultText

/- `to_pem`. -/
def toPem (der : Ref) :
    LibTrust.Call σ (Except Error Text) :=
  calling (LibTrust.toPem A (span der)) resultText

/- `from_pem`. -/
def fromPem (text : Ref) :
    LibTrust.Call σ (Except Error (List Bytes)) :=
  calling (LibTrust.fromPem A (span text))
    (readAs byteListView Decode.byteList missingResult)

/- `normalise_fingerprint`. -/
def normaliseFingerprint (text : Ref) :
    LibTrust.Call σ (Except Error Text) :=
  calling (LibTrust.normaliseFingerprint A (span text))
    resultText

/- `fingerprint_in`, of the fingerprints of the roots. -/
def fingerprintIn
    (text : Ref)
    (fingerprints : List Ref) :
    LibTrust.Call σ (Except Error Text) :=
  lending A fingerprints (fun fingerprints =>
    calling
      (LibTrust.fingerprintIn A (span text) fingerprints)
      resultText)

/- `default_control_security`. -/
def defaultControlSecurity (descriptor : Bytes) :
    LibTrust.Call σ (Except Error Bytes) :=
  calling (LibTrust.defaultControlSecurity A descriptor)
    (readAs bytesView Decode.bytes missingResult)

end TrustClient

end Trustd

------------------------------------------------------------
-- What Is Copied Out
------------------------------------------------------------

namespace Trustd

namespace TrustClient

open General Results Decode

variable {heap : Heap Abi.Block}

/- What a payload of a value has for the client to read. -/
def Offers
    (heap : Heap Abi.Block)
    (payload : Abi.Payload) :
    Value → Prop
  | .empty => True
  | .text value =>
      ∃ view, textView payload = some view ∧
        Decode.maybeText view heap = some (.ok value)
  | .bytes value =>
      ∃ view, bytesView payload = some view ∧
        Decode.bytes view heap = some (.ok value)
  | .boolean value =>
      ∃ view, booleanView payload = some view ∧
        flag view heap = some (.ok value)
  | .rootList _ roots =>
      ∃ view, rootListView payload = some view ∧
        Decode.rootList view heap = some (.ok roots)
  | .status value =>
      ∃ view, statusView payload = some view ∧
        Decode.status view heap = some (.ok value)
  | .parsed value =>
      ∃ view, parsedView payload = some view ∧
        Decode.parsed view heap = some (.ok value)
  | .details value =>
      ∃ view, detailsView payload = some view ∧
        Decode.details view heap = some (.ok value)
  | .distrustedList values =>
      ∃ view, distrustedListView payload = some view ∧
        Decode.distrustedList view heap = some (.ok values)
  | .byteList values =>
      ∃ view, byteListView payload = some view ∧
        Decode.byteList view heap = some (.ok values)

theorem offers_of_copy
    {generation : Nat}
    {payload : Abi.Payload}
    {value : Value}
    (hCopy : copy generation payload heap =
      some (.ok value)) :
    Offers heap payload value := by
  cases payload with
  | empty =>
      cases hCopy
      trivial
  | boolean view =>
      cases hCopy
      exact ⟨view, rfl, rfl⟩
  | text view =>
      rcases Reading.bind_eq_ok.mp hCopy with ⟨_, hRead, hSame⟩
      cases hSame
      exact ⟨view, rfl, hRead⟩
  | bytes view =>
      rcases Reading.bind_eq_ok.mp hCopy with ⟨_, hRead, hSame⟩
      cases hSame
      exact ⟨view, rfl, hRead⟩
  | rootList view =>
      rcases Reading.bind_eq_ok.mp hCopy with ⟨_, hRead, hSame⟩
      cases hSame
      exact ⟨view, rfl, hRead⟩
  | status view =>
      rcases Reading.bind_eq_ok.mp hCopy with ⟨_, hRead, hSame⟩
      cases hSame
      exact ⟨view, rfl, hRead⟩
  | parsed view =>
      rcases Reading.bind_eq_ok.mp hCopy with ⟨_, hRead, hSame⟩
      cases hSame
      exact ⟨view, rfl, hRead⟩
  | details view =>
      rcases Reading.bind_eq_ok.mp hCopy with ⟨_, hRead, hSame⟩
      cases hSame
      exact ⟨view, rfl, hRead⟩
  | distrustedList view =>
      rcases Reading.bind_eq_ok.mp hCopy with ⟨_, hRead, hSame⟩
      cases hSame
      exact ⟨view, rfl, hRead⟩
  | byteList view =>
      rcases Reading.bind_eq_ok.mp hCopy with ⟨_, hRead, hSame⟩
      cases hSame
      exact ⟨view, rfl, hRead⟩

/- A text that is there is copied where none may be, too. -/
theorem text_of_maybeText
    {view : Abi.Bytes}
    {value : Text}
    (hRead : Decode.maybeText view heap =
      some (.ok (some value))) :
    Decode.text view heap = some (.ok value) := by
  unfold Decode.maybeText at hRead
  split_ifs at hRead with hNull
  · cases hRead
  · rcases Reading.bind_eq_ok.mp hRead with
      ⟨text, hText, hSame⟩
    cases hSame
    exact hText

/- What a live result of a call that succeeded is read as. -/
theorem readAs_offered
    {α ν : Type}
    {view : Abi.Payload → Option ν}
    {decode : ν → Copy α}
    {missing : Text}
    {value : Value}
    {a : α}
    (hView : ∀ payload heap, Offers heap payload value →
      ∃ v, view payload = some v ∧
        decode v heap = some (.ok a))
    {result : Nat}
    (hReads : Reads (.ok value) result heap) :
    readAs view decode missing result heap =
      some (.ok a) := by
  rcases hReads with ⟨hSome, handle, hRead, -, -, -, hCopy⟩
  rcases hView handle.payload heap (offers_of_copy hCopy) with
    ⟨v, hHere, hDecoded⟩
  have hPayload : resultPayload result heap =
      some handle.payload := by
    rw [resultPayload, asRef, if_neg hSome, hRead]
    rfl
  simp only [readAs, hPayload, Option.bind_eq_bind,
    Option.bind_some, hHere]
  exact hDecoded

end TrustClient

end Trustd

------------------------------------------------------------
-- One Call
------------------------------------------------------------

namespace Trustd

namespace Results

/- A failure as the client reports it. -/
def Failure.crossed (failure : Failure) : Decode.Error :=
  { code := failure.code
    kind := TrustClient.fromFailure failure.number
    message := failure.error.text }

end Results

namespace TrustClient

open General Results Decode

variable {A : Allocator}
variable {heap : Heap Abi.Block}
variable {r : Region Abi.Block}
variable {result : Nat}

/- A live result is taken if its call succeeded, -/
theorem take_ok
    {value : Value}
    (hReads : Reads (.ok value) result heap) :
    take result heap = some (.ok result, heap) := by
  rcases hReads with ⟨hSome, handle, hRead, hError, -⟩
  have hCode : resultError result heap = some 0 := by
    rw [resultError, asRef, if_neg hSome, hRead, ← hError]
    rfl
  rw [take, if_neg hSome, hCode]
  rfl

/- and is freed and reported if it failed. -/
theorem take_error
    {failure : Failure}
    (hMade : Made A r result (.error failure))
    (hHeld : r.Held heap)
    (hCode : failure.code ≠ 0) :
    take result heap =
      some (.error failure.crossed,
        heap.freeAll r.owned) := by
  rcases hMade.reads A hHeld with
    ⟨hSome, handle, hRead, hError, hNumber, -, hMessage⟩
  have hRef : asRef result heap = some (some handle) := by
    rw [asRef, if_neg hSome, hRead]
  have hErrorIs : resultError result heap =
      some failure.code := by
    rw [resultError, hRef, ← hError]
    rfl
  have hFailureIs : resultFailure result heap =
      some failure.number := by
    rw [resultFailure, hRef, ← hNumber]
    rfl
  have hMessageIs : resultMessage result heap =
      some handle.message := by
    rw [resultMessage, hRef]
    rfl
  rw [take, if_neg hSome, hErrorIs, Option.bind_eq_bind,
    Option.bind_some, if_neg hCode, hMessageIs]
  simp only [Option.bind_eq_bind, Option.bind_some, hMessage,
    hFailureIs, hMade.free A hHeld]
  rfl

/- The result of a call is read once and freed once. -/
theorem owned_made
    {α β : Type}
    {value : β → Value}
    {out : β → α}
    {read : Nat → Heap Abi.Block → Option (Except Error α)}
    {outcome : Except Failure β}
    (hMade : Made A r result (outcome.map value))
    (hHeld : r.Held heap)
    (hCode : ∀ failure, outcome = .error failure →
      failure.code ≠ 0)
    (hRead : ∀ b, Reads (.ok (value b)) result heap →
      read result heap = some (.ok (out b))) :
    owned read result heap =
      some ((outcome.map out).mapError Failure.crossed,
        heap.freeAll r.owned) := by
  cases outcome with
  | error failure =>
      have hTake := take_error hMade hHeld (hCode failure rfl)
      rw [owned, hTake]
      rfl
  | ok b =>
      have hReads := hMade.reads A hHeld
      rw [owned, take_ok hReads]
      simp only [Option.bind_eq_bind, Option.bind_some,
        hRead b hReads, hMade.free A hHeld]
      rfl

end TrustClient

end Trustd

------------------------------------------------------------
-- Codes
------------------------------------------------------------

namespace Trustd

namespace LibTrust

open General Results

variable {σ ε α β : Type}

/- An error of the library's own has no system code. -/
def Plain (checked : Except IoError α) : Prop :=
  ∀ e, checked = .error e → e.rawOsError = none

theorem plain_ok (a : α) :
    Plain (.ok a : Except IoError α) := by
  intro e hError
  cases hError

theorem Plain.bind
    {checked : Except IoError α}
    {next : α → Except IoError β}
    (hPlain : Plain checked)
    (hNext : ∀ a, Plain (next a)) :
    Plain (checked >>= next) := by
  intro e hError
  cases checked with
  | ok a => exact hNext a e hError
  | error e' =>
      cases hError
      exact hPlain e rfl

theorem Plain.map
    {checked : Except IoError α}
    (hPlain : Plain checked)
    (f : α → β) :
    Plain (checked.map f) := by
  intro e hError
  cases checked with
  | ok a => cases hError
  | error e' =>
      cases hError
      exact hPlain e rfl

theorem plain_bytesOf (value : Bytes) :
    Plain (Inputs.bytesOf value) := by
  intro e hError
  unfold Inputs.bytesOf at hError
  split_ifs at hError
  cases hError
  rfl

theorem plain_textOf (value : Text) :
    Plain (Inputs.textOf value) :=
  (plain_bytesOf (Text.utf8 value)).map _

theorem plain_maybeTextOf (value : Option Text) :
    Plain (Inputs.maybeTextOf value) := by
  cases value with
  | none => exact plain_ok none
  | some value => exact (plain_textOf value).map some

theorem plain_stringsOf (values : List Text) :
    Plain (Inputs.stringsOf values) := by
  intro e hError
  unfold Inputs.stringsOf at hError
  split_ifs at hError with hMany hLarge
  · cases hError
    rfl
  · cases hError
    rfl

theorem codeOf_ne_zero (kind : ErrorKind) :
    codeOf kind ≠ 0 := by
  cases kind <;> decide

/- A failure is not taken for a success. -/
theorem code_ne_zero
    {failure : Failure}
    (hRaw : failure.error.rawOsError ≠ some 0) :
    failure.code ≠ 0 := by
  unfold Failure.code
  cases hCode : failure.error.rawOsError with
  | none => exact codeOf_ne_zero failure.error.kind
  | some code =>
      intro hZero
      rw [Option.getD_some] at hZero
      exact hRaw (hCode.trans (congrArg some hZero))

/- Work whose failures all have a code. -/
def Coded (x : Work σ Failure α) : Prop :=
  ∀ w e, (x w).1 = .error e → e.code ≠ 0

theorem coded_ok (a : α) :
    Coded (Work.done (.ok a) : Work σ Failure α) := by
  intro w e hError
  cases hError

theorem Coded.checked
    {checked : Except IoError α}
    {work : α → Work σ Failure β}
    (hPlain : Plain checked)
    (hWork : ∀ a, Coded (work a)) :
    Coded (Work.checked checked work) := by
  cases checked with
  | ok a => exact hWork a
  | error e =>
      intro w failure hError
      cases hError
      apply code_ne_zero
      rw [hPlain e rfl]
      exact Option.some_ne_none 0 |>.symm

theorem coded_failing
    {failure : ε → Failure}
    (hCode : ∀ e, (failure e).code ≠ 0)
    (x : Work σ ε α) :
    Coded (x.failing failure) := by
  intro w e hError
  unfold Work.failing at hError
  cases hOut : (x w).1 with
  | ok a =>
      rw [hOut] at hError
      cases hError
  | error e' =>
      rw [hOut] at hError
      cases hError
      exact hCode e'

theorem kinded_code
    (kind : ErrorKind)
    (failure : Nat)
    (message : Text) :
    (kinded kind failure message).code ≠ 0 :=
  codeOf_ne_zero kind

theorem managementError_code
    (error : ClientCore.Error) :
    (managementError error).code ≠ 0 := by
  cases error <;> exact kinded_code _ _ _

theorem certError_code (error : Cert.Error) :
    (certError error).code ≠ 0 :=
  kinded_code _ _ _

/- What a reply comes to for a caller that asked for it. -/
def picked
    (pick : Wire.Reply → Option α) :
    Wire.Reply → Except Failure α
  | .error message =>
      .error { error := Shared.otherError message }
  | reply =>
      (pick reply).elim
        (.error { error := Shared.unexpectedType }) .ok

theorem picked_plain
    {pick : Wire.Reply → Option α}
    {reply : Wire.Reply}
    {failure : Failure}
    (hError : picked pick reply = .error failure) :
    failure.error.rawOsError = none := by
  unfold picked at hError
  split at hError
  · cases hError
    rfl
  · cases hPick : pick reply with
    | none =>
        rw [hPick] at hError
        cases hError
        rfl
    | some a =>
        rw [hPick] at hError
        cases hError

theorem picked_of_pick
    {pick : Wire.Reply → Option α}
    {reply : Wire.Reply}
    {a : α}
    (hNoError : ∀ message, reply ≠ .error message)
    (hPick : pick reply = some a) :
    picked pick reply = .ok a := by
  unfold picked
  split
  · rename_i message
    exact absurd rfl (hNoError message)
  · rw [hPick]
    rfl

/- An exchange, and what its reply comes to. -/
def Work.reply
    (pick : Wire.Reply → Option α)
    (x : Work σ IoError Wire.Reply) :
    Work σ Failure α :=
  fun w =>
    (match (x w).1 with
      | .error e => .error { error := e }
      | .ok reply => picked pick reply,
      (x w).2)

/- A reply that was asked for is what is picked of it. -/
theorem exchange_eq
    (core : Core σ)
    {pick : Wire.Reply → Option α}
    {value : α → Value}
    {request : Wire.Request}
    (hPick : ∀ reply, Shared.expected request reply = true →
      (∃ message, reply = .error message) ∨
        ∃ a, pick reply = some a ∧
          replyResult reply = .ok (value a))
    (path : Bytes)
    (timeout : Nat) :
    exchange core path timeout request =
      (Work.reply pick
        (core.exchange path timeout request)).map value := by
  funext w
  unfold exchange Work.map Work.reply
  rcases hOut : core.exchange path timeout request w with
    ⟨outcome, w'⟩
  cases outcome with
  | error e => rfl
  | ok reply =>
      have hExpected := core.exchange_expected path timeout
        request w reply (by rw [hOut])
      have hSame : replyResult reply =
          (picked pick reply).map value := by
        rcases hPick reply hExpected with
          ⟨message, rfl⟩ | ⟨a, hPicked, hResult⟩
        · rfl
        · have hNoError : ∀ message, reply ≠ .error message := by
            rintro message rfl
            cases hResult
          rw [picked_of_pick hNoError hPicked, hResult]
          rfl
      simp only [hSame]

theorem coded_reply
    (core : Core σ)
    (pick : Wire.Reply → Option α)
    (path : Bytes)
    (timeout : Nat)
    (request : Wire.Request) :
    Coded (Work.reply pick
      (core.exchange path timeout request)) := by
  intro w e hError
  apply code_ne_zero
  unfold Work.reply at hError
  cases hOut : (core.exchange path timeout request w).1 with
  | error e' =>
      simp only [hOut] at hError
      cases hError
      exact core.exchange_code path timeout request w e' hOut
  | ok reply =>
      simp only [hOut] at hError
      rw [picked_plain hError]
      exact (Option.some_ne_none 0).symm

end LibTrust

end Trustd
