import Trustd.General.Heap
import Trustd.Core.Describe
import Trustd.Core.Wire
import Trustd.Client.Distrusts

/-
  Values as they cross the C interface.

  The library stores what a result holds in an arena and
  hands out views of it; the safe client copies out of the
  views. A null address stands for no text, and an empty text
  has an address all the same.

  Key definitions include:
    * `Trustd.Abi.Block`
    * `Trustd.Views.root`
    * `Trustd.Decode.root`
    * `Trustd.Decode.Error`

  Key theorems include:
    * `Trustd.Views.root_builds`
    * `Trustd.Views.rootList_builds`
    * `Trustd.Views.details_builds`
-/

------------------------------------------------------------
-- Layouts
------------------------------------------------------------

namespace Trustd

namespace Abi

/- `Bytes`. The address of a text, too. -/
structure Bytes where
  data : Nat
  len : Nat
deriving DecidableEq, Repr

/- `Strings`. -/
structure Strings where
  data : Nat
  len : Nat
deriving DecidableEq, Repr

/- `Root`. -/
structure Root where
  fingerprint : Bytes
  subject : Bytes
  purposes : Strings
  source : Nat
  name : Bytes
  notAfter : Int
  der : Bytes
deriving DecidableEq, Repr

/- `RootList`. -/
structure RootList where
  data : Nat
  len : Nat
deriving DecidableEq, Repr

/- `Status`. -/
structure Status where
  generation : Nat
  health : Nat
  message : Bytes
  shipped : Nat
  added : Nat
  distrusted : Nat
  skipped : Nat
  effective : Nat
  compatMode : Nat
  rendered : Strings
deriving DecidableEq, Repr

/- `Parsed`. -/
structure Parsed where
  der : Bytes
  fingerprint : Bytes
  subject : Bytes
  notAfter : Int
  subjectHash : Bytes
deriving DecidableEq, Repr

/- `Details`. -/
structure Details where
  commonName : Bytes
  organisation : Bytes
  unit : Bytes
  country : Bytes
  subject : Bytes
  issuer : Bytes
  serial : Bytes
  notBefore : Int
  notAfter : Int
  key : Bytes
  ca : Nat
deriving DecidableEq, Repr

/- `Distrusted`. -/
structure Distrusted where
  fingerprint : Bytes
  reason : Bytes
deriving DecidableEq, Repr

/- `DistrustedList`. -/
structure DistrustedList where
  data : Nat
  len : Nat
deriving DecidableEq, Repr

/- `Payload`. -/
inductive Payload where
  | empty
  | text (view : Bytes)
  | bytes (view : Bytes)
  | boolean (view : Nat)
  | rootList (view : RootList)
  | status (view : Status)
  | parsed (view : Parsed)
  | details (view : Details)
  | distrustedList (view : DistrustedList)
  | byteList (view : Strings)
deriving DecidableEq, Repr

/- No text. -/
def absent : Bytes := ⟨0, 0⟩

/-
  `ResultHandle`. Of the arena, the addresses of what is
  allocated.
-/
structure ResultHandle where
  generation : Nat := 0
  error : Nat := 0
  failure : Nat := 0
  message : Bytes := absent
  arena : List Nat := []
  payload : Payload := .empty
deriving DecidableEq, Repr

/- What may be at an address. -/
inductive Block where
  | octets (values : List UInt8)
  | spans (values : List Bytes)
  | roots (values : List Root)
  | distrusted (values : List Distrusted)
  | result (handle : ResultHandle)
deriving DecidableEq, Repr

def octets : General.Slice UInt8 Block where
  block := .octets
  contents
    | .octets values => some values
    | _ => none
  contents_block _ := rfl

def spans : General.Slice Bytes Block where
  block := .spans
  contents
    | .spans values => some values
    | _ => none
  contents_block _ := rfl

def roots : General.Slice Root Block where
  block := .roots
  contents
    | .roots values => some values
    | _ => none
  contents_block _ := rfl

def distrusteds : General.Slice Distrusted Block where
  block := .distrusted
  contents
    | .distrusted values => some values
    | _ => none
  contents_block _ := rfl

end Abi

end Trustd

------------------------------------------------------------
-- Views
------------------------------------------------------------

namespace Trustd

namespace Views

open General

variable (A : Allocator)

/- `Arena::bytes`. -/
def bytes (value : Bytes) : Filling Abi.Block Abi.Bytes := do
  let data ← Filling.place A Abi.octets value
  return ⟨data, value.length⟩

/- `Arena::text`. -/
def text (value : Text) : Filling Abi.Block Abi.Bytes :=
  bytes A (Text.utf8 value)

/- `Arena::maybe_text`. -/
def maybeText :
    Option Text → Filling Abi.Block Abi.Bytes
  | none => pure Abi.absent
  | some value => text A value

/- `Arena::strings`. -/
def strings
    (values : List Text) :
    Filling Abi.Block Abi.Strings := do
  let views ← Filling.map (text A) values
  let data ← Filling.place A Abi.spans views
  return ⟨data, views.length⟩

/- `Arena::byte_list`. -/
def byteList
    (values : List Bytes) :
    Filling Abi.Block Abi.Strings := do
  let views ← Filling.map (bytes A) values
  let data ← Filling.place A Abi.spans views
  return ⟨data, views.length⟩

/- `Arena::root`. -/
def root (value : Wire.Root) :
    Filling Abi.Block Abi.Root := do
  let fingerprint ← text A value.fingerprint
  let subject ← text A value.subject
  let purposes ← strings A value.purposes
  let source :=
    match value.source with
    | .shipped => 0
    | .added => 1
  let name ← maybeText A value.name
  let der ← bytes A value.der
  return {
    fingerprint
    subject
    purposes
    source
    name
    notAfter := value.notAfter
    der }

/- `Arena::root_list`. -/
def rootList
    (values : List Wire.Root) :
    Filling Abi.Block Abi.RootList := do
  let views ← Filling.map (root A) values
  let data ← Filling.place A Abi.roots views
  return ⟨data, views.length⟩

/- `Arena::status`. -/
def status (value : Wire.Status) :
    Filling Abi.Block Abi.Status := do
  let health :=
    match value.health with
    | .ok => 0
    | .degraded => 1
  let message ← maybeText A value.message
  let rendered ← strings A value.rendered
  return {
    generation := value.generation
    health
    message
    shipped := value.shipped
    added := value.added
    distrusted := value.distrusted
    skipped := value.skipped
    effective := value.effective
    compatMode := value.compatMode
    rendered }

/- `Arena::parsed`. -/
def parsed (value : Cert.Parsed) :
    Filling Abi.Block Abi.Parsed := do
  let der ← bytes A value.der
  let fingerprint ← text A value.fingerprint
  let subject ← text A value.subject
  let subjectHash ← text A value.subjectHash
  return {
    der
    fingerprint
    subject
    notAfter := value.notAfter
    subjectHash }

/- `Arena::details`. -/
def details (value : Cert.Details) :
    Filling Abi.Block Abi.Details := do
  let commonName ← maybeText A value.commonName
  let organisation ← maybeText A value.organisation
  let unit ← maybeText A value.unit
  let country ← maybeText A value.country
  let subject ← text A value.subject
  let issuer ← text A value.issuer
  let serial ← text A value.serial
  let key ← text A value.key
  return {
    commonName
    organisation
    unit
    country
    subject
    issuer
    serial
    notBefore := value.notBefore
    notAfter := value.notAfter
    key
    ca := value.ca.toNat }

/- `Arena::distrusted`. -/
def distrusted (value : ClientCore.Distrusted) :
    Filling Abi.Block Abi.Distrusted := do
  let fingerprint ← text A value.fingerprint
  let reason ← text A value.reason
  return { fingerprint, reason }

/- `Arena::distrusted_list`. -/
def distrustedList
    (values : List ClientCore.Distrusted) :
    Filling Abi.Block Abi.DistrustedList := do
  let views ← Filling.map (distrusted A) values
  let data ← Filling.place A Abi.distrusteds views
  return ⟨data, views.length⟩

end Views

end Trustd

------------------------------------------------------------
-- Copies
------------------------------------------------------------

namespace Trustd

namespace Decode

open General

/- `ErrorKind`. -/
inductive ErrorKind where
  | other
  | denied
  | notFound
  | malformed
  | notACa
  | expired
  | noCertificate
deriving DecidableEq, Repr

/- `Error`. -/
structure Error where
  code : Nat
  kind : ErrorKind
  message : Text
deriving DecidableEq, Repr

/- `EINVAL`. -/
def einval : Nat := 22

/- `invalid`. -/
def invalid (message : Text) : Error :=
  { code := einval
    kind := .other
    message }

/- A read of the library's memory, with the client's errors. -/
abbrev Copy (α : Type) : Type :=
  Reading Abi.Block Error α

/- `bytes`. -/
def bytes (value : Abi.Bytes) : Copy Bytes :=
  Reading.slice Abi.octets value.data value.len

/- `text`. -/
def text (value : Abi.Bytes) : Copy Text := do
  let octets ← bytes value
  match Text.fromUtf8 octets with
  | some text => return text
  | none => Reading.refuse (invalid
      "invalid library UTF-8".toList)

/- `maybe_text`. -/
def maybeText (value : Abi.Bytes) : Copy (Option Text) :=
  if value.data = 0 then return none
  else do
    let text ← text value
    return some text

/- `strings`. -/
def strings (value : Abi.Strings) : Copy (List Text) := do
  let views ← Reading.slice Abi.spans value.data value.len
  Reading.map text views

/- `byte_list`. -/
def byteList (value : Abi.Strings) :
    Copy (List Bytes) := do
  let views ← Reading.slice Abi.spans value.data value.len
  Reading.map bytes views

def unknownEnum : Error :=
  invalid "unknown library enum".toList

/- `root`. -/
def root (value : Abi.Root) : Copy Wire.Root := do
  let fingerprint ← text value.fingerprint
  let subject ← text value.subject
  let purposes ← strings value.purposes
  let source ←
    match value.source with
    | 0 => pure Source.shipped
    | 1 => pure Source.added
    | _ => Reading.refuse unknownEnum
  let name ← maybeText value.name
  let der ← bytes value.der
  return {
    fingerprint
    subject
    purposes
    source
    name
    notAfter := value.notAfter
    der }

/- `root_list`. -/
def rootList (value : Abi.RootList) :
    Copy (List Wire.Root) := do
  let views ← Reading.slice Abi.roots value.data value.len
  Reading.map root views

/- `status`. -/
def status (value : Abi.Status) : Copy Wire.Status := do
  let health ←
    match value.health with
    | 0 => pure Wire.Health.ok
    | 1 => pure Wire.Health.degraded
    | _ => Reading.refuse unknownEnum
  let message ← maybeText value.message
  let rendered ← strings value.rendered
  return {
    generation := value.generation
    health
    message
    shipped := value.shipped
    added := value.added
    distrusted := value.distrusted
    skipped := value.skipped
    effective := value.effective
    compatMode := value.compatMode
    rendered }

/- `parsed`. -/
def parsed (value : Abi.Parsed) : Copy Cert.Parsed := do
  let der ← bytes value.der
  let fingerprint ← text value.fingerprint
  let subject ← text value.subject
  let subjectHash ← text value.subjectHash
  return {
    der
    fingerprint
    subject
    notAfter := value.notAfter
    subjectHash }

/- `details`. -/
def details (value : Abi.Details) : Copy Cert.Details := do
  let commonName ← maybeText value.commonName
  let organisation ← maybeText value.organisation
  let unit ← maybeText value.unit
  let country ← maybeText value.country
  let subject ← text value.subject
  let issuer ← text value.issuer
  let serial ← text value.serial
  let key ← text value.key
  return {
    commonName
    organisation
    unit
    country
    subject
    issuer
    serial
    notBefore := value.notBefore
    notAfter := value.notAfter
    key
    ca := decide (value.ca ≠ 0) }

/- `distrusted`. -/
def distrusted (value : Abi.Distrusted) :
    Copy ClientCore.Distrusted := do
  let fingerprint ← text value.fingerprint
  let reason ← text value.reason
  return { fingerprint, reason }

/- `distrusted_list`. -/
def distrustedList (value : Abi.DistrustedList) :
    Copy (List ClientCore.Distrusted) := do
  let views ←
    Reading.slice Abi.distrusteds value.data value.len
  Reading.map distrusted views

end Decode

end Trustd

------------------------------------------------------------
-- What Is Placed Is Copied
------------------------------------------------------------

namespace Trustd

namespace Views

open General

variable (A : Allocator)

/- An address is given whatever there is to store. -/
theorem bytes_builds (value : Bytes) :
    Builds (bytes A value) (fun view heap =>
      view.data ≠ 0 ∧
        Decode.bytes view heap = some (.ok value)) := by
  apply Builds.bind (Builds.place A Abi.octets value)
  intro data
  apply Builds.pure
  intro heap hPlaced
  exact ⟨hPlaced.1, Reading.slice_ok hPlaced.2⟩

theorem text_builds (value : Text) :
    Builds (text A value) (fun view heap =>
      view.data ≠ 0 ∧
        Decode.text view heap = some (.ok value)) := by
  apply Builds.weaken (bytes_builds A (Text.utf8 value))
  intro view heap hBytes
  refine ⟨hBytes.1, ?_⟩
  rw [Decode.text, Reading.bind_ok hBytes.2,
    Text.fromUtf8_utf8]
  rfl

/- No text and an empty text are told apart. -/
theorem maybeText_builds (value : Option Text) :
    Builds (maybeText A value) (fun view heap =>
      Decode.maybeText view heap = some (.ok value)) := by
  cases value with
  | none => exact Builds.pure (fun heap => rfl)
  | some value =>
      apply Builds.weaken (text_builds A value)
      intro view heap hText
      rw [Decode.maybeText, if_neg hText.1,
        Reading.bind_ok hText.2]
      rfl

section

variable {α β γ : Type}

/- What is placed one after the other is copied so. -/
theorem list_builds
    {put : α → Filling Abi.Block β}
    {get : β → Decode.Copy α}
    (s : Slice β Abi.Block)
    (hEach : ∀ value, Builds (put value) (fun view heap =>
      get view heap = some (.ok value)))
    (values : List α)
    (view : Nat → Nat → γ) :
    Builds
      (do
        let views ← Filling.map put values
        let data ← Filling.place A s views
        return view data views.length)
      (fun out heap => ∃ data len,
        out = view data len ∧
          (do
            let views ← Reading.slice s data len
            Reading.map get views) heap =
            some (.ok values)) := by
  apply Builds.bind
    (Builds.map values (fun value _ => hEach value))
  intro views
  apply Builds.bind (Builds.place A s views)
  intro data
  apply Builds.pure
  intro heap hPlaced hViews
  refine ⟨data, views.length, rfl, ?_⟩
  rw [Reading.bind_ok (Reading.slice_ok hPlaced.2)]
  exact Reading.map_ok hViews

end

theorem strings_builds (values : List Text) :
    Builds (strings A values) (fun view heap =>
      Decode.strings view heap = some (.ok values)) := by
  apply Builds.weaken (list_builds A Abi.spans
    (fun value => (text_builds A value).weaken
      (fun _ _ hText => hText.2)) values Abi.Strings.mk)
  rintro view heap ⟨data, len, rfl, hCopied⟩
  exact hCopied

theorem byteList_builds (values : List Bytes) :
    Builds (byteList A values) (fun view heap =>
      Decode.byteList view heap = some (.ok values)) := by
  apply Builds.weaken (list_builds A Abi.spans
    (fun value => (bytes_builds A value).weaken
      (fun _ _ hBytes => hBytes.2)) values Abi.Strings.mk)
  rintro view heap ⟨data, len, rfl, hCopied⟩
  exact hCopied

theorem root_builds (value : Wire.Root) :
    Builds (root A value) (fun view heap =>
      Decode.root view heap = some (.ok value)) := by
  apply Builds.bind (text_builds A value.fingerprint)
  intro fingerprint
  apply Builds.bind (text_builds A value.subject)
  intro subject
  apply Builds.bind (strings_builds A value.purposes)
  intro purposes
  apply Builds.bind (maybeText_builds A value.name)
  intro name
  apply Builds.bind (bytes_builds A value.der)
  intro der
  apply Builds.pure
  intro heap hDer hName hPurposes hSubject hFingerprint
  rw [Decode.root, Reading.bind_ok hFingerprint.2,
    Reading.bind_ok hSubject.2, Reading.bind_ok hPurposes]
  cases hSource : value.source with
  | shipped =>
      simp only
      rw [Reading.bind_ok (Reading.pure_apply _ heap),
        Reading.bind_ok hName, Reading.bind_ok hDer.2,
        ← hSource]
      rfl
  | added =>
      simp only
      rw [Reading.bind_ok (Reading.pure_apply _ heap),
        Reading.bind_ok hName, Reading.bind_ok hDer.2,
        ← hSource]
      rfl

theorem rootList_builds (values : List Wire.Root) :
    Builds (rootList A values) (fun view heap =>
      Decode.rootList view heap = some (.ok values)) := by
  apply Builds.weaken (list_builds A Abi.roots
    (root_builds A) values Abi.RootList.mk)
  rintro view heap ⟨data, len, rfl, hCopied⟩
  exact hCopied

theorem status_builds (value : Wire.Status) :
    Builds (status A value) (fun view heap =>
      Decode.status view heap = some (.ok value)) := by
  apply Builds.bind (maybeText_builds A value.message)
  intro message
  apply Builds.bind (strings_builds A value.rendered)
  intro rendered
  apply Builds.pure
  intro heap hRendered hMessage
  rw [Decode.status]
  cases hHealth : value.health with
  | ok =>
      simp only
      rw [Reading.bind_ok (Reading.pure_apply _ heap),
        Reading.bind_ok hMessage, Reading.bind_ok hRendered,
        ← hHealth]
      rfl
  | degraded =>
      simp only
      rw [Reading.bind_ok (Reading.pure_apply _ heap),
        Reading.bind_ok hMessage, Reading.bind_ok hRendered,
        ← hHealth]
      rfl

theorem parsed_builds (value : Cert.Parsed) :
    Builds (parsed A value) (fun view heap =>
      Decode.parsed view heap = some (.ok value)) := by
  apply Builds.bind (bytes_builds A value.der)
  intro der
  apply Builds.bind (text_builds A value.fingerprint)
  intro fingerprint
  apply Builds.bind (text_builds A value.subject)
  intro subject
  apply Builds.bind (text_builds A value.subjectHash)
  intro subjectHash
  apply Builds.pure
  intro heap hHash hSubject hFingerprint hDer
  rw [Decode.parsed, Reading.bind_ok hDer.2,
    Reading.bind_ok hFingerprint.2,
    Reading.bind_ok hSubject.2, Reading.bind_ok hHash.2]
  rfl

theorem details_builds (value : Cert.Details) :
    Builds (details A value) (fun view heap =>
      Decode.details view heap = some (.ok value)) := by
  apply Builds.bind (maybeText_builds A value.commonName)
  intro commonName
  apply Builds.bind (maybeText_builds A value.organisation)
  intro organisation
  apply Builds.bind (maybeText_builds A value.unit)
  intro unit
  apply Builds.bind (maybeText_builds A value.country)
  intro country
  apply Builds.bind (text_builds A value.subject)
  intro subject
  apply Builds.bind (text_builds A value.issuer)
  intro issuer
  apply Builds.bind (text_builds A value.serial)
  intro serial
  apply Builds.bind (text_builds A value.key)
  intro key
  apply Builds.pure
  intro heap hKey hSerial hIssuer hSubject hCountry hUnit
    hOrganisation hCommonName
  have hCa : decide (value.ca.toNat ≠ 0) = value.ca := by
    cases value.ca <;> rfl
  rw [Decode.details, Reading.bind_ok hCommonName,
    Reading.bind_ok hOrganisation, Reading.bind_ok hUnit,
    Reading.bind_ok hCountry, Reading.bind_ok hSubject.2,
    Reading.bind_ok hIssuer.2, Reading.bind_ok hSerial.2,
    Reading.bind_ok hKey.2, hCa]
  rfl

theorem distrusted_builds (value : ClientCore.Distrusted) :
    Builds (distrusted A value) (fun view heap =>
      Decode.distrusted view heap = some (.ok value)) := by
  apply Builds.bind (text_builds A value.fingerprint)
  intro fingerprint
  apply Builds.bind (text_builds A value.reason)
  intro reason
  apply Builds.pure
  intro heap hReason hFingerprint
  rw [Decode.distrusted, Reading.bind_ok hFingerprint.2,
    Reading.bind_ok hReason.2]
  rfl

theorem distrustedList_builds
    (values : List ClientCore.Distrusted) :
    Builds (distrustedList A values) (fun view heap =>
      Decode.distrustedList view heap =
        some (.ok values)) := by
  apply Builds.weaken (list_builds A Abi.distrusteds
    (distrusted_builds A) values Abi.DistrustedList.mk)
  rintro view heap ⟨data, len, rfl, hCopied⟩
  exact hCopied

end Views

end Trustd
