import Trustd.General.Results
import Trustd.Core.Pem
import Trustd.Core.SubjectHash

/-
  Parsing and vetting one certificate.

  What the X.509 and hashing crates compute is a parameter:
  a certificate as they read it, and the digests. What is
  asked of it here, and in which order, is the code's.

  Key definitions include:
    * `Trustd.Cert.Crates`
    * `Trustd.Cert.Parsed`
    * `Trustd.Cert.isCa`
    * `Trustd.Cert.parse`

  Key theorems include:
    * `Trustd.Cert.parse_ok`
-/

------------------------------------------------------------
-- What The Crates Provide
------------------------------------------------------------

namespace Trustd

namespace Cert

/-
  The parts of a decoded certificate that are looked at: its
  extensions, the end of its validity in seconds since the
  epoch, its subject as it prints and as it encodes.
-/
structure Certificate where
  extensions : Option (List (Text × Bytes))
  notAfter : Nat
  subject : Text
  subjectDer : Except Text Bytes

/-
  The decoders and digests of the crates. A decoder's error
  is what it prints; `basicConstraints` is the `cA` flag of
  an extension's value, where the value decodes.
-/
structure Crates where
  fromDer : Bytes → Except Text Certificate
  basicConstraints : Bytes → Option Bool
  sha256 : Bytes → Bytes
  sha1 : Bytes → Bytes
  derErrorText : DerError → Text

end Cert

end Trustd

------------------------------------------------------------
-- Parsing
------------------------------------------------------------

namespace Trustd

namespace Cert

open General

/- `cert::Error`. -/
inductive Error where
  | malformed (why : Text)
  | notACa
  | expired
  | noCertificate
deriving DecidableEq, Repr

/- What an error prints. -/
def Error.text : Error → Text
  | .malformed why => "not a certificate: ".toList ++ why
  | .notACa =>
      "not a CA certificate (no basicConstraints cA)".toList
  | .expired => "expired".toList
  | .noCertificate => "no CERTIFICATE block".toList

/- `Parsed`. -/
structure Parsed where
  der : Bytes
  fingerprint : Text
  subject : Text
  notAfter : Int
  subjectHash : Text
deriving DecidableEq, Repr

/- `u64 as i64`. -/
def asI64 (n : Nat) : Int :=
  ((n + 2 ^ 63) % 2 ^ 64 : Nat) - 2 ^ 63

variable (crates : Crates)

/- `fingerprint`. -/
def fingerprint (der : Bytes) : Text :=
  (crates.sha256 der).flatMap Text.hexByte

/- `BASIC_CONSTRAINTS`. -/
def basicConstraintsOid : Text := "2.5.29.19".toList

/- The loop of `is_ca` over the extensions that are left. -/
def isCaFrom : List (Text × Bytes) → Bool
  | [] => false
  | extension :: rest =>
      if extension.1 ≠ basicConstraintsOid then isCaFrom rest
      else
        match crates.basicConstraints extension.2 with
        | some ca => ca
        | none => false

/- `is_ca`. -/
def isCa (certificate : Certificate) : Bool :=
  match certificate.extensions with
  | none => false
  | some extensions => isCaFrom crates extensions

/- `parse`. -/
def parse (der : Bytes) (now : Option Int) :
    Except Error Parsed := do
  let certificate ←
    (crates.fromDer der).mapError Error.malformed
  if isCa crates certificate = false then throw .notACa
  else
    let notAfter := asI64 certificate.notAfter
    if now.any (fun now => notAfter ≤ now) then
      throw .expired
    else
      let subjectDer ←
        certificate.subjectDer.mapError Error.malformed
      let hash ←
        (subjectHash crates.sha1 subjectDer).mapError
          (fun e => Error.malformed (crates.derErrorText e))
      return {
        der
        fingerprint := fingerprint crates der
        subject := certificate.subject
        notAfter
        subjectHash := hash }

/- What is accepted is a CA certificate as it was decoded. -/
theorem parse_ok
    {der : Bytes}
    {now : Option Int}
    {parsed : Parsed}
    (hParse : parse crates der now = .ok parsed) :
    parsed.der = der ∧
      parsed.fingerprint = fingerprint crates der ∧
      ∃ certificate,
        crates.fromDer der = .ok certificate ∧
          isCa crates certificate = true ∧
          parsed.subject = certificate.subject := by
  simp only [parse, bind_eq_ok_iff, guard_eq_ok_iff,
    mapError_eq_ok_iff, pure_eq_ok_iff] at hParse
  rcases hParse with
    ⟨certificate, hDer, hCa, _, _, _, _, _, rfl⟩
  exact ⟨rfl, rfl, certificate, hDer, by simpa using hCa, rfl⟩

end Cert

end Trustd
