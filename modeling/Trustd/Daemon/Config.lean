import Mathlib.Data.List.Destutter
import Trustd.Daemon.Render

/-
  Reading `Machine\System\Trust`.

  How a key is read is left to the registry, and so is the
  monad the reads run in: a read that fails, and one that
  sees the registry change between two others, are both
  instances.

  Key definitions include:
    * `Trustd.Registry.Reader`
    * `Trustd.Registry.Config`
    * `Trustd.Registry.loadFrom`
    * `Trustd.Registry.Key`
-/

------------------------------------------------------------
-- Registry Reads
------------------------------------------------------------

namespace Trustd

namespace Registry

/- `ValueType`: the types that are asked about. -/
inductive ValueType where
  | sz
  | expandSz
  | binary
  | dword
  | multiSz
  | other (code : Nat)
deriving DecidableEq, Repr

/- `RegValue`. -/
structure RegValue where
  ty : ValueType
  data : Bytes
deriving DecidableEq, Repr

/-
  `Reader`: a value by name, the names of the values, the
  names of the subkeys, and a subkey by name.
-/
class Reader (m : Type → Type) (κ : Type) where
  value : κ → Text → m (Option RegValue)
  values : κ → m (List Bytes)
  names : κ → m (List Bytes)
  child : κ → Text → m (Option κ)

/- `invalid`. -/
def invalid (message : Text) : IoError :=
  { kind := .invalidData
    rawOsError := none
    text := message }

def addKey : Text := "Add".toList

def distrustKey : Text := "Distrust".toList

def certificatesKey : Text := "Certificates".toList

def certificateValue : Text := "Certificate".toList

def purposesValue : Text := "Purposes".toList

def compatValue : Text := "GenerateLinuxTrustFiles".toList

def controlSecurityValue : Text := "ControlSecurity".toList

section

variable {m : Type → Type}
variable [Monad m]
variable [MonadExceptOf IoError m]

/- `text`. -/
def text (bytes : Bytes) : m Text :=
  match Text.fromUtf8 bytes with
  | some t => pure t
  | none =>
      throw (invalid "registry text is not UTF-8".toList)

/- `slice::split` at zero bytes. -/
def splitZero : Bytes → List Bytes
  | [] => [[]]
  | b :: rest =>
      if b = 0 then [] :: splitZero rest
      else
        match splitZero rest with
        | part :: parts => (b :: part) :: parts
        | [] => [[b]]

/- `multi`. -/
def multi (value : RegValue) : m (Option (List Text)) :=
  match value.ty with
  | .multiSz =>
      some <$> ((splitZero value.data).filter
        (· ≠ [])).mapM text
  | .sz => (fun t => some [t]) <$>
      text (value.data.takeWhile (· ≠ 0))
  | .expandSz => (fun t => some [t]) <$>
      text (value.data.takeWhile (· ≠ 0))
  | _ => pure none

/- `strings`. -/
def strings {κ : Type} [Reader m κ]
    (reader : κ)
    (name : Text) :
    m (Option (List Text)) := do
  let value : Option RegValue ← Reader.value reader name
  match value with
  | none => pure none
  | some value => multi value

end

end Registry

end Trustd

------------------------------------------------------------
-- The Configuration
------------------------------------------------------------

namespace Trustd

namespace Registry

open Render Store

/- `Config`, with its defaults. -/
structure Config where
  additions : List Addition := []
  distrust : List Text := []
  compat : Compat := .files
  controlSecurity : Option Bytes := none
deriving DecidableEq, Repr

instance : Inhabited Config := ⟨{}⟩

/- `u32::from_le_bytes`, over as many bytes as there are. -/
def fromLeBytes : Bytes → Nat
  | [] => 0
  | b :: rest => b.toNat + 256 * fromLeBytes rest

/- The compat mode of its value. -/
def compatOf (value : Option RegValue) : Compat :=
  match value with
  | some v =>
      if v.ty = .dword ∧ v.data.length = 4 then
        Compat.fromDword (fromLeBytes v.data)
      else .files
  | none => .files

/- The control object's descriptor of its value. -/
def controlSecurityOf (value : Option RegValue) :
    Option Bytes :=
  (value.filter (fun v =>
    v.ty = .binary ∧ v.data ≠ [])).map RegValue.data

/- The fingerprint a distrust's name stands for, if any. -/
def fingerprintOf (name : Text) : Option Text :=
  let fingerprint := normaliseFingerprint name
  if fingerprint.length ≠ 64 ∨
      fingerprint.all Text.isAsciiHexdigit = false then none
  else some fingerprint

/- Additions by name. -/
def sortAdditions (additions : List Addition) :
    List Addition :=
  additions.insertionSort (fun a b =>
    bytesLe (Text.utf8 a.name) (Text.utf8 b.name) = true)

/- Fingerprints in order, each of them once. -/
def sortDistrust (distrust : List Text) : List Text :=
  (distrust.insertionSort (fun a b =>
    bytesLe (Text.utf8 a) (Text.utf8 b) = true)).destutter
      (· ≠ ·)

section

variable {m : Type → Type}
variable [Monad m]
variable [MonadExceptOf IoError m]
variable {κ : Type}
variable [Reader m κ]

/- One turn of the loop over the subkeys of `Add`. -/
def loadAddition (add : κ) (subkey : Bytes) :
    m (Option Addition) := do
  let name ← text subkey
  let found : Option κ ← Reader.child add name
  match found with
  | none =>
      throw (invalid
        "enumerated certificate key disappeared".toList)
  | some entry =>
      let certificate : Option RegValue ←
        Reader.value entry certificateValue
      match certificate with
      -- an entry that is still being written, or abandoned
      | none => pure none
      | some certificate =>
          if certificate.ty ≠ .binary ∨
              certificate.data = [] then
            pure none
          else
            let purposes : Option (List Text) ←
              strings entry purposesValue
            pure (some {
              name
              der := certificate.data
              purposes := purposes.getD [] })

/- The loop over the subkeys of `Add`. -/
def loadAdditions (add : κ) :
    List Bytes → m (List Addition)
  | [] => pure []
  | subkey :: rest => do
      let addition ← loadAddition add subkey
      let additions ← loadAdditions add rest
      pure (addition.toList ++ additions)

/- The loop over the values of `Distrust`. -/
def loadDistrust : List Bytes → m (List Text)
  | [] => pure []
  | value :: rest => do
      let name ← text value
      let distrust ← loadDistrust rest
      pure ((fingerprintOf name).toList ++ distrust)

/- `load_from`. -/
def loadFrom (root : Option κ) : m Config := do
  match root with
  | none => pure {}
  | some root =>
      let compatFound : Option RegValue ←
        Reader.value root compatValue
      let security : Option RegValue ←
        Reader.value root controlSecurityValue
      let compat := compatOf compatFound
      let controlSecurity := controlSecurityOf security
      let certificates : Option κ ←
        Reader.child root certificatesKey
      match certificates with
      | none => pure { compat, controlSecurity }
      | some certificates =>
          let add : Option κ ←
            Reader.child certificates addKey
          let additions ←
            match add with
            | none => pure []
            | some add => do
                let names : List Bytes ← Reader.names add
                loadAdditions add names
          let distrusted : Option κ ←
            Reader.child certificates distrustKey
          let distrust ←
            match distrusted with
            | none => pure []
            | some distrusted => do
                let values : List Bytes ←
                  Reader.values distrusted
                loadDistrust values
          pure {
            additions := sortAdditions additions
            distrust := sortDistrust distrust
            compat
            controlSecurity }

/- `load`: the key itself is opened first. -/
def load (root : m (Option κ)) : m Config := do
  let root ← root
  loadFrom root

end

end Registry

end Trustd

------------------------------------------------------------
-- A Registry That Can Be Read
------------------------------------------------------------

namespace Trustd

namespace Registry

/- A key with its values and its subkeys. -/
inductive Key where
  | mk
      (values : List (Bytes × RegValue))
      (subkeys : List (Bytes × Key))

def Key.values : Key → List (Bytes × RegValue)
  | .mk values _ => values

def Key.subkeys : Key → List (Bytes × Key)
  | .mk _ subkeys => subkeys

/- Reading a key that is there and can be read. -/
instance : Reader (Except IoError) Key where
  value key name :=
    pure ((key.values.find?
      (fun v => v.1 = Text.utf8 name)).map Prod.snd)
  values key := pure (key.values.map Prod.fst)
  names key := pure (key.subkeys.map Prod.fst)
  child key name :=
    pure ((key.subkeys.find?
      (fun k => k.1 = Text.utf8 name)).map Prod.snd)

end Registry

end Trustd
