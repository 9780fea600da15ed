import Trustd.Client.Registry
import Trustd.Core.Wire
import Trustd.Daemon.Fingerprints
import Trustd.General.Scripts

/-
  The commands that change what is trusted, one registry call
  at a time.

  Between two calls of a command those of others may be
  served. Where none are, a command is the program that its
  calls make up.

  Key definitions include:
    * `Trustd.ClientCore.Call`
    * `Trustd.ClientCore.serve`
    * `Trustd.ClientCore.Steps.add`
    * `Trustd.ClientCore.Steps.remove`
    * `Trustd.ClientCore.Steps.distrust`
    * `Trustd.ClientCore.Steps.restore`
    * `Trustd.ClientCore.Steps.setCompat`
    * `Trustd.ClientCore.Command`
-/

------------------------------------------------------------
-- What Is Said And Written
------------------------------------------------------------

namespace Trustd

namespace ClientCore

open General Registry Store Cert

/- `Error`. -/
inductive Error where
  | denied (what : Text)
  | notFound (why : Text)
  | failed (why : Text)
deriving DecidableEq, Repr

/- `registry_error`. -/
def registryError (path : Text) (error : IoError) : Error :=
  if error.kind = .permissionDenied then .denied path
  else .failed (path ++ ": ".toList ++ error.text)

/- An open key: the names on the path to it. -/
abbrev Handle : Type := List Text

/- `Distrusted`. -/
structure Distrusted where
  fingerprint : Text
  reason : Text
deriving DecidableEq, Repr

/- The path of `Distrust`. -/
def distrustPath : Text :=
  certificatesPath ++ "\\".toList ++ distrustKey

/- What is listed for a value, if anything is. -/
def distrustedOf
    (item : Except IoError (Bytes × RegValue)) :
    Option Distrusted :=
  match item with
  | .error _ => none
  | .ok value =>
      match Text.fromUtf8 value.1 with
      | none => none
      | some name =>
          some {
            fingerprint := normaliseFingerprint name
            reason := Text.fromUtf8Lossy
              (value.2.data.takeWhile (· ≠ 0)) }

/- By fingerprint, and else in the order they are listed. -/
def sortDistrusted (entries : List Distrusted) :
    List Distrusted :=
  entries.insertionSort (fun a b =>
    bytesLe (Text.utf8 a.fingerprint)
      (Text.utf8 b.fingerprint) = true)

/- `usable_name`. -/
def usableName (name : Text) : Bool :=
  !(Text.trim name).isEmpty && !name.contains '\\' &&
    !name.contains '/'

/- The purposes as they are written. -/
def purposesData (purposes : List Text) : Bytes :=
  (purposes.flatMap (fun p => Text.utf8 p ++ [0])) ++ [0]

/- The value that purposes are written as. -/
def purposesWritten (purposes : List Text) : RegValue :=
  { ty := .multiSz, data := purposesData purposes }

/- The value that a certificate is written as. -/
def certificateWritten (der : Bytes) : RegValue :=
  { ty := .binary, data := der }

/- How the registry's errors name an addition. -/
def shownAddition (name : Text) : Text :=
  certificatesPath ++ "\\".toList ++ addKey ++ "\\".toList ++
    name

/- `hex`. -/
def hex (text : Text) : Bool :=
  decide (text ≠ []) && text.all Text.isAsciiHexdigit

/- `vet`. -/
def vet (crates : Crates) (now : Option Int) (der : Bytes) :
    Except Cert.Error Parsed :=
  parse crates der now

end ClientCore

end Trustd

------------------------------------------------------------
-- Calls
------------------------------------------------------------

namespace Trustd

namespace Registry

open General

variable (naming : Naming)

/- `Key::delete_key`, on the key that holds it. -/
def Key.deleteChild (name : Text) (key : Key) : Key :=
  .mk key.values
    (remove naming.fold key.subkeys (Text.utf8 name))

/- The registry without the key at the end of a path. -/
def Key.deleteAt (path : List Text) (hive : Key) : Key :=
  match path.getLast? with
  | none => hive
  | some name =>
      hive.edit naming (Key.deleteChild naming name)
        path.dropLast

end Registry

namespace ClientCore

open General Registry

/- What the registry can be asked. -/
inductive Call where
  | openKey (parent : Handle) (path : Text)
  | createKey (parent : Handle) (path : Text)
  | setValue (key : Handle) (name : Text) (value : RegValue)
  | deleteValue (key : Handle) (name : Text)
  | deleteKey (key : Handle)
  | listValues (key : Handle)
  | readValue (value : Bytes × RegValue)

/- What it then gives. -/
def Call.Result : Call → Type
  | openKey _ _ => Handle
  | createKey _ _ => Handle
  | setValue _ _ _ => Unit
  | deleteValue _ _ => Unit
  | deleteKey _ => Unit
  | listValues _ => List (Bytes × RegValue)
  | readValue _ => Bytes × RegValue

/- The answer to a call. -/
abbrev Answer (call : Call) : Type :=
  Except IoError call.Result

section

variable (naming : Naming)
variable (missing : Missing)

/- What a call does. -/
def perform : (call : Call) → Key → Answer call × Key
  | .openKey parent path, hive =>
      let key := parent ++ components path
      match hive.follow naming key with
      | some _ => (.ok key, hive)
      | none => (.error missing, hive)
  | .createKey parent path, hive =>
      let key := parent ++ components path
      (.ok key, hive.edit naming id key)
  | .setValue key name value, hive =>
      match hive.follow naming key with
      | some _ =>
          (.ok (), hive.edit naming
            (Key.setValue naming name value) key)
      | none => (.error missing, hive)
  | .deleteValue key name, hive =>
      match (hive.follow naming key).bind (fun k =>
          k.value naming name) with
      | some _ =>
          (.ok (), hive.edit naming
            (Key.deleteValue naming name) key)
      | none => (.error missing, hive)
  | .deleteKey key, hive =>
      match hive.follow naming key with
      | some _ => (.ok (), hive.deleteAt naming key)
      | none => (.error missing, hive)
  | .listValues key, hive =>
      match hive.follow naming key with
      | some k => (.ok k.values, hive)
      | none => (.error missing, hive)
  | .readValue value, hive => (.ok value, hive)

/- A call is refused with the error that is its fault. -/
def serve
    (call : Call)
    (fault : Option IoError)
    (hive : Key) :
    Answer call × Key :=
  match fault with
  | some e => (.error e, hive)
  | none => perform naming missing call hive

end

end ClientCore

end Trustd

------------------------------------------------------------
-- Commands
------------------------------------------------------------

namespace Trustd

namespace ClientCore

open General Registry Store Cert Wire

/- Programs that can be served one call at a time. -/
abbrev Steps (ε α : Type) : Type :=
  Script Call Answer ε α

namespace Steps

/- One call. -/
def call (call : Call) : Steps IoError call.Result :=
  Script.ask call (fun answer => Script.ofExcept answer)

/- `Key::open`. -/
def openKey (parent : Handle) (path : Text) :
    Steps IoError Handle :=
  call (.openKey parent path)

/- `Key::create`. -/
def createKey (parent : Handle) (path : Text) :
    Steps IoError Handle :=
  call (.createKey parent path)

/- `Key::set_value`. -/
def setValue
    (key : Handle)
    (name : Text)
    (value : RegValue) :
    Steps IoError Unit :=
  call (.setValue key name value)

/- `Key::delete_value`. -/
def deleteValue (key : Handle) (name : Text) :
    Steps IoError Unit :=
  call (.deleteValue key name)

/- `Key::delete_key`. -/
def deleteKey (key : Handle) : Steps IoError Unit :=
  call (.deleteKey key)

/- The values of an open key, as they are listed first. -/
def listValues (key : Handle) :
    Steps IoError (List (Bytes × RegValue)) :=
  call (.listValues key)

/- One of them, read. -/
def readValue (value : Bytes × RegValue) :
    Steps IoError (Bytes × RegValue) :=
  call (.readValue value)

/- `open_or_create`. -/
def openOrCreate
    (parent : Handle)
    (path shown : Text) :
    Steps Error Handle :=
  (createKey parent path).mapError (registryError shown)

/- `certificates`. -/
def certificates (which : Text) : Steps Error Handle :=
  openOrCreate [] certificatesPath certificatesPath >>=
    fun certificates =>
  openOrCreate certificates which
    (certificatesPath ++ "\\".toList ++ which)

/- Writing a value, as errors of what is shown. -/
def writeValue
    (shown : Text)
    (key : Handle)
    (name : Text)
    (value : RegValue) :
    Steps Error Unit :=
  (setValue key name value).mapError (registryError shown)

/- `add`. -/
def add
    (debug : Text → Text)
    (crates : Crates)
    (now : Option Int)
    (name : Text)
    (der : Bytes)
    (purposes : List Text) :
    Steps Error Parsed :=
  if usableName name = false then
    Script.fail (.failed
      (debug name ++ " is not a usable name".toList))
  else
    match vet crates now der with
    | .error e => Script.fail (.failed
        ("the certificate is ".toList ++ e.text))
    | .ok parsed =>
        certificates addKey >>= fun add =>
        openOrCreate add name (shownAddition name) >>=
          fun entry =>
        (if purposes = [] then pure ()
          else writeValue (shownAddition name) entry
            purposesValue (purposesWritten purposes)) >>=
          fun _ =>
        writeValue (shownAddition name) entry
          certificateValue (certificateWritten der) >>= fun _ =>
        pure parsed

/- What is said of an addition that is not there. -/
def noAddition (name : Text) : Error :=
  .notFound ("no addition named ".toList ++ name)

/- `remove`. -/
def remove (name : Text) : Steps Error Unit :=
  (openKey [] (certificatesPath ++ "\\".toList ++
    addKey)).mapError (fun _ => noAddition name) >>= fun add =>
  (openKey add name).mapError (fun e =>
    if e.kind = .notFound then noAddition name
    else registryError (shownAddition name) e) >>= fun entry =>
  (deleteKey entry).mapError
    (registryError (shownAddition name))

/- The value a distrust is written as. -/
def reasonWritten (reason : Text) : RegValue :=
  { ty := .sz, data := Text.utf8 reason ++ [0] }

/- `distrust`, with the roots that are served meanwhile. -/
def distrust
    (served : Option (List Root))
    (fingerprint reason : Text) :
    Steps Error (Option Text) :=
  let fingerprint := normaliseFingerprint fingerprint
  if hex fingerprint = false ∨ fingerprint.length ≠ 64 then
    Script.fail (.failed (fingerprint ++
      " is not a whole SHA-256 fingerprint".toList))
  else
    certificates distrustKey >>= fun key =>
    writeValue distrustPath key fingerprint
      (reasonWritten reason) >>= fun _ =>
    pure ((served.bind (fun list => list.find? (fun r =>
      r.fingerprint = fingerprint))).map Root.subject)

/- Each value that is listed, which may fail to be read. -/
def readValues {ε : Type} :
    List (Bytes × RegValue) →
      Steps ε (List (Except IoError (Bytes × RegValue)))
  | [] => pure []
  | value :: rest =>
      (readValue value).attempt >>= fun item =>
      readValues rest >>= fun items =>
      pure (item :: items)

/- `Key::values`. -/
def values {ε : Type} (key : Handle) :
    Steps ε (List (Except IoError (Bytes × RegValue))) :=
  (listValues key).attempt >>= fun listed =>
  match listed with
  | .error e => pure [.error e]
  | .ok records => readValues records

/- `distrusted`. -/
def distrusted : Steps Error (List Distrusted) :=
  (openKey [] distrustPath).attempt >>= fun opened =>
  match opened with
  | .error e =>
      if e.kind = .notFound then pure []
      else Script.fail (.failed
        (distrustPath ++ ": ".toList ++ e.text))
  | .ok key =>
      values key >>= fun items =>
      pure (sortDistrusted (items.filterMap distrustedOf))

/- What there is to take back, by a fingerprint or a prefix. -/
def resolveDistrusted (normalised : Text) :
    Steps Error Text :=
  if normalised.length = 64 then pure normalised
  else
    distrusted >>= fun entries =>
    match entries.filter (fun d =>
        normalised.isPrefixOf d.fingerprint) with
    | [d] => pure d.fingerprint
    | [] => Script.fail (.notFound
        ("nothing distrusted starts with ".toList ++
          normalised))
    | many => Script.fail (.failed
        (normalised ++ " matches ".toList ++
          Text.decimal many.length ++
          " distrust entries; be more specific".toList))

/- What is said of a fingerprint that is not distrusted. -/
def notDistrusted (fingerprint : Text) : Error :=
  .notFound (fingerprint ++ " is not distrusted".toList)

/- `restore`. -/
def restore (argument : Text) : Steps Error Text :=
  resolveDistrusted (normaliseFingerprint argument) >>=
    fun fingerprint =>
  (openKey [] distrustPath).mapError (fun e =>
    if e.kind = .notFound then notDistrusted fingerprint
    else registryError distrustPath e) >>= fun key =>
  (deleteValue key fingerprint).attempt >>=
    fun deleted =>
  match deleted with
  | .ok _ => pure fingerprint
  | .error e =>
      if e.kind = .notFound then
        Script.fail (notDistrusted fingerprint)
      else Script.fail (registryError distrustPath e)

/- `u32::to_le_bytes`. -/
def toLeBytes (value : UInt32) : Bytes :=
  [value.toUInt8, (value >>> 8).toUInt8,
    (value >>> 16).toUInt8, (value >>> 24).toUInt8]

/- `set_compat`. -/
def setCompat (mode : UInt32) : Steps Error Unit :=
  (openKey [] trustPath).mapError
    (registryError trustPath) >>= fun key =>
  writeValue trustPath key compatValue
    { ty := .dword, data := toLeBytes mode }

/- `may_change`. -/
def mayChange : Steps Error Unit :=
  (openKey [] certificatesPath).attempt >>=
    fun opened =>
  match opened with
  | .ok _ => pure ()
  | .error e =>
      if e.kind = .notFound then
        (openKey [] trustPath).mapError
          (registryError trustPath) >>= fun _ => pure ()
      else Script.fail (registryError certificatesPath e)

/- `may_set_compat`. -/
def maySetCompat : Steps Error Unit :=
  (openKey [] trustPath).mapError
    (registryError trustPath) >>= fun _ => pure ()

end Steps

/- What a client may set out to do. -/
inductive Command where
  | add (now : Option Int) (name : Text) (der : Bytes)
      (purposes : List Text)
  | remove (name : Text)
  | distrust (served : Option (List Root))
      (fingerprint reason : Text)
  | restore (argument : Text)
  | setCompat (mode : UInt32)
  | list
  | mayChange
  | maySetCompat

/- What comes of a command that is carried out. -/
inductive Done where
  | added (parsed : Parsed)
  | removed
  | distrusted (was : Option Text)
  | restored (fingerprint : Text)
  | compatSet
  | listed (entries : List Distrusted)
  | allowed

/- The calls of a command. -/
def Command.steps
    (debug : Text → Text)
    (crates : Crates) :
    Command → Steps Error Done
  | .add now name der purposes =>
      Steps.add debug crates now name der purposes >>=
        fun parsed => pure (.added parsed)
  | .remove name =>
      Steps.remove name >>= fun _ => pure .removed
  | .distrust served fingerprint reason =>
      Steps.distrust served fingerprint reason >>= fun was =>
      pure (.distrusted was)
  | .restore argument =>
      Steps.restore argument >>= fun fingerprint =>
      pure (.restored fingerprint)
  | .setCompat mode =>
      Steps.setCompat mode >>= fun _ => pure .compatSet
  | .list =>
      Steps.distrusted >>= fun entries =>
      pure (.listed entries)
  | .mayChange => Steps.mayChange >>= fun _ => pure .allowed
  | .maySetCompat =>
      Steps.maySetCompat >>= fun _ => pure .allowed

end ClientCore

end Trustd
