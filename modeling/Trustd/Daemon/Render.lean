import Trustd.Core.Store
import Trustd.Daemon.Disk

/-
  Rendering the compatibility files.

  Key definitions include:
    * `Trustd.Render.Compat`
    * `Trustd.Render.bundleForRoots`
    * `Trustd.Render.writeFile`
    * `Trustd.Render.exchange`
    * `Trustd.Render.render`
    * `Trustd.Render.renderedPaths`
-/

------------------------------------------------------------
-- The Bundle
------------------------------------------------------------

namespace Trustd

namespace Render

open Store Cert

/- `GenerateLinuxTrustFiles`. -/
inductive Compat where
  | none
  | files
  | live
deriving DecidableEq, Repr, Inhabited

def Compat.fromDword (value : Nat) : Compat :=
  match value with
  | 0 => .none
  | 2 => .live
  | _ => .files

def Compat.asDword : Compat → Nat
  | .none => 0
  | .files => 1
  | .live => 2

/- The lines of the header that name no number. -/
def headerLines : List String :=
  ["# Peios trust store — generated by trustd; ",
    "edits are overwritten.\n",
    "#\n",
    "# This file is a compatibility rendering of the ",
    "machine's trust store.\n",
    "# It is composed from the roots the ",
    "ca-certificates package ships and\n",
    "# the additions and distrusts under ",
    "Machine\\System\\Trust\\Certificates.\n",
    "# To change what this machine trusts, use ",
    "`trust add` / `trust distrust`\n",
    "# or write the registry directly — never this ",
    "file.\n",
    "#\n"]

def headerText : Text :=
  headerLines.flatMap String.toList

/- `header`. -/
def header (roots : List Entry) : Text :=
  headerText ++ "# ".toList ++ Text.decimal roots.length ++
    " root(s): ".toList ++
    Text.decimal
      (roots.countP (fun r => r.source = .shipped)) ++
    " shipped, ".toList ++
    Text.decimal
      (roots.countP (fun r => r.source = .added)) ++
    " added.\n\n".toList

/- What the bundle says of one root. -/
def bundleRoot (root : Entry) : Text :=
  "# ".toList ++ root.parsed.subject ++ ['\n'] ++
    (match root.name with
      | some name => "# added as ".toList ++ name ++ ['\n']
      | none => []) ++
    "# SHA-256 ".toList ++ root.parsed.fingerprint ++
    ['\n'] ++ toPem root.parsed.der ++ ['\n']

/- `bundle_for_roots`. -/
def bundleForRoots (roots : List Entry) : Text :=
  header roots ++ roots.flatMap bundleRoot

/- `bundle`. -/
def bundle (composed : Composed) : Text :=
  bundleForRoots (forPurpose composed.roots serverAuth)

end Render

end Trustd

------------------------------------------------------------
-- Writing One File
------------------------------------------------------------

namespace Trustd

namespace Render

open General

/- `at`: say what was being done to which path. -/
def withContext {α : Type}
    (operation : Text)
    (path : Path)
    (x : Action α) :
    Action α :=
  Prog.mapError (fun e =>
    { kind := e.kind
      rawOsError := none
      text := operation ++ [' '] ++ path.display ++
        ": ".toList ++ e.text }) x

/- A file of the store directory, or of one inside it. -/
def place (dir : Option Text) (name : Text) : Path :=
  match dir with
  | none => .entry name
  | some dir => .child dir name

def createFile (dir : Option Text) (name : Text) :
    Action Unit :=
  match dir with
  | none => createNew name
  | some dir => createNewChild dir name

def renameFile (dir : Option Text) (source target : Text) :
    Action Unit :=
  match dir with
  | none => renameEntry source target
  | some dir => renameChild dir source target

def removeFileIn (dir : Option Text) (name : Text) :
    Action Unit :=
  match dir with
  | none => removeFile name
  | some dir => removeChild dir name

/- The name of a temporary file. -/
def temporaryName (pid next : Nat) : Text :=
  ".trustd-".toList ++ Text.decimal pid ++ ['-'] ++
    Text.decimal next ++ ".tmp".toList

/- Take the next number for a temporary file. -/
def reserveName : Action Text :=
  Prog.step (fun _ h =>
    (.ok (temporaryName h.pid h.next),
      { h with next := h.next + 1 }))

/- `TemporaryFile::create`, over at most so many tries. -/
def createTemporary (dir : Option Text) : Nat → Action Text
  | 0 =>
      Prog.throw {
        kind := .alreadyExists
        rawOsError := none
        text := "cannot reserve a trust staging file".toList }
  | tries + 1 => do
      let name ← reserveName
      let result ← Prog.attempt (createFile dir name)
      match result with
      | .ok () => pure name
      | .error e =>
          if e.kind = .alreadyExists then
            createTemporary dir tries
          else Prog.throw e

/-
  `write_file`. Dropping the temporary file removes it by
  name, whether or not it was renamed.
-/
def writeFile
    (dir : Option Text)
    (name : Text)
    (contents : Bytes) :
    Action Unit := do
  let temporary ← createTemporary dir 64
  let result ← Prog.attempt (do
    writeAll (place dir temporary) contents
    inspect
    renameFile dir temporary name)
  let _ ← (Prog.attempt (removeFileIn dir temporary) :
    Action (Except IoError Unit))
  Prog.ofExcept result

end Render

end Trustd

------------------------------------------------------------
-- Directories
------------------------------------------------------------

namespace Trustd

namespace Render

open General

/- Success also when there was nothing to remove. -/
def ifPresent (x : Action Unit) : Action Unit := do
  let result ← Prog.attempt x
  match result with
  | .ok () => pure ()
  | .error e =>
      if e.kind = .notFound then pure () else Prog.throw e

/- `remove_if_present`. -/
def removeIfPresent (name : Text) : Action Unit :=
  ifPresent (removeFile name)

/- `remove_dir_if_present`. -/
def removeDirIfPresent (name : Text) : Action Unit :=
  ifPresent (removeDirAll name)

/-
  `empty_dir`: each entry is listed, its type asked for and
  the entry removed; the listing can also fail at its end.
-/
def emptyDir (name : Text) : Action Unit := do
  let entries ← readDir name
  Prog.forEach (fun e => do
    inspect
    inspect
    removeByType name e) entries
  inspect

/- `EINVAL`, `ENOSYS`, `ENOTSUP`, or a refusal. -/
def lacksExchange (e : IoError) : Bool :=
  e.rawOsError == some 22 || e.rawOsError == some 38 ||
    e.rawOsError == some 95 || e.kind == .permissionDenied

/- `exchange_fallback`, with `fs::rename` for renaming. -/
def exchangeFallback : Action Unit := do
  removeDirIfPresent previousName
  renameEntry certsName previousName
  let installed ← Prog.attempt
    (renameEntry stagingName certsName)
  match installed with
  | .ok () => removeDirIfPresent previousName
  | .error installError =>
      let restored ← Prog.attempt
        (renameEntry previousName certsName)
      match restored with
      | .ok () => Prog.throw installError
      | .error restoreError =>
          Prog.throw {
            kind := installError.kind
            rawOsError := none
            text := "rename ".toList ++
              (Path.entry stagingName).display ++
              " to ".toList ++
              (Path.entry certsName).display ++ ": ".toList ++
              installError.text ++ "; restore ".toList ++
              (Path.entry previousName).display ++
              " to ".toList ++
              (Path.entry certsName).display ++ ": ".toList ++
              restoreError.text }

/- `exchange` of the staging directory and `certs`. -/
def exchange : Action Unit := do
  let live ← pathExists (.entry certsName)
  if live then
    let result ← Prog.attempt
      (exchangeEntries stagingName certsName)
    match result with
    | .ok () => removeDirIfPresent stagingName
    | .error e =>
        if lacksExchange e then exchangeFallback
        else Prog.throw e
  else renameEntry stagingName certsName

end Render

end Trustd

------------------------------------------------------------
-- Rendering
------------------------------------------------------------

namespace Trustd

namespace Render

open General Store Cert

/- The next sequence number of a subject hash. -/
def nextSequence (used : List (Text × Nat)) (hash : Text) :
    Nat :=
  match used.find? (fun u => u.1 = hash) with
  | some (_, n) => n + 1
  | none => 0

/- `used` after one more file under a subject hash. -/
def recordSequence
    (used : List (Text × Nat))
    (hash : Text) :
    List (Text × Nat) :=
  if used.any (fun u => u.1 = hash) then
    used.map (fun u =>
      if u.1 = hash then (hash, u.2 + 1) else u)
  else used ++ [(hash, 0)]

/- The files of the hashed directory, in the order written. -/
def hashedFiles (used : List (Text × Nat)) :
    List Entry → List (Text × Bytes)
  | [] => []
  | root :: rest =>
      let hash := root.parsed.subjectHash
      (hash ++ ['.'] ++ Text.decimal (nextSequence used hash),
        Text.utf8 (toPem root.parsed.der)) ::
          hashedFiles (recordSequence used hash) rest

def bundleName : Text := "ca-certificates.crt".toList

/- Every file written to the staging directory, in order. -/
def stagedFiles (roots : List Entry) :
    List (Text × Bytes) :=
  (bundleName, Text.utf8 (bundleForRoots roots)) ::
    hashedFiles [] roots

def stageFile (file : Text × Bytes) : Action Unit :=
  withContext "write".toList (.child stagingName file.1)
    (writeFile (some stagingName) file.1 file.2)

/- Empty the staging directory, or create it. -/
def prepareStaging : Action Unit := do
  let present ← pathExists (.entry stagingName)
  if present then
    withContext "empty".toList (.entry stagingName)
      (emptyDir stagingName)
  else
    withContext "create".toList (.entry stagingName)
      (createDirAll stagingName)

/- `render` in `Compat::None`. -/
def renderNone : Action (List Text) := do
  withContext "remove".toList (.entry certPemName)
    (removeIfPresent certPemName)
  let present ← pathExists (.entry certsName)
  if present then
    withContext "empty".toList (.entry certsName)
      (emptyDir certsName)
    pure []
  else pure []

/- `render` in the modes that write files. -/
def renderFiles (composed : Composed) :
    Action (List Text) := do
  withContext "create".toList .store createStore
  prepareStaging
  let roots := forPurpose composed.roots serverAuth
  Prog.forEach stageFile (stagedFiles roots)
  withContext "install".toList (.entry certsName) exchange
  withContext "write".toList (.entry certPemName)
    (writeFile none certPemName
      (Text.utf8 (bundleForRoots roots)))
  pure [(Path.child certsName bundleName).display,
    (Path.entry certPemName).display,
    (Path.entry certsName).display]

/- `render`. -/
def render (composed : Composed) (compat : Compat) :
    Action (List Text) :=
  match compat with
  | .none => renderNone
  | .files => renderFiles composed
  | .live => renderFiles composed

/- `rendered_paths`. -/
def renderedPaths : Action (List Text) := do
  let bundlePath := Path.child certsName bundleName
  let hasBundle ← pathExists bundlePath
  let hasCertPem ← pathExists (.entry certPemName)
  pure ((if hasBundle then [bundlePath.display] else []) ++
    (if hasCertPem then
      [(Path.entry certPemName).display] else []))

end Render

end Trustd
