import Trustd.General.Fallible
import Trustd.Core.Text

/-
  The store directory and the filesystem calls made on it.

  Every call is one step that its fault may fail; a call that
  walks a directory is a loop of such steps. What lies inside
  a folder below `certs` or its siblings is never read, so a
  folder is the number of things it holds.

  Key definitions include:
    * `Trustd.Render.Disk`
    * `Trustd.Render.Host`
    * `Trustd.Render.Fault`
    * `Trustd.Render.syscall`
    * `Trustd.Render.writeAll`
    * `Trustd.Render.renameEntry`
    * `Trustd.Render.removeDirAll`

  Key theorems include:
    * `Trustd.Render.Disk.node_setNode_of_ne`
    * `Trustd.Render.Disk.node_setNode_self`
-/

------------------------------------------------------------
-- The Store Directory
------------------------------------------------------------

namespace Trustd

namespace Render

/- What can lie inside a directory of the store. -/
inductive Leaf where
  | file (data : Bytes)
  | folder (holds : Nat)
deriving DecidableEq, Repr

abbrev Entries := List (Text × Leaf)

/-
  What can lie in the store directory. A directory has an
  identity of its own that a rename carries along.
-/
inductive Node where
  | file (data : Bytes)
  | dir (id : Nat) (entries : Entries)
deriving DecidableEq, Repr

/- The store directory, where it exists, by name. -/
structure Disk where
  store : Option (Text → Option Node)

/- A path into the store: the store, an entry, a child. -/
inductive Path where
  | store
  | entry (name : Text)
  | child (dir name : Text)
deriving DecidableEq, Repr

/- `STORE_DIR`. -/
def storeDir : Text := "/system/retc/ssl".toList

/- `Path::display`. -/
def Path.display : Path → Text
  | .store => storeDir
  | .entry name => storeDir ++ ['/'] ++ name
  | .child dir name => storeDir ++ ['/'] ++ dir ++ ['/'] ++ name

namespace Disk

def node (d : Disk) (name : Text) : Option Node :=
  match d.store with
  | none => none
  | some names => names name

def setNode (d : Disk) (name : Text) (n : Option Node) :
    Disk :=
  { store := d.store.map (fun names =>
      Function.update names name n) }

def entriesOf (d : Disk) (dir : Text) : Option Entries :=
  match d.node dir with
  | some (.dir _ entries) => some entries
  | _ => none

@[simp] theorem node_setNode_of_ne
    (d : Disk)
    {name other : Text}
    (hNe : other ≠ name)
    (n : Option Node) :
    (d.setNode name n).node other = d.node other := by
  rcases d with ⟨_ | names⟩
  · rfl
  · exact Function.update_of_ne hNe n names

theorem node_setNode_none
    (d : Disk)
    (name : Text) :
    (d.setNode name none).node name = none := by
  rcases d with ⟨_ | names⟩
  · rfl
  · exact Function.update_self name none names

theorem node_setNode_self
    (d : Disk)
    (hStore : d.store.isSome = true)
    (name : Text)
    (n : Option Node) :
    (d.setNode name n).node name = n := by
  rcases d with ⟨_ | names⟩
  · cases hStore
  · exact Function.update_self name n names

theorem store_of_node
    {d : Disk}
    {name : Text}
    {n : Node}
    (hNode : d.node name = some n) :
    d.store.isSome = true := by
  rcases d with ⟨_ | names⟩
  · cases hNode
  · rfl

@[simp] theorem store_setNode
    (d : Disk)
    (name : Text)
    (n : Option Node) :
    (d.setNode name n).store.isSome = d.store.isSome := by
  simp [setNode]

end Disk

/- A directory's entry by name. -/
def lookupEntry (name : Text) (entries : Entries) :
    Option Leaf :=
  (entries.find? (fun e => e.1 = name)).map Prod.snd

def eraseEntry (name : Text) (entries : Entries) : Entries :=
  entries.filter (fun e => e.1 ≠ name)

def insertEntry
    (name : Text)
    (leaf : Leaf)
    (entries : Entries) :
    Entries :=
  eraseEntry name entries ++ [(name, leaf)]

end Render

end Trustd

------------------------------------------------------------
-- The Host
------------------------------------------------------------

namespace Trustd

namespace Render

def certsName : Text := "certs".toList

def stagingName : Text := "certs.new".toList

def previousName : Text := "certs.previous".toList

def certPemName : Text := "cert.pem".toList

/-
  The disk and what a process numbers its files with: its
  own number and `NEXT`. `nextId` is the filesystem's own
  counter for new directories, and `installed` is a history
  variable no call reads: the last thing that was at `certs`.
-/
structure Host where
  disk : Disk
  pid : Nat
  next : Nat
  nextId : Nat
  installed : Option Node

/-
  How one call goes: the error it fails with, whether a stat
  fails, and how much of its input a write takes.
-/
structure Fault where
  error : Option IoError := none
  statFails : Bool := false
  count : Nat := 0
deriving DecidableEq, Repr, Inhabited

abbrev Action := General.Prog Host Fault IoError

/- Record what is at `certs` now. -/
def Host.note (h : Host) : Host :=
  { h with installed :=
      match h.disk.node certsName with
      | some n => some n
      | none => h.installed }

/- A call that fails as its fault says, or does its work. -/
def syscall {α : Type}
    (op : Host → Except IoError α × Host) : Action α :=
  General.Prog.step (fun f h =>
    match f.error with
    | some e => (.error e, h)
    | none => ((op h).1, (op h).2.note))

/- A call's result that changes the disk. -/
def done (h : Host) (disk : Disk) :
    Except IoError Unit × Host :=
  (.ok (), { h with disk })

/- The errors the filesystem makes itself. -/
def enoent : IoError :=
  { kind := .notFound
    rawOsError := some 2
    text := "No such file or directory (os error 2)".toList }

def eexist : IoError :=
  { kind := .alreadyExists
    rawOsError := some 17
    text := "File exists (os error 17)".toList }

def enotdir : IoError :=
  { kind := .notADirectory
    rawOsError := some 20
    text := "Not a directory (os error 20)".toList }

def eisdir : IoError :=
  { kind := .isADirectory
    rawOsError := some 21
    text := "Is a directory (os error 21)".toList }

def enotempty : IoError :=
  { kind := .directoryNotEmpty
    rawOsError := some 39
    text := "Directory not empty (os error 39)".toList }

end Render

end Trustd

------------------------------------------------------------
-- Calls
------------------------------------------------------------

namespace Trustd

namespace Render

/- A call that looks at something and changes nothing. -/
def inspect : Action Unit :=
  syscall (fun h => (.ok (), h))

/- `fs::create_dir_all` of the store directory. -/
def createStore : Action Unit :=
  syscall (fun h =>
    match h.disk.store with
    | some _ => (.ok (), h)
    | none => done h { store := some (fun _ => none) })

/- `fs::create_dir_all` of a directory in the store. -/
def createDirAll (name : Text) : Action Unit :=
  syscall (fun h =>
    match h.disk.node name with
    | some (.dir _ _) => (.ok (), h)
    | some (.file _) => (.error eexist, h)
    | none =>
        let store := h.disk.store.getD (fun _ => none)
        let disk : Disk := { store := some store }
        (.ok (), { h with
          disk := disk.setNode name (some (.dir h.nextId []))
          nextId := h.nextId + 1 }))

def Disk.has (d : Disk) : Path → Bool
  | .store => d.store.isSome
  | .entry name => (d.node name).isSome
  | .child dir name =>
      match d.entriesOf dir with
      | some entries => (lookupEntry name entries).isSome
      | none => false

/- `Path::exists`: false also when the stat fails. -/
def pathExists (path : Path) : Action Bool :=
  General.Prog.step (fun f h =>
    (.ok (if f.statFails then false else h.disk.has path), h))

/- `fs::remove_file` in the store directory. -/
def removeFile (name : Text) : Action Unit :=
  syscall (fun h =>
    match h.disk.node name with
    | none => (.error enoent, h)
    | some (.dir _ _) => (.error eisdir, h)
    | some (.file _) => done h (h.disk.setNode name none))

/- The entries of a directory in the store replaced. -/
def Disk.setEntries
    (d : Disk)
    (dir : Text)
    (entries : Entries) :
    Disk :=
  match d.node dir with
  | some (.dir id _) => d.setNode dir (some (.dir id entries))
  | _ => d

/- A call on an entry of a directory in the store. -/
def onEntry {α : Type}
    (dir name : Text)
    (op : Option Leaf → Entries →
      Except IoError α × Option Entries) :
    Action α :=
  syscall (fun h =>
    match h.disk.entriesOf dir with
    | none => (.error enoent, h)
    | some entries =>
        match op (lookupEntry name entries) entries with
        | (r, none) => (r, h)
        | (r, some entries) =>
            (r, { h with
              disk := h.disk.setEntries dir entries }))

/- `fs::remove_file` inside a directory. -/
def removeChild (dir name : Text) : Action Unit :=
  onEntry dir name (fun leaf entries =>
    match leaf with
    | none => (.error enoent, none)
    | some (.folder _) => (.error eisdir, none)
    | some (.file _) =>
        (.ok (), some (eraseEntry name entries)))

/- Remove one of the things a folder holds. -/
def shrinkFolder (dir name : Text) : Action Unit :=
  onEntry dir name (fun leaf entries =>
    match leaf with
    | some (.folder (holds + 1)) =>
        (.ok (), some (entries.map (fun e =>
          if e.1 = name then (name, .folder holds) else e)))
    | some (.folder 0) => (.error enoent, none)
    | some (.file _) => (.error enotdir, none)
    | none => (.error enoent, none))

/- Remove a folder that holds nothing. -/
def removeEmptyFolder (dir name : Text) : Action Unit :=
  onEntry dir name (fun leaf entries =>
    match leaf with
    | some (.folder 0) =>
        (.ok (), some (eraseEntry name entries))
    | some (.folder _) => (.error enotempty, none)
    | some (.file _) => (.error enotdir, none)
    | none => (.error enoent, none))

/- `fs::remove_dir_all` of a folder inside a directory. -/
def removeFolder (dir name : Text) (holds : Nat) :
    Action Unit := do
  General.Prog.forEach (fun _ => shrinkFolder dir name)
    (List.replicate holds ())
  removeEmptyFolder dir name

/- `fs::read_dir`. -/
def readDir (name : Text) : Action Entries :=
  syscall (fun h =>
    match h.disk.node name with
    | none => (.error enoent, h)
    | some (.file _) => (.error enotdir, h)
    | some (.dir _ entries) => (.ok entries, h))

/- Remove an entry according to its type. -/
def removeByType (dir : Text) (e : Text × Leaf) :
    Action Unit :=
  match e.2 with
  | .folder holds => removeFolder dir e.1 holds
  | .file _ => removeChild dir e.1

/- Remove a directory that is empty. -/
def rmdir (name : Text) : Action Unit :=
  syscall (fun h =>
    match h.disk.node name with
    | none => (.error enoent, h)
    | some (.file _) => (.error enotdir, h)
    | some (.dir _ []) => done h (h.disk.setNode name none)
    | some (.dir _ _) => (.error enotempty, h))

/- `fs::remove_dir_all` of a directory in the store. -/
def removeDirAll (name : Text) : Action Unit := do
  let entries ← readDir name
  General.Prog.forEach (removeByType name) entries
  rmdir name

/- Open a new file for writing, in the store itself. -/
def createNew (name : Text) : Action Unit :=
  syscall (fun h =>
    match h.disk.store, h.disk.node name with
    | none, _ => (.error enoent, h)
    | some _, some _ => (.error eexist, h)
    | some _, none =>
        done h (h.disk.setNode name (some (.file []))))

/- Open a new file for writing inside a directory. -/
def createNewChild (dir name : Text) : Action Unit :=
  onEntry dir name (fun leaf entries =>
    match leaf with
    | some _ => (.error eexist, none)
    | none =>
        (.ok (), some (insertEntry name (.file []) entries)))

/- `rename` of an entry of the store. -/
def renameEntry (source target : Text) : Action Unit :=
  syscall (fun h =>
    let moved (n : Node) :=
      done h ((h.disk.setNode source none).setNode target
        (some n))
    match h.disk.node source, h.disk.node target with
    | none, _ => (.error enoent, h)
    | some n, none => moved n
    | some (.dir id entries), some (.dir _ []) =>
        moved (.dir id entries)
    | some (.dir _ _), some (.dir _ _) =>
        (.error enotempty, h)
    | some (.dir _ _), some (.file _) => (.error enotdir, h)
    | some (.file _), some (.dir _ _) => (.error eisdir, h)
    | some (.file data), some (.file _) =>
        moved (.file data))

/- `rename` of a file inside a directory. -/
def renameChild (dir source target : Text) : Action Unit :=
  onEntry dir source (fun leaf entries =>
    match leaf, lookupEntry target entries with
    | none, _ => (.error enoent, none)
    | some _, some (.folder _) => (.error eisdir, none)
    | some leaf, _ =>
        (.ok (), some (insertEntry target leaf
          (eraseEntry source entries))))

/- `renameat2` with `RENAME_EXCHANGE`. -/
def exchangeEntries (a b : Text) : Action Unit :=
  syscall (fun h =>
    match h.disk.node a, h.disk.node b with
    | some x, some y =>
        done h ((h.disk.setNode a (some y)).setNode b
          (some x))
    | _, _ => (.error enoent, h))

end Render

end Trustd

------------------------------------------------------------
-- Writing
------------------------------------------------------------

namespace Trustd

namespace Render

/- How much of its input a write takes: never nothing. -/
def Fault.taken (f : Fault) (data : Bytes) : Nat :=
  min data.length (f.count + 1)

/- Append to a file of the disk. -/
def Disk.append (d : Disk) (path : Path) (data : Bytes) :
    Disk :=
  match path with
  | .store => d
  | .entry name =>
      match d.node name with
      | some (.file old) =>
          d.setNode name (some (.file (old ++ data)))
      | _ => d
  | .child dir name =>
      match d.entriesOf dir with
      | some entries =>
          d.setEntries dir (entries.map (fun e =>
            match e.2 with
            | .file old =>
                if e.1 = name then (e.1, .file (old ++ data))
                else e
            | .folder _ => e))
      | none => d

/- One `write` to an open file. -/
def write (path : Path) (data : Bytes) : Action Nat :=
  General.Prog.step (fun f h =>
    match f.error with
    | some e => (.error e, h)
    | none =>
        let n := f.taken data
        (.ok n, { h with
          disk := h.disk.append path (data.take n) }.note))

/- `Write::write_all`, over at most so many writes. -/
def writeAllFrom (path : Path) : Nat → Bytes → Action Unit
  | 0, _ => pure ()
  | fuel + 1, data =>
      if data = [] then pure ()
      else do
        let n ← write path data
        writeAllFrom path fuel (data.drop n)

/- `Write::write_all`. -/
def writeAll (path : Path) (data : Bytes) : Action Unit :=
  writeAllFrom path data.length data

end Render

end Trustd
