import Trustd.Daemon.Exact

/-
  Which directory is installed: a render that succeeds swaps
  in the staged directory and removes the one it displaced,
  so the two directories made before the daemon do not last.

  Key definitions include:
    * `Trustd.Render.Disk.ids`
    * `Trustd.Render.Steady`
    * `Trustd.Render.Swap`
    * `Trustd.Render.Round`

  Key theorems include:
    * `Trustd.Render.removeDirAll_found`
    * `Trustd.Render.exchange_swaps`
    * `Trustd.Render.render_swaps`
    * `Trustd.Render.rounds_keep_iff`
-/

------------------------------------------------------------
-- Identities
------------------------------------------------------------

namespace Trustd

namespace Render

open General

/- The identity of a directory; a file has none here. -/
def idOf : Option Node → Option Nat
  | some (.dir dirId _) => some dirId
  | _ => none

/- Which directory stands under which name. -/
def Disk.ids (d : Disk) (name : Text) : Option Nat :=
  idOf (d.node name)

theorem ids_of_dir
    {d : Disk}
    {name : Text}
    {dirId : Nat}
    {entries : Entries}
    (hNode : d.node name = some (.dir dirId entries)) :
    d.ids name = some dirId := by
  rw [Disk.ids, hNode]
  rfl

theorem exists_dir
    {d : Disk}
    {name : Text}
    {dirId : Nat}
    (hId : d.ids name = some dirId) :
    ∃ entries, d.node name = some (.dir dirId entries) := by
  rw [Disk.ids] at hId
  rcases hNode : d.node name with _ | ⟨_ | ⟨dirId', entries⟩⟩
  · rw [hNode] at hId
    cases hId
  · rw [hNode] at hId
    cases hId
  · rw [hNode] at hId
    cases hId
    exact ⟨entries, rfl⟩

theorem ids_setNode
    {d : Disk}
    (hStore : d.store.isSome = true)
    (name : Text)
    (n : Option Node) :
    (d.setNode name n).ids =
      Function.update d.ids name (idOf n) := by
  funext other
  by_cases hName : other = name
  · rw [hName, Function.update_self, Disk.ids,
      Disk.node_setNode_self d hStore]
  · rw [Function.update_of_ne hName, Disk.ids,
      Disk.node_setNode_of_ne d hName, Disk.ids]

/- Putting a directory's like in its place moves nothing. -/
theorem ids_setNode_same
    {d : Disk}
    {name : Text}
    {n : Option Node}
    (hSame : idOf n = d.ids name) :
    (d.setNode name n).ids = d.ids := by
  rcases hStore : d.store with _ | names
  · have hNone : ∀ other, (d.setNode name n).node other =
        d.node other := by
      intro other
      simp [Disk.node, Disk.setNode, hStore]
    funext other
    rw [Disk.ids, hNone, Disk.ids]
  · rw [ids_setNode (by rw [hStore]; rfl), hSame,
      Function.update_eq_self]

/-
  Directories stand where `f` says, the next one made is `n`,
  and at `certs` is the node `c`.
-/
structure Steady
    (f : Text → Option Nat)
    (n : Nat)
    (c : Option Node)
    (h : Host) :
    Prop where
  ids : h.disk.ids = f
  nextId : h.nextId = n
  certs : h.disk.node certsName = c

/- Nothing is asked of the moments on the way. -/
def Always : Host → Prop := fun _ => True

/- A program that leaves the directories where they are. -/
def Keeps {α : Type}
    (f : Text → Option Nat)
    (n : Nat)
    (c : Option Node)
    (x : Action α) :
    Prop :=
  Ensures Honest Always (Steady f n c) x
    (fun _ => Steady f n c) (fun _ => Steady f n c)

section

variable {α β : Type}
variable {f : Text → Option Nat}
variable {n : Nat}
variable {c : Option Node}

theorem Steady.setNode
    {h : Host}
    (hSteady : Steady f n c h)
    {name : Text}
    (hName : certsName ≠ name)
    {node : Option Node}
    (hSame : idOf node = h.disk.ids name) :
    Steady f n c
      { h with disk := h.disk.setNode name node } where
  ids := (ids_setNode_same hSame).trans hSteady.ids
  nextId := hSteady.nextId
  certs := (Disk.node_setNode_of_ne _ hName _).trans
    hSteady.certs

theorem Steady.note
    {h : Host}
    (hSteady : Steady f n c h) :
    Steady f n c h.note :=
  ⟨hSteady.ids, hSteady.nextId, hSteady.certs⟩

theorem Keeps.pure (a : α) :
    Keeps f n c (Pure.pure a : Action α) :=
  Ensures.pure a (fun _ hP => hP)

theorem Keeps.throw (e : IoError) :
    Keeps f n c (Prog.throw e : Action α) :=
  Ensures.throw e (fun _ hP => hP)

theorem Keeps.bind
    {x : Action α}
    {g : α → Action β}
    (hx : Keeps f n c x)
    (hg : ∀ a, Keeps f n c (g a)) :
    Keeps f n c (x >>= g) :=
  Ensures.bind hx hg

theorem Keeps.attempt
    {x : Action α}
    (hx : Keeps f n c x) :
    Keeps f n c (Prog.attempt x :
      Action (Except IoError α)) :=
  (Ensures.attempt hx).weaken (fun _ hP => hP)
    (fun r _ hQ => by cases r <;> exact hQ)
    (fun _ _ hE => hE)

theorem Keeps.mapError
    {x : Action α}
    (hx : Keeps f n c x)
    (g : IoError → IoError) :
    Keeps f n c (Prog.mapError g x) :=
  Ensures.mapError hx

theorem Keeps.forEach
    {g : α → Action Unit}
    (hg : ∀ a, Keeps f n c (g a))
    (l : List α) :
    Keeps f n c (Prog.forEach g l) :=
  Ensures.forEach (J := fun _ => Steady f n c)
    (fun a _ => hg a) l

theorem Keeps.ofExcept (r : Except IoError α) :
    Keeps f n c (Prog.ofExcept r) := by
  cases r with
  | ok a => exact Keeps.pure a
  | error e => exact Keeps.throw e

/- Where the program fails does not matter. -/
theorem Keeps.loose
    {x : Action α}
    (hx : Keeps f n c x) :
    Ensures Honest Always (Steady f n c) x
      (fun _ => Steady f n c) (fun _ _ => True) :=
  hx.weaken (fun _ hP => hP) (fun _ _ hQ => hQ)
    (fun _ _ _ => trivial)

/- A call keeps what its work keeps. -/
theorem keeps_syscall
    {op : Host → Except IoError α × Host}
    (hOp : ∀ h, Steady f n c h → Steady f n c (op h).2) :
    Keeps f n c (syscall op) := by
  refine syscall_ensures (fun _ _ => trivial)
    (fun _ _ hP => hP) (fun h hP => ⟨trivial, ?_⟩)
  have hDone := (hOp h hP).note
  cases hResult : (op h).1 with
  | ok a => exact hDone
  | error e => exact hDone

end

end Render

end Trustd

------------------------------------------------------------
-- Calls That Move No Directory
------------------------------------------------------------

namespace Trustd

namespace Render

open General

section

variable {α : Type}
variable {f : Text → Option Nat}
variable {n : Nat}
variable {c : Option Node}

theorem keeps_inspect : Keeps f n c inspect :=
  keeps_syscall (fun _ hP => hP)

theorem keeps_pathExists (path : Path) :
    Keeps f n c (pathExists path) :=
  Ensures.step (fun _ _ _ hP => ⟨trivial, hP⟩)

theorem keeps_createStore : Keeps f n c createStore := by
  refine keeps_syscall (fun h hP => ?_)
  cases hStore : h.disk.store with
  | some _ => exact hP
  | none =>
      have hNodes : ∀ name, h.disk.node name = none := by
        intro name
        rw [Disk.node, hStore]
      have hIds : h.disk.ids =
          ({ store := some (fun _ => none) } : Disk).ids := by
        funext name
        rw [Disk.ids, hNodes]
        rfl
      exact ⟨hIds.symm.trans hP.ids, hP.nextId,
        (hNodes certsName).symm.trans hP.certs⟩

/- Only a directory is listed. -/
theorem readDir_steady (name : Text) :
    Ensures Honest Always (Steady f n c) (readDir name)
      (fun _ h => (∃ x, f name = some x) ∧ Steady f n c h)
      (fun _ => Steady f n c) := by
  refine syscall_ensures (fun _ _ => trivial)
    (fun _ _ hP => hP) (fun h hP => ⟨trivial, ?_⟩)
  rcases hNode : h.disk.node name with
    _ | ⟨_ | ⟨dirId, entries⟩⟩
  · exact hP.note
  · exact hP.note
  · exact ⟨⟨dirId, hP.ids ▸ ids_of_dir hNode⟩, hP.note⟩

theorem keeps_onEntry
    {dir : Text}
    (hDir : certsName ≠ dir)
    (name : Text)
    (op : Option Leaf → Entries →
      Except IoError α × Option Entries) :
    Keeps f n c (onEntry dir name op) := by
  refine keeps_syscall (fun h hP => ?_)
  rcases hNode : h.disk.node dir with
    _ | ⟨_ | ⟨dirId, entries⟩⟩
  · have hEntries : h.disk.entriesOf dir = none := by
      simp [Disk.entriesOf, hNode]
    simp only [hEntries]
    exact hP
  · have hEntries : h.disk.entriesOf dir = none := by
      simp [Disk.entriesOf, hNode]
    simp only [hEntries]
    exact hP
  · simp only [entriesOf_eq hNode]
    rcases op (lookupEntry name entries) entries with
      ⟨r, _ | entries'⟩
    · exact hP
    · simp only [setEntries_eq hNode]
      exact hP.setNode hDir (by rw [ids_of_dir hNode]; rfl)

theorem keeps_removeByType
    {dir : Text}
    (hDir : certsName ≠ dir)
    (e : Text × Leaf) :
    Keeps f n c (removeByType dir e) := by
  unfold removeByType
  cases e.2 with
  | file _ => exact keeps_onEntry hDir _ _
  | folder holds =>
      exact Keeps.bind (Keeps.forEach
        (fun _ => keeps_onEntry hDir _ _) _)
        (fun _ => keeps_onEntry hDir _ _)

theorem keeps_write
    {path : Path}
    (hPath : ∀ dir, path = .entry dir ∨
      (∃ name, path = .child dir name) → certsName ≠ dir)
    (data : Bytes) :
    Keeps f n c (write path data) := by
  refine Ensures.step (fun fault h _ hP => ⟨?_, ?_⟩)
  · trivial
  cases fault.error with
  | some e => exact hP
  | none =>
      refine Steady.note ?_
      cases path with
      | store => exact hP
      | entry name =>
          simp only [Disk.append]
          rcases hNode : h.disk.node name with
            _ | ⟨old | ⟨dirId, entries⟩⟩
          · exact hP
          · exact hP.setNode (hPath name (Or.inl rfl))
              (by rw [Disk.ids, hNode]; rfl)
          · exact hP
      | child dir name =>
          simp only [Disk.append]
          rcases hNode : h.disk.node dir with
            _ | ⟨_ | ⟨dirId, entries⟩⟩
          · simp only [Disk.entriesOf, hNode]
            exact hP
          · simp only [Disk.entriesOf, hNode]
            exact hP
          · simp only [entriesOf_eq hNode, setEntries_eq hNode]
            exact hP.setNode (hPath dir (Or.inr ⟨name, rfl⟩))
              (by rw [ids_of_dir hNode]; rfl)

theorem keeps_writeAll
    {path : Path}
    (hPath : ∀ dir, path = .entry dir ∨
      (∃ name, path = .child dir name) → certsName ≠ dir)
    (data : Bytes) :
    Keeps f n c (writeAll path data) := by
  have hFrom : ∀ fuel data,
      Keeps f n c (writeAllFrom path fuel data) := by
    intro fuel
    induction fuel with
    | zero => exact fun _ => Keeps.pure ()
    | succ fuel ih =>
        intro data
        rw [writeAllFrom]
        split_ifs
        · exact Keeps.pure ()
        · exact Keeps.bind (keeps_write hPath data)
            (fun _ => ih _)
  exact hFrom _ _

theorem keeps_removeFile
    {name : Text}
    (hName : certsName ≠ name) :
    Keeps f n c (removeFile name) := by
  refine keeps_syscall (fun h hP => ?_)
  rcases hNode : h.disk.node name with _ | ⟨_ | ⟨_, _⟩⟩
  · exact hP
  · exact hP.setNode hName (by rw [Disk.ids, hNode]; rfl)
  · exact hP

end

end Render

end Trustd

------------------------------------------------------------
-- Files
------------------------------------------------------------

namespace Trustd

namespace Render

open General Store

section

variable {f : Text → Option Nat}
variable {n : Nat}
variable {c : Option Node}

/- Renaming a file moves no directory. -/
theorem keeps_renameEntry
    {source target : Text}
    (hFile : f source = none)
    (hSource : certsName ≠ source)
    (hTarget : certsName ≠ target) :
    Keeps f n c (renameEntry source target) := by
  refine keeps_syscall (fun h hP => ?_)
  have hGone : Steady f n c
      { h with disk := h.disk.setNode source none } :=
    hP.setNode hSource (by rw [hP.ids, hFile]; rfl)
  rcases hNode : h.disk.node source with
    _ | ⟨data | ⟨dirId, entries⟩⟩
  · exact hP
  · have hMoved : h.disk.ids target = none →
        Steady f n c { h with
          disk := (h.disk.setNode source none).setNode target
            (some (.file data)) } := by
      intro hNone
      refine hGone.setNode hTarget ?_
      rw [hGone.ids, ← hP.ids, hNone]
      rfl
    rcases hOld : h.disk.node target with
      _ | ⟨_ | ⟨dirId, _ | ⟨_, _⟩⟩⟩
    · exact hMoved (by rw [Disk.ids, hOld]; rfl)
    · exact hMoved (by rw [Disk.ids, hOld]; rfl)
    · exact hP
    · exact hP
  · have hId := ids_of_dir hNode
    rw [hP.ids, hFile] at hId
    cases hId

/- A new temporary file has a name that no directory has. -/
theorem createFile_steady
    {dir : Option Text}
    (hDir : ∀ d, dir = some d → certsName ≠ d)
    (pid next : Nat) :
    Ensures Honest Always (Steady f n c)
      (createFile dir (temporaryName pid next))
      (fun _ h =>
        (dir = none → f (temporaryName pid next) = none) ∧
          Steady f n c h)
      (fun _ => Steady f n c) := by
  cases dir with
  | some d =>
      refine (keeps_onEntry (hDir d rfl) _ _).weaken
        (fun _ hP => hP) (fun _ _ hQ => ⟨fun hNone => ?_, hQ⟩)
        (fun _ _ hE => hE)
      cases hNone
  | none =>
      have hName := live_ne_temporaryName pid next certsName
        List.mem_cons_self
      refine syscall_ensures (fun _ _ => trivial)
        (fun _ _ hP => hP) (fun h hP => ⟨trivial, ?_⟩)
      rcases hStore : h.disk.store with _ | names
      · exact hP.note
      · rcases hNode : h.disk.node (temporaryName pid next)
          with _ | _
        · have hNone : h.disk.ids (temporaryName pid next) =
              none := by
            rw [Disk.ids, hNode]
            rfl
          refine ⟨fun _ => hP.ids ▸ hNone, Steady.note ?_⟩
          exact hP.setNode hName hNone.symm
        · exact hP.note

theorem createTemporary_steady
    {dir : Option Text}
    (hDir : ∀ d, dir = some d → certsName ≠ d)
    (tries : Nat) :
    Ensures Honest Always (Steady f n c)
      (createTemporary dir tries)
      (fun temporary h =>
        (certsName ≠ temporary ∧
          (dir = none → f temporary = none)) ∧
            Steady f n c h)
      (fun _ => Steady f n c) := by
  induction tries with
  | zero => exact Ensures.throw _ (fun _ hP => hP)
  | succ tries ih =>
      refine Ensures.bind (Q := fun temporary h =>
        ∃ pid next, temporary = temporaryName pid next ∧
          Steady f n c h) (Ensures.step (fun _ h _ hP =>
            ⟨trivial, h.pid, h.next, rfl,
              hP.ids, hP.nextId, hP.certs⟩))
        (fun temporary => ?_)
      refine Ensures.exists (fun pid => Ensures.exists
        (fun next => Ensures.and_left ?_))
      rintro rfl
      refine Ensures.bind (Ensures.attempt
        (createFile_steady hDir pid next)) (fun result => ?_)
      cases result with
      | ok _ =>
          exact Ensures.pure _ (fun h hP =>
            ⟨⟨live_ne_temporaryName pid next certsName
              List.mem_cons_self, hP.1⟩, hP.2⟩)
      | error e =>
          dsimp only
          split_ifs
          · exact ih
          · exact Ensures.throw e (fun _ hP => hP)

/- `write_file` moves no directory. -/
theorem keeps_writeFile
    {dir : Option Text}
    (hDir : ∀ d, dir = some d → certsName ≠ d)
    {name : Text}
    (hName : dir = none → certsName ≠ name)
    (contents : Bytes) :
    Keeps f n c (writeFile dir name contents) := by
  refine Ensures.bind (createTemporary_steady hDir 64)
    (fun temporary => Ensures.and_left ?_)
  rintro ⟨hTemporary, hFile⟩
  have hRename : Keeps f n c
      (renameFile dir temporary name) := by
    cases dir with
    | some d => exact keeps_onEntry (hDir d rfl) _ _
    | none =>
        exact keeps_renameEntry (hFile rfl) hTemporary
          (hName rfl)
  have hRemove : Keeps f n c (removeFileIn dir temporary) := by
    cases dir with
    | some d => exact keeps_onEntry (hDir d rfl) _ _
    | none => exact keeps_removeFile hTemporary
  have hPath : ∀ d, place dir temporary = .entry d ∨
      (∃ child, place dir temporary = .child d child) →
        certsName ≠ d := by
    intro d hPlace
    cases dir with
    | some e =>
        rcases hPlace with hEntry | ⟨child, hChild⟩
        · cases hEntry
        · cases hChild
          exact hDir _ rfl
    | none =>
        rcases hPlace with hEntry | ⟨child, hChild⟩
        · cases hEntry
          exact hTemporary
        · cases hChild
  exact Keeps.bind (Keeps.attempt (Keeps.bind
    (keeps_writeAll hPath contents) (fun _ =>
      Keeps.bind keeps_inspect (fun _ => hRename))))
    (fun result => Keeps.bind (Keeps.attempt hRemove)
      (fun _ => Keeps.ofExcept result))

theorem keeps_stageFile (file : Text × Bytes) :
    Keeps f n c (stageFile file) := by
  refine Keeps.mapError (keeps_writeFile (fun d hSome => ?_)
    (fun hNone => ?_) _) _
  · cases hSome
    decide
  · cases hNone

end

end Render

end Trustd

------------------------------------------------------------
-- Preparing The Staging Directory
------------------------------------------------------------

namespace Trustd

namespace Render

open General Store

/- Where the directories stand once the staging is prepared. -/
def staged (f : Text → Option Nat) (n : Nat) :
    Text → Option Nat :=
  Function.update f stagingName
    (some ((f stagingName).getD n))

/- The next directory once the staging is prepared. -/
def spent (f : Text → Option Nat) (n : Nat) : Nat :=
  if (f stagingName).isSome then n else n + 1

theorem staged_of_some
    {f : Text → Option Nat}
    {n x : Nat}
    (hId : f stagingName = some x) :
    staged f n = f ∧ spent f n = n := by
  rw [staged, spent, hId]
  refine ⟨?_, rfl⟩
  rw [Option.getD_some, ← hId]
  exact Function.update_eq_self _ _

section

variable {f : Text → Option Nat}
variable {n : Nat}
variable {c : Option Node}

theorem createStaging_steady :
    Ensures Honest Always (Steady f n c)
      (createDirAll stagingName)
      (fun _ => Steady (staged f n) (spent f n) c)
      (fun _ _ => True) := by
  refine syscall_ensures (fun _ _ => trivial)
    (fun _ _ _ => trivial) (fun h hP => ⟨trivial, ?_⟩)
  rcases hNode : h.disk.node stagingName with
    _ | ⟨_ | ⟨dirId, entries⟩⟩
  · have hNone : f stagingName = none := by
      rw [← hP.ids, Disk.ids, hNode]
      rfl
    have hNodes : ∀ name,
        ({ store := some (h.disk.store.getD
          fun _ => none) } : Disk).node name =
            h.disk.node name := by
      intro name
      unfold Disk.node
      cases h.disk.store with
      | none => rfl
      | some _ => rfl
    have hIds : ({ store := some (h.disk.store.getD
        fun _ => none) } : Disk).ids = f := by
      rw [← hP.ids]
      funext name
      rw [Disk.ids, hNodes, Disk.ids]
    refine Steady.note ⟨?_, ?_, ?_⟩
    · rw [ids_setNode rfl, hIds, staged, hNone, hP.nextId]
      rfl
    · rw [spent, hNone]
      exact congrArg (· + 1) hP.nextId
    · exact (Disk.node_setNode_of_ne _ (by decide) _).trans
        ((hNodes certsName).trans hP.certs)
  · trivial
  · have hSame := staged_of_some (n := n)
      (hP.ids ▸ ids_of_dir hNode)
    rw [hSame.1, hSame.2]
    exact hP.note

/- The staging directory is what stood there, or a new one. -/
theorem prepareStaging_steady :
    Ensures Honest Always (Steady f n c) prepareStaging
      (fun _ => Steady (staged f n) (spent f n) c)
      (fun _ _ => True) := by
  refine Ensures.bind (keeps_pathExists _).loose (fun present => ?_)
  cases present with
  | false => exact withContext_ensures _ _ createStaging_steady
  | true =>
      refine withContext_ensures _ _ ?_
      refine Ensures.bind ((readDir_steady stagingName).weaken
        (fun _ hP => hP) (fun _ _ hQ => hQ)
        (fun _ _ _ => trivial)) (fun entries =>
          Ensures.and_left ?_)
      rintro ⟨x, hId⟩
      rw [(staged_of_some hId).1, (staged_of_some hId).2]
      have hLoop : Keeps f n c (do
          Prog.forEach (fun e => do
            inspect
            inspect
            removeByType stagingName e) entries
          inspect) :=
        Keeps.bind (Keeps.forEach (fun e =>
          Keeps.bind keeps_inspect (fun _ =>
            Keeps.bind keeps_inspect (fun _ =>
              keeps_removeByType (by decide) e))) _)
          (fun _ => keeps_inspect)
      exact hLoop.loose

end

end Render

end Trustd

------------------------------------------------------------
-- Removing A Directory That Is There
------------------------------------------------------------

namespace Trustd

namespace Render

open General Store

/- A directory stands under a name with these entries. -/
def Found
    (f : Text → Option Nat)
    (n : Nat)
    (c : Option Node)
    (name : Text)
    (dirId : Nat)
    (entries : Entries)
    (h : Host) :
    Prop :=
  Steady f n c h ∧
    h.disk.node name = some (.dir dirId entries)

/- The names of the entries in a directory. -/
def NoTwice (entries : Entries) : Prop :=
  (names entries).Nodup

theorem lookupEntry_cons_self
    (e : Text × Leaf)
    (rest : Entries) :
    lookupEntry e.1 (e :: rest) = some e.2 := by
  rw [lookupEntry, List.find?_cons_of_pos (by simp)]
  rfl

theorem eraseEntry_cons_self
    {name : Text}
    {leaf : Leaf}
    {rest : Entries}
    (hNew : name ∉ names rest) :
    eraseEntry name ((name, leaf) :: rest) = rest := by
  rw [eraseEntry, List.filter_cons_of_neg (by simp)]
  exact eraseEntry_of_not_mem hNew

section

variable {α : Type}
variable {f : Text → Option Nat}
variable {n dirId : Nat}
variable {c : Option Node}
variable {name : Text}
variable (hName : certsName ≠ name)

include hName in
theorem Found.setEntries
    {h : Host}
    {entries : Entries}
    (hFound : Found f n c name dirId entries h)
    (entries' : Entries) :
    Found f n c name dirId entries' { h with
      disk := h.disk.setEntries name entries' }.note := by
  rw [setEntries_eq hFound.2]
  refine ⟨(hFound.1.setNode hName ?_).note, ?_⟩
  · rw [ids_of_dir hFound.2]
    rfl
  · exact Disk.node_setNode_self _
      (Disk.store_of_node hFound.2) _ _

/- A call that finds its entry does its work. -/
include hName in
theorem onEntry_found
    {child : Text}
    {op : Option Leaf → Entries →
      Except IoError α × Option Entries}
    {entries after : Entries}
    {a : α}
    (hOp : op (lookupEntry child entries) entries =
      (.ok a, some after)) :
    Ensures Honest Always
      (Found f n c name dirId entries)
      (onEntry name child op)
      (fun _ => Found f n c name dirId after)
      (fun e _ => e.kind ≠ .notFound) := by
  refine syscall_ensures_fault (fun _ _ => trivial)
    (fun fault e _ hHonest hError _ => hHonest e hError)
    (fun h hP => ⟨trivial, ?_⟩)
  have hDone := hP.setEntries hName after
  simp only [entriesOf_eq hP.2, hOp]
  exact hDone

/- A folder is emptied, one thing at a time. -/
include hName in
theorem shrinkFolder_found
    {child : Text}
    {rest : Entries}
    (hNew : child ∉ names rest)
    (holds : Nat) :
    Ensures Honest Always
      (Found f n c name dirId
        ((child, .folder (holds + 1)) :: rest))
      (shrinkFolder name child)
      (fun _ => Found f n c name dirId
        ((child, .folder holds) :: rest))
      (fun e _ => e.kind ≠ .notFound) := by
  refine onEntry_found hName (a := ()) ?_
  rw [lookupEntry_cons_self (child, Leaf.folder (holds + 1))]
  dsimp only
  rw [List.map_cons, if_pos rfl]
  congr 3
  refine (List.map_congr_left (fun e he => ?_)).trans
    (List.map_id' rest)
  have hNe : e.1 ≠ child := by
    rintro rfl
    exact hNew (List.mem_map_of_mem he)
  exact if_neg hNe

/- Every entry that is listed is there to be removed. -/
include hName in
theorem removeByType_found
    {e : Text × Leaf}
    {rest : Entries}
    (hNew : e.1 ∉ names rest) :
    Ensures Honest Always
      (Found f n c name dirId (e :: rest))
      (removeByType name e)
      (fun _ => Found f n c name dirId rest)
      (fun e _ => e.kind ≠ .notFound) := by
  rcases e with ⟨child, data | holds⟩
  · refine onEntry_found hName (a := ()) ?_
    rw [lookupEntry_cons_self (child, Leaf.file data)]
    exact congrArg (fun after => (Except.ok (), some after))
      (eraseEntry_cons_self hNew)
  · have hShrink := Ensures.forEach (G := Honest) (I := Always)
      (J := fun left : List Unit => Found f n c name dirId
        ((child, .folder left.length) :: rest))
      (f := fun _ => shrinkFolder name child)
      (fun _ left =>
        shrinkFolder_found hName hNew left.length)
      (List.replicate holds ())
    rw [List.length_replicate] at hShrink
    refine Ensures.bind hShrink (fun _ => ?_)
    refine onEntry_found hName (a := ()) ?_
    rw [lookupEntry_cons_self
      (child, Leaf.folder ([] : List Unit).length)]
    exact congrArg (fun after => (Except.ok (), some after))
      (eraseEntry_cons_self hNew)

/- Removing a directory that is there removes it, or fails. -/
include hName in
theorem removeDirAll_found
    {entries : Entries}
    (hNoTwice : NoTwice entries) :
    Ensures Honest Always
      (Found f n c name dirId entries)
      (removeDirAll name)
      (fun _ => Steady (Function.update f name none) n c)
      (fun e _ => e.kind ≠ .notFound) := by
  have hList : Ensures Honest Always
      (Found f n c name dirId entries) (readDir name)
      (fun listed h => listed = entries ∧
        Found f n c name dirId entries h)
      (fun e _ => e.kind ≠ .notFound) := by
    refine syscall_ensures_fault (fun _ _ => trivial)
      (fun fault e _ hHonest hError _ => hHonest e hError)
      (fun h hP => ⟨trivial, ?_⟩)
    simp only [hP.2]
    exact ⟨rfl, hP.1.note, hP.2⟩
  have hEach := Ensures.forEach (G := Honest) (I := Always)
    (J := fun left h => NoTwice left ∧
      Found f n c name dirId left h)
    (E := fun e _ => e.kind ≠ .notFound)
    (f := removeByType name)
    (fun e rest => Ensures.and_left (fun hEntries => by
      have hCut := List.nodup_cons.mp hEntries
      exact (removeByType_found hName hCut.1).weaken
        (fun _ hP => hP) (fun _ _ hQ => ⟨hCut.2, hQ⟩)
        (fun _ _ hE => hE)))
    entries
  have hLast : Ensures Honest Always
      (fun h => NoTwice [] ∧ Found f n c name dirId [] h)
      (rmdir name)
      (fun _ => Steady (Function.update f name none) n c)
      (fun e _ => e.kind ≠ .notFound) := by
    refine syscall_ensures_fault (fun _ _ => trivial)
      (fun fault e _ hHonest hError _ => hHonest e hError)
      (fun h hP => ⟨trivial, ?_⟩)
    rcases hP with ⟨-, hSteady, hNode⟩
    simp only [hNode]
    refine Steady.note ⟨?_, hSteady.nextId, ?_⟩
    · exact (ids_setNode (Disk.store_of_node hNode) _ _).trans
        (by rw [hSteady.ids]; rfl)
    · exact (Disk.node_setNode_of_ne _ hName _).trans
        hSteady.certs
  refine Ensures.bind hList (fun listed =>
    Ensures.and_left ?_)
  rintro rfl
  exact Ensures.bind (hEach.weaken
    (fun _ hP => ⟨hNoTwice, hP⟩) (fun _ _ hQ => hQ)
    (fun _ _ hE => hE)) (fun _ => hLast)

include hName in
theorem removeDirIfPresent_found
    {entries : Entries}
    (hNoTwice : NoTwice entries) :
    Ensures Honest Always
      (Found f n c name dirId entries)
      (removeDirIfPresent name)
      (fun _ => Steady (Function.update f name none) n c)
      (fun _ _ => True) :=
  ifPresent_ensures ((removeDirAll_found hName
    hNoTwice).weaken (fun _ hP => hP) (fun _ _ hQ => hQ)
      (fun _ _ hE => ⟨fun hKind => absurd hKind hE, trivial⟩))

end

end Render

end Trustd

------------------------------------------------------------
-- Swapping The Directories
------------------------------------------------------------

namespace Trustd

namespace Render

open General Store

/-
  From `f` to `g` the directory `x` went from the staging
  name to `certs`, and no other directory is anywhere new.
-/
structure Swap
    (f : Text → Option Nat)
    (x : Nat)
    (g : Text → Option Nat) :
    Prop where
  certs : g certsName = some x
  staging : g stagingName = none
  fewer : ∀ name k, name ≠ certsName →
    g name = some k → f name = some k

/- The disk after a swap. -/
def Swapped
    (f : Text → Option Nat)
    (n x : Nat)
    (h : Host) :
    Prop :=
  ∃ g c, Swap f x g ∧ Steady g n c h

theorem ids_moved
    {h : Host}
    {source target : Text}
    {n : Node}
    (hSource : h.disk.node source = some n) :
    (h.moved source target n).disk.ids =
      Function.update (Function.update h.disk.ids source none)
        target (idOf (some n)) := by
  have hStore := Disk.store_of_node hSource
  refine (ids_setNode ?_ _ _).trans ?_
  · rw [Disk.store_setNode]
    exact hStore
  · rw [ids_setNode hStore]
    rfl

section

variable {f : Text → Option Nat}
variable {n x dirId : Nat}
variable {old : Entries}

/- The displaced directory is at the staging name. -/
theorem swap_exchanged :
    Swap f x (Function.update (Function.update
      (Function.update f stagingName (some dirId))
        certsName (some x)) stagingName none) := by
  refine ⟨?_, Function.update_self _ _ _, ?_⟩
  · rw [Function.update_of_ne (by decide),
      Function.update_self]
  · intro name k hName hId
    by_cases hStaging : name = stagingName
    · rw [hStaging, Function.update_self] at hId
      cases hId
    · rw [Function.update_of_ne hStaging,
        Function.update_of_ne hName,
        Function.update_of_ne hStaging] at hId
      exact hId

/- Moving the staged directory to `certs` is a swap. -/
theorem swap_moved
    {g : Text → Option Nat}
    (hFewer : ∀ name k, name ≠ certsName →
      g name = some k → f name = some k) :
    Swap f x (Function.update
      (Function.update g stagingName none)
        certsName (some x)) := by
  refine ⟨Function.update_self _ _ _, ?_, ?_⟩
  · rw [Function.update_of_ne (by decide),
      Function.update_self]
  · intro name k hName hId
    rw [Function.update_of_ne hName] at hId
    by_cases hStaging : name = stagingName
    · rw [hStaging, Function.update_self] at hId
      cases hId
    · rw [Function.update_of_ne hStaging] at hId
      exact hFewer name k hName hId

theorem exchangeEntries_swaps
    (hId : f stagingName = some x) :
    Ensures Honest Always
      (Steady f n (some (.dir dirId old)))
      (exchangeEntries stagingName certsName)
      (fun _ h => ∃ c, Found (Function.update
          (Function.update f stagingName (some dirId))
            certsName (some x))
        n c stagingName dirId old h)
      (fun _ => Steady f n (some (.dir dirId old))) := by
  refine syscall_ensures (fun _ _ => trivial)
    (fun _ _ hP => hP) (fun h hP => ⟨trivial, ?_⟩)
  rcases exists_dir (hP.ids ▸ hId) with ⟨entries, hStaging⟩
  have hStore := Disk.store_of_node hStaging
  have hStore' : (h.disk.setNode stagingName
      (some (.dir dirId old))).store.isSome = true := by
    rw [Disk.store_setNode]
    exact hStore
  simp only [hStaging, hP.certs]
  refine ⟨some (.dir x entries), Steady.note ⟨?_, hP.nextId,
    Disk.node_setNode_self _ hStore' _ _⟩, ?_⟩
  · refine (ids_setNode hStore' _ _).trans ?_
    rw [ids_setNode hStore, hP.ids]
    rfl
  · refine (Disk.node_setNode_of_ne _ (by decide) _).trans ?_
    exact Disk.node_setNode_self _ hStore _ _

/- A plain rename replaces what was at `certs`. -/
theorem install_swaps
    {c : Option Node}
    {g : Text → Option Nat}
    (hId : g stagingName = some x)
    (hFewer : ∀ name k, name ≠ certsName →
      g name = some k → f name = some k) :
    Ensures Honest Always (Steady g n c)
      (renameEntry stagingName certsName)
      (fun _ => Swapped f n x) (fun _ => Steady g n c) := by
  refine renameEntry_ensures _ _ (fun _ _ => trivial)
    (fun _ hP => hP.note)
    (fun h node hP hSource => ⟨trivial, ?_⟩)
  have hNode : idOf (some node) = some x := by
    rw [← hId, ← hP.ids, Disk.ids, hSource]
  refine ⟨_, _, swap_moved hFewer, Steady.note ⟨?_, hP.nextId,
    rfl⟩⟩
  rw [ids_moved hSource, hP.ids, hNode]

/- Removing a directory moves none of the others. -/
theorem removeDirIfPresent_around
    {c : Option Node}
    {name : Text}
    (hName : certsName ≠ name) :
    Ensures Honest Always (Steady f n c)
      (removeDirIfPresent name)
      (fun _ h => ∃ g, (∀ other, other ≠ name →
        g other = f other) ∧ Steady g n c h)
      (fun _ _ => True) := by
  refine (removeDirIfPresent_frame name
    (P := fun h => ∃ g, (∀ other, other ≠ name →
      g other = f other) ∧ Steady g n c h)
    (fun _ _ => trivial) ?_ ?_).weaken
      (fun h hP => ⟨f, fun _ _ => rfl, hP⟩)
      (fun _ _ hQ => hQ) (fun _ _ _ => trivial)
  · rintro h ⟨g, hSame, hP⟩
    exact ⟨g, hSame, hP.note⟩
  · rintro h node ⟨g, hSame, hP⟩
    refine ⟨_, fun other hOther => ?_, Steady.note
      ⟨rfl, hP.nextId,
        (Disk.node_setNode_of_ne _ hName _).trans hP.certs⟩⟩
    rw [← hSame other hOther, ← hP.ids]
    exact congrArg idOf (Disk.node_setNode_of_ne _ hOther _)

/- What stands where the live directory is set aside. -/
structure Aside
    (f : Text → Option Nat)
    (x : Nat)
    (g : Text → Option Nat) :
    Prop where
  staging : g stagingName = some x
  fewer : ∀ name k, name ≠ previousName →
    g name = some k → f name = some k

theorem setAside_aside
    (hId : f stagingName = some x) :
    Ensures Honest Always
      (fun h => ∃ g, (∀ other, other ≠ previousName →
        g other = f other) ∧
          Steady g n (some (.dir dirId old)) h)
      (renameEntry certsName previousName)
      (fun _ h => ∃ g, Aside f x g ∧
        Found g n none previousName dirId old h)
      (fun _ _ => True) := by
  refine (renameEntry_ensures _ _ (fun _ _ => trivial)
    (fun h hP => ?_) (fun h node hP hSource =>
      ⟨trivial, ?_⟩)).weaken (fun _ hP => hP)
        (fun _ _ hQ => hQ) (fun _ _ _ => trivial)
  · rcases hP with ⟨g, hSame, hP⟩
    exact ⟨g, hSame, hP.note⟩
  · rcases hP with ⟨g, hSame, hP⟩
    cases hSource.symm.trans hP.certs
    refine ⟨_, ?_, Steady.note ⟨ids_moved hSource, hP.nextId,
      node_moved_source (by decide)⟩,
      node_moved_target hSource⟩
    rw [hP.ids]
    constructor
    · rw [Function.update_of_ne (by decide),
        Function.update_of_ne (by decide),
        hSame _ (by decide), hId]
    · intro name k hName hAt
      rw [Function.update_of_ne hName] at hAt
      by_cases hCerts : name = certsName
      · rw [hCerts, Function.update_self] at hAt
        cases hAt
      · rw [Function.update_of_ne hCerts,
          hSame name hName] at hAt
        exact hAt

theorem install_aside
    {g : Text → Option Nat}
    (hAside : Aside f x g) :
    Ensures Honest Always
      (Found g n none previousName dirId old)
      (renameEntry stagingName certsName)
      (fun _ h => ∃ c, Found (Function.update
          (Function.update g stagingName none)
            certsName (some x))
        n c previousName dirId old h)
      (fun _ _ => True) := by
  refine (renameEntry_ensures _ _ (fun _ _ => trivial)
    (fun h hP => ⟨hP.1.note, hP.2⟩)
    (fun h node hP hSource => ⟨trivial, ?_⟩)).weaken
      (fun _ hP => hP) (fun _ _ hQ => hQ)
      (fun _ _ _ => trivial)
  have hNode : idOf (some node) = some x := by
    rw [← hAside.staging, ← hP.1.ids, Disk.ids, hSource]
  refine ⟨_, Steady.note ⟨?_, hP.1.nextId, rfl⟩, ?_⟩
  · rw [ids_moved hSource, hP.1.ids, hNode]
  · exact (node_moved_of_ne (by decide) (by decide)).trans
      hP.2

theorem Aside.swap
    {g : Text → Option Nat}
    (hAside : Aside f x g) :
    Swap f x (Function.update (Function.update
      (Function.update g stagingName none)
        certsName (some x)) previousName none) := by
  refine ⟨?_, ?_, ?_⟩
  · rw [Function.update_of_ne (by decide),
      Function.update_self]
  · rw [Function.update_of_ne (by decide),
      Function.update_of_ne (by decide),
      Function.update_self]
  · intro name k hName hId
    by_cases hPrevious : name = previousName
    · rw [hPrevious, Function.update_self] at hId
      cases hId
    rw [Function.update_of_ne hPrevious,
      Function.update_of_ne hName] at hId
    by_cases hStaging : name = stagingName
    · rw [hStaging, Function.update_self] at hId
      cases hId
    · rw [Function.update_of_ne hStaging] at hId
      exact hAside.fewer name k hPrevious hId

/- The fallback that succeeds swaps the directories, too. -/
theorem exchangeFallback_swaps
    (hId : f stagingName = some x)
    (hNoTwice : NoTwice old) :
    Ensures Honest Always
      (Steady f n (some (.dir dirId old))) exchangeFallback
      (fun _ => Swapped f n x) (fun _ _ => True) := by
  refine Ensures.bind (removeDirIfPresent_around (by decide))
    (fun _ => Ensures.bind (setAside_aside hId) (fun _ => ?_))
  refine Ensures.exists (fun g => Ensures.and_left
    (fun hAside => ?_))
  refine Ensures.bind (Ensures.attempt (install_aside hAside))
    (fun result => ?_)
  cases result with
  | ok _ =>
      refine Ensures.exists (fun c => ?_)
      exact (removeDirIfPresent_found (by decide)
        hNoTwice).weaken (fun _ hP => hP)
          (fun _ _ hQ => ⟨_, c, hAside.swap, hQ⟩)
          (fun _ _ hE => hE)
  | error installError =>
      have hRestore : Ensures Honest Always (fun _ => True)
          (renameEntry previousName certsName)
          (fun _ _ => True) (fun _ _ => True) :=
        renameEntry_ensures _ _ (fun _ _ => trivial)
          (fun _ _ => trivial)
          (fun _ _ _ _ => ⟨trivial, trivial⟩)
      refine Ensures.bind (Ensures.attempt (hRestore.weaken
        (fun _ _ => trivial) (fun _ _ hQ => hQ)
        (fun _ _ hE => hE))) (fun restored => ?_)
      cases restored with
      | ok _ => exact Ensures.throw _ (fun _ _ => trivial)
      | error _ => exact Ensures.throw _ (fun _ _ => trivial)

/- An exchange that succeeds removes what it displaced. -/
theorem exchange_swaps
    (hId : f stagingName = some x)
    (hNoTwice : NoTwice old) :
    Ensures Honest Always
      (Steady f n (some (.dir dirId old))) exchange
      (fun _ => Swapped f n x) (fun _ _ => True) := by
  refine Ensures.bind (keeps_pathExists _).loose (fun live => ?_)
  cases live with
  | false =>
      exact (install_swaps hId (fun _ _ _ hAt => hAt)).weaken
        (fun _ hP => hP) (fun _ _ hQ => hQ)
        (fun _ _ _ => trivial)
  | true =>
      refine Ensures.bind (Ensures.attempt
        (exchangeEntries_swaps hId)) (fun result => ?_)
      cases result with
      | ok _ =>
          refine Ensures.exists (fun c => ?_)
          exact (removeDirIfPresent_found (by decide)
            hNoTwice).weaken (fun _ hP => hP)
              (fun _ _ hQ => ⟨_, c, swap_exchanged, hQ⟩)
              (fun _ _ hE => hE)
      | error e =>
          dsimp only
          split_ifs
          · exact exchangeFallback_swaps hId hNoTwice
          · exact Ensures.throw e (fun _ _ => trivial)

end

end Render

end Trustd

------------------------------------------------------------
-- Rounds
------------------------------------------------------------

namespace Trustd

namespace Render

open General Store

theorem Swap.of_staged
    {f g : Text → Option Nat}
    {n x : Nat}
    (hSwap : Swap (staged f n) x g) :
    Swap f x g := by
  refine ⟨hSwap.certs, hSwap.staging, fun name k hName hId =>
    ?_⟩
  by_cases hStaging : name = stagingName
  · rw [hStaging, hSwap.staging] at hId
    cases hId
  · have hStaged := hSwap.fewer name k hName hId
    rw [staged, Function.update_of_ne hStaging] at hStaged
    exact hStaged

/- A render that succeeds swaps in the staged directory. -/
theorem renderFiles_swaps
    {f : Text → Option Nat}
    {n dirId : Nat}
    {old : Entries}
    (hNoTwice : NoTwice old)
    (composed : Composed) :
    Ensures Honest Always
      (Steady f n (some (.dir dirId old)))
      (renderFiles composed)
      (fun _ => Swapped f (spent f n)
        ((f stagingName).getD n))
      (fun _ _ => True) := by
  have hId : staged f n stagingName =
      some ((f stagingName).getD n) :=
    Function.update_self _ _ _
  refine Ensures.bind (Keeps.mapError keeps_createStore
    _).loose (fun _ => ?_)
  refine Ensures.bind prepareStaging_steady (fun _ => ?_)
  refine Ensures.bind (Keeps.forEach keeps_stageFile _).loose
    (fun _ => ?_)
  refine Ensures.bind (withContext_ensures _ _
    (exchange_swaps hId hNoTwice)) (fun _ => ?_)
  refine Ensures.exists (fun g => Ensures.exists
    (fun c => Ensures.and_left (fun hSwap => ?_)))
  refine Ensures.bind (Keeps.mapError (keeps_writeFile
    (fun d hSome => ?_) (fun _ => by decide) _) _).loose
      (fun _ => Ensures.pure _ (fun h hP =>
        ⟨g, c, hSwap.of_staged, hP⟩))
  cases hSome

/- One call of `render` and how its calls go. -/
structure Round where
  composed : Composed
  compat : Compat
  faults : Nat → Fault

def Round.result (r : Round) (h : Host) :
    Except IoError (List Text) × Machine Host Fault :=
  render r.composed r.compat (Machine.start h r.faults)

def Round.after (r : Round) (h : Host) : Host :=
  (r.result h).2.state

/- A render in a mode with files that returns `Ok`. -/
structure Round.Succeeds (r : Round) (h : Host) : Prop where
  compat : r.compat ≠ .none
  honest : ∀ k, Honest (r.faults k)
  ok : ∃ paths, (r.result h).1 = .ok paths

/- The hosts after each of some rounds, the first one first. -/
def hostsAfter : Host → List Round → List Host
  | _, [] => []
  | h, r :: rounds => r.after h :: hostsAfter (r.after h) rounds

/- Every round succeeds where the one before left the host. -/
def Succeed : Host → List Round → Prop
  | _, [] => True
  | h, r :: rounds =>
      r.Succeeds h ∧ Succeed (r.after h) rounds

theorem noTwice_leavesOver
    {start : Entries}
    (hStart : NoTwice start)
    (composed : Composed) :
    NoTwice (leavesOver start composed) := by
  have hPut : ∀ (files : List (Text × Bytes)) now,
      NoTwice now → NoTwice (files.foldl putFile now) := by
    intro files
    induction files with
    | nil => exact fun _ hNow => hNow
    | cons file rest ih =>
        intro now hNow
        refine ih _ ?_
        have hSub := List.Sublist.map Prod.fst
          (List.filter_sublist
            (p := fun e : Text × Leaf => e.1 ≠ file.1)
            (l := now))
        rw [NoTwice, names, putFile, insertEntry, eraseEntry,
          List.map_append]
        refine List.Nodup.append (hNow.sublist hSub)
          (List.nodup_singleton _) ?_
        intro name hErased hSingle
        rcases List.mem_map.mp hErased with ⟨e, he, rfl⟩
        exact (mem_eraseEntry_iff.mp he).2
          (List.mem_singleton.mp hSingle)
  exact hPut _ _ hStart

/- What one round does, from what it finds. -/
theorem Round.Succeeds.swaps
    {r : Round}
    {h : Host}
    (hOk : r.Succeeds h)
    (hRecorded : Recorded h)
    {dirId : Nat}
    {old : Entries}
    (hCerts : h.disk.node certsName = some (.dir dirId old))
    (hOld : NoTwice old)
    (hStart : NoTwice (startOf h.disk r.faults)) :
    Recorded (r.after h) ∧
      (∃ x new, (r.after h).disk.node certsName =
        some (.dir x new) ∧ NoTwice new) ∧
      Swapped h.disk.ids (spent h.disk.ids h.nextId)
        ((h.disk.ids stagingName).getD h.nextId)
        (r.after h) := by
  rcases hOk.ok with ⟨paths, hPaths⟩
  rcases render_over r.composed hOk.compat hRecorded hPaths
    with ⟨hAfter, ⟨x, hNew⟩, -⟩
  refine ⟨hAfter, ⟨x, _, hNew,
    noTwice_leavesOver hStart r.composed⟩, ?_⟩
  have hMeets := renderFiles_swaps hOld r.composed
    (Machine.start h r.faults) hOk.honest
    (fun _ _ => trivial) ⟨rfl, rfl, hCerts⟩
  have hOutcome := hMeets.2.2
  rw [Round.result, render_of_ne_none hOk.compat] at hPaths
  rw [hPaths] at hOutcome
  rw [Round.after, Round.result, render_of_ne_none hOk.compat]
  exact hOutcome

end Render

end Trustd

------------------------------------------------------------
-- The Two Directories
------------------------------------------------------------

namespace Trustd

namespace Render

open General Store

/-
  The store as it is left before the daemon starts: directory
  `a` at `certs` and `b` at the staging name, nowhere else.
-/
structure Prepared (a b : Nat) (h : Host) : Prop where
  certs : ∃ entries,
    h.disk.node certsName = some (.dir a entries) ∧
      NoTwice entries
  staging : ∃ entries,
    h.disk.node stagingName = some (.dir b entries) ∧
      NoTwice entries
  first : ∀ name, h.disk.ids name = some a → name = certsName
  second : ∀ name, h.disk.ids name = some b →
    name = stagingName
  fresh : a < h.nextId ∧ b < h.nextId
  installed : h.installed = h.disk.node certsName

/- One of the two directories is installed. -/
def Original (a b : Nat) (h : Host) : Prop :=
  h.disk.ids certsName = some a ∨
    h.disk.ids certsName = some b

/- A directory is still somewhere. -/
def Standing (dirId : Nat) (h : Host) : Prop :=
  ∃ name, h.disk.ids name = some dirId

/- One of the two is installed, and both of them last. -/
structure Kept (a b : Nat) (h : Host) : Prop where
  installed : Original a b h
  first : Standing a h
  second : Standing b h

/- What holds after each round. -/
structure Later (a b : Nat) (h : Host) : Prop where
  certs : ∃ x entries,
    h.disk.node certsName = some (.dir x entries) ∧
      NoTwice entries
  staging : h.disk.ids stagingName = none
  elsewhere : ∀ name, name ≠ certsName →
    h.disk.ids name ≠ some a ∧ h.disk.ids name ≠ some b
  fresh : a < h.nextId ∧ b < h.nextId
  recorded : Recorded h

variable {a b : Nat}
variable {h : Host}
variable {r : Round}

theorem noTwice_startOf
    {disk : Disk}
    (hStaging : ∀ dirId entries,
      disk.node stagingName = some (.dir dirId entries) →
        NoTwice entries)
    (faults : Nat → Fault) :
    NoTwice (startOf disk faults) := by
  rw [startOf]
  split_ifs
  · rw [Disk.entriesOf]
    rcases hNode : disk.node stagingName with
      _ | ⟨_ | ⟨dirId, entries⟩⟩
    · exact List.nodup_nil
    · exact List.nodup_nil
    · exact hStaging dirId entries hNode
  · exact List.nodup_nil

theorem fresh_spent
    {f : Text → Option Nat}
    {n : Nat}
    (hFresh : a < n ∧ b < n) :
    a < spent f n ∧ b < spent f n := by
  rw [spent]
  split_ifs
  · exact hFresh
  · omega

/- The first round installs `b` and removes `a`. -/
theorem Prepared.round
    (hPrepared : Prepared a b h)
    (hOk : r.Succeeds h) :
    Later a b (r.after h) ∧ Original a b (r.after h) ∧
      ¬ Standing a (r.after h) := by
  rcases hPrepared.certs with ⟨old, hCerts, hOld⟩
  rcases hPrepared.staging with ⟨entries, hStaging, hEntries⟩
  have hIdB := ids_of_dir hStaging
  have hNe : a ≠ b := by
    rintro rfl
    exact absurd (hPrepared.first stagingName hIdB)
      (by decide)
  have hRecorded : Recorded h :=
    noted_of_installed hPrepared.installed
  have hStart : NoTwice (startOf h.disk r.faults) := by
    refine noTwice_startOf (fun dirId found hFound => ?_) _
    cases hStaging.symm.trans hFound
    exact hEntries
  rcases hOk.swaps hRecorded hCerts hOld hStart with
    ⟨hAfter, hNew, g, c, hSwap, hSteady⟩
  rw [hIdB, Option.getD_some] at hSwap
  have hElsewhere : ∀ name, name ≠ certsName →
      (r.after h).disk.ids name ≠ some a ∧
        (r.after h).disk.ids name ≠ some b := by
    intro name hName
    rw [hSteady.ids]
    refine ⟨fun hAt => ?_, fun hAt => ?_⟩
    · exact hName (hPrepared.first name
        (hSwap.fewer name a hName hAt))
    · have hSame := hPrepared.second name
        (hSwap.fewer name b hName hAt)
      rw [hSame, hSwap.staging] at hAt
      cases hAt
  have hInstalled : (r.after h).disk.ids certsName = some b := by
    rw [hSteady.ids]
    exact hSwap.certs
  refine ⟨⟨hNew, ?_, hElsewhere, ?_, hAfter⟩,
    Or.inr hInstalled, ?_⟩
  · rw [hSteady.ids]
    exact hSwap.staging
  · rw [hSteady.nextId]
    exact fresh_spent hPrepared.fresh
  · rintro ⟨name, hAt⟩
    by_cases hName : name = certsName
    · rw [hName, hInstalled] at hAt
      cases hAt
      exact hNe rfl
    · exact (hElsewhere name hName).1 hAt

/- Every later round installs a directory of its own. -/
theorem Later.round
    (hLater : Later a b h)
    (hOk : r.Succeeds h) :
    Later a b (r.after h) ∧ ¬ Original a b (r.after h) := by
  rcases hLater.certs with ⟨x, old, hCerts, hOld⟩
  have hStart : NoTwice (startOf h.disk r.faults) := by
    refine noTwice_startOf (fun dirId found hFound => ?_) _
    cases hLater.staging.symm.trans (ids_of_dir hFound)
  rcases hOk.swaps hLater.recorded hCerts hOld hStart with
    ⟨hAfter, hNew, g, c, hSwap, hSteady⟩
  rw [hLater.staging, Option.getD_none] at hSwap
  refine ⟨⟨hNew, ?_, fun name hName => ?_, ?_, hAfter⟩, ?_⟩
  · rw [hSteady.ids]
    exact hSwap.staging
  · rw [hSteady.ids]
    have hBefore := hLater.elsewhere name hName
    exact ⟨fun hAt => hBefore.1 (hSwap.fewer name a hName hAt),
      fun hAt => hBefore.2 (hSwap.fewer name b hName hAt)⟩
  · rw [hSteady.nextId]
    exact fresh_spent hLater.fresh
  · rintro (hAt | hAt)
    · rw [hSteady.ids, hSwap.certs, Option.some.injEq] at hAt
      exact absurd hAt (Nat.ne_of_gt hLater.fresh.1)
    · rw [hSteady.ids, hSwap.certs, Option.some.injEq] at hAt
      exact absurd hAt (Nat.ne_of_gt hLater.fresh.2)

/- No later host has one of the two directories installed. -/
theorem Later.hosts
    (hLater : Later a b h)
    {rounds : List Round}
    (hOk : Succeed h rounds) :
    ∀ host ∈ hostsAfter h rounds, ¬ Original a b host := by
  induction rounds generalizing h with
  | nil => exact fun host hMem => by cases hMem
  | cons r rounds ih =>
      rcases hLater.round hOk.1 with ⟨hNext, hNot⟩
      intro host hMem
      rcases List.mem_cons.mp hMem with rfl | hMem
      · exact hNot
      · exact ih hNext hOk.2 host hMem

/-
  The two directories are kept over a run of renders only if
  there is no render in it. The first one removes one of them
  and installs the other, every later one installs neither.
-/
theorem rounds_keep_iff
    (hPrepared : Prepared a b h)
    {rounds : List Round}
    (hOk : Succeed h rounds) :
    ((∀ host ∈ hostsAfter h rounds, Kept a b host) ↔
      rounds = []) ∧
    ∀ k host, (hostsAfter h rounds)[k]? = some host →
      (Original a b host ↔ k = 0) := by
  cases rounds with
  | nil =>
      refine ⟨iff_of_true (fun host hMem => ?_) rfl,
        fun k host hAt => ?_⟩
      · cases hMem
      · cases hAt
  | cons r rounds =>
      rcases hPrepared.round hOk.1 with
        ⟨hLater, hOriginal, hGone⟩
      refine ⟨iff_of_false (fun hAll => ?_)
        (List.cons_ne_nil _ _), fun k host hAt => ?_⟩
      · exact hGone (hAll _ List.mem_cons_self).first
      · cases k with
        | zero =>
            rw [hostsAfter, List.getElem?_cons_zero,
              Option.some.injEq] at hAt
            rw [← hAt]
            exact iff_of_true hOriginal rfl
        | succ k =>
            rw [hostsAfter, List.getElem?_cons_succ] at hAt
            exact iff_of_false (hLater.hosts hOk.2 host
              (List.mem_of_getElem? hAt)) (Nat.succ_ne_zero k)

/- The store before the daemon has run. -/
def preparedStore : Disk :=
  { store := some (fun name =>
      if name = certsName then some (.dir 1 [])
      else if name = stagingName then some (.dir 2 [])
      else none) }

theorem prepared_preparedStore :
    Prepared 1 2 (Host.on preparedStore 41 0 3) := by
  have hNodes : ∀ name dirId,
      preparedStore.ids name = some dirId →
        (name = certsName ∧ dirId = 1) ∨
          (name = stagingName ∧ dirId = 2) := by
    intro name dirId hId
    have hNode : preparedStore.node name =
        if name = certsName then some (.dir 1 [])
        else if name = stagingName then some (.dir 2 [])
        else none := rfl
    rw [Disk.ids, hNode] at hId
    split_ifs at hId with hCerts hStaging
    · cases hId
      exact Or.inl ⟨hCerts, rfl⟩
    · cases hId
      exact Or.inr ⟨hStaging, rfl⟩
    · cases hId
  refine ⟨⟨[], rfl, List.nodup_nil⟩, ⟨[], rfl,
    List.nodup_nil⟩, fun name hId => ?_, fun name hId => ?_,
    ⟨by decide, by decide⟩, rfl⟩
  · rcases hNodes name 1 hId with ⟨hName, -⟩ | ⟨-, hNe⟩
    · exact hName
    · cases hNe
  · rcases hNodes name 2 hId with ⟨-, hNe⟩ | ⟨hName, -⟩
    · cases hNe
    · exact hName

/- A render of nothing in which every call succeeds. -/
def plainRound : Round where
  composed := {}
  compat := .files
  faults := fun _ => { count := 4096 }

theorem Round.succeeds_of_isOk
    (hCompat : r.compat ≠ .none)
    (hNone : ∀ k, (r.faults k).error = none)
    (hOk : (r.result h).1.isOk = true) :
    r.Succeeds h := by
  refine ⟨hCompat, fun k e hError => ?_, ?_⟩
  · rw [hNone k] at hError
    cases hError
  · cases hRun : (r.result h).1 with
    | ok paths => exact ⟨paths, rfl⟩
    | error e =>
        rw [hRun] at hOk
        cases hOk

theorem succeed_plainRounds :
    Succeed (Host.on preparedStore 41 0 3)
      [plainRound, plainRound] :=
  ⟨Round.succeeds_of_isOk (by decide) (fun _ => rfl)
      (by decide +kernel),
    Round.succeeds_of_isOk (by decide) (fun _ => rfl)
      (by decide +kernel), trivial⟩

/- Two renders of the prepared store. -/
theorem rounds_keep_iff_twice :
    ((∀ host ∈ hostsAfter (Host.on preparedStore 41 0 3)
        [plainRound, plainRound], Kept 1 2 host) ↔
      [plainRound, plainRound] = []) ∧
    ∀ k host, (hostsAfter (Host.on preparedStore 41 0 3)
        [plainRound, plainRound])[k]? = some host →
      (Original 1 2 host ↔ k = 0) :=
  rounds_keep_iff prepared_preparedStore succeed_plainRounds

/- The first render of the two removes a directory. -/
theorem rounds_lose_first :
    ¬ ∀ (a b : Nat) (h : Host) (rounds : List Round),
      Prepared a b h → Succeed h rounds →
        ∀ host ∈ hostsAfter h rounds, Kept a b host := by
  intro hAll
  have hKept := hAll 1 2 _ _ prepared_preparedStore
    succeed_plainRounds _ List.mem_cons_self
  exact (prepared_preparedStore.round
    succeed_plainRounds.1).2.2 hKept.first

end Render

end Trustd
