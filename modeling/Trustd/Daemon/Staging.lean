import Trustd.Daemon.Render

/-
  What the calls on the staging directory do, and that they
  leave alone what readers of the store see.

  Key definitions include:
    * `Trustd.Render.View`
    * `Trustd.Render.viewOf`
    * `Trustd.Render.Frame`
    * `Trustd.Render.Holding`
    * `Trustd.Render.Staged`
    * `Trustd.Render.rendering`

  Key theorems include:
    * `Trustd.Render.syscall_ensures`
    * `Trustd.Render.writeFile_ensures`
    * `Trustd.Render.onEntry_holding`
    * `Trustd.Render.emptyDir_holding`
    * `Trustd.Render.stageFiles_staged`
-/

------------------------------------------------------------
-- What Readers See
------------------------------------------------------------

namespace Trustd

namespace Render

/- The live names, and what was last installed at `certs`. -/
structure View where
  certs : Option Node
  previous : Option Node
  certPem : Option Node
  installed : Option Node

def viewOf (h : Host) : View where
  certs := h.disk.node certsName
  previous := h.disk.node previousName
  certPem := h.disk.node certPemName
  installed := h.installed

/- The history variable has seen what is at `certs` now. -/
def View.Noted (v : View) : Prop :=
  ∀ n, v.certs = some n → v.installed = some n

@[simp] theorem note_disk (h : Host) :
    h.note.disk = h.disk := rfl

theorem noted_viewOf_note (h : Host) :
    (viewOf h.note).Noted := by
  intro n hn
  change h.disk.node certsName = some n at hn
  simp [viewOf, Host.note, hn]

theorem note_eq
    {h : Host}
    (hNoted : (viewOf h).Noted) :
    h.note = h := by
  rcases h with ⟨disk, pid, next, nextId, installed⟩
  simp only [Host.note, Host.mk.injEq, true_and]
  cases hCerts : disk.node certsName with
  | none => rfl
  | some n => exact (hNoted n hCerts).symm

/- A change elsewhere on the disk does not change the view. -/
theorem viewOf_note_of_same
    {v : View}
    (hNoted : v.Noted)
    {h h' : Host}
    (hView : viewOf h = v)
    (hInstalled : h'.installed = h.installed)
    (hSame : ∀ name ∈
      [certsName, previousName, certPemName],
        h'.disk.node name = h.disk.node name) :
    viewOf h'.note = v := by
  have hView' : viewOf h' = v := by
    rw [← hView]
    simp only [viewOf, hInstalled, View.mk.injEq, and_true]
    exact ⟨hSame _ (by simp), hSame _ (by simp),
      hSame _ (by simp)⟩
  rw [note_eq (by rw [hView']; exact hNoted), hView']

end Render

end Trustd

------------------------------------------------------------
-- Calls
------------------------------------------------------------

namespace Trustd

namespace Render

open General

variable {α : Type}
variable {G : Fault → Prop}
variable {I P : Host → Prop}
variable {Q : α → Host → Prop}
variable {E : IoError → Host → Prop}

/- A call, from what each fault makes of it. -/
theorem syscall_ensures_fault
    {op : Host → Except IoError α × Host}
    (hInv : ∀ h, P h → I h)
    (hFail : ∀ f e h, G f → f.error = some e → P h → E e h)
    (hDone : ∀ h, P h →
      I (op h).2.note ∧
        Outcome Q E (op h).1 (op h).2.note) :
    Ensures G I P (syscall op) Q E := by
  refine Ensures.step (fun f h hG hP => ?_)
  cases hError : f.error with
  | some e => exact ⟨hInv h hP, hFail f e h hG hError hP⟩
  | none => exact hDone h hP

/- A call, from what it does where its fault lets it. -/
theorem syscall_ensures
    {op : Host → Except IoError α × Host}
    (hInv : ∀ h, P h → I h)
    (hFail : ∀ e h, P h → E e h)
    (hDone : ∀ h, P h →
      I (op h).2.note ∧
        Outcome Q E (op h).1 (op h).2.note) :
    Ensures G I P (syscall op) Q E :=
  syscall_ensures_fault hInv
    (fun _ e h _ _ hP => hFail e h hP) hDone

/- Looking changes nothing. -/
theorem inspect_ensures
    (hInv : ∀ h, P h → I h)
    (hNote : ∀ h, P h → P h.note) :
    Ensures G I P inspect (fun _ => P) (fun _ => P) :=
  syscall_ensures hInv (fun _ _ hP => hP)
    (fun h hP => ⟨hInv _ (hNote h hP), hNote h hP⟩)

/- What is said to exist does; the stat may have failed. -/
theorem pathExists_ensures
    (path : Path)
    (hInv : ∀ h, P h → I h) :
    Ensures G I P (pathExists path)
      (fun b h => P h ∧ (b = true → h.disk.has path = true))
      E := by
  refine Ensures.step (fun f h _ hP => ?_)
  refine ⟨hInv h hP, hP, ?_⟩
  intro hTrue
  split_ifs at hTrue
  exact hTrue

/- A program that only ever adds context to its error. -/
theorem withContext_ensures
    (operation : Text)
    (path : Path)
    {x : Action α}
    {R : Host → Prop}
    (hx : Ensures G I P x Q (fun _ => R)) :
    Ensures G I P (withContext operation path x) Q
      (fun _ => R) :=
  Ensures.mapError hx

/- A call is one step. -/
theorem syscall_spends
    (op : Host → Except IoError α × Host) :
    Prog.Spends (syscall op) 1 :=
  Prog.Spends.step _

theorem createStore_spends :
    Prog.Spends createStore 1 :=
  syscall_spends _

theorem withContext_spends
    (operation : Text)
    (path : Path)
    {x : Action α}
    {n : Nat}
    (hx : Prog.Spends x n) :
    Prog.Spends (withContext operation path x) n :=
  Prog.Spends.mapError hx _

theorem ifPresent_spends
    {x : Action Unit}
    {n : Nat}
    (hx : Prog.Spends x n) :
    Prog.Spends (ifPresent x) n := by
  refine Prog.Spends.bind (Prog.Spends.attempt hx)
    (fun r => ?_)
  cases r with
  | ok _ => exact Prog.Spends.pure ()
  | error e =>
      dsimp only
      split_ifs
      · exact Prog.Spends.pure ()
      · exact Prog.Spends.throw e

theorem ifPresent_ensures
    {x : Action Unit}
    {R S : Host → Prop}
    (hx : Ensures G I P x (fun _ => S)
      (fun e h => (e.kind = .notFound → S h) ∧ R h)) :
    Ensures G I P (ifPresent x) (fun _ => S)
      (fun _ => R) := by
  refine Ensures.bind (Ensures.attempt hx) (fun r => ?_)
  cases r with
  | ok _ => exact Ensures.pure () (fun _ hS => hS)
  | error e =>
      by_cases hKind : e.kind = .notFound
      · simp only [if_pos hKind]
        exact Ensures.pure () (fun _ hS => hS.1 hKind)
      · simp only [if_neg hKind]
        exact Ensures.throw e (fun _ hS => hS.2)

end Render

end Trustd

------------------------------------------------------------
-- Writing A File
------------------------------------------------------------

namespace Trustd

namespace Render

open General

variable {G : Fault → Prop}
variable {I : Host → Prop}

/-
  `write_file`, from what its calls do: the file is reserved
  under a temporary name, grows there to its contents, is
  renamed, and what is left of the temporary name removed.
-/
theorem writeFile_ensures
    {Before After Failed : Host → Prop}
    (Temp : Text → Bytes → Host → Prop)
    (Renamed : Text → Host → Prop)
    (dir : Option Text)
    (name : Text)
    (contents : Bytes)
    (hFailed : ∀ h, Before h → Failed h)
    (hReserve : ∀ h, Before h →
      I { h with next := h.next + 1 } ∧
        Before { h with next := h.next + 1 })
    (hCreate : ∀ pid next,
      Ensures G I Before
        (createFile dir (temporaryName pid next))
        (fun _ => Temp (temporaryName pid next) [])
        (fun _ => Before))
    (hWrite : ∀ temporary written data,
      Ensures G I (Temp temporary written)
        (write (place dir temporary) data)
        (fun n h =>
          Temp temporary (written ++ data.take n) h ∧
            (data ≠ [] → 0 < n))
        (fun _ h => ∃ partly, Temp temporary partly h))
    (hSync : ∀ temporary written,
      Ensures G I (Temp temporary written) inspect
        (fun _ => Temp temporary written)
        (fun _ h => ∃ partly, Temp temporary partly h))
    (hRename : ∀ pid next,
      Ensures G I (Temp (temporaryName pid next) contents)
        (renameFile dir (temporaryName pid next) name)
        (fun _ => Renamed (temporaryName pid next))
        (fun _ h => ∃ partly,
          Temp (temporaryName pid next) partly h))
    (hClean : ∀ temporary,
      Ensures G I
        (fun h => ∃ partly, Temp temporary partly h)
        (removeFileIn dir temporary)
        (fun _ => Failed) (fun _ => Failed))
    (hGone : ∀ temporary,
      Ensures G I (Renamed temporary)
        (removeFileIn dir temporary)
        (fun _ => After) (fun _ => After)) :
    Ensures G I Before (writeFile dir name contents)
      (fun _ => After) (fun _ => Failed) := by
  have hTries : ∀ tries,
      Ensures G I Before (createTemporary dir tries)
        (fun temporary h =>
          ∃ pid next, temporary = temporaryName pid next ∧
            Temp temporary [] h)
        (fun _ => Failed) := by
    intro tries
    induction tries with
    | zero => exact Ensures.throw _ hFailed
    | succ tries ih =>
        refine Ensures.bind (Q := fun temporary h =>
          ∃ pid next, temporary = temporaryName pid next ∧
            Before h)
          (Ensures.step (fun _ h _ hP =>
            ⟨(hReserve h hP).1, h.pid, h.next, rfl,
              (hReserve h hP).2⟩)) (fun temporary => ?_)
        refine Ensures.exists (fun pid => Ensures.exists
          (fun next => Ensures.and_left ?_))
        rintro rfl
        refine Ensures.bind (Ensures.attempt
          (hCreate pid next)) (fun result => ?_)
        cases result with
        | ok _ =>
            exact Ensures.pure _ (fun h hTemp =>
              ⟨pid, next, rfl, hTemp⟩)
        | error e =>
            dsimp only
            split_ifs
            · exact ih
            · exact Ensures.throw e hFailed
  have hAll : ∀ temporary fuel written data,
      data.length ≤ fuel → written ++ data = contents →
        Ensures G I (Temp temporary written)
          (writeAllFrom (place dir temporary) fuel data)
          (fun _ => Temp temporary contents)
          (fun _ h => ∃ partly, Temp temporary partly h) := by
    intro temporary fuel
    induction fuel with
    | zero =>
        intro written data hLength hContents
        have hNil : data = [] :=
          List.length_eq_zero_iff.mp (by omega)
        rw [hNil, List.append_nil] at hContents
        rw [hContents]
        exact Ensures.pure () (fun _ hTemp => hTemp)
    | succ fuel ih =>
        intro written data hLength hContents
        rw [writeAllFrom]
        split_ifs with hNil
        · rw [hNil, List.append_nil] at hContents
          rw [hContents]
          exact Ensures.pure () (fun _ hTemp => hTemp)
        · refine Ensures.bind (hWrite temporary written data)
            (fun n => ?_)
          intro m hG hI hP
          have hTaken := hP.2 hNil
          refine ih (written ++ data.take n) (data.drop n)
            ?_ ?_ m hG hI hP.1
          · rw [List.length_drop]
            omega
          · rw [List.append_assoc, List.take_append_drop,
              hContents]
  refine Ensures.bind (hTries 64) (fun temporary => ?_)
  refine Ensures.exists (fun pid => Ensures.exists
    (fun next => Ensures.and_left ?_))
  rintro rfl
  have hBody :=
    Ensures.bind (hAll (temporaryName pid next)
      contents.length [] contents le_rfl rfl) (fun _ =>
        Ensures.bind (hSync (temporaryName pid next) contents)
          (fun _ => hRename pid next))
  refine Ensures.bind (Ensures.attempt hBody)
    (fun result => ?_)
  have hDrop :
      Ensures (ε := IoError) G I
        (Outcome (fun _ => Renamed (temporaryName pid next))
          (fun _ h => ∃ partly,
            Temp (temporaryName pid next) partly h) result)
        (Prog.attempt (removeFileIn dir
          (temporaryName pid next)))
        (fun _ => Outcome (fun _ => After)
          (fun _ => Failed) result)
        (fun _ => Failed) := by
    cases result with
    | ok _ =>
        exact (Ensures.attempt (hGone _)).weaken
          (fun _ h => h) (fun r _ h => by cases r <;> exact h)
          (fun _ _ h => h)
    | error e =>
        exact (Ensures.attempt (hClean _)).weaken
          (fun _ h => h) (fun r _ h => by cases r <;> exact h)
          (fun _ _ h => h)
  exact Ensures.bind hDrop (fun _ => Ensures.ofExcept result)

end Render

end Trustd

------------------------------------------------------------
-- A Directory And What Is Around It
------------------------------------------------------------

namespace Trustd

namespace Render

open General

/- `F` says nothing of what is in the directory `name`. -/
structure Frame (name : Text) (F : Host → Prop) : Prop where
  note : ∀ h, F h → F h.note
  set : ∀ h dirId entries, F h →
    F { h with disk :=
      h.disk.setNode name (some (.dir dirId entries)) }.note

/- Around `name` all is as in `F`, inside as in `A`. -/
def Holding
    (name : Text)
    (F : Host → Prop)
    (A : Entries → Prop)
    (h : Host) :
    Prop :=
  F h ∧ ∃ dirId entries,
    h.disk.node name = some (.dir dirId entries) ∧ A entries

theorem Holding.mono
    {name : Text}
    {F : Host → Prop}
    {A B : Entries → Prop}
    (hAB : ∀ entries, A entries → B entries)
    {h : Host}
    (hHolding : Holding name F A h) :
    Holding name F B h := by
  rcases hHolding with ⟨hF, dirId, entries, hNode, hA⟩
  exact ⟨hF, dirId, entries, hNode, hAB entries hA⟩

theorem entriesOf_eq
    {d : Disk}
    {dir : Text}
    {dirId : Nat}
    {entries : Entries}
    (hNode : d.node dir = some (.dir dirId entries)) :
    d.entriesOf dir = some entries := by
  simp [Disk.entriesOf, hNode]

theorem setEntries_eq
    {d : Disk}
    {dir : Text}
    {dirId : Nat}
    {entries : Entries}
    (hNode : d.node dir = some (.dir dirId entries))
    (entries' : Entries) :
    d.setEntries dir entries' =
      d.setNode dir (some (.dir dirId entries')) := by
  simp [Disk.setEntries, hNode]

section

variable {α : Type}
variable {G : Fault → Prop}
variable {I F : Host → Prop}
variable {A C : Entries → Prop}
variable {B : α → Entries → Prop}
variable {name : Text}
variable (hFrame : Frame name F)
variable (hInv : ∀ h, F h → I h)

include hFrame in
theorem Holding.note
    {h : Host}
    (hHolding : Holding name F A h) :
    Holding name F A h.note :=
  ⟨hFrame.note h hHolding.1, hHolding.2⟩

/- The directory's entries can change freely. -/
include hFrame in
theorem holding_setEntries
    {h : Host}
    (hF : F h)
    {dirId : Nat}
    {entries : Entries}
    (hNode : h.disk.node name = some (.dir dirId entries))
    {entries' : Entries}
    (hA : A entries') :
    Holding name F A { h with
      disk := h.disk.setEntries name entries' }.note := by
  rw [setEntries_eq hNode]
  exact ⟨hFrame.set h _ _ hF, dirId, entries',
    Disk.node_setNode_self _ (Disk.store_of_node hNode) _ _,
    hA⟩

/- A call on one entry, from what it does to the entries. -/
include hFrame hInv in
theorem onEntry_holding
    (child : Text)
    {op : Option Leaf → Entries →
      Except IoError α × Option Entries}
    (hFail : ∀ entries, A entries → C entries)
    (hDone : ∀ entries, A entries →
      Outcome B (fun _ => C)
        (op (lookupEntry child entries) entries).1
        ((op (lookupEntry child entries) entries).2.getD
          entries)) :
    Ensures G I (Holding name F A) (onEntry name child op)
      (fun a => Holding name F (B a))
      (fun _ => Holding name F C) := by
  refine syscall_ensures (fun h hP => hInv h hP.1)
    (fun _ _ hP => hP.mono hFail) (fun h hP => ?_)
  rcases hP with ⟨hF, dirId, entries, hNode, hA⟩
  have hResult := hDone entries hA
  simp only [entriesOf_eq hNode]
  rcases hOp : op (lookupEntry child entries) entries with
    ⟨r, _ | entries'⟩
  · rw [hOp] at hResult
    have hNote := hFrame.note h hF
    refine ⟨hInv _ hNote, ?_⟩
    cases r with
    | ok a => exact ⟨hNote, dirId, entries, hNode, hResult⟩
    | error e => exact ⟨hNote, dirId, entries, hNode, hResult⟩
  · rw [hOp] at hResult
    cases r with
    | ok a =>
        have hHolding := holding_setEntries hFrame hF hNode
          (A := B a) hResult
        exact ⟨hInv _ hHolding.1, hHolding⟩
    | error e =>
        have hHolding := holding_setEntries hFrame hF hNode
          (A := C) hResult
        exact ⟨hInv _ hHolding.1, hHolding⟩

include hFrame hInv in
theorem inspect_holding
    (hFail : ∀ entries, A entries → C entries) :
    Ensures G I (Holding name F A) inspect
      (fun _ => Holding name F A)
      (fun _ => Holding name F C) :=
  (inspect_ensures (fun h hP => hInv h hP.1)
    (fun _ hP => hP.note hFrame)).weaken
      (fun _ hP => hP) (fun _ _ hQ => hQ)
      (fun _ _ hE => hE.mono hFail)

/- Listing succeeds only on a directory. -/
include hFrame hInv in
theorem readDir_holding :
    Ensures G I F (readDir name)
      (fun entries => Holding name F (fun now => now = entries))
      (fun _ => F) := by
  refine syscall_ensures hInv (fun _ _ hF => hF)
    (fun h hF => ?_)
  have hNote := hFrame.note h hF
  rcases hNode : h.disk.node name with
    _ | ⟨_ | ⟨dirId, entries⟩⟩
  · exact ⟨hInv _ hNote, hNote⟩
  · exact ⟨hInv _ hNote, hNote⟩
  · exact ⟨hInv _ hNote, hNote, dirId, entries, hNode, rfl⟩

end

end Render

end Trustd

------------------------------------------------------------
-- Emptying A Directory
------------------------------------------------------------

namespace Trustd

namespace Render

open General

def Anything : Entries → Prop := fun _ => True

theorem mem_eraseEntry_iff
    {name : Text}
    {entries : Entries}
    {e : Text × Leaf} :
    e ∈ eraseEntry name entries ↔
      e ∈ entries ∧ e.1 ≠ name := by
  simp [eraseEntry]

section

variable {G : Fault → Prop}
variable {I F : Host → Prop}
variable {name : Text}
variable (hFrame : Frame name F)
variable (hInv : ∀ h, F h → I h)

/- Removing an entry leaves those still to be removed. -/
include hFrame hInv in
theorem removeByType_holding
    (e : Text × Leaf)
    (rest : Entries) :
    Ensures G I
      (Holding name F (fun now => ∀ x ∈ now, x ∈ e :: rest))
      (removeByType name e)
      (fun _ => Holding name F (fun now =>
        ∀ x ∈ now, x ∈ rest))
      (fun _ => Holding name F Anything) := by
  have hErase : ∀ now : Entries,
      (∀ x ∈ now, x.1 = e.1 ∨ x ∈ rest) →
        ∀ x ∈ eraseEntry e.1 now, x ∈ rest := by
    intro now hNow x hx
    rcases mem_eraseEntry_iff.mp hx with ⟨hMem, hNe⟩
    exact (hNow x hMem).resolve_left hNe
  have hWiden : ∀ now : Entries,
      (∀ x ∈ now, x ∈ e :: rest) →
        ∀ x ∈ now, x.1 = e.1 ∨ x ∈ rest := by
    intro now hNow x hx
    rcases List.mem_cons.mp (hNow x hx) with rfl | hRest
    · exact Or.inl rfl
    · exact Or.inr hRest
  unfold removeByType
  cases e.2 with
  | file data =>
      refine onEntry_holding hFrame hInv e.1
        (fun _ _ => trivial) (fun now hNow => ?_)
      cases lookupEntry e.1 now with
      | none => trivial
      | some leaf =>
          cases leaf with
          | file _ => exact hErase now (hWiden now hNow)
          | folder _ => trivial
  | folder holds =>
      have hShrink :
          Ensures G I
            (Holding name F (fun now =>
              ∀ x ∈ now, x.1 = e.1 ∨ x ∈ rest))
            (shrinkFolder name e.1)
            (fun _ => Holding name F (fun now =>
              ∀ x ∈ now, x.1 = e.1 ∨ x ∈ rest))
            (fun _ => Holding name F Anything) := by
        refine onEntry_holding hFrame hInv e.1
          (fun _ _ => trivial) (fun now hNow => ?_)
        rcases lookupEntry e.1 now with
          _ | ⟨_ | ⟨_ | holds⟩⟩
        · trivial
        · trivial
        · trivial
        · intro x hx
          rcases List.mem_map.mp hx with ⟨y, hy, rfl⟩
          split_ifs with hName
          · exact Or.inl rfl
          · exact hNow y hy
      refine Ensures.bind ((Ensures.forEach
        (J := fun _ => Holding name F (fun now =>
          ∀ x ∈ now, x.1 = e.1 ∨ x ∈ rest))
        (fun _ _ => hShrink) _).weaken
          (fun _ hP => hP.mono hWiden) (fun _ _ hQ => hQ)
          (fun _ _ hE => hE)) (fun _ => ?_)
      refine onEntry_holding hFrame hInv e.1
        (fun _ _ => trivial) (fun now hNow => ?_)
      rcases lookupEntry e.1 now with
        _ | ⟨_ | ⟨_ | holds⟩⟩
      · trivial
      · trivial
      · exact hErase now hNow
      · trivial

/- `empty_dir` leaves the directory empty, or fails. -/
include hFrame hInv in
theorem emptyDir_holding :
    Ensures G I F (emptyDir name)
      (fun _ => Holding name F (fun now => now = []))
      (fun _ => F) := by
  refine Ensures.bind (readDir_holding hFrame hInv)
    (fun entries => ?_)
  have hLoop := Ensures.forEach (G := G) (I := I)
    (J := fun rest => Holding name F (fun now =>
      ∀ x ∈ now, x ∈ rest))
    (E := fun _ => Holding name F Anything)
    (f := fun e => do
      inspect
      inspect
      removeByType name e)
    (fun e rest =>
      Ensures.bind (inspect_holding hFrame hInv
        (fun _ _ => trivial)) (fun _ =>
          Ensures.bind (inspect_holding hFrame hInv
            (fun _ _ => trivial)) (fun _ =>
              removeByType_holding hFrame hInv e rest)))
    entries
  refine Ensures.bind (hLoop.weaken
    (fun h hP => hP.mono (fun now hNow x hx => hNow ▸ hx))
    (fun _ _ hQ => hQ) (fun _ _ hE => hE.1)) (fun _ => ?_)
  exact (inspect_holding hFrame hInv
    (fun _ _ => trivial)).weaken (fun _ h => h)
      (fun _ h hQ => hQ.mono (fun now hNow =>
        List.eq_nil_iff_forall_not_mem.mpr
          (fun x hx => List.not_mem_nil (hNow x hx))))
      (fun _ _ hE => hE.1)

end

end Render

end Trustd

------------------------------------------------------------
-- The Staging Directory
------------------------------------------------------------

namespace Trustd

namespace Render

/- The staging directory is none of the names readers see. -/
theorem staging_ne_live :
    ∀ name ∈ [certsName, previousName, certPemName],
      name ≠ stagingName := by
  decide

/- What readers see says nothing of the staging directory. -/
theorem stagingFrame
    {v : View}
    (hNoted : v.Noted) :
    Frame stagingName (fun h => viewOf h = v) where
  note h hView := by
    rw [note_eq (by rw [hView]; exact hNoted), hView]
  set h dirId entries hView :=
    viewOf_note_of_same hNoted hView rfl (fun name hName =>
      Disk.node_setNode_of_ne _ (staging_ne_live name hName) _)

/- The view is `v` and the staging directory is as `A` says. -/
def Staged (v : View) (A : Entries → Prop) : Host → Prop :=
  Holding stagingName (fun h => viewOf h = v) A

end Render

end Trustd

------------------------------------------------------------
-- Staging A File
------------------------------------------------------------

namespace Trustd

namespace Render

open General

def names (entries : Entries) : List Text :=
  entries.map Prod.fst

theorem lookupEntry_eq_none_iff
    {name : Text}
    {entries : Entries} :
    lookupEntry name entries = none ↔
      name ∉ names entries := by
  simp only [lookupEntry, names, Option.map_eq_none_iff,
    List.find?_eq_none, decide_eq_true_eq, List.mem_map,
    not_exists, not_and]

theorem lookupEntry_snoc
    {name : Text}
    {entries : Entries}
    (hNew : name ∉ names entries)
    (leaf : Leaf) :
    lookupEntry name (entries ++ [(name, leaf)]) =
      some leaf := by
  have hNone : entries.find? (fun e => e.1 = name) = none :=
    by simpa [lookupEntry] using
      lookupEntry_eq_none_iff.mpr hNew
  simp [lookupEntry, List.find?_append, hNone]

theorem eraseEntry_of_not_mem
    {name : Text}
    {entries : Entries}
    (hNew : name ∉ names entries) :
    eraseEntry name entries = entries := by
  apply List.filter_eq_self.mpr
  intro e he
  have hNe : e.1 ≠ name := by
    rintro rfl
    exact hNew (List.mem_map_of_mem he)
  simp [hNe]

theorem eraseEntry_snoc
    {name : Text}
    {entries : Entries}
    (hNew : name ∉ names entries)
    (leaf : Leaf) :
    eraseEntry name (entries ++ [(name, leaf)]) =
      entries := by
  have hErase := eraseEntry_of_not_mem hNew
  rw [eraseEntry] at hErase ⊢
  rw [List.filter_append, hErase]
  simp

theorem insertEntry_of_not_mem
    {name : Text}
    {entries : Entries}
    (hNew : name ∉ names entries)
    (leaf : Leaf) :
    insertEntry name leaf entries =
      entries ++ [(name, leaf)] := by
  rw [insertEntry, eraseEntry_of_not_mem hNew]

theorem not_mem_names_insertEntry
    {name other : Text}
    {entries : Entries}
    (hNew : other ∉ names entries)
    (hNe : other ≠ name)
    (leaf : Leaf) :
    other ∉ names (insertEntry name leaf entries) := by
  intro hMem
  rcases List.mem_map.mp hMem with ⟨e, he, rfl⟩
  rcases List.mem_append.mp he with he | he
  · exact hNew (List.mem_map_of_mem
      (mem_eraseEntry_iff.mp he).1)
  · rw [List.mem_singleton.mp he] at hNe
    exact hNe rfl

/- A name that no temporary file can have. -/
def Lasting (name : Text) : Prop :=
  ∀ pid next, name ≠ temporaryName pid next

theorem getLast?_temporaryName (pid next : Nat) :
    (temporaryName pid next).getLast? = some 'p' := by
  unfold temporaryName
  simp only [List.getLast?_append]
  simp

theorem lasting_of_getLast
    {name : Text}
    (hLast : name.getLast? ≠ some 'p') :
    Lasting name := by
  rintro pid next rfl
  exact hLast (getLast?_temporaryName pid next)

section

variable {G : Fault → Prop}
variable {I : Host → Prop}
variable {v : View}
variable (hNoted : v.Noted)
variable (hInv : ∀ h, viewOf h = v → I h)

/- The staging directory with a temporary file being filled. -/
def Filling
    (v : View)
    (entries : Entries)
    (temporary : Text)
    (written : Bytes) :
    Host → Prop :=
  Staged v (fun now =>
    temporary ∉ names entries ∧
      now = entries ++ [(temporary, .file written)])

/- What is written goes to the entry that was just made. -/
theorem map_append_last
    {entries : Entries}
    {name : Text}
    (hNew : name ∉ names entries)
    (old more : Bytes) :
    (entries ++ [(name, Leaf.file old)]).map
        (fun e => match e.2 with
          | .file old =>
              if e.1 = name then (e.1, Leaf.file (old ++ more))
              else e
          | .folder _ => e) =
      entries ++ [(name, Leaf.file (old ++ more))] := by
  rw [List.map_append]
  congr 1
  · refine (List.map_congr_left (g := fun e => e)
      ?_).trans (List.map_id' _)
    intro e he
    have hNe : e.1 ≠ name := by
      rintro rfl
      exact hNew (List.mem_map_of_mem he)
    cases hLeaf : e.2 with
    | file old => simp [hNe]
    | folder _ => rfl
  · simp

include hNoted hInv in
theorem write_staged
    (entries : Entries)
    (temporary : Text)
    (written data : Bytes) :
    Ensures G I (Filling v entries temporary written)
      (write (place (some stagingName) temporary) data)
      (fun n h =>
        Filling v entries temporary (written ++ data.take n) h ∧
          (data ≠ [] → 0 < n))
      (fun _ h => ∃ partly,
        Filling v entries temporary partly h) := by
  refine Ensures.step (fun f h _ hP => ?_)
  cases f.error with
  | some e => exact ⟨hInv h hP.1, written, hP⟩
  | none =>
      rcases hP with ⟨hView, id, now, hNode, hNew, rfl⟩
      have hMap := map_append_last hNew written
        (data.take (f.taken data))
      have hStaged := holding_setEntries
        (stagingFrame hNoted) hView hNode
        (A := fun now => temporary ∉ names entries ∧
          now = entries ++ [(temporary, .file (written ++
            data.take (f.taken data)))]) ⟨hNew, hMap⟩
      simp only [place, Disk.append, entriesOf_eq hNode]
      refine ⟨hInv _ hStaged.1, hStaged, ?_⟩
      intro hData
      have hLength := List.length_pos_of_ne_nil hData
      simp only [Fault.taken]
      omega

/- `write_file` adds one whole file, or fails. -/
include hNoted hInv in
theorem writeFile_staged
    (entries : Entries)
    (name : Text)
    (hName : Lasting name)
    (contents : Bytes) :
    Ensures G I (Staged v (fun now => now = entries))
      (writeFile (some stagingName) name contents)
      (fun _ => Staged v (fun now =>
        now = insertEntry name (.file contents) entries))
      (fun _ => Staged v Anything) := by
  refine writeFile_ensures
    (Filling v entries)
    (fun temporary => Staged v (fun now =>
      temporary ∉ names now ∧
        now = insertEntry name (.file contents) entries))
    (some stagingName) name contents ?_ ?_ ?_
    (write_staged hNoted hInv entries) ?_ ?_ ?_ ?_
  · exact fun h hP => hP.mono (fun _ _ => trivial)
  · exact fun h hP => ⟨hInv _ hP.1, hP⟩
  · intro pid next
    refine onEntry_holding (stagingFrame hNoted) hInv _ (fun _ h => h)
      (fun now hNow => ?_)
    subst hNow
    cases hLookup :
        lookupEntry (temporaryName pid next) now with
    | some leaf => rfl
    | none =>
        have hNew := lookupEntry_eq_none_iff.mp hLookup
        exact ⟨hNew, insertEntry_of_not_mem hNew _⟩
  · intro temporary written
    refine (inspect_holding (stagingFrame hNoted) hInv
      (fun _ h => h)).weaken (fun _ h => h)
        (fun _ _ h => h) (fun _ _ h => ⟨written, h⟩)
  · intro pid next
    refine (onEntry_holding (stagingFrame hNoted) hInv
      (A := fun now => temporaryName pid next ∉
          names entries ∧
        now = entries ++
          [(temporaryName pid next, Leaf.file contents)])
      (B := fun _ now => temporaryName pid next ∉ names now ∧
        now = insertEntry name (.file contents) entries)
      (C := fun now => temporaryName pid next ∉
          names entries ∧
        now = entries ++
          [(temporaryName pid next, Leaf.file contents)])
      (temporaryName pid next)
      (fun _ h => h) ?_).weaken (fun _ h => h)
        (fun _ _ h => h) (fun _ _ h => ⟨contents, h⟩)
    rintro now ⟨hNew, rfl⟩
    simp only [lookupEntry_snoc hNew, eraseEntry_snoc hNew]
    have hGone := not_mem_names_insertEntry hNew
      (hName pid next).symm (.file contents)
    generalize lookupEntry name (entries ++
      [(temporaryName pid next, Leaf.file contents)]) = target
    rcases target with _ | ⟨_ | _⟩
    · exact And.intro hGone rfl
    · exact And.intro hGone rfl
    · exact And.intro hNew rfl
  · intro temporary
    refine Ensures.exists (fun partly => ?_)
    refine onEntry_holding (stagingFrame hNoted) hInv temporary
      (fun _ _ => trivial) (fun now _ => ?_)
    rcases lookupEntry temporary now with _ | ⟨_ | _⟩
    · trivial
    · trivial
    · trivial
  · intro temporary
    refine onEntry_holding (stagingFrame hNoted) hInv temporary
      (fun _ h => h.2) (fun now hNow => ?_)
    rw [lookupEntry_eq_none_iff.mpr hNow.1]
    exact hNow.2

end

end Render

end Trustd

------------------------------------------------------------
-- Staging A Rendering
------------------------------------------------------------

namespace Trustd

namespace Render

open General Store

/- One file put into a directory's entries. -/
def putFile (entries : Entries) (file : Text × Bytes) :
    Entries :=
  insertEntry file.1 (.file file.2) entries

/- What a directory holds once all files are written. -/
def rendering (roots : List Entry) : Entries :=
  (stagedFiles roots).foldl putFile []

theorem getLast?_decimal (n : Nat) :
    (Text.decimal n).getLast? ≠ some 'p' := by
  intro hLast
  have hDigit := Nat.isDigit_of_mem_toDigits
    (by decide) (by decide) (List.mem_of_getLast? hLast)
  exact absurd hDigit (by decide)

/- None of the files staged has a temporary file's name. -/
theorem lasting_of_mem_hashedFiles
    {used : List (Text × Nat)}
    {roots : List Entry}
    {file : Text × Bytes}
    (hMem : file ∈ hashedFiles used roots) :
    Lasting file.1 := by
  induction roots generalizing used with
  | nil => cases hMem
  | cons root rest ih =>
      rcases List.mem_cons.mp hMem with rfl | hMem
      · apply lasting_of_getLast
        have hDigits : Text.decimal
            (nextSequence used root.parsed.subjectHash) ≠ [] :=
          Nat.toDigits_ne_nil
        rw [List.getLast?_append_of_ne_nil _ hDigits]
        exact getLast?_decimal _
      · exact ih hMem

theorem lasting_of_mem_stagedFiles
    {roots : List Entry}
    {file : Text × Bytes}
    (hMem : file ∈ stagedFiles roots) :
    Lasting file.1 := by
  rcases List.mem_cons.mp hMem with rfl | hMem
  · have hLast : bundleName.getLast? ≠ some 'p' := by decide
    exact lasting_of_getLast hLast
  · exact lasting_of_mem_hashedFiles hMem

section

variable {G : Fault → Prop}
variable {I : Host → Prop}
variable {v : View}
variable (hNoted : v.Noted)
variable (hInv : ∀ h, viewOf h = v → I h)

/- The files still to come turn what is there into `final`. -/
def Remaining
    (final : Entries)
    (rest : List (Text × Bytes))
    (now : Entries) :
    Prop :=
  (∀ file ∈ rest, Lasting file.1) ∧
    rest.foldl putFile now = final

include hNoted hInv in
theorem stageFile_staged
    (final : Entries)
    (file : Text × Bytes)
    (rest : List (Text × Bytes)) :
    Ensures G I (Staged v (Remaining final (file :: rest)))
      (stageFile file)
      (fun _ => Staged v (Remaining final rest))
      (fun _ h => viewOf h = v) := by
  apply withContext_ensures
  intro m hG hI hP
  rcases hP with ⟨hView, dirId, now, hNode, hLasting, hFinal⟩
  have hWrite := writeFile_staged (G := G) hNoted hInv now
    file.1 (hLasting file List.mem_cons_self) file.2
  refine hWrite.weaken (fun _ h => h) (fun _ _ hQ =>
    hQ.mono (fun now' hNow => ?_)) (fun _ _ hE => hE.1)
      m hG hI ⟨hView, dirId, now, hNode, rfl⟩
  rw [hNow]
  exact ⟨fun f hf => hLasting f (List.mem_cons_of_mem _ hf),
    hFinal⟩

/- The loop puts every file into what was there before. -/
include hNoted hInv in
theorem stageFiles_staged
    (start : Entries)
    (roots : List Entry) :
    Ensures G I (Staged v (fun now => now = start))
      (Prog.forEach stageFile (stagedFiles roots))
      (fun _ => Staged v (fun now =>
        now = (stagedFiles roots).foldl putFile start))
      (fun _ h => viewOf h = v) := by
  refine (Ensures.forEach
    (J := fun rest => Staged v (Remaining
      ((stagedFiles roots).foldl putFile start) rest))
    (fun file rest =>
      stageFile_staged hNoted hInv _ file rest)
    (stagedFiles roots)).weaken ?_ ?_ (fun _ _ hE => hE)
  · intro h hP
    refine hP.mono (fun now hNow => ?_)
    subst hNow
    exact ⟨fun _ => lasting_of_mem_stagedFiles, rfl⟩
  · intro _ h hQ
    exact hQ.mono (fun now hNow => hNow.2)

/- Nothing was left behind in a directory. -/
def Unfilled (name : Text) (h : Host) : Prop :=
  ∀ dirId entries,
    h.disk.node name = some (.dir dirId entries) →
      entries = []

/- What the staging directory has in it, made or found. -/
def Begins (start : Entries) (h : Host) : Prop :=
  (h.disk.node stagingName = none → start = []) ∧
    ∀ dirId entries,
      h.disk.node stagingName = some (.dir dirId entries) →
        entries = start

theorem Unfilled.begins
    {h : Host}
    (hUnfilled : Unfilled stagingName h) :
    Begins [] h :=
  ⟨fun _ => rfl, hUnfilled⟩

/- Making the store directory shows readers nothing new. -/
include hNoted hInv in
theorem createStore_staged
    (p : Prop)
    (start : Entries) :
    Ensures G I
      (fun h => viewOf h = v ∧ (p → Begins start h))
      createStore
      (fun _ h => viewOf h = v ∧ (p → Begins start h))
      (fun _ h => viewOf h = v) := by
  refine syscall_ensures (fun h hP => hInv h hP.1)
    (fun _ _ hP => hP.1) (fun h hP => ?_)
  rcases hP with ⟨hView, hBegins⟩
  have hNote := (stagingFrame hNoted).note h hView
  cases hStore : h.disk.store with
  | some _ => exact ⟨hInv _ hNote, hNote, hBegins⟩
  | none =>
      have hNodes : ∀ name, h.disk.node name = none := by
        intro name
        rw [Disk.node, hStore]
      have hSame : viewOf ({ h with disk :=
          { store := some (fun _ => none) } } :
            Host).note = v :=
        viewOf_note_of_same hNoted hView rfl
          (fun name _ => (hNodes name).symm)
      refine ⟨hInv _ hSame, hSame, fun hp =>
        ⟨fun _ => (hBegins hp).1 (hNodes _),
          fun dirId entries hNode => ?_⟩⟩
      cases hNode

/- Creating the staging directory may find it there. -/
include hNoted hInv in
theorem createStaging_staged (start : Entries) :
    Ensures G I
      (fun h => viewOf h = v ∧ Begins start h)
      (createDirAll stagingName)
      (fun _ => Staged v (fun now => now = start))
      (fun _ h => viewOf h = v) := by
  refine syscall_ensures (fun h hP => hInv h hP.1)
    (fun _ _ hP => hP.1) (fun h hP => ?_)
  rcases hP with ⟨hView, hBegins⟩
  have hNote := (stagingFrame hNoted).note h hView
  rcases hNode : h.disk.node stagingName with
    _ | ⟨_ | ⟨dirId, entries⟩⟩
  · have hStaged : Staged v (fun now => now = start) (Host.note {
        h with
        disk := Disk.setNode
          { store := some (h.disk.store.getD fun _ => none) }
          stagingName (some (.dir h.nextId []))
        nextId := h.nextId + 1 }) := by
      refine ⟨viewOf_note_of_same hNoted hView rfl ?_,
        h.nextId, [], Disk.node_setNode_self _ rfl _ _,
        (hBegins.1 hNode).symm⟩
      intro name hName
      refine (Disk.node_setNode_of_ne _
        (staging_ne_live name hName) _).trans ?_
      unfold Disk.node
      cases h.disk.store with
      | none => rfl
      | some _ => rfl
    exact ⟨hInv _ hStaged.1, hStaged⟩
  · exact ⟨hInv _ hNote, hNote⟩
  · exact ⟨hInv _ hNote, hNote, dirId, entries, hNode,
      hBegins.2 dirId entries hNode⟩

/-
  The staging directory starts empty, unless its stat fails:
  then it starts with what was left in it.
-/
include hNoted hInv in
theorem prepareStaging_staged
    {m : Machine Host Fault}
    (hG : ∀ k, G (m.faults k))
    (hVisited : ∀ h ∈ m.visited, I h)
    (hView : viewOf m.state = v)
    {start : Entries}
    (hEmpty : (m.faults 0).statFails = false → start = [])
    (hProbe : (m.faults 0).statFails = true →
      Begins start m.state) :
    Meets G I m prepareStaging
      (fun _ => Staged v (fun now => now = start))
      (fun _ h => viewOf h = v) := by
  have hPresent : Meets G I m
      (pathExists (.entry stagingName))
      (fun b h => viewOf h = v ∧
        (b = true → start = []) ∧
        (b = false → Begins start h))
      (fun (_ : IoError) h => viewOf h = v) := by
    refine Meets.step hG hVisited (hInv _ hView)
      ⟨hView, fun hTrue => ?_, fun hFalse => ?_⟩
    · split_ifs at hTrue with hStat
      exact hEmpty (Bool.not_eq_true _ ▸ hStat)
    · split_ifs at hFalse with hStat
      · exact hProbe hStat
      · rw [hEmpty (Bool.not_eq_true _ ▸ hStat)]
        refine Unfilled.begins (fun dirId entries hNode => ?_)
        simp [Disk.has, hNode] at hFalse
  refine Meets.bind hPresent (fun present => ?_)
  cases present with
  | true =>
      refine withContext_ensures _ _ ?_
      intro m' hG' hVisited' hP
      rw [hP.2.1 rfl]
      exact emptyDir_holding (stagingFrame hNoted) hInv
        m' hG' hVisited' hP.1
  | false =>
      exact withContext_ensures _ _
        ((createStaging_staged hNoted hInv start).weaken
          (fun _ hP => ⟨hP.1, hP.2.2 rfl⟩)
          (fun _ _ hQ => hQ) (fun _ _ hE => hE))

end

end Render

end Trustd
