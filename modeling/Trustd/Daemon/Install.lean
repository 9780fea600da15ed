import Trustd.Daemon.Hashed

/-
  Installing a rendering: at every moment `certs` is absent,
  what was installed before, or the whole new directory.

  Key definitions include:
    * `Trustd.Render.Safe`
    * `Trustd.Render.Misled`
    * `Trustd.Render.moments`
    * `Trustd.Render.Runs`

  Key theorems include:
    * `Trustd.Render.exchange_safe`
    * `Trustd.Render.renderFiles_over`
    * `Trustd.Render.renderFiles_safe`
    * `Trustd.Render.runs_safe`
-/

------------------------------------------------------------
-- Safe Moments
------------------------------------------------------------

namespace Trustd

namespace Render

open General Store

/-
  What holds at every moment of a render that began with
  `installed` last installed and `certPem` in place, of the
  directory `final` and the bundle `text`.
-/
structure Safe
    (installed certPem : Option Node)
    (final : Entries)
    (text : Bytes)
    (v : View) :
    Prop where
  certs : v.certs = none ∨ v.certs = installed ∨
    ∃ dirId, v.certs = some (.dir dirId final)
  kept : v.certs = none → ∀ n, v.installed = some n →
    v.previous = some n
  noted : ∀ n, v.certs = some n → v.installed = some n
  certPem : v.certPem = certPem ∨
    (v.certPem = some (.file text) ∧
      ∃ dirId, v.certs = some (.dir dirId final))

/- A directory missing from `certs` is kept beside it. -/
def View.Kept (v : View) : Prop :=
  v.certs = none → ∀ n, v.installed = some n →
    v.previous = some n

/- The moment a render starts at is safe. -/
theorem safe_start
    {v : View}
    (hNoted : v.Noted)
    (hKept : v.Kept)
    (final : Entries)
    (text : Bytes) :
    Safe v.installed v.certPem final text v := by
  refine ⟨?_, hKept, hNoted, Or.inl rfl⟩
  cases hCerts : v.certs with
  | none => exact Or.inl rfl
  | some n => exact Or.inr (Or.inl (hNoted n hCerts).symm)

end Render

end Trustd

------------------------------------------------------------
-- Removing Directories Nobody Reads
------------------------------------------------------------

namespace Trustd

namespace Render

open General

section

variable {α : Type}
variable {G : Fault → Prop}
variable {I P : Host → Prop}
variable (name : Text)
variable (hInv : ∀ h, P h → I h)
variable (hNote : ∀ h, P h → P h.note)
variable (hFree : ∀ h n, P h →
  P { h with disk := h.disk.setNode name n }.note)

include hInv hNote hFree in
theorem onEntry_frame
    (child : Text)
    (op : Option Leaf → Entries →
      Except IoError α × Option Entries) :
    Ensures G I P (onEntry name child op)
      (fun _ => P) (fun _ => P) := by
  refine syscall_ensures hInv (fun _ _ hP => hP)
    (fun h hP => ?_)
  have hSame : ∀ r : Except IoError α,
      I h.note ∧ Outcome (fun _ => P) (fun _ => P) r h.note := by
    intro r
    have hSame := hNote h hP
    cases r with
    | ok a => exact ⟨hInv _ hSame, hSame⟩
    | error e => exact ⟨hInv _ hSame, hSame⟩
  rcases hNode : h.disk.node name with
    _ | ⟨_ | ⟨dirId, entries⟩⟩
  · have hEntries : h.disk.entriesOf name = none := by
      simp [Disk.entriesOf, hNode]
    simp only [hEntries]
    exact hSame _
  · have hEntries : h.disk.entriesOf name = none := by
      simp [Disk.entriesOf, hNode]
    simp only [hEntries]
    exact hSame _
  · simp only [entriesOf_eq hNode]
    rcases op (lookupEntry child entries) entries with
      ⟨r, _ | entries'⟩
    · exact hSame r
    · have hNew := hFree h (some (.dir dirId entries')) hP
      simp only [setEntries_eq hNode]
      cases r with
      | ok a => exact ⟨hInv _ hNew, hNew⟩
      | error e => exact ⟨hInv _ hNew, hNew⟩

include hInv hNote hFree in
theorem removeByType_frame (e : Text × Leaf) :
    Ensures G I P (removeByType name e)
      (fun _ => P) (fun _ => P) := by
  unfold removeByType
  cases e.2 with
  | file _ => exact onEntry_frame name hInv hNote hFree _ _
  | folder holds =>
      exact Ensures.bind (Ensures.forEach
        (J := fun _ => P)
        (fun _ _ => onEntry_frame name hInv hNote hFree _ _)
        _) (fun _ =>
          onEntry_frame name hInv hNote hFree _ _)

include hInv hNote in
theorem readDir_frame :
    Ensures G I P (readDir name)
      (fun _ => P) (fun _ => P) := by
  refine syscall_ensures hInv (fun _ _ hP => hP)
    (fun h hP => ?_)
  have hSame := hNote h hP
  rcases h.disk.node name with _ | ⟨_ | ⟨_, _⟩⟩
  · exact ⟨hInv _ hSame, hSame⟩
  · exact ⟨hInv _ hSame, hSame⟩
  · exact ⟨hInv _ hSame, hSame⟩

include hInv hNote hFree in
theorem rmdir_frame :
    Ensures G I P (rmdir name)
      (fun _ => P) (fun _ => P) := by
  refine syscall_ensures hInv (fun _ _ hP => hP)
    (fun h hP => ?_)
  have hSame := hNote h hP
  have hNew := hFree h none hP
  rcases h.disk.node name with
    _ | ⟨_ | ⟨_, _ | ⟨_, _⟩⟩⟩
  · exact ⟨hInv _ hSame, hSame⟩
  · exact ⟨hInv _ hSame, hSame⟩
  · exact ⟨hInv _ hNew, hNew⟩
  · exact ⟨hInv _ hSame, hSame⟩

/- Removing a directory touches nothing but its name. -/
include hInv hNote hFree in
theorem removeDirIfPresent_frame :
    Ensures G I P (removeDirIfPresent name)
      (fun _ => P) (fun _ => P) := by
  refine (ifPresent_ensures (S := P) (R := P) ?_)
  refine (Ensures.bind (readDir_frame name hInv hNote)
    (fun entries => Ensures.bind (Ensures.forEach
      (J := fun _ => P) (fun e _ =>
        removeByType_frame name hInv hNote hFree e) entries)
      (fun _ => rmdir_frame name hInv hNote hFree))).weaken
        (fun _ h => h) (fun _ _ h => h)
        (fun _ _ h => ⟨fun _ => h, h⟩)

end

end Render

end Trustd

------------------------------------------------------------
-- Exchanging The Directories
------------------------------------------------------------

namespace Trustd

namespace Render

open General

/- The new directory is in place and the bundle is `certPem`. -/
structure InPlace
    (final : Entries)
    (certPem : Option Node)
    (h : Host) :
    Prop where
  certs : ∃ dirId,
    h.disk.node certsName = some (.dir dirId final)
  certPem : h.disk.node certPemName = certPem
  noted : (viewOf h).Noted

/- The old directory is in place, the new one is staged. -/
structure Ready
    (old : Node)
    (final : Entries)
    (certPem : Option Node)
    (h : Host) :
    Prop where
  certs : h.disk.node certsName = some old
  certPem : h.disk.node certPemName = certPem
  installed : h.installed = some old
  staging : ∃ dirId,
    h.disk.node stagingName = some (.dir dirId final)

/- The old directory is beside `certs`, which is absent. -/
structure Between
    (old : Node)
    (final : Entries)
    (certPem : Option Node)
    (h : Host) :
    Prop where
  certs : h.disk.node certsName = none
  previous : h.disk.node previousName = some old
  certPem : h.disk.node certPemName = certPem
  installed : h.installed = some old
  staging : ∃ dirId,
    h.disk.node stagingName = some (.dir dirId final)

/- The old directory is in place again. -/
structure Restored
    (old : Node)
    (certPem : Option Node)
    (h : Host) :
    Prop where
  certs : h.disk.node certsName = some old
  certPem : h.disk.node certPemName = certPem
  installed : h.installed = some old

section

variable {old : Node}
variable {final : Entries}
variable {certPem installed : Option Node}
variable {text : Bytes}
variable {h : Host}

theorem InPlace.safe
    (hPlace : InPlace final certPem h) :
    Safe installed certPem final text (viewOf h) := by
  rcases hPlace.certs with ⟨dirId, hCerts⟩
  refine ⟨Or.inr (Or.inr ⟨dirId, hCerts⟩), ?_,
    hPlace.noted, Or.inl hPlace.certPem⟩
  intro hNone
  have hAbsurd := hNone.symm.trans hCerts
  cases hAbsurd

theorem Restored.noted
    (hRestored : Restored old certPem h) :
    (viewOf h).Noted := by
  intro n hn
  rw [← hn]
  exact hRestored.installed.trans hRestored.certs.symm

theorem Between.noted
    (hBetween : Between old final certPem h) :
    (viewOf h).Noted := by
  intro n hn
  have hAbsurd := hBetween.certs.symm.trans hn
  cases hAbsurd

theorem Restored.safe
    (hRestored : Restored old certPem h) :
    Safe (some old) certPem final text (viewOf h) := by
  refine ⟨Or.inr (Or.inl hRestored.certs), ?_,
    hRestored.noted, Or.inl hRestored.certPem⟩
  intro hNone
  have hAbsurd := hNone.symm.trans hRestored.certs
  cases hAbsurd

theorem Between.safe
    (hBetween : Between old final certPem h) :
    Safe (some old) certPem final text (viewOf h) := by
  refine ⟨Or.inl hBetween.certs, ?_, hBetween.noted,
    Or.inl hBetween.certPem⟩
  intro _ n hn
  have hOld := hBetween.installed.symm.trans hn
  rw [← hOld]
  exact hBetween.previous

theorem Ready.restored
    (hReady : Ready old final certPem h) :
    Restored old certPem h :=
  ⟨hReady.certs, hReady.certPem, hReady.installed⟩

theorem InPlace.note_eq
    (hPlace : InPlace final certPem h) :
    h.note = h :=
  Render.note_eq hPlace.noted

theorem Restored.note_eq
    (hRestored : Restored old certPem h) :
    h.note = h :=
  Render.note_eq hRestored.noted

theorem Between.note_eq
    (hBetween : Between old final certPem h) :
    h.note = h :=
  Render.note_eq hBetween.noted

end

/- What `note` records when something is at `certs`. -/
theorem note_installed
    {h : Host}
    {n : Node}
    (hCerts : h.disk.node certsName = some n) :
    h.note.installed = some n := by
  simp [Host.note, hCerts]

/- The host once an entry of the store was renamed. -/
def Host.moved
    (h : Host)
    (source target : Text)
    (n : Node) :
    Host :=
  let disk := h.disk.setNode source none
  { h with disk := disk.setNode target (some n) }

theorem node_moved_target
    {h : Host}
    {source target : Text}
    {n : Node}
    (hSource : h.disk.node source = some n) :
    (h.moved source target n).disk.node target = some n := by
  have hStore := Disk.store_of_node hSource
  exact Disk.node_setNode_self _
    (by rw [Disk.store_setNode]; exact hStore) _ _

theorem node_moved_source
    {h : Host}
    {source target : Text}
    {n : Node}
    (hNe : source ≠ target) :
    (h.moved source target n).disk.node source = none := by
  refine (Disk.node_setNode_of_ne _ hNe _).trans ?_
  exact Disk.node_setNode_none _ _

theorem node_moved_of_ne
    {h : Host}
    {source target other : Text}
    {n : Node}
    (hSource : other ≠ source)
    (hTarget : other ≠ target) :
    (h.moved source target n).disk.node other =
      h.disk.node other := by
  refine (Disk.node_setNode_of_ne _ hTarget _).trans ?_
  exact Disk.node_setNode_of_ne _ hSource _

section

variable {G : Fault → Prop}
variable {I P Q : Host → Prop}

/- A rename moves its source or leaves everything in place. -/
theorem renameEntry_ensures
    (source target : Text)
    (hInv : ∀ h, P h → I h)
    (hNote : ∀ h, P h → P h.note)
    (hMoved : ∀ h n, P h → h.disk.node source = some n →
      I (h.moved source target n).note ∧
        Q (h.moved source target n).note) :
    Ensures G I P (renameEntry source target)
      (fun _ => Q) (fun _ => P) := by
  refine syscall_ensures hInv (fun _ _ hP => hP)
    (fun h hP => ?_)
  have hSame : ∀ e : IoError,
      I h.note ∧ Outcome (fun _ : Unit => Q) (fun _ => P)
        (.error e) h.note := by
    intro e
    exact ⟨hInv _ (hNote h hP), hNote h hP⟩
  cases hSource : h.disk.node source with
  | none => exact hSame _
  | some n =>
      have hDone := hMoved h n hP hSource
      rcases n with data | ⟨dirId, entries⟩
      · rcases h.disk.node target with
          _ | ⟨_ | ⟨_, _ | ⟨_, _⟩⟩⟩
        · exact hDone
        · exact hDone
        · exact hSame _
        · exact hSame _
      · rcases h.disk.node target with
          _ | ⟨_ | ⟨_, _ | ⟨_, _⟩⟩⟩
        · exact hDone
        · exact hSame _
        · exact hDone
        · exact hSame _

end

end Render

end Trustd

------------------------------------------------------------
-- The Three Install Paths
------------------------------------------------------------

namespace Trustd

namespace Render

open General

section

variable {G : Fault → Prop}
variable {v : View}
variable {final : Entries}
variable {text : Bytes}
variable (hNoted : v.Noted)
variable (hKept : v.Kept)

/- The invariant of a render that started at `v`. -/
def SafeFrom (v : View) (final : Entries) (text : Bytes)
    (h : Host) : Prop :=
  Safe v.installed v.certPem final text (viewOf h)

/- Moving the staged directory to `certs` puts it in place. -/
theorem inPlace_moved
    {h : Host}
    {dirId : Nat}
    {certPem : Option Node}
    (hStaging : h.disk.node stagingName =
      some (.dir dirId final))
    (hCertPem : h.disk.node certPemName = certPem) :
    InPlace final certPem
      (h.moved stagingName certsName
        (.dir dirId final)).note := by
  refine ⟨⟨dirId, node_moved_target hStaging⟩, ?_,
    noted_viewOf_note _⟩
  exact (node_moved_of_ne (by decide) (by decide)).trans
    hCertPem

/- Once in place, what is removed beside it does not matter. -/
theorem removeDirIfPresent_inPlace
    {certPem : Option Node}
    (hPem : v.certPem = certPem)
    (name : Text)
    (hCerts : certsName ≠ name)
    (hCertPem : certPemName ≠ name) :
    Ensures G (SafeFrom v final text)
      (InPlace final certPem) (removeDirIfPresent name)
      (fun _ => InPlace final certPem)
      (fun _ => InPlace final certPem) := by
  refine removeDirIfPresent_frame name
    (fun h hPlace => ?_)
    (fun h hPlace => by rwa [hPlace.note_eq])
    (fun h n hPlace => ?_)
  · rw [SafeFrom, hPem]
    exact hPlace.safe
  · rcases hPlace.certs with ⟨dirId, hNode⟩
    exact ⟨⟨dirId, (Disk.node_setNode_of_ne _ hCerts _).trans
        hNode⟩,
      (Disk.node_setNode_of_ne _ hCertPem _).trans
        hPlace.certPem,
      noted_viewOf_note _⟩

/- A plain rename: it fails over a directory with files. -/
include hNoted hKept in
theorem install_rename :
    Ensures G (SafeFrom v final text)
      (Staged v (fun now => now = final))
      (renameEntry stagingName certsName)
      (fun _ => InPlace final v.certPem)
      (fun _ _ => True) := by
  have hStart : ∀ h, viewOf h = v →
      SafeFrom v final text h := by
    intro h hView
    rw [SafeFrom, hView]
    exact safe_start hNoted hKept final text
  refine (renameEntry_ensures stagingName certsName
    (fun h hP => hStart h hP.1)
    (fun h hP => by
      rwa [note_eq (by rw [hP.1]; exact hNoted)])
    (fun h n hP hSource => ?_)).weaken (fun _ hP => hP)
      (fun _ _ hQ => hQ) (fun _ _ _ => trivial)
  rcases hP with ⟨hView, dirId, now, hNode, rfl⟩
  have hMoved := hSource.symm.trans hNode
  cases hMoved
  have hPlace := inPlace_moved hNode
    (congrArg View.certPem hView)
  exact ⟨hPlace.safe, hPlace⟩

end

section

variable {G : Fault → Prop}
variable {v : View}
variable {old : Node}
variable {final : Entries}
variable {text : Bytes}
variable (hOld : v.installed = some old)

include hOld in
theorem Restored.safeFrom
    {h : Host}
    (hRestored : Restored old v.certPem h) :
    SafeFrom v final text h := by
  rw [SafeFrom, hOld]
  exact hRestored.safe

include hOld in
theorem Between.safeFrom
    {h : Host}
    (hBetween : Between old final v.certPem h) :
    SafeFrom v final text h := by
  rw [SafeFrom, hOld]
  exact hBetween.safe

/- Two renames, and a third when the second one fails. -/
include hOld in
theorem exchangeFallback_safe :
    Ensures G (SafeFrom v final text)
      (Ready old final v.certPem) exchangeFallback
      (fun _ => InPlace final v.certPem)
      (fun _ _ => True) := by
  have hReadySafe : ∀ h, Ready old final v.certPem h →
      SafeFrom v final text h :=
    fun h hReady => hReady.restored.safeFrom hOld
  have hReadyNote : ∀ h, Ready old final v.certPem h →
      Ready old final v.certPem h.note :=
    fun h hReady => by rwa [hReady.restored.note_eq]
  have hPrevious :
      Ensures G (SafeFrom v final text)
        (Ready old final v.certPem)
        (removeDirIfPresent previousName)
        (fun _ => Ready old final v.certPem)
        (fun _ _ => True) := by
    refine (removeDirIfPresent_frame previousName hReadySafe
      hReadyNote (fun h n hReady => ?_)).weaken
        (fun _ hP => hP) (fun _ _ hQ => hQ)
        (fun _ _ _ => trivial)
    have hApart : certsName ≠ previousName := by decide
    have hCerts := (Disk.node_setNode_of_ne h.disk
      hApart n).trans hReady.certs
    rcases hReady.staging with ⟨dirId, hStaging⟩
    exact ⟨hCerts,
      (Disk.node_setNode_of_ne _ (by decide) _).trans
        hReady.certPem,
      note_installed hCerts, dirId,
      (Disk.node_setNode_of_ne _ (by decide) _).trans
        hStaging⟩
  have hAside :
      Ensures G (SafeFrom v final text)
        (Ready old final v.certPem)
        (renameEntry certsName previousName)
        (fun _ => Between old final v.certPem)
        (fun _ _ => True) := by
    refine (renameEntry_ensures certsName previousName
      hReadySafe hReadyNote (fun h n hReady hSource =>
        ?_)).weaken (fun _ hP => hP) (fun _ _ hQ => hQ)
          (fun _ _ _ => trivial)
    have hMoved := hSource.symm.trans hReady.certs
    cases hMoved
    rcases hReady.staging with ⟨dirId, hStaging⟩
    have hGone : (h.moved certsName previousName
        old).disk.node certsName = none :=
      node_moved_source (by decide)
    have hBetween : Between old final v.certPem
        (h.moved certsName previousName old).note := by
      refine ⟨hGone, node_moved_target hReady.certs,
        (node_moved_of_ne (by decide) (by decide)).trans
          hReady.certPem, ?_, dirId,
        (node_moved_of_ne (by decide) (by decide)).trans
          hStaging⟩
      simp only [Host.note, hGone]
      exact hReady.installed
    exact ⟨hBetween.safeFrom hOld, hBetween⟩
  have hBetweenSafe : ∀ h, Between old final v.certPem h →
      SafeFrom v final text h :=
    fun h hBetween => hBetween.safeFrom hOld
  have hBetweenNote : ∀ h, Between old final v.certPem h →
      Between old final v.certPem h.note :=
    fun h hBetween => by rwa [hBetween.note_eq]
  have hInstall :
      Ensures G (SafeFrom v final text)
        (Between old final v.certPem)
        (renameEntry stagingName certsName)
        (fun _ => InPlace final v.certPem)
        (fun _ => Between old final v.certPem) := by
    refine renameEntry_ensures stagingName certsName
      hBetweenSafe hBetweenNote (fun h n hBetween hSource =>
        ?_)
    rcases hBetween.staging with ⟨dirId, hStaging⟩
    have hMoved := hSource.symm.trans hStaging
    cases hMoved
    have hPlace := inPlace_moved hStaging hBetween.certPem
    exact ⟨hPlace.safe, hPlace⟩
  have hRestore :
      Ensures G (SafeFrom v final text)
        (Between old final v.certPem)
        (renameEntry previousName certsName)
        (fun _ _ => True) (fun _ _ => True) := by
    refine (renameEntry_ensures (Q := fun _ => True)
      previousName certsName hBetweenSafe hBetweenNote
      (fun h n hBetween hSource => ⟨?_, trivial⟩)).weaken
        (fun _ hP => hP) (fun _ _ hQ => hQ)
        (fun _ _ _ => trivial)
    have hMoved := hSource.symm.trans hBetween.previous
    cases hMoved
    have hBack : (h.moved previousName certsName
        old).disk.node certsName = some old :=
      node_moved_target hBetween.previous
    have hRestored : Restored old v.certPem
        (h.moved previousName certsName old).note :=
      ⟨hBack,
        (node_moved_of_ne (by decide) (by decide)).trans
          hBetween.certPem,
        note_installed hBack⟩
    exact hRestored.safeFrom hOld
  refine Ensures.bind hPrevious (fun _ => Ensures.bind hAside
    (fun _ => Ensures.bind (Ensures.attempt hInstall)
      (fun result => ?_)))
  cases result with
  | ok _ =>
      exact (removeDirIfPresent_inPlace rfl previousName
        (by decide) (by decide)).weaken (fun _ h => h)
          (fun _ _ h => h) (fun _ _ _ => trivial)
  | error installError =>
      refine Ensures.bind (Ensures.attempt hRestore)
        (fun restored => ?_)
      cases restored with
      | ok _ => exact Ensures.throw _ (fun _ _ => trivial)
      | error _ => exact Ensures.throw _ (fun _ _ => trivial)

end

end Render

end Trustd

------------------------------------------------------------
-- Installing And Writing The Bundle
------------------------------------------------------------

namespace Trustd

namespace Render

open General Store

section

variable {G : Fault → Prop}
variable {v : View}
variable {final : Entries}
variable {text : Bytes}
variable (hNoted : v.Noted)
variable (hKept : v.Kept)

/- Swapping the directories puts the staged one in place. -/
include hNoted hKept in
theorem exchangeEntries_safe
    {old : Node}
    (hOld : v.certs = some old) :
    Ensures G (SafeFrom v final text)
      (Staged v (fun now => now = final))
      (exchangeEntries stagingName certsName)
      (fun _ => InPlace final v.certPem)
      (fun _ => Ready old final v.certPem) := by
  have hStart : ∀ h, viewOf h = v →
      SafeFrom v final text h := by
    intro h hView
    rw [SafeFrom, hView]
    exact safe_start hNoted hKept final text
  have hReady : ∀ h, Staged v (fun now => now = final) h →
      Ready old final v.certPem h := by
    rintro h ⟨hView, dirId, now, hNode, rfl⟩
    have hCerts := (congrArg View.certs hView).trans hOld
    have hInstalled :=
      (congrArg View.installed hView).trans (hNoted old hOld)
    exact ⟨hCerts, congrArg View.certPem hView, hInstalled,
      dirId, hNode⟩
  refine syscall_ensures (fun h hP => hStart h hP.1)
    (fun _ h hP => hReady h hP) (fun h hP => ?_)
  have hCerts := (hReady h hP).certs
  rcases hP with ⟨hView, dirId, now, hNode, rfl⟩
  simp only [hNode, hCerts]
  have hStore := Disk.store_of_node hNode
  have hPlace : InPlace now v.certPem (Host.note { h with
      disk := (h.disk.setNode stagingName
        (some old)).setNode certsName
          (some (.dir dirId now)) }) := by
    refine ⟨⟨dirId, Disk.node_setNode_self _
        (by rw [Disk.store_setNode]; exact hStore) _ _⟩, ?_,
      noted_viewOf_note _⟩
    refine (Disk.node_setNode_of_ne _ (by decide) _).trans ?_
    refine (Disk.node_setNode_of_ne _ (by decide) _).trans ?_
    exact congrArg View.certPem hView
  exact ⟨hPlace.safe, hPlace⟩

/- `exchange` puts the staged directory in place, or fails. -/
include hNoted hKept in
theorem exchange_safe :
    Ensures G (SafeFrom v final text)
      (Staged v (fun now => now = final)) exchange
      (fun _ => InPlace final v.certPem)
      (fun _ _ => True) := by
  have hStart : ∀ h, viewOf h = v →
      SafeFrom v final text h := by
    intro h hView
    rw [SafeFrom, hView]
    exact safe_start hNoted hKept final text
  refine Ensures.bind (pathExists_ensures _
    (fun h hP => hStart h hP.1)) (fun live => ?_)
  cases live with
  | false =>
      exact (install_rename hNoted hKept).weaken
        (fun _ hP => hP.1) (fun _ _ hQ => hQ)
        (fun _ _ hE => hE)
  | true =>
      intro m hG hI hP
      have hCerts : v.certs.isSome = true := by
        rw [← congrArg View.certs hP.1.1]
        exact hP.2 rfl
      rcases Option.isSome_iff_exists.mp hCerts with
        ⟨old, hOld⟩
      refine Ensures.bind (Ensures.attempt
        (exchangeEntries_safe hNoted hKept hOld))
        (fun result => ?_) m hG hI hP.1
      cases result with
      | ok _ =>
          exact (removeDirIfPresent_inPlace rfl
            stagingName (by decide) (by decide)).weaken
              (fun _ h => h) (fun _ _ h => h)
              (fun _ _ _ => trivial)
      | error e =>
          dsimp only
          split_ifs
          · exact exchangeFallback_safe (hNoted old hOld)
          · exact Ensures.throw e (fun _ _ => trivial)

end

/- No name readers see is a temporary file's. -/
theorem lasting_live :
    Lasting certsName ∧ Lasting previousName ∧
      Lasting certPemName :=
  ⟨lasting_of_getLast (by decide),
    lasting_of_getLast (by decide),
    lasting_of_getLast (by decide)⟩

/- The bundle's temporary file in the store directory. -/
def FillingBundle
    (v : View)
    (temporary : Text)
    (written : Bytes)
    (h : Host) :
    Prop :=
  viewOf h = v ∧
    (∀ name ∈ [certsName, previousName, certPemName],
      name ≠ temporary) ∧
    h.disk.node temporary = some (.file written)

/- The view with another file as the bundle. -/
def View.withBundle (v : View) (text : Bytes) : View :=
  { v with certPem := some (.file text) }

section

variable {G : Fault → Prop}
variable {I : Host → Prop}
variable {v : View}
variable (hNoted : v.Noted)
variable (hInv : ∀ h, viewOf h = v → I h)

theorem live_ne_temporaryName (pid next : Nat) :
    ∀ name ∈ [certsName, previousName, certPemName],
      name ≠ temporaryName pid next := by
  intro name hName
  simp only [List.mem_cons, List.not_mem_nil,
    or_false] at hName
  rcases hName with rfl | rfl | rfl
  · exact lasting_live.1 pid next
  · exact lasting_live.2.1 pid next
  · exact lasting_live.2.2 pid next

/- A change at a name no reader sees keeps the view. -/
include hNoted in
theorem viewOf_setNode
    {h : Host}
    {name : Text}
    (hView : viewOf h = v)
    (hHidden : ∀ live ∈
      [certsName, previousName, certPemName], live ≠ name)
    (n : Option Node) :
    viewOf (Host.note
      { h with disk := h.disk.setNode name n }) = v :=
  viewOf_note_of_same hNoted hView rfl (fun live hLive =>
    Disk.node_setNode_of_ne _ (hHidden live hLive) _)

/- The temporary file can be given any contents. -/
include hNoted in
theorem fillingBundle_setNode
    {h : Host}
    {temporary : Text}
    (hView : viewOf h = v)
    (hHidden : ∀ live ∈
      [certsName, previousName, certPemName],
        live ≠ temporary)
    (hStore : h.disk.store.isSome = true)
    (data : Bytes) :
    FillingBundle v temporary data (Host.note
      { h with disk :=
          h.disk.setNode temporary (some (.file data)) }) :=
  ⟨viewOf_setNode hNoted hView hHidden _, hHidden,
    Disk.node_setNode_self _ hStore _ _⟩

include hNoted hInv in
theorem createNew_bundle
    {temporary : Text}
    (hHidden : ∀ live ∈
      [certsName, previousName, certPemName],
        live ≠ temporary) :
    Ensures G I (fun h => viewOf h = v)
      (createNew temporary)
      (fun _ => FillingBundle v temporary [])
      (fun _ h => viewOf h = v) := by
  refine syscall_ensures hInv (fun _ _ hP => hP)
    (fun h hView => ?_)
  have hNote : h.note = h :=
    note_eq (by rw [hView]; exact hNoted)
  cases hStore : h.disk.store with
  | none =>
      simp only [hNote]
      exact ⟨hInv h hView, hView⟩
  | some names =>
      cases hNode : h.disk.node temporary with
      | some n =>
          simp only [hNote]
          exact ⟨hInv h hView, hView⟩
      | none =>
          have hFilling := fillingBundle_setNode hNoted
            hView hHidden (by rw [hStore]; rfl) []
          exact ⟨hInv _ hFilling.1, hFilling⟩

include hNoted hInv in
theorem write_bundle
    (temporary : Text)
    (written data : Bytes) :
    Ensures G I (FillingBundle v temporary written)
      (write (place none temporary) data)
      (fun n h =>
        FillingBundle v temporary
          (written ++ data.take n) h ∧
            (data ≠ [] → 0 < n))
      (fun _ h => ∃ partly,
        FillingBundle v temporary partly h) := by
  refine Ensures.step (fun f h _ hP => ?_)
  cases f.error with
  | some e => exact ⟨hInv h hP.1, written, hP⟩
  | none =>
      rcases hP with ⟨hView, hHidden, hNode⟩
      have hFilling := fillingBundle_setNode hNoted hView
        hHidden (Disk.store_of_node hNode)
        (written ++ data.take (f.taken data))
      simp only [place, Disk.append, hNode]
      refine ⟨hInv _ hFilling.1, hFilling, ?_⟩
      intro hData
      have hLength := List.length_pos_of_ne_nil hData
      simp only [Fault.taken]
      omega

/- Removing the temporary file, or what had its name. -/
include hNoted hInv in
theorem removeFile_bundle
    {temporary : Text}
    (hHidden : ∀ live ∈
      [certsName, previousName, certPemName],
        live ≠ temporary) :
    Ensures G I (fun h => viewOf h = v)
      (removeFile temporary)
      (fun _ h => viewOf h = v)
      (fun _ h => viewOf h = v) := by
  refine syscall_ensures hInv (fun _ _ hP => hP)
    (fun h hView => ?_)
  have hNote : h.note = h :=
    note_eq (by rw [hView]; exact hNoted)
  rcases h.disk.node temporary with _ | ⟨_ | ⟨_, _⟩⟩
  · simp only [hNote]
    exact ⟨hInv h hView, hView⟩
  · have hGone := viewOf_setNode hNoted hView hHidden none
    exact ⟨hInv _ hGone, hGone⟩
  · simp only [hNote]
    exact ⟨hInv h hView, hView⟩

/- The view right after the temporary file is renamed. -/
theorem viewOf_moved_bundle
    {h : Host}
    {temporary : Text}
    {text : Bytes}
    (hNoted : v.Noted)
    (hView : viewOf h = v)
    (hHidden : ∀ live ∈
      [certsName, previousName, certPemName],
        live ≠ temporary)
    (hNode : h.disk.node temporary = some (.file text)) :
    viewOf (h.moved temporary certPemName
      (.file text)).note = v.withBundle text := by
  have hCerts : (h.moved temporary certPemName
      (.file text)).disk.node certsName = v.certs := by
    rw [node_moved_of_ne (hHidden _ (by simp)) (by decide)]
    exact congrArg View.certs hView
  have hPrevious : (h.moved temporary certPemName
      (.file text)).disk.node previousName = v.previous := by
    rw [node_moved_of_ne (hHidden _ (by simp)) (by decide)]
    exact congrArg View.previous hView
  have hMoved : viewOf (h.moved temporary certPemName
      (.file text)) = v.withBundle text := by
    simp only [viewOf, View.withBundle, View.mk.injEq]
    exact ⟨hCerts, hPrevious, node_moved_target hNode,
      congrArg View.installed hView⟩
  rw [note_eq, hMoved]
  rw [hMoved]
  exact hNoted

/- `write_file` replaces `cert.pem` whole, or not at all. -/
include hNoted hInv in
theorem writeFile_bundle
    (text : Bytes)
    (hBundle : ∀ h, viewOf h = v.withBundle text → I h) :
    Ensures G I (fun h => viewOf h = v)
      (writeFile none certPemName text)
      (fun _ h => viewOf h = v.withBundle text)
      (fun _ h => viewOf h = v) := by
  refine writeFile_ensures
    (FillingBundle v)
    (fun temporary h =>
      viewOf h = v.withBundle text ∧
        ∀ live ∈ [certsName, previousName, certPemName],
          live ≠ temporary)
    none certPemName text (fun _ h => h) ?_ ?_
    (write_bundle hNoted hInv) ?_ ?_ ?_ ?_
  · exact fun h hP => ⟨hInv _ hP, hP⟩
  · exact fun pid next => createNew_bundle hNoted hInv
      (live_ne_temporaryName pid next)
  · intro temporary written
    exact (inspect_ensures (fun h hP => hInv h hP.1)
      (fun h hP => ⟨(stagingFrame hNoted).note h hP.1,
        hP.2⟩)).weaken (fun _ h => h) (fun _ _ h => h)
        (fun _ _ h => ⟨written, h⟩)
  · intro pid next
    refine (renameEntry_ensures (temporaryName pid next)
      certPemName (fun h hP => hInv h hP.1)
      (fun h hP => by
        rwa [note_eq (by rw [hP.1]; exact hNoted)])
      (fun h n hP hSource => ?_)).weaken (fun _ h => h)
        (fun _ _ h => h) (fun _ _ h => ⟨text, h⟩)
    rcases hP with ⟨hView, hHidden, hNode⟩
    have hMoved := hSource.symm.trans hNode
    cases hMoved
    have hNew := viewOf_moved_bundle hNoted hView hHidden
      hNode
    exact ⟨hBundle _ hNew, hNew, hHidden⟩
  · intro temporary
    refine Ensures.exists (fun partly => ?_)
    intro m hG hI hP
    exact (removeFile_bundle hNoted hInv hP.2.1).weaken
      (fun _ h => h) (fun _ _ h => h) (fun _ _ h => h)
      m hG hI hP.1
  · intro temporary m hG hI hP
    exact removeFile_bundle (v := v.withBundle text)
      hNoted hBundle hP.2 m hG hI hP.1

end

end Render

end Trustd

------------------------------------------------------------
-- Runs Of Renders
------------------------------------------------------------

namespace Trustd

namespace Render

open General Store

/- The bytes of the bundle a render writes. -/
def bundleBytes (composed : Composed) : Bytes :=
  Text.utf8 (bundleForRoots
    (forPurpose composed.roots serverAuth))

/- What a render leaves in the directory it installs. -/
def renderingOf (composed : Composed) : Entries :=
  rendering (forPurpose composed.roots serverAuth)

section

variable {G : Fault → Prop}
variable {v : View}
variable (hNoted : v.Noted)
variable (hKept : v.Kept)

/-
  The bundle is rewritten once the new directory is in place:
  from here on both contents of `cert.pem` are safe.
-/
theorem writeFile_inPlace
    (final : Entries)
    (text : Bytes) :
    Ensures G (SafeFrom v final text)
      (InPlace final v.certPem)
      (writeFile none certPemName text)
      (fun _ h =>
        (∃ dirId, h.disk.node certsName =
          some (.dir dirId final)) ∧
        h.disk.node certPemName = some (.file text))
      (fun _ _ => True) := by
  intro m hG hI hPlace
  have hNew : ∀ h, viewOf h =
      (viewOf m.state).withBundle text →
        SafeFrom v final text h := by
    intro h hView
    have hCerts := congrArg View.certs hView
    have hCertPem := congrArg View.certPem hView
    rcases hPlace.certs with ⟨dirId, hDir⟩
    have hWhole := hCerts.trans hDir
    have hInstalled := congrArg View.installed hView
    refine ⟨Or.inr (Or.inr ⟨dirId, hWhole⟩), ?_, ?_,
      Or.inr ⟨hCertPem, dirId, hWhole⟩⟩
    · intro hNone
      cases hNone.symm.trans hWhole
    · intro n hn
      exact hInstalled.trans
        (hPlace.noted n (hCerts.symm.trans hn))
  have hOld : ∀ h, viewOf h = viewOf m.state →
      SafeFrom v final text h := by
    intro h hView
    rw [SafeFrom, hView]
    exact hPlace.safe
  refine (writeFile_bundle hPlace.noted hOld text
    hNew).weaken (fun _ h => h) (fun _ h hView => ?_)
      (fun _ _ _ => trivial) m hG hI rfl
  rcases hPlace.certs with ⟨dirId, hDir⟩
  exact ⟨⟨dirId, (congrArg View.certs hView).trans hDir⟩,
    congrArg View.certPem hView⟩

/- What a render leaves in place once it says it is done. -/
def Installed (composed : Composed) (h : Host) : Prop :=
  (∃ dirId, h.disk.node certsName =
    some (.dir dirId (renderingOf composed))) ∧
  h.disk.node certPemName =
    some (.file (bundleBytes composed))

/- What a render leaves where the staging began so. -/
def leavesOver (start : Entries) (composed : Composed) :
    Entries :=
  (stagedFiles (forPurpose composed.roots
    serverAuth)).foldl putFile start

/-
  Every moment of a render is safe, and a render that says
  it succeeded has put the directory and the bundle in place.
  The staging directory starts with what was left in it if
  its stat fails, the render's second call, and else empty.
-/
include hNoted hKept in
theorem renderFiles_over
    (composed : Composed)
    {m : Machine Host Fault}
    {start : Entries}
    (hVisited : ∀ h ∈ m.visited,
      SafeFrom v (leavesOver start composed)
        (bundleBytes composed) h)
    (hView : viewOf m.state = v)
    (hEmpty : (m.faults 1).statFails = false → start = [])
    (hProbe : (m.faults 1).statFails = true →
      Begins start m.state) :
    Meets (fun _ => True)
      (SafeFrom v (leavesOver start composed)
        (bundleBytes composed))
      m (renderFiles composed)
      (fun _ h => (∃ dirId, h.disk.node certsName =
          some (.dir dirId (leavesOver start composed))) ∧
        h.disk.node certPemName =
          some (.file (bundleBytes composed)))
      (fun _ _ => True) := by
  have hStart : ∀ h, viewOf h = v →
      SafeFrom v (leavesOver start composed)
        (bundleBytes composed) h := by
    intro h hView
    rw [SafeFrom, hView]
    exact safe_start hNoted hKept _ _
  have hCreate := withContext_ensures "create".toList .store
    ((createStore_staged (G := fun _ => True) hNoted hStart
      ((m.faults 1).statFails = true) start).weaken
        (fun _ h => h) (fun _ _ h => h)
        (fun _ _ _ => trivial)) m (fun _ => trivial)
          hVisited ⟨hView, hProbe⟩
  have hSpends := withContext_spends "create".toList .store
    createStore_spends
  have hStage := (stageFiles_staged (G := fun _ => True)
    hNoted hStart start
    (forPurpose composed.roots serverAuth)).weaken
      (fun _ h => h) (fun _ _ h => h) (fun _ _ _ => trivial)
  have hInstall : Ensures (fun _ => True)
      (SafeFrom v (leavesOver start composed)
        (bundleBytes composed))
      (Staged v (fun now => now = leavesOver start composed))
      exchange
      (fun _ => InPlace (leavesOver start composed) v.certPem)
      (fun _ _ => True) :=
    exchange_safe hNoted hKept
  have hBundle := writeFile_inPlace (G := fun _ => True)
    (v := v) (leavesOver start composed)
    (bundleBytes composed)
  refine Meets.bind_spends hCreate hSpends
    (fun _ m' hFaults hG hI hP => ?_)
  have hPrepare := (prepareStaging_staged
    (G := fun _ => True) hNoted hStart (fun _ => trivial) hI
    hP.1 (by rw [hFaults 0]; exact hEmpty)
    (by rw [hFaults 0]; exact hP.2)).weaken
      (fun _ _ h => h) (fun _ _ _ => trivial)
  refine hPrepare.bind (fun _ => Ensures.bind hStage
    (fun _ => Ensures.bind (withContext_ensures _ _ hInstall)
      (fun _ => Ensures.bind (withContext_ensures _ _ hBundle)
        (fun _ => ?_))))
  exact Ensures.pure _ (fun _ h => h)

end

/- The entries of a directory that are not written anew. -/
def staleIn (start : Entries) (composed : Composed) :
    Entries :=
  start.filter (fun e => e.1 ∉ (stagedFiles
    (forPurpose composed.roots serverAuth)).map Prod.fst)

theorem mem_staleIn_iff
    {start : Entries}
    {composed : Composed}
    {e : Text × Leaf} :
    e ∈ staleIn start composed ↔
      e ∈ start ∧ ¬ Rewritten
        (forPurpose composed.roots serverAuth) e.1 := by
  rw [staleIn, List.mem_filter, decide_eq_true_eq,
    names_stagedFiles, mem_names_iff]

/- What stays of a directory that files were staged in. -/
theorem leavesOver_eq
    (start : Entries)
    (composed : Composed) :
    leavesOver start composed =
      staleIn start composed ++
        (bundleName, .file (bundleBytes composed)) ::
          (hashedList (forPurpose composed.roots
            serverAuth)).map Hashed.file := by
  rw [leavesOver, foldl_putFile, stagedFiles_eq]
  · rfl
  · rw [names_stagedFiles]
    exact nodup_hashedList _

/- Where all of it is written anew, nothing of it stays. -/
theorem leavesOver_of_rewritten
    {start : Entries}
    {composed : Composed}
    (hAll : ∀ e ∈ start, Rewritten
      (forPurpose composed.roots serverAuth) e.1) :
    leavesOver start composed = renderingOf composed := by
  have hNone : staleIn start composed = [] := by
    refine List.eq_nil_iff_forall_not_mem.mpr
      (fun e hStale => ?_)
    rcases mem_staleIn_iff.mp hStale with ⟨he, hNot⟩
    exact hNot (hAll e he)
  have hFresh : renderingOf composed = leavesOver [] composed :=
    rfl
  rw [hFresh, leavesOver_eq, leavesOver_eq, hNone]
  rfl

/- What the staging directory has in it once prepared. -/
def startOf (disk : Disk) (faults : Nat → Fault) : Entries :=
  if (faults 1).statFails then
    (disk.entriesOf stagingName).getD []
  else []

theorem begins_startOf
    {h : Host}
    {faults : Nat → Fault}
    (hFails : (faults 1).statFails = true) :
    Begins (startOf h.disk faults) h := by
  rw [Begins, startOf, if_pos hFails]
  refine ⟨fun hNone => ?_, fun dirId entries hDir => ?_⟩
  · rw [Disk.entriesOf, hNone]
    rfl
  · rw [Disk.entriesOf, hDir]
    rfl

/- What was left in the staging directory is written anew. -/
def Overwritten (composed : Composed) (h : Host) : Prop :=
  ∀ dirId entries,
    h.disk.node stagingName = some (.dir dirId entries) →
      ∀ e ∈ entries, Rewritten
        (forPurpose composed.roots serverAuth) e.1

/- It is prepared for that, unless the stat misses others. -/
theorem rewritten_startOf
    {composed : Composed}
    {h : Host}
    {faults : Nat → Fault}
    (hProbe : (faults 1).statFails = true →
      Overwritten composed h) :
    ∀ e ∈ startOf h.disk faults, Rewritten
      (forPurpose composed.roots serverAuth) e.1 := by
  intro e he
  rw [startOf] at he
  split_ifs at he with hFails
  · rw [Disk.entriesOf] at he
    rcases hNode : h.disk.node stagingName with
      _ | ⟨data | ⟨dirId, entries⟩⟩
    · rw [hNode] at he
      cases he
    · rw [hNode] at he
      cases he
    · rw [hNode] at he
      exact hProbe hFails dirId entries hNode e he
  · cases he

/- Where nothing is left over, the rendering is what is put. -/
theorem renderFiles_safe
    {h : Host}
    (hNoted : (viewOf h).Noted)
    (hKept : (viewOf h).Kept)
    (composed : Composed)
    {faults : Nat → Fault}
    (hProbe : (faults 1).statFails = true →
      Overwritten composed h) :
    Meets (fun _ => True)
      (SafeFrom (viewOf h) (renderingOf composed)
        (bundleBytes composed))
      (Machine.start h faults) (renderFiles composed)
      (fun _ => Installed composed) (fun _ _ => True) := by
  have hSame := leavesOver_of_rewritten
    (rewritten_startOf hProbe)
  have hVisited : ∀ s ∈ (Machine.start h faults).visited,
      SafeFrom (viewOf h)
        (leavesOver (startOf h.disk faults) composed)
        (bundleBytes composed) s :=
    Machine.forall_visited_start.mpr
      (safe_start hNoted hKept _ _)
  have hOver := renderFiles_over hNoted hKept composed
    hVisited rfl
    (fun hStat => if_neg (Bool.eq_false_iff.mp hStat))
    begins_startOf
  rw [hSame] at hOver
  exact hOver

theorem syscall_failsAt {α : Type}
    {m : Machine Host Fault}
    {e : IoError}
    (hFails : (m.faults 0).error = some e)
    (op : Host → Except IoError α × Host) :
    (syscall op).FailsAt m e := by
  have hRun : syscall op m = (.error e, {
      state := m.state
      past := m.state :: m.past
      faults := fun k => m.faults (k + 1) }) := by
    simp only [syscall, Prog.step, hFails]
  rw [Prog.FailsAt, hRun]
  exact ⟨rfl, rfl, List.cons_subset.mpr
    ⟨List.mem_cons_self, List.Subset.refl _⟩⟩

/- A render of files whose first call fails does nothing. -/
theorem renderFiles_failsAt
    (composed : Composed)
    {m : Machine Host Fault}
    {e : IoError}
    (hFails : (m.faults 0).error = some e) :
    ∃ why, (renderFiles composed).FailsAt m why :=
  ⟨_, ((syscall_failsAt hFails _).mapError _).bind _⟩

/- Absent, or a directory with nothing in it. -/
def Cleared (name : Text) (h : Host) : Prop :=
  h.disk.node name = none ∨
    ∃ dirId, h.disk.node name = some (.dir dirId [])

/-
  A render gets to its second call, the stat of the directory
  it is to empty, and that call fails although something is
  in there that then stays.
-/
def Misled
    (composed : Composed)
    (compat : Compat)
    (faults : Nat → Fault)
    (h : Host) :
    Prop :=
  (faults 0).error = none ∧ (faults 1).statFails = true ∧
    match compat with
    | .none => ¬ Cleared certsName h
    | .files => ¬ Overwritten composed h
    | .live => ¬ Overwritten composed h

/- The moments of a render, the last one first. -/
def moments
    (composed : Composed)
    (compat : Compat)
    (faults : Nat → Fault)
    (h : Host) :
    List Host :=
  (render composed compat
    (Machine.start h faults)).2.visited

/-
  The states renders are called in, from `start` on, where
  each render is one that `admits` allows. A render either
  returns, or the process stops at one of its moments and
  another process takes over, counting from zero.
-/
inductive Runs
    (admits : Composed → Compat → (Nat → Fault) → Host → Prop)
    (start : Host) :
    Host → Prop where
  | start : Runs admits start start
  | returned
      {h : Host}
      (composed : Composed)
      {compat : Compat}
      (hCompat : compat ≠ .none)
      {faults : Nat → Fault}
      (hAdmits : admits composed compat faults h)
      (hRuns : Runs admits start h) :
      Runs admits start (render composed compat
        (Machine.start h faults)).2.state
  | stopped
      {h moment : Host}
      (composed : Composed)
      {compat : Compat}
      (hCompat : compat ≠ .none)
      {faults : Nat → Fault}
      (hAdmits : admits composed compat faults h)
      (hRuns : Runs admits start h)
      (hMoment : moment ∈ moments composed compat faults h)
      (pid : Nat) :
      Runs admits start { moment with pid, next := 0 }

/- A render in either mode is the same program. -/
theorem render_of_ne_none
    {compat : Compat}
    (hCompat : compat ≠ .none)
    (composed : Composed) :
    render composed compat = renderFiles composed := by
  cases compat with
  | none => exact absurd rfl hCompat
  | files => rfl
  | live => rfl

/- It is misled by nothing but what is not written anew. -/
theorem misled_iff
    {compat : Compat}
    (hCompat : compat ≠ .none)
    (composed : Composed)
    (faults : Nat → Fault)
    (h : Host) :
    Misled composed compat faults h ↔
      (faults 0).error = none ∧ (faults 1).statFails = true ∧
        ¬ Overwritten composed h := by
  cases compat with
  | none => exact absurd rfl hCompat
  | files => exact Iff.rfl
  | live => exact Iff.rfl

/- The moments of one render, where it starts well. -/
theorem moments_safe
    {h : Host}
    (hNoted : (viewOf h).Noted)
    (hKept : (viewOf h).Kept)
    (composed : Composed)
    {compat : Compat}
    (hCompat : compat ≠ .none)
    {faults : Nat → Fault}
    (hTold : ¬ Misled composed compat faults h) :
    ∀ moment ∈ moments composed compat faults h,
      Safe h.installed (h.disk.node certPemName)
        (renderingOf composed) (bundleBytes composed)
        (viewOf moment) := by
  rw [misled_iff hCompat] at hTold
  unfold moments
  rw [render_of_ne_none hCompat]
  rcases hFirst : (faults 0).error with _ | e
  · have hProbe : (faults 1).statFails = true →
        Overwritten composed h := by
      intro hFails
      by_contra hNot
      exact hTold ⟨hFirst, hFails, hNot⟩
    exact (renderFiles_safe hNoted hKept composed hProbe).2.1
  · have hStart : SafeFrom (viewOf h) (renderingOf composed)
        (bundleBytes composed) h :=
      safe_start hNoted hKept _ _
    rcases renderFiles_failsAt composed
      (m := Machine.start h faults) hFirst with
      ⟨why, -, -, hPast⟩
    intro moment hMoment
    exact Machine.forall_visited_start.mpr hStart moment
      (hPast hMoment)

/- Nothing is lost where `certs` is as it was installed. -/
theorem noted_of_installed
    {h : Host}
    (hStart : h.installed = h.disk.node certsName) :
    (viewOf h).Noted ∧ (viewOf h).Kept := by
  refine ⟨fun n hn => hStart.trans hn, ?_⟩
  intro hNone n hn
  have hAbsent := hStart.trans hNone
  cases hAbsent.symm.trans hn

/- Whatever happened before, the next render starts well. -/
theorem runs_start
    {start h : Host}
    (hStart : start.installed = start.disk.node certsName)
    (hRuns : Runs (fun composed compat faults h =>
      ¬ Misled composed compat faults h) start h) :
    (viewOf h).Noted ∧ (viewOf h).Kept := by
  induction hRuns with
  | start => exact noted_of_installed hStart
  | returned composed hCompat hTold _ ih =>
      have hSafe := moments_safe ih.1 ih.2 composed hCompat
        hTold _ List.mem_cons_self
      exact ⟨hSafe.noted, hSafe.kept⟩
  | stopped composed hCompat hTold _ hMoment _ ih =>
      have hSafe := moments_safe ih.1 ih.2 composed hCompat
        hTold _ hMoment
      exact ⟨hSafe.noted, hSafe.kept⟩

/-
  Over any run of renders that are not misled, from a store
  where `certs` is as it was last installed: at every moment
  of the next such render the directory and the bundle are
  whole, the old or the new.
-/
theorem runs_safe
    {start h moment : Host}
    (hStart : start.installed = start.disk.node certsName)
    (hRuns : Runs (fun composed compat faults h =>
      ¬ Misled composed compat faults h) start h)
    (composed : Composed)
    {compat : Compat}
    (hCompat : compat ≠ .none)
    {faults : Nat → Fault}
    (hTold : ¬ Misled composed compat faults h)
    (hMoment : moment ∈ moments composed compat faults h) :
    Safe h.installed (h.disk.node certPemName)
      (renderingOf composed) (bundleBytes composed)
      (viewOf moment) := by
  rcases runs_start hStart hRuns with ⟨hNoted, hKept⟩
  exact moments_safe hNoted hKept composed hCompat hTold
    moment hMoment

/- A store with one hashed file installed and no bundle. -/
def sampleStore : Disk :=
  { store := some (fun name =>
      if name = certsName then
        some (.dir 7 [("1a2b3c4d.0".toList, .file [1, 2])])
      else none) }

def sampleHost : Host :=
  { disk := sampleStore
    pid := 41
    next := 0
    nextId := 8
    installed := sampleStore.node certsName }

/- Calls that all succeed but the exchange, with `EINVAL`. -/
def exchangeRefused (k : Nat) : Fault :=
  if k = 10 then
    { error := some {
        kind := .invalidInput
        rawOsError := some 22
        text := "Invalid argument (os error 22)".toList } }
  else { count := 4096 }

/- Between the two renames of the fallback. -/
theorem runs_safe_between_renames :
    ∃ moment ∈ moments {} .files exchangeRefused sampleHost,
      (viewOf moment).certs = none ∧
        Safe sampleHost.installed
          (sampleHost.disk.node certPemName)
          (renderingOf {}) (bundleBytes {})
          (viewOf moment) := by
  have hFound : ((moments {} .files exchangeRefused
      sampleHost).find? (fun moment =>
        (viewOf moment).certs = none)).isSome = true := by
    decide +kernel
  rcases Option.isSome_iff_exists.mp hFound with
    ⟨moment, hMoment⟩
  have hAbsent := List.find?_some hMoment
  refine ⟨moment, List.mem_of_find?_eq_some hMoment,
    of_decide_eq_true hAbsent, ?_⟩
  exact runs_safe rfl Runs.start {} (by decide)
    (fun hMisled => by cases hMisled.2.1)
    (List.mem_of_find?_eq_some hMoment)

/- A host that starts with this disk. -/
def Host.on
    (disk : Disk)
    (pid next nextId : Nat) :
    Host where
  disk := disk
  pid := pid
  next := next
  nextId := nextId
  installed := disk.node certsName

/- A store with a stale file in both of its directories. -/
def staleStore : Disk :=
  { store := some (fun name =>
      if name = certsName then
        some (.dir 1 [("1a2b3c4d.0".toList, .file [1])])
      else if name = stagingName then
        some (.dir 2 [("deadbeef.0".toList, .file [2])])
      else none) }

/- Calls that all succeed but the stat of `certs.new`. -/
def stagingUnseen (k : Nat) : Fault :=
  if k = 1 then { statFails := true } else { count := 4096 }

/- Whether `certs` has the file that was left in `certs.new`. -/
def hasStale (h : Host) : Bool :=
  match h.disk.node certsName with
  | some (.dir _ entries) =>
      entries.any (fun e => e.1 = "deadbeef.0".toList)
  | _ => false

/- What was left over is in `certs` beside the new files. -/
theorem runs_unsafe_unseen :
    ¬ ∀ (start h moment : Host),
      start.installed = start.disk.node certsName →
      Runs (fun _ _ _ _ => True) start h →
      ∀ (composed : Composed) (compat : Compat),
        compat ≠ .none →
        ∀ faults : Nat → Fault,
          moment ∈ moments composed compat faults h →
          Safe h.installed (h.disk.node certPemName)
            (renderingOf composed) (bundleBytes composed)
            (viewOf moment) := by
  intro hAll
  have hFound : ((moments {} .files stagingUnseen
      (Host.on staleStore 41 0 3)).find? hasStale).isSome =
        true := by
    decide +kernel
  rcases Option.isSome_iff_exists.mp hFound with
    ⟨moment, hMoment⟩
  have hStale := List.find?_some hMoment
  have hSafe := hAll _ _ moment rfl Runs.start {} .files
    (by decide) stagingUnseen (List.mem_of_find?_eq_some hMoment)
  have hCerts : moment.disk.node certsName = none ∨
      moment.disk.node certsName =
        staleStore.node certsName ∨
      ∃ dirId, moment.disk.node certsName =
        some (.dir dirId (renderingOf {})) :=
    hSafe.certs
  unfold hasStale at hStale
  rcases hCerts with hNone | hOld | ⟨dirId, hNew⟩
  · rw [hNone] at hStale
    cases hStale
  · rw [hOld] at hStale
    exact absurd hStale (by decide)
  · rw [hNew] at hStale
    have hNone : (renderingOf {}).any
        (fun e => e.1 = "deadbeef.0".toList) = false := by
      decide +kernel
    exact absurd hStale (Bool.eq_false_iff.mp hNone)

end Render

end Trustd
