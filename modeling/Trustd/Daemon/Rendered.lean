import Trustd.Daemon.Install

/-
  What a render that says it succeeded leaves on the disk.

  Key definitions include:
    * `Trustd.Render.Matches`
    * `Trustd.Render.Honest`

  Key theorems include:
    * `Trustd.Render.render_matches`
-/

------------------------------------------------------------
-- Files That Match
------------------------------------------------------------

namespace Trustd

namespace Render

open General Store

/- The disk is the rendering of a set under a mode. -/
def Matches
    (composed : Composed)
    (compat : Compat)
    (h : Host) :
    Prop :=
  match compat with
  | .none =>
      h.disk.node certPemName = none ∧ Cleared certsName h
  | .files => Installed composed h
  | .live => Installed composed h

/- A call fails with `NotFound` only where nothing is. -/
def Honest (f : Fault) : Prop :=
  ∀ e, f.error = some e → e.kind ≠ .notFound

/- The history variable is up to date and nothing is lost. -/
def Recorded (h : Host) : Prop :=
  (viewOf h).Noted ∧ (viewOf h).Kept

theorem Recorded.note
    {h : Host}
    (hRecorded : Recorded h) :
    Recorded h.note := by
  rw [note_eq hRecorded.1]
  exact hRecorded

/- What is neither `certs` nor its copy may change. -/
theorem Recorded.setNode
    {h : Host}
    (hRecorded : Recorded h)
    {name : Text}
    (hCerts : certsName ≠ name)
    (hPrevious : previousName ≠ name)
    (n : Option Node) :
    Recorded (Host.note
      { h with disk := h.disk.setNode name n }) := by
  refine ⟨noted_viewOf_note _, ?_⟩
  intro hNone old hOld
  have hGone : h.disk.node certsName = none :=
    (Disk.node_setNode_of_ne _ hCerts _).symm.trans hNone
  have hInstalled : h.installed = some old := by
    simpa [viewOf, Host.note, hCerts, hGone] using hOld
  exact (Disk.node_setNode_of_ne _ hPrevious _).trans
    (hRecorded.2 hGone old hInstalled)

/- The directory at `certs` may be filled as one likes. -/
theorem Recorded.setCerts
    {h : Host}
    (hRecorded : Recorded h)
    (dirId : Nat)
    (entries : Entries) :
    Recorded (Host.note { h with
      disk := h.disk.setNode certsName
        (some (.dir dirId entries)) }) := by
  rcases h with ⟨⟨_ | names⟩, pid, next, nextId, installed⟩
  · exact hRecorded.note
  · refine ⟨noted_viewOf_note _, ?_⟩
    intro hNone
    have hSome := Disk.node_setNode_self
      { store := some names } rfl certsName
        (some (.dir dirId entries))
    cases hSome.symm.trans hNone

end Render

end Trustd

------------------------------------------------------------
-- Removing The Files
------------------------------------------------------------

namespace Trustd

namespace Render

open General Store

/- Everything the emptying of `certs` leaves alone. -/
def Unbundled (h : Host) : Prop :=
  Recorded h ∧ h.disk.node certPemName = none

theorem unbundledFrame : Frame certsName Unbundled where
  note _ hP := ⟨hP.1.note, hP.2⟩
  set _ _ _ hP := ⟨hP.1.setCerts _ _,
    (Disk.node_setNode_of_ne _ (by decide) _).trans hP.2⟩

/-
  Removing `cert.pem`, given that a call that does not find
  it tells the truth.
-/
theorem removeCertPem_ensures (p : Prop) :
    Ensures Honest Recorded
      (fun h => Recorded h ∧ (p → Cleared certsName h))
      (removeIfPresent certPemName)
      (fun _ h => Unbundled h ∧ (p → Cleared certsName h))
      (fun _ => Recorded) := by
  refine ifPresent_ensures (syscall_ensures_fault
    (fun h hP => hP.1) (fun f e h hHonest hError hP =>
      ⟨fun hKind => absurd hKind (hHonest e hError), hP.1⟩)
    (fun h hP => ?_))
  rcases hP with ⟨hRecorded, hCleared⟩
  rcases hNode : h.disk.node certPemName with
    _ | ⟨data | ⟨dirId, entries⟩⟩
  · exact ⟨hRecorded.note,
      fun _ => ⟨⟨hRecorded.note, hNode⟩, hCleared⟩,
      hRecorded.note⟩
  · have hApart : certsName ≠ certPemName := by decide
    have hGone := hRecorded.setNode hApart (by decide) none
    refine ⟨hGone, ⟨hGone, Disk.node_setNode_none _ _⟩,
      fun hp => ?_⟩
    have hCerts := Disk.node_setNode_of_ne h.disk hApart none
    rcases hCleared hp with hNone | ⟨dirId, hDir⟩
    · exact Or.inl (hCerts.trans hNone)
    · exact Or.inr ⟨dirId, hCerts.trans hDir⟩
  · exact ⟨hRecorded.note,
      fun hKind => absurd hKind (by decide),
      hRecorded.note⟩

/-
  In the mode without files a render that succeeds leaves
  none, unless the stat of `certs` fails over some.
-/
theorem renderNone_matches
    {m : Machine Host Fault}
    (hHonest : ∀ k, Honest (m.faults k))
    (hVisited : ∀ h ∈ m.visited, Recorded h)
    (hRecorded : Recorded m.state)
    (hProbe : (m.faults 1).statFails = true →
      Cleared certsName m.state) :
    Meets Honest Recorded m renderNone
      (fun _ h => h.disk.node certPemName = none ∧
        Cleared certsName h)
      (fun _ _ => True) := by
  have hRemove := withContext_ensures "remove".toList
    (.entry certPemName)
    ((removeCertPem_ensures
      ((m.faults 1).statFails = true)).weaken
        (fun _ h => h) (fun _ _ h => h)
        (fun _ _ _ => trivial)) m hHonest hVisited
          ⟨hRecorded, hProbe⟩
  have hSpends : Prog.Spends (withContext "remove".toList
      (.entry certPemName) (removeIfPresent certPemName)) 1 :=
    withContext_spends _ _ (ifPresent_spends
      (syscall_spends _))
  refine Meets.bind_spends hRemove hSpends
    (fun _ m' hFaults hHonest' hVisited' hP => ?_)
  have hPresent : Meets Honest Recorded m'
      (pathExists (.entry certsName))
      (fun b h => Unbundled h ∧
        (b = false → Cleared certsName h))
      (fun (_ : IoError) _ => True) := by
    refine Meets.step hHonest' hVisited' hP.1.1
      ⟨hP.1, fun hFalse => ?_⟩
    split_ifs at hFalse with hStat
    · rw [hFaults 0] at hStat
      exact hP.2 hStat
    · exact Or.inl (by simpa [Disk.has] using hFalse)
  refine hPresent.bind (fun present => ?_)
  cases present with
  | false =>
      exact Ensures.pure _ (fun h hP =>
        ⟨hP.1.2, hP.2 rfl⟩)
  | true =>
      have hEmpty : Ensures Honest Recorded
          (fun h => Unbundled h ∧
            (true = false → Cleared certsName h))
          _ _ (fun _ _ => True) :=
        (emptyDir_holding unbundledFrame
          (fun _ hP => hP.1)).weaken
            (fun _ hP => hP.1) (fun _ _ hQ => hQ)
            (fun _ _ _ => trivial)
      refine Ensures.bind (withContext_ensures _ _ hEmpty)
        (fun _ => ?_)
      refine Ensures.pure _ (fun h hP => ?_)
      rcases hP with ⟨hUnbundled, dirId, entries, hNode, rfl⟩
      exact ⟨hUnbundled.2, Or.inr ⟨dirId, hNode⟩⟩

end Render

end Trustd

------------------------------------------------------------
-- Any Render
------------------------------------------------------------

namespace Trustd

namespace Render

open General Store

/- What a render in the modes with files leaves. -/
theorem renderFiles_matches
    {h : Host}
    (hRecorded : Recorded h)
    (composed : Composed)
    {faults : Nat → Fault}
    (hProbe : (faults 1).statFails = true →
      Overwritten composed h) :
    Recorded (renderFiles composed
        (Machine.start h faults)).2.state ∧
      Outcome (fun _ => Installed composed) (fun _ _ => True)
        (renderFiles composed (Machine.start h faults)).1
        (renderFiles composed
          (Machine.start h faults)).2.state := by
  have hMeets := renderFiles_safe hRecorded.1 hRecorded.2
    composed hProbe
  have hSafe := hMeets.2.1 _ List.mem_cons_self
  exact ⟨⟨hSafe.noted, hSafe.kept⟩, hMeets.2.2⟩

/- A render whose first call fails has done nothing. -/
theorem render_failsAt
    (composed : Composed)
    (compat : Compat)
    {m : Machine Host Fault}
    (hHonest : Honest (m.faults 0))
    {e : IoError}
    (hFails : (m.faults 0).error = some e) :
    ∃ why, (render composed compat).FailsAt m why := by
  cases compat with
  | none =>
      have hRemove : (removeIfPresent certPemName).FailsAt m
          e := by
        refine (syscall_failsAt hFails _).attempt_bind ?_
        exact if_neg (hHonest e hFails)
      exact ⟨_, (hRemove.mapError _).bind _⟩
  | files => exact renderFiles_failsAt composed hFails
  | live => exact renderFiles_failsAt composed hFails

/-
  A render keeps the history straight, and if it says it
  succeeded the disk is the rendering of what it was given.
-/
theorem render_matches
    {h : Host}
    (hRecorded : Recorded h)
    (composed : Composed)
    (compat : Compat)
    {faults : Nat → Fault}
    (hHonest : ∀ k, Honest (faults k))
    (hProbe : ¬ Misled composed compat faults h) :
    Recorded (render composed compat
        (Machine.start h faults)).2.state ∧
      Outcome (fun _ => Matches composed compat)
        (fun _ _ => True)
        (render composed compat (Machine.start h faults)).1
        (render composed compat
          (Machine.start h faults)).2.state := by
  rcases hFirst : (faults 0).error with _ | e
  · have hTrue : ∀ p, ¬ ((faults 0).error = none ∧
        (faults 1).statFails = true ∧ ¬ p) →
          (faults 1).statFails = true → p :=
      fun p hNot hFails =>
        not_not.mp (fun hp => hNot ⟨hFirst, hFails, hp⟩)
    cases compat with
    | none =>
        have hMeets := renderNone_matches
          (m := Machine.start h faults) hHonest
          (Machine.forall_visited_start.mpr hRecorded)
          hRecorded (hTrue _ hProbe)
        exact ⟨hMeets.2.1 _ List.mem_cons_self, hMeets.2.2⟩
    | files =>
        exact renderFiles_matches hRecorded composed
          (hTrue _ hProbe)
    | live =>
        exact renderFiles_matches hRecorded composed
          (hTrue _ hProbe)
  · rcases render_failsAt composed compat
        (m := Machine.start h faults) (hHonest 0) hFirst with
      ⟨why, hError, hState, -⟩
    rw [hError, hState]
    exact ⟨hRecorded, trivial⟩

end Render

end Trustd
