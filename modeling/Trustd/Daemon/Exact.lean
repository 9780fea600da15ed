import Trustd.Daemon.State
import Trustd.Daemon.Rendered

/-
  What a render that succeeds leaves in `certs`: the bundle,
  one numbered file for each root, and nothing else, unless
  the stat of the staging directory fails over other files.

  Key definitions include:
    * `Trustd.Render.ExactEntries`
    * `Trustd.Render.Exact`

  Key theorems include:
    * `Trustd.Render.exactEntries_iff`
    * `Trustd.Render.render_exact_iff`
-/

------------------------------------------------------------
-- What Is Left Over
------------------------------------------------------------

namespace Trustd

namespace Render

open General Store Cert Daemon

/-
  The directory holds the bundle and one file for each root
  that serves TLS, under names that are all different, and
  what the files hold is what the socket serves for TLS.
-/
structure ExactEntries
    (composed : Composed)
    (entries : Entries)
    (files : List Hashed) :
    Prop where
  hashed : HashedFor
    (forPurpose composed.roots serverAuth) files
  only : entries.Perm
    ((bundleName, .file (bundleBytes composed)) ::
      files.map Hashed.file)
  names : (entries.map Prod.fst).Nodup
  served : ∀ s : State, s.composed = composed →
    ((s.roots true (some serverAuth)).map
      (fun root => some [root.der])).Perm
        (files.map Hashed.ders)

/- What the store holds is exactly the rendering of a set. -/
def Exact (composed : Composed) (h : Host) : Prop :=
  (∃ dirId entries files,
    h.disk.node certsName = some (.dir dirId entries) ∧
      ExactEntries composed entries files) ∧
    h.disk.node certPemName =
      some (.file (bundleBytes composed))

theorem HashedFor.served
    {composed : Composed}
    {files : List Hashed}
    (hFiles : HashedFor
      (forPurpose composed.roots serverAuth) files)
    {s : State}
    (hServed : s.composed = composed) :
    (s.roots true (some serverAuth)).map
        (fun root => some [root.der]) =
      files.map Hashed.ders := by
  have hReads : files.map Hashed.ders =
      (files.map Hashed.root).map
        (fun root => some [root.parsed.der]) := by
    rw [List.map_map]
    exact List.map_congr_left hFiles.reads
  rw [hReads, hFiles.each, State.roots, List.map_map, hServed]
  rfl

/- It is exact where all that was there is written anew. -/
theorem exactEntries_iff
    (start : Entries)
    (composed : Composed) :
    (∃ files, ExactEntries composed
        (leavesOver start composed) files) ↔
      ∀ e ∈ start, Rewritten
        (forPurpose composed.roots serverAuth) e.1 := by
  constructor
  · rintro ⟨files, hExact⟩ e he
    by_contra hStale
    have hKept := List.length_pos_of_mem
      (mem_staleIn_iff.mpr ⟨he, hStale⟩)
    have hLength := hExact.only.length_eq
    rw [leavesOver_eq] at hLength
    have hFiles := congrArg List.length hExact.hashed.each
    have hList := congrArg List.length (hashedFor_hashedList
      (forPurpose composed.roots serverAuth)).each
    simp only [List.length_append, List.length_cons,
      List.length_map] at hLength hFiles hList
    omega
  · intro hAll
    have hFiles := hashedFor_hashedList
      (forPurpose composed.roots serverAuth)
    have hFresh : renderingOf composed =
        leavesOver [] composed := rfl
    rw [leavesOver_of_rewritten hAll, hFresh, leavesOver_eq]
    refine ⟨_, hFiles, List.Perm.refl _, ?_, fun s hServed =>
      List.Perm.of_eq (hFiles.served hServed)⟩
    have hNames := nodup_hashedList
      (forPurpose composed.roots serverAuth)
    rw [staleIn, List.filter_nil, List.nil_append,
      List.map_cons, List.map_map]
    exact hNames

end Render

end Trustd

------------------------------------------------------------
-- Renders That Succeed
------------------------------------------------------------

namespace Trustd

namespace Render

open General Store Cert Daemon

/- A render that succeeds puts its files into what it found. -/
theorem render_over
    (composed : Composed)
    {compat : Compat}
    (hCompat : compat ≠ .none)
    {h : Host}
    (hStart : (viewOf h).Noted ∧ (viewOf h).Kept)
    {faults : Nat → Fault}
    {paths : List Text}
    (hOk : (render composed compat
      (Machine.start h faults)).1 = .ok paths) :
    Recorded (render composed compat
        (Machine.start h faults)).2.state ∧
      (∃ dirId, (render composed compat
        (Machine.start h faults)).2.state.disk.node certsName =
          some (.dir dirId
            (leavesOver (startOf h.disk faults) composed))) ∧
      (render composed compat
        (Machine.start h faults)).2.state.disk.node
          certPemName = some (.file (bundleBytes composed)) := by
  rw [render_of_ne_none hCompat] at hOk ⊢
  have hVisited : ∀ s ∈ (Machine.start h faults).visited,
      SafeFrom (viewOf h)
        (leavesOver (startOf h.disk faults) composed)
        (bundleBytes composed) s :=
    Machine.forall_visited_start.mpr
      (safe_start hStart.1 hStart.2 _ _)
  have hMeets := renderFiles_over hStart.1 hStart.2 composed
    hVisited rfl
    (fun hStat => if_neg (Bool.eq_false_iff.mp hStat))
    begins_startOf
  have hSafe := hMeets.2.1 _ List.mem_cons_self
  have hOutcome := hMeets.2.2
  rw [hOk] at hOutcome
  exact ⟨⟨hSafe.noted, hSafe.kept⟩, hOutcome⟩

/- Exactness is a matter of what the render found. -/
theorem exact_iff_over
    (composed : Composed)
    {compat : Compat}
    (hCompat : compat ≠ .none)
    (disk : Disk)
    (pid next nextId : Nat)
    (faults : Nat → Fault)
    {paths : List Text}
    (hOk : (render composed compat (Machine.start
      (Host.on disk pid next nextId) faults)).1 =
        .ok paths) :
    Exact composed (render composed compat (Machine.start
        (Host.on disk pid next nextId) faults)).2.state ↔
      ∀ e ∈ startOf disk faults, Rewritten
        (forPurpose composed.roots serverAuth) e.1 := by
  rcases render_over composed hCompat (noted_of_installed rfl)
    hOk with ⟨-, ⟨dirId, hCerts⟩, hCertPem⟩
  rw [← exactEntries_iff]
  constructor
  · rintro ⟨⟨dirId', entries, files, hDir, hEntries⟩, -⟩
    cases hCerts.symm.trans hDir
    exact ⟨files, hEntries⟩
  · rintro ⟨files, hEntries⟩
    exact ⟨⟨dirId, _, files, hCerts, hEntries⟩, hCertPem⟩

/-
  What a render says it succeeded at is exact if and only if
  the stat of the staging directory did not fail, or all that
  was in it has a name that the render writes anew.
-/
theorem render_exact_iff
    (composed : Composed)
    {compat : Compat}
    (hCompat : compat ≠ .none)
    (disk : Disk)
    (pid next nextId : Nat)
    (faults : Nat → Fault)
    {paths : List Text}
    (hOk : (render composed compat (Machine.start
      (Host.on disk pid next nextId) faults)).1 =
        .ok paths) :
    Exact composed (render composed compat (Machine.start
        (Host.on disk pid next nextId) faults)).2.state ↔
      ((faults 1).statFails = true →
        ∀ dirId entries,
          disk.node stagingName = some (.dir dirId entries) →
            ∀ e ∈ entries, Rewritten
              (forPurpose composed.roots serverAuth) e.1) := by
  rw [exact_iff_over composed hCompat disk pid next nextId
    faults hOk, startOf]
  by_cases hStat : (faults 1).statFails = true
  · rw [if_pos hStat, Disk.entriesOf]
    constructor
    · intro hAll _ dirId entries hDir
      rw [hDir] at hAll
      exact hAll
    · intro hAll e he
      rcases hNode : disk.node stagingName with
        _ | ⟨_ | ⟨dirId, entries⟩⟩
      · rw [hNode] at he
        cases he
      · rw [hNode] at he
        cases he
      · rw [hNode] at he
        exact hAll hStat dirId entries hNode e he
  · rw [if_neg hStat]
    exact iff_of_true (fun e he => by cases he)
      (fun hFails => absurd hFails hStat)

/- A root for TLS under a hash that it shares. -/
def sharedHash (der : Bytes) : Entry where
  parsed := {
    der
    fingerprint := []
    subject := []
    notAfter := 0
    subjectHash := "0f0f0f0f".toList }
  source := .shipped
  name := none
  purposes := [serverAuth]

def sharedHashes : Composed :=
  { roots := [sharedHash [1, 2, 3], sharedHash [4, 5]] }

/- Two roots of one hash, over a store that is stale. -/
theorem render_exact_colliding :
    ∃ paths, (render sharedHashes .live (Machine.start
        (Host.on staleStore 41 0 3)
          (fun _ => { count := 4096 }))).1 = .ok paths ∧
      Exact sharedHashes (render sharedHashes .live
        (Machine.start (Host.on staleStore 41 0 3)
          (fun _ => { count := 4096 }))).2.state := by
  have hOk : (render sharedHashes .live (Machine.start
      (Host.on staleStore 41 0 3)
        (fun _ => { count := 4096 }))).1.isOk = true := by
    decide +kernel
  cases hRun : (render sharedHashes .live (Machine.start
      (Host.on staleStore 41 0 3)
        (fun _ => { count := 4096 }))).1 with
  | error e =>
      rw [hRun] at hOk
      cases hOk
  | ok paths =>
      refine ⟨paths, rfl, ?_⟩
      exact (render_exact_iff sharedHashes (by decide)
        staleStore 41 0 3 _ hRun).mpr
          (fun hFails => by cases hFails)

/- A stale file is installed, and the render succeeds. -/
theorem render_installs_stale :
    ¬ ∀ (composed : Composed) (compat : Compat),
      compat ≠ .none →
      ∀ (disk : Disk) (pid next nextId : Nat)
        (faults : Nat → Fault) (paths : List Text),
        (render composed compat (Machine.start
          (Host.on disk pid next nextId) faults)).1 =
            .ok paths →
        Exact composed (render composed compat (Machine.start
          (Host.on disk pid next nextId)
            faults)).2.state := by
  intro hAll
  have hOk : (render {} .files (Machine.start
      (Host.on staleStore 41 0 3)
        stagingUnseen)).1.isOk = true := by
    decide +kernel
  cases hRun : (render {} .files (Machine.start
      (Host.on staleStore 41 0 3) stagingUnseen)).1 with
  | error e =>
      rw [hRun] at hOk
      cases hOk
  | ok paths =>
      have hExact := hAll {} .files (by decide) staleStore
        41 0 3 stagingUnseen paths hRun
      rw [exact_iff_over {} (by decide) staleStore 41 0 3
        stagingUnseen hRun] at hExact
      rcases hExact _ List.mem_cons_self with
        hBundle | ⟨hash, sequence, -, hBelow⟩
      · exact absurd hBundle (by decide)
      · exact absurd hBelow (Nat.not_lt_zero _)

end Render

end Trustd
