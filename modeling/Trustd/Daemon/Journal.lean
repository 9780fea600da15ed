import Mathlib.Data.Set.Insert
import Trustd.Daemon.Refresh

/-
  The recorded changes as a journal of the roots in force.

  Key definitions include:
    * `Trustd.Audit.replay`
    * `Trustd.Audit.kindOf`
    * `Trustd.Daemon.Journaled`

  Key theorems include:
    * `Trustd.Audit.changes_exact`
    * `Trustd.Audit.replay_changes`
    * `Trustd.Daemon.run_journal`
-/

------------------------------------------------------------
-- One Comparison
------------------------------------------------------------

namespace Trustd

namespace Audit

open Store

/- A set of fingerprints after one recorded change. -/
def applyChange
    (served : Set Text)
    (change : Change × Entry) :
    Set Text :=
  match change.1 with
  | .added => insert change.2.parsed.fingerprint served
  | .removed => served \ {change.2.parsed.fingerprint}
  | .distrusted => served \ {change.2.parsed.fingerprint}

/- A set of fingerprints after a journal. -/
def replay
    (served : Set Text)
    (journal : List (Change × Entry)) :
    Set Text :=
  journal.foldl applyChange served

/- The fingerprints of some entries, as a set. -/
def served (entries : List Entry) : Set Text :=
  { f | f ∈ fingerprints entries }

/-
  What is to be recorded of one fingerprint, going from some
  entries to others under a list of distrusts.
-/
def kindOf
    (old new : List Entry)
    (distrust : List Text)
    (f : Text) :
    List Change :=
  if f ∈ fingerprints new then
    if f ∈ fingerprints old then [] else [.added]
  else if f ∈ fingerprints old then
    if f ∈ distrust.map normaliseFingerprint then
      [.distrusted]
    else [.removed]
  else []

/- The changes recorded of one fingerprint. -/
def recordedOf
    (f : Text)
    (changes : List (Change × Entry)) :
    List Change :=
  (changes.filter (fun c => c.2.parsed.fingerprint = f)).map
    Prod.fst

/- At most one entry has a fingerprint. -/
theorem filter_fingerprint
    {entries : List Entry}
    (hDistinct : (fingerprints entries).Nodup)
    (f : Text) :
    (entries.filter
        (fun e => e.parsed.fingerprint = f)).length =
      if f ∈ fingerprints entries then 1 else 0 := by
  rw [← hDistinct.count, fingerprints, List.count,
    List.countP_map, List.countP_eq_length_filter]
  congr 2
  funext e
  simp only [Function.comp_apply, beq_eq_decide]

/- What one of the two loops of `changes` records. -/
theorem recordedOf_filter
    {entries : List Entry}
    (hDistinct : (fingerprints entries).Nodup)
    (others : List Text)
    (kind : Text → Change)
    (f : Text) :
    recordedOf f ((entries.filter
        (fun e => e.parsed.fingerprint ∉ others)).map
          (fun e => (kind e.parsed.fingerprint, e))) =
      if f ∈ fingerprints entries ∧ f ∉ others then [kind f]
      else [] := by
  have hLength := filter_fingerprint hDistinct f
  rw [recordedOf, List.filter_map, List.map_map,
    List.filter_filter]
  by_cases hOthers : f ∈ others
  · rw [if_neg (fun h => h.2 hOthers),
      List.filter_eq_nil_iff.mpr, List.map_nil]
    intro e _ hBoth
    simp only [Function.comp_apply, Bool.and_eq_true,
      decide_eq_true_eq] at hBoth
    exact hBoth.2 (hBoth.1 ▸ hOthers)
  · have hFilter : entries.filter (fun e =>
        ((fun c : Change × Entry =>
            decide (c.2.parsed.fingerprint = f)) ∘
          fun e => (kind e.parsed.fingerprint, e)) e &&
            decide (e.parsed.fingerprint ∉ others)) =
        entries.filter
          (fun e => e.parsed.fingerprint = f) := by
      refine List.filter_congr (fun e _ => ?_)
      by_cases hEq : e.parsed.fingerprint = f
      · simp [hEq, hOthers]
      · simp [hEq]
    rw [hFilter]
    have hKinds : (entries.filter
        (fun e => e.parsed.fingerprint = f)).map
          (Prod.fst ∘ fun e =>
            (kind e.parsed.fingerprint, e)) =
        List.replicate (entries.filter
          (fun e => e.parsed.fingerprint = f)).length
            (kind f) := by
      refine List.eq_replicate_iff.mpr
        ⟨List.length_map _, fun k hk => ?_⟩
      rcases List.mem_map.mp hk with ⟨e, he, rfl⟩
      have hEq := of_decide_eq_true (List.mem_filter.mp he).2
      exact congrArg kind hEq
    rw [hKinds, hLength]
    by_cases hMem : f ∈ fingerprints entries
    · rw [if_pos hMem, if_pos ⟨hMem, hOthers⟩]
      rfl
    · rw [if_neg hMem, if_neg (fun h => hMem h.1)]
      rfl

/-
  A comparison records what entered and what left, once, and
  of nothing else anything.
-/
theorem changes_exact
    {old new : List Entry}
    (hOld : (fingerprints old).Nodup)
    (hNew : (fingerprints new).Nodup)
    (distrust : List Text)
    (f : Text) :
    recordedOf f (changes old new distrust) =
      kindOf old new distrust f := by
  have hDepartures : (fun e : Entry =>
      if e.parsed.fingerprint ∈
          distrust.map normaliseFingerprint then
        (Change.distrusted, e)
      else (Change.removed, e)) =
      fun e => (if e.parsed.fingerprint ∈
          distrust.map normaliseFingerprint then
        Change.distrusted else Change.removed, e) := by
    funext e
    split_ifs
    · rfl
    · rfl
  have hSplit : recordedOf f (changes old new distrust) =
      recordedOf f ((new.filter (fun e =>
          e.parsed.fingerprint ∉ fingerprints old)).map
            (fun e => (Change.added, e))) ++
        recordedOf f ((old.filter (fun e =>
          e.parsed.fingerprint ∉ fingerprints new)).map
            (fun e => (if e.parsed.fingerprint ∈
              distrust.map normaliseFingerprint then
                Change.distrusted else Change.removed, e))) := by
    rw [changes, hDepartures, recordedOf, List.filter_append,
      List.map_append]
    rfl
  rw [hSplit,
    recordedOf_filter hNew _ (fun _ => Change.added),
    recordedOf_filter hOld (fingerprints new)
      (fun f => if f ∈ distrust.map normaliseFingerprint then
        Change.distrusted else Change.removed), kindOf]
  by_cases hInNew : f ∈ fingerprints new
  · by_cases hInOld : f ∈ fingerprints old
    · simp [hInNew, hInOld]
    · simp [hInNew, hInOld]
  · by_cases hInOld : f ∈ fingerprints old
    · rw [if_neg (fun h => hInNew h.1),
        if_pos ⟨hInOld, hInNew⟩, if_neg hInNew, if_pos hInOld,
        List.nil_append]
      split_ifs
      · rfl
      · rfl
    · simp [hInNew, hInOld]

end Audit

end Trustd

------------------------------------------------------------
-- Replaying A Journal
------------------------------------------------------------

namespace Trustd

namespace Audit

open Store

theorem replay_append
    (set : Set Text)
    (a b : List (Change × Entry)) :
    replay set (a ++ b) = replay (replay set a) b :=
  List.foldl_append

/- Whether a fingerprint is served, as its changes leave it. -/
def present (before : Prop) : List Change → Prop
  | [] => before
  | .added :: rest => present True rest
  | .removed :: rest => present False rest
  | .distrusted :: rest => present False rest

/- Only its own changes bear on a fingerprint. -/
theorem mem_replay
    (set : Set Text)
    (journal : List (Change × Entry))
    (f : Text) :
    f ∈ replay set journal ↔
      present (f ∈ set) (recordedOf f journal) := by
  induction journal generalizing set with
  | nil => rfl
  | cons c rest ih =>
      rw [replay, List.foldl_cons]
      change f ∈ replay (applyChange set c) rest ↔ _
      rw [ih]
      rcases c with ⟨change, e⟩
      by_cases hEq : e.parsed.fingerprint = f
      · cases change with
        | added => simp [recordedOf, applyChange, hEq, present]
        | removed =>
            simp [recordedOf, applyChange, hEq, present]
        | distrusted =>
            simp [recordedOf, applyChange, hEq, present]
      · have hNe : f ≠ e.parsed.fingerprint := fun h =>
          hEq h.symm
        cases change with
        | added =>
            simp [recordedOf, applyChange, hEq, hNe]
        | removed =>
            simp [recordedOf, applyChange, hEq, hNe]
        | distrusted =>
            simp [recordedOf, applyChange, hEq, hNe]

/- Replaying a comparison leads from the old to the new. -/
theorem replay_changes
    {old new : List Entry}
    (hOld : (fingerprints old).Nodup)
    (hNew : (fingerprints new).Nodup)
    (distrust : List Text) :
    replay (served old) (changes old new distrust) =
      served new := by
  ext f
  rw [mem_replay, changes_exact hOld hNew, kindOf]
  change present (f ∈ fingerprints old) _ ↔
    f ∈ fingerprints new
  split_ifs with hInNew hInOld hInOld hDistrusted
  · exact ⟨fun _ => hInNew, fun _ => hInOld⟩
  · exact ⟨fun _ => hInNew, fun _ => trivial⟩
  · exact ⟨fun h => h.elim, fun h => absurd h hInNew⟩
  · exact ⟨fun h => h.elim, fun h => absurd h hInNew⟩
  · exact ⟨fun h => absurd h hInOld,
      fun h => absurd h hInNew⟩

end Audit

end Trustd

------------------------------------------------------------
-- What A Step Records
------------------------------------------------------------

namespace Trustd

namespace Daemon

open Audit Cert Control General Registry Render Store Wire

section

variable {κ : Type}
variable (out : Outside)

theorem announce_records
    (env : Env κ)
    (w : World) :
    (announce out env w).journal = w.journal ∧
      (announce out env w).daemon.composedOnce =
        w.daemon.composedOnce := by
  rcases announce_spec out env w with ⟨_, _, _, hEq, _⟩
  rw [hEq, publish_eq]
  exact ⟨rfl, rfl⟩

variable [Reader (Except IoError) κ]

/- What taking a composition over from a state records. -/
def recordedBy (s : State) (made : Option (Config × Composed)) :
    List (Change × Entry) :=
  match made with
  | some (fresh, composed) =>
      if s.composedOnce then
        changes s.composed.roots composed.roots fresh.distrust
      else []
  | none => []

omit [Reader (Except IoError) κ] in
theorem commit_records
    (composed : Composed)
    (w : World) :
    (commit composed w).journal = w.journal ++
      recordedBy w.daemon
        (some (w.daemon.config, composed)) := by
  simp only [commit, recordedBy]
  split_ifs
  · rfl
  · exact (List.append_nil _).symm

theorem refresh_records
    (env : Env κ)
    (w : World) :
    (refresh out env w).journal = w.journal ++
        recordedBy w.daemon (compositionOf out env) ∧
      (refresh out env w).daemon.composedOnce =
        (w.daemon.composedOnce ||
          (compositionOf out env).isSome) := by
  cases hComposition : compositionOf out env with
  | none =>
      rcases refresh_of_none out hComposition w with
        ⟨why, hEq | ⟨fresh, _, hEq⟩⟩
      · simp [hEq, degrade, recordedBy]
      · simp [hEq, degrade, adopt, recordedBy]
  | some made =>
      rcases made with ⟨fresh, composed⟩
      have hCommit : (commit composed
          (adopt out fresh env.stamp w)).journal =
            w.journal ++ recordedBy w.daemon
              (some (fresh, composed)) :=
        commit_records composed (adopt out fresh env.stamp w)
      rw [refresh_of_some out hComposition]
      split_ifs
      · exact ⟨hCommit, by simp [commit]⟩
      · rw [(announce_records out env _).1,
          (announce_records out env _).2]
        exact ⟨hCommit, by simp [commit]⟩

theorem step_records
    (w : World)
    (e : Event κ) :
    (step out w e).journal = w.journal ++
        recordedBy w.daemon (composedBy out w e) ∧
      (step out w e).daemon.composedOnce =
        (w.daemon.composedOnce ||
          (composedBy out w e).isSome) := by
  have hEffect := step_effect out w e
  generalize step out w e = w' at hEffect
  cases hEffect with
  | refreshed env => exact refresh_records out env w
  | reloaded env x hPermits _ =>
      have hMade : composedBy out w
          (.request env x.stream .reload) =
            compositionOf out env := by
        simp [composedBy, refreshOf, hPermits]
      rw [hMade]
      exact refresh_records out env w
  | answered env stream request hOther _ _ _ =>
      simp [composedBy, hOther, recordedBy,
        World.withSubscribers]
  | departed position =>
      simp [composedBy, refreshOf, recordedBy,
        World.withSubscribers]

end

end Daemon

end Trustd

------------------------------------------------------------
-- The Journal Of A Run
------------------------------------------------------------

namespace Trustd

namespace Daemon

open Audit Cert Control General Registry Render Store Wire

section

variable {κ : Type}
variable [Reader (Except IoError) κ]
variable (out : Outside)

/- The roots of the first refresh that composed. -/
def baseline (refreshes : List (Env κ)) : List Entry :=
  match refreshes.findSome? (compositionOf out) with
  | some (_, composed) => composed.roots
  | none => []

/- What is served is what replaying the journal leads to. -/
structure Journaled (w : World) (refreshes : List (Env κ)) :
    Prop where
  once : w.daemon.composedOnce =
    (refreshes.findSome? (compositionOf out)).isSome
  distinct : (fingerprints w.daemon.composed.roots).Nodup
  exact : served w.daemon.composed.roots =
    replay (served (baseline out refreshes)) w.journal
  none : w.daemon.composedOnce = false → w.journal = []

variable {out}

theorem distinct_of_composedBy
    {w : World}
    {e : Event κ}
    {fresh : Config}
    {composed : Composed}
    (hMade : composedBy out w e = some (fresh, composed)) :
    (fingerprints composed.roots).Nodup := by
  rcases Option.bind_eq_some_iff.mp hMade with
    ⟨env, _, hComposition⟩
  rcases compositionOf_eq_some out hComposition with
    ⟨shipped, _, _, hCompose⟩
  exact (compose_sound hCompose).1.distinct

/- The first composition of a run stays its first. -/
theorem findSome_append
    (out : Outside)
    (refreshes : List (Env κ))
    (w : World)
    (e : Event κ) :
    (refreshes ++ refreshesOf out w e).findSome?
        (compositionOf out) =
      (refreshes.findSome? (compositionOf out)).or
        (composedBy out w e) := by
  rw [List.findSome?_append, composedBy, refreshesOf]
  rcases refreshOf out w e with _ | env
  · rfl
  · rcases hMade : compositionOf out env with _ | made
    · simp [hMade]
    · simp [hMade]

theorem step_journaled
    {w : World}
    {refreshes : List (Env κ)}
    (hJournaled : Journaled out w refreshes)
    (e : Event κ) :
    Journaled out (step out w e)
      (refreshes ++ refreshesOf out w e) := by
  have hComposed := composed_step out w e
  rcases step_records out w e with ⟨hJournal, hOnce⟩
  have hFirst := findSome_append out refreshes w e
  cases hMade : composedBy out w e with
  | none =>
      rw [hMade] at hComposed hJournal hOnce hFirst
      simp only [recordedBy, List.append_nil] at hJournal
      simp only [Option.isSome_none, Bool.or_false] at hOnce
      rw [Option.or_none] at hFirst
      refine ⟨?_, ?_, ?_, ?_⟩
      · rw [hOnce, hFirst, hJournaled.once]
      · rw [hComposed]
        exact hJournaled.distinct
      · rw [hComposed, hJournal, baseline, hFirst]
        exact hJournaled.exact
      · rw [hOnce, hJournal]
        exact hJournaled.none
  | some made =>
      rcases made with ⟨fresh, composed⟩
      rw [hMade] at hComposed hJournal hOnce hFirst
      have hNew := distinct_of_composedBy hMade
      simp only [Option.isSome_some, Bool.or_true] at hOnce
      refine ⟨?_, ?_, ?_, ?_⟩
      · rw [hOnce, hFirst]
        simp
      · rw [hComposed]
        exact hNew
      · rw [hComposed, hJournal, baseline, hFirst, recordedBy]
        cases hOnce' : w.daemon.composedOnce with
        | false =>
            -- The first composition is what all counts from.
            have hNone := hJournaled.once.symm.trans hOnce'
            rw [Option.isSome_eq_false_iff,
              Option.isNone_iff_eq_none] at hNone
            rw [hNone, hJournaled.none hOnce']
            rfl
        | true =>
            have hSome := hJournaled.once.symm.trans hOnce'
            rcases Option.isSome_iff_exists.mp hSome with
              ⟨first, hFirst'⟩
            have hExact := hJournaled.exact
            rw [baseline, hFirst'] at hExact
            rw [hFirst', if_pos rfl, replay_append]
            refine (replay_changes hJournaled.distinct hNew
              fresh.distrust).symm.trans ?_
            rw [hExact]
            rfl
      · intro hFalse
        cases hOnce.symm.trans hFalse

/-
  Over any run, replaying the journal from the set composed
  first leads to the set served. Each step records of each
  fingerprint exactly what became of it: nothing before there
  has been a composition or where none is made, and else that
  it entered, or that it left and whether the distrusts the
  new set was composed under name it.
-/
theorem run_journal
    (out : Outside)
    (config : Config)
    (host : Host)
    (events : List (Event κ))
    (e : Event κ) :
    let refreshes := refreshesAlong out config host events
    let w := run (step out) (boot out config host) events
    let w' := step out w e
    served w.daemon.composed.roots =
        replay (served (baseline out refreshes)) w.journal ∧
      ∃ new, w'.journal = w.journal ++ new ∧
        (latest out refreshes = none → new = []) ∧
        (composedBy out w e = none → new = []) ∧
        ∀ first, latest out refreshes = some first →
          ∀ fresh composed,
            composedBy out w e = some (fresh, composed) →
            ∀ f, recordedOf f new =
              kindOf w.daemon.composed.roots composed.roots
                fresh.distrust f := by
  intro refreshes w w'
  have hStart : Journaled out (boot out config host)
      ([] : List (Env κ)) :=
    ⟨rfl, by simp [boot, fingerprints], rfl,
      fun _ => rfl⟩
  have hJournaled : Journaled out w refreshes :=
    run_invariant hStart
      (fun _ _ e h => step_journaled h e) events
  have hOnce : w.daemon.composedOnce =
      (latest out refreshes).isSome := by
    rw [hJournaled.once, latest, Bool.eq_iff_iff,
      List.isSome_findSome?, List.isSome_findSome?,
      List.any_reverse]
  refine ⟨hJournaled.exact, recordedBy w.daemon
    (composedBy out w e), (step_records out w e).1, ?_, ?_, ?_⟩
  · intro hNone
    rw [hNone] at hOnce
    rcases composedBy out w e with _ | made
    · rfl
    · exact if_neg (by simp [hOnce])
  · intro hNone
    rw [hNone]
    rfl
  · intro first hFirst fresh composed hMade f
    have hTrue : w.daemon.composedOnce = true := by
      rw [hOnce, hFirst]
      rfl
    rw [hMade, recordedBy, if_pos hTrue]
    exact changes_exact hJournaled.distinct
      (distinct_of_composedBy hMade) fresh.distrust f

end

end Daemon

end Trustd
