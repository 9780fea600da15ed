import Trustd.Daemon.Rendered
import Trustd.Daemon.Refresh

/-
  What the daemon's health says of the files on the disk.

  A refresh that judges the store unchanged renders nothing,
  so what is on the disk depends on every refresh before it.

  Key definitions include:
    * `Trustd.Daemon.Renders`
    * `Trustd.Daemon.Sure`
    * `Trustd.Daemon.Settled`

  Key theorems include:
    * `Trustd.Daemon.refresh_settled`
    * `Trustd.Daemon.run_rendered`
-/

------------------------------------------------------------
-- Refreshes That Can Be Believed
------------------------------------------------------------

namespace Trustd

namespace Daemon

open Cert Control General Registry Render Store Wire

section

variable {κ : Type}
variable [Reader (Except IoError) κ]
variable (out : Outside)

/-
  A refresh composes a set under a configuration, and it is
  not what is out already.
-/
def Renders
    (w : World)
    (env : Env κ)
    (fresh : Config)
    (composed : Composed) :
    Prop :=
  compositionOf out env = some (fresh, composed) ∧
    ¬ ((composed.roots = w.daemon.composed.roots ∧
      w.daemon.health = .ok) ∧ fresh = w.daemon.config)

/-
  The calls of the refresh an event sets off tell the truth,
  and where it renders the stat of the directory to be
  emptied does not fail over something that then stays.
-/
def Sure (w : World) (e : Event κ) : Prop :=
  ∀ env, refreshOf out w e = some env →
    (∀ k, Honest (env.faults k)) ∧
      ∀ fresh composed, Renders out w env fresh composed →
        ¬ Misled composed fresh.compat env.faults w.host

end

/- Whether there are roots before any refresh. -/
def Begun {ω : Type} (w : World) (refreshes : List ω) : Prop :=
  refreshes = [] → w.daemon.composed.roots = []

/- Good health is only claimed of files that are right. -/
structure Settled {ω : Type} (w : World) (refreshes : List ω) :
    Prop where
  recorded : Recorded w.host
  message : w.daemon.message.isSome = true ↔
    w.daemon.health = .degraded
  begun : Begun w refreshes
  rendered : refreshes ≠ [] → w.daemon.health = .ok →
    Matches w.daemon.composed w.daemon.config.compat w.host

/- Only the roots of a composition are rendered. -/
theorem matches_congr
    {a b : Composed}
    (hRoots : a.roots = b.roots)
    (compat : Compat)
    (h : Host) :
    Matches a compat h ↔ Matches b compat h := by
  cases compat with
  | none => rfl
  | files =>
      simp only [Matches, Installed, renderingOf, bundleBytes,
        hRoots]
  | live =>
      simp only [Matches, Installed, renderingOf, bundleBytes,
        hRoots]

section

variable {κ : Type}
variable [Reader (Except IoError) κ]
variable {out : Outside}
variable {ω : Type}
variable {w : World}
variable {log : List ω}

/- A refresh that composes nothing gives up the good health. -/
theorem refresh_settled_none
    (hSettled : Settled w log)
    {env : Env κ}
    (hNone : compositionOf out env = none)
    (seen : ω) :
    Settled (refresh out env w) (log ++ [seen]) := by
  have hDegraded : ∀ why w', w'.host = w.host →
      Settled (degrade why w') (log ++ [seen]) := by
    intro why w' hHost
    refine ⟨?_, by simp [degrade], by simp [Begun], ?_⟩
    · exact hHost ▸ hSettled.recorded
    · intro _ hOk
      cases hOk
  rcases refresh_of_none out hNone w with
    ⟨why, hEq | ⟨fresh, _, hEq⟩⟩
  · rw [hEq]
    exact hDegraded why w rfl
  · rw [hEq]
    exact hDegraded why _ rfl

/- Rendering a composition that took effect. -/
omit [Reader (Except IoError) κ] in
theorem announce_settled
    {w : World}
    (hRecorded : Recorded w.host)
    (hOk : w.daemon.health = .ok)
    (hMessage : w.daemon.message = none)
    {env : Env κ}
    (hHonest : ∀ k, Honest (env.faults k))
    (hProbe : ¬ Misled w.daemon.composed
      w.daemon.config.compat env.faults w.host)
    (seen : ω) :
    Settled (announce out env w) (log ++ [seen]) := by
  rcases render_matches hRecorded w.daemon.composed
      w.daemon.config.compat hHonest hProbe with
    ⟨hRecorded', hMatches⟩
  rcases announce_leaves out env w with
    ⟨hComposed, hConfig, _, hHost, hResult⟩
  rcases hRun : (render w.daemon.composed
      w.daemon.config.compat
      (Machine.start w.host env.faults)).1 with e | paths
  · rw [hRun] at hResult
    refine ⟨hHost ▸ hRecorded', ?_, by simp [Begun], ?_⟩
    · exact ⟨fun _ => hResult.1, fun _ => hResult.2⟩
    · intro _ hHealth
      cases hResult.1.symm.trans hHealth
  · rw [hRun] at hResult hMatches
    refine ⟨hHost ▸ hRecorded', ?_, by simp [Begun], ?_⟩
    · rw [hResult.1, hResult.2, hOk, hMessage]
      simp
    · intro _ _
      rw [hComposed, hConfig, hHost]
      exact hMatches

/-
  A refresh that composes either renders or, being skipped,
  finds the files as the last one left them.
-/
theorem refresh_settled
    (hSettled : Settled w log)
    {env : Env κ}
    (hHonest : ∀ k, Honest (env.faults k))
    (hProbe : ∀ fresh composed,
      Renders out w env fresh composed →
        ¬ Misled composed fresh.compat env.faults w.host)
    (seen : ω) :
    Settled (refresh out env w) (log ++ [seen]) := by
  cases hComposition : compositionOf out env with
  | none => exact refresh_settled_none hSettled hComposition seen
  | some made =>
      rcases made with ⟨fresh, composed⟩
      rw [refresh_of_some out hComposition]
      by_cases hSkip : (composed.roots = w.daemon.composed.roots
          ∧ w.daemon.health = .ok) ∧ fresh = w.daemon.config
      · rw [if_pos hSkip]
        rcases hSkip with ⟨⟨hRoots, hOk⟩, rfl⟩
        refine ⟨hSettled.recorded, by simp [commit], by
          simp [Begun], fun _ _ => ?_⟩
        rcases compositionOf_eq_some out hComposition with
          ⟨_, _, _, hCompose⟩
        -- What is served is not empty, so it was rendered.
        have hBegun : log ≠ [] := fun hNil =>
          compose_roots_ne_nil hCompose
            (hRoots.trans (hSettled.begun hNil))
        exact (matches_congr hRoots _ _).mpr
          (hSettled.rendered hBegun hOk)
      · rw [if_neg hSkip]
        exact announce_settled
          (w := commit composed (adopt out fresh env.stamp w))
          hSettled.recorded rfl rfl hHonest
          (hProbe fresh composed ⟨hComposition, hSkip⟩) seen

/- One event keeps what the health says true. -/
theorem step_settled
    {refreshes : List (Env κ)}
    {e : Event κ}
    (hSettled : Settled w refreshes)
    (hSure : Sure out w e) :
    Settled (step out w e)
      (refreshes ++ refreshesOf out w e) := by
  have hEffect := step_effect out w e
  generalize step out w e = w' at hEffect
  cases hEffect with
  | refreshed env =>
      rcases hSure env rfl with ⟨hHonest, hProbe⟩
      exact refresh_settled hSettled hHonest hProbe env
  | reloaded env x hPermits _ =>
      have hRefresh : refreshOf out w
          (.request env x.stream .reload) = some env := by
        simp [refreshOf, hPermits]
      rcases hSure env hRefresh with ⟨hHonest, hProbe⟩
      have hNext := refresh_settled hSettled hHonest hProbe env
      rw [refreshesOf, hRefresh]
      exact ⟨hNext.recorded, hNext.message, hNext.begun,
        hNext.rendered⟩
  | answered env stream request hOther _ _ _ =>
      rw [refreshesOf, hOther, Option.toList_none,
        List.append_nil]
      exact ⟨hSettled.recorded, hSettled.message,
        hSettled.begun, hSettled.rendered⟩
  | departed position =>
      have hOther : refreshOf out w
        (.depart position : Event κ) = none := rfl
      rw [refreshesOf, hOther, Option.toList_none,
        List.append_nil]
      exact ⟨hSettled.recorded, hSettled.message,
        hSettled.begun, hSettled.rendered⟩

end

section

variable {κ : Type}
variable [Reader (Except IoError) κ]
variable (out : Outside)

/- Refreshes that can be believed keep the health settled. -/
theorem run_settled
    (config : Config)
    {host : Host}
    (hStart : host.installed = host.disk.node certsName)
    {events : List (Event κ)}
    (hSure : Along (step out) (Sure out)
      (boot out config host) events) :
    Settled (run (step out) (boot out config host) events)
      (refreshesAlong out config host events) :=
  run_invariant_along
    ⟨noted_of_installed hStart, by simp [boot],
      fun _ => rfl, fun hNe => absurd rfl hNe⟩
    (fun w log e hSure hSettled =>
      step_settled hSettled hSure) hSure

/-
  In every run whose refreshes can be believed, there is a
  message exactly when the health is degraded, and once there
  has been a refresh, good health means that the files are the
  rendering of what is served under the mode in force.
-/
theorem run_rendered
    (config : Config)
    {host : Host}
    (hStart : host.installed = host.disk.node certsName)
    {events : List (Event κ)}
    (hSure : Along (step out) (Sure out)
      (boot out config host) events) :
    let w := run (step out) (boot out config host) events
    (w.daemon.message.isSome = true ↔
        w.daemon.health = .degraded) ∧
      (refreshesAlong out config host events ≠ [] →
        w.daemon.health = .ok →
        Matches w.daemon.composed w.daemon.config.compat
          w.host) := by
  have hRun := run_settled out config hStart hSure
  exact ⟨hRun.message, hRun.rendered⟩

end

/- A registry that asks for no files. -/
def offRegistry : Key :=
  .mk [(Text.utf8 compatValue,
    { ty := .dword, data := [0, 0, 0, 0] })] []

/-
  The daemon after one refresh without files, on a host with
  a directory from before.
-/
def afterOff (faults : Nat → Fault) : World :=
  run (step purposeOutside)
    (boot purposeOutside {} sampleHost)
    [.refresh (purposeEnv offRegistry faults (fun _ => 0))]

theorem load_offRegistry
    (faults : Nat → Fault)
    (room : Stream → Nat) :
    (purposeEnv offRegistry faults room).load =
      .ok { compat := .none } := by
  have hLoad : Registry.loadFrom (m := Except IoError)
      (some offRegistry) = .ok { compat := .none } := by
    decide +kernel
  exact hLoad

/- The shipped certificate composes. -/
theorem compositionOf_offRegistry
    (faults : Nat → Fault)
    (room : Stream → Nat) :
    ∃ composed, compositionOf purposeOutside
        (purposeEnv offRegistry faults room) =
          some ({ compat := .none }, composed) := by
  have hAny : (composeFrom purposeCrates
      (List.replicate minimumShipped purposeShipped) [] []
        none).toOption.any (fun _ => true) = true := by
    decide +kernel
  rcases exists_compose_purposeBundle hAny with
    ⟨composed, hCompose, _⟩
  exact ⟨composed, compositionOf_of_ok _
    (load_offRegistry faults room) rfl hCompose⟩

/- Where the render without files succeeds, all looks well. -/
theorem afterOff_ok
    (faults : Nat → Fault)
    (hRender : (renderNone
      (Machine.start sampleHost faults)).1 = .ok []) :
    (afterOff faults).daemon.health = .ok ∧
      (afterOff faults).daemon.config.compat = .none ∧
      (afterOff faults).host = (renderNone
        (Machine.start sampleHost faults)).2.state := by
  rcases compositionOf_offRegistry faults (fun _ => 0) with
    ⟨composed, hComposition⟩
  rcases compositionOf_eq_some _ hComposition with
    ⟨_, _, _, hCompose⟩
  have hAfter : afterOff faults = announce purposeOutside
      (purposeEnv offRegistry faults (fun _ => 0))
      (commit composed (adopt purposeOutside
        { compat := .none } none
        (boot purposeOutside {} sampleHost))) := by
    have hRefresh := refresh_of_new purposeOutside
      hComposition (w := boot purposeOutside {} sampleHost)
      (fun h => compose_roots_ne_nil hCompose h.1.1)
    rw [afterOff, run_cons, run_nil, step]
    exact hRefresh
  rcases announce_leaves purposeOutside
      (purposeEnv offRegistry faults (fun _ => 0))
      (commit composed (adopt purposeOutside
        { compat := .none } none
        (boot purposeOutside {} sampleHost))) with
    ⟨_, hConfig, _, hHost, hResult⟩
  rw [hAfter]
  refine ⟨?_, congrArg Config.compat hConfig, hHost⟩
  have hHealth := health_announce_of_ok purposeOutside
    (purposeEnv offRegistry faults (fun _ => 0))
    (commit composed (adopt purposeOutside
      { compat := .none } none
      (boot purposeOutside {} sampleHost))) hRender
  exact hHealth

/- Every call goes well. -/
theorem run_rendered_off :
    (afterOff (fun _ => {})).daemon.health = .ok ∧
      Matches (afterOff (fun _ => {})).daemon.composed .none
        (afterOff (fun _ => {})).host := by
  have hSure : Along (step purposeOutside)
      (Sure purposeOutside)
      (boot purposeOutside {} sampleHost)
      [.refresh (purposeEnv offRegistry (fun _ => {})
        (fun _ => 0))] := by
    refine ⟨fun env hEnv => ?_, trivial⟩
    cases hEnv
    refine ⟨fun k e he => ?_, fun fresh composed _ hMisled =>
      ?_⟩
    · cases he
    · cases hMisled.2.1
  have hNone : sampleHost.installed =
      sampleHost.disk.node certsName := rfl
  have hRendered := run_rendered purposeOutside {}
    hNone hSure
  rcases afterOff_ok (fun _ => {}) (by decide +kernel)
    with ⟨hOk, hCompat, _⟩
  have hMatches := hRendered.2 (by simp [refreshesAlong,
    observed, refreshesOf, refreshOf]) hOk
  change Matches _ (afterOff (fun _ => {})).daemon.config.compat
    _ at hMatches
  rw [hCompat] at hMatches
  exact ⟨hOk, hMatches⟩

/- Calls that go well but for the stat of `certs`. -/
def certsUnseen (k : Nat) : Fault :=
  { statFails := k == 1 }

/- The stat of `certs` fails, and the files in it stay. -/
theorem afterOff_stale :
    (afterOff certsUnseen).daemon.health = .ok ∧
      ¬ Matches (afterOff certsUnseen).daemon.composed
        (afterOff certsUnseen).daemon.config.compat
        (afterOff certsUnseen).host := by
  rcases afterOff_ok certsUnseen
    (by decide +kernel) with ⟨hOk, hCompat, hHost⟩
  refine ⟨hOk, ?_⟩
  have hCerts : (renderNone (Machine.start sampleHost
      certsUnseen)).2.state.disk.node certsName =
        sampleStore.node certsName := by
    decide +kernel
  rw [hCompat, hHost]
  rintro ⟨_, hNone | ⟨dirId, hDir⟩⟩
  · cases hCerts.symm.trans hNone
  · cases hCerts.symm.trans hDir

end Daemon

end Trustd
