import Mathlib.Logic.Function.Iterate
import Trustd.Daemon.Health

/-
  Refreshes that change nothing.

  Key definitions include:
    * `Trustd.Daemon.Quiet`

  Key theorems include:
    * `Trustd.Audit.changes_self`
    * `Trustd.Daemon.refresh_again`
    * `Trustd.Daemon.refresh_quiet_iff`
-/

------------------------------------------------------------
-- Nothing Changed
------------------------------------------------------------

namespace Trustd

namespace Audit

open Store

/- Nothing is recorded of a set that is what it was. -/
theorem changes_self
    (entries : List Entry)
    (distrust : List Text) :
    changes entries entries distrust = [] := by
  have hNone : entries.filter (fun e =>
      e.parsed.fingerprint ∉ fingerprints entries) = [] := by
    rw [List.filter_eq_nil_iff]
    intro e he hNot
    exact of_decide_eq_true hNot (List.mem_map_of_mem he)
  unfold changes
  rw [hNone]
  rfl

end Audit

namespace Daemon

open Audit Cert Control General Registry Render Store Wire

/-
  No file is written, nothing is sent, nothing is recorded
  and the generation stays.
-/
structure Quiet (w w' : World) : Prop where
  host : w'.host = w.host
  outbox : w'.outbox = w.outbox
  journal : w'.journal = w.journal
  generation : w'.daemon.generation = w.daemon.generation

section

variable {κ : Type}
variable [Reader (Except IoError) κ]
variable (out : Outside)
variable {env : Env κ}
variable {fresh : Config}
variable {composed : Composed}
variable {w : World}

/- With the configuration in force nothing is announced. -/
theorem refresh_of_same
    (hSome : compositionOf out env = some (fresh, composed))
    (hRoots : composed.roots = w.daemon.composed.roots)
    (hHealth : w.daemon.health = .ok)
    (hSame : fresh = w.daemon.config) :
    refresh out env w =
      commit composed (adopt out fresh env.stamp w) := by
  rw [refresh_of_some out hSome,
    if_pos ⟨⟨hRoots, hHealth⟩, hSame⟩]

omit [Reader (Except IoError) κ] in
theorem quiet_commit
    (hRoots : composed.roots = w.daemon.composed.roots) :
    Quiet w (commit composed (adopt out fresh env.stamp w)) := by
  refine ⟨rfl, rfl, ?_, rfl⟩
  unfold commit
  dsimp only
  rw [adopt_composed, hRoots, changes_self, List.append_nil]
  split_ifs
  · rfl
  · rfl

/- What was committed is committed again without a trace. -/
theorem refresh_again
    (hSome : compositionOf out env = some (fresh, composed)) :
    refresh out env
        (commit composed (adopt out fresh env.stamp w)) =
      commit composed (adopt out fresh env.stamp w) := by
  rw [refresh_of_same out hSome rfl rfl rfl]
  have hControl : adopt out fresh env.stamp
      (commit composed (adopt out fresh env.stamp w)) =
        commit composed (adopt out fresh env.stamp w) := by
    unfold adopt commit
    simp only [ne_eq, not_true_eq_false, if_false]
  rw [hControl]
  unfold commit
  simp only [changes_self, List.append_nil, if_true]

/- However often it is repeated. -/
theorem refresh_repeated
    (hSome : compositionOf out env = some (fresh, composed))
    (hRoots : composed.roots = w.daemon.composed.roots)
    (hHealth : w.daemon.health = .ok)
    (hSame : fresh = w.daemon.config)
    (n : Nat) :
    (refresh out env)^[n + 1] w = refresh out env w := by
  have hOnce := refresh_of_same out hSome hRoots hHealth hSame
  rw [Function.iterate_succ_apply, hOnce]
  exact Function.iterate_fixed (refresh_again out hSome) n

/- Any other configuration makes a new generation. -/
theorem refresh_of_changed
    (hSome : compositionOf out env = some (fresh, composed))
    (hChanged : fresh ≠ w.daemon.config) :
    (refresh out env w).daemon.generation =
      w.daemon.generation + 1 := by
  rw [refresh_of_new out hSome (fun h => hChanged h.2)]
  exact (announce_leaves out env
    (commit composed (adopt out fresh env.stamp w))).2.2.1

/-
  In good health, a refresh that composes the roots that are
  served under the mode in force changes nothing, and neither
  does repeating it, if and only if the additions, the
  distrusts and the control object's descriptor that it reads
  are those in force.
-/
theorem refresh_quiet_iff
    (hHealth : w.daemon.health = .ok)
    (hSome : compositionOf out env = some (fresh, composed))
    (hRoots : composed.roots = w.daemon.composed.roots)
    (hMode : fresh.compat = w.daemon.config.compat) :
    (Quiet w (refresh out env w) ∧
      ∀ n, (refresh out env)^[n + 1] w = refresh out env w) ↔
    fresh.additions = w.daemon.config.additions ∧
      fresh.distrust = w.daemon.config.distrust ∧
      fresh.controlSecurity =
        w.daemon.config.controlSecurity := by
  have hConfig : fresh = w.daemon.config ↔
      fresh.additions = w.daemon.config.additions ∧
        fresh.distrust = w.daemon.config.distrust ∧
        fresh.controlSecurity =
          w.daemon.config.controlSecurity := by
    generalize w.daemon.config = config at hMode
    rcases fresh with ⟨additions, distrust, compat, security⟩
    rcases config with ⟨additions', distrust', _, security'⟩
    cases hMode
    simp only [Config.mk.injEq, true_and]
  rw [← hConfig]
  constructor
  · rintro ⟨hQuiet, -⟩
    by_contra hChanged
    have hNext := refresh_of_changed out hSome hChanged
    rw [hQuiet.generation] at hNext
    omega
  · intro hSame
    refine ⟨?_, fun n =>
      refresh_repeated out hSome hRoots hHealth hSame n⟩
    rw [refresh_of_same out hSome hRoots hHealth hSame]
    exact quiet_commit out hRoots

end

end Daemon

end Trustd

------------------------------------------------------------
-- A Descriptor That Changed
------------------------------------------------------------

namespace Trustd

namespace Daemon

open Audit Cert Control General Registry Render Store Wire

/- A daemon in good health that serves a set, without files. -/
def servingOff (composed : Composed) : World :=
  { daemon := {
      config := { compat := .none }
      control := []
      composed }
    host := sampleHost }

/- What is read at every turn of a timer, say. -/
def quietEnv : Env Key :=
  purposeEnv offRegistry (fun _ => {}) (fun _ => 0)

theorem refresh_quiet_off :
    ∃ composed,
      compositionOf purposeOutside quietEnv =
        some ({ compat := .none }, composed) ∧
      Quiet (servingOff composed) (refresh purposeOutside quietEnv
        (servingOff composed)) ∧
      ∀ n, (refresh purposeOutside quietEnv)^[n + 1]
          (servingOff composed) =
        refresh purposeOutside quietEnv (servingOff composed) := by
  rcases compositionOf_offRegistry (fun _ => {}) (fun _ => 0)
    with ⟨composed, hSome⟩
  exact ⟨composed, hSome, (refresh_quiet_iff purposeOutside
    (w := servingOff composed) rfl hSome rfl rfl).mpr
    ⟨rfl, rfl, rfl⟩⟩

/- The same registry with a descriptor for the control object. -/
def securedRegistry : Key :=
  .mk [(Text.utf8 compatValue,
      { ty := .dword, data := [0, 0, 0, 0] }),
    (Text.utf8 controlSecurityValue,
      { ty := .binary, data := [1] })] []

def securedEnv : Env Key :=
  purposeEnv securedRegistry (fun _ => {}) (fun _ => 0)

/- Only the descriptor changed, and a generation is announced. -/
theorem refresh_not_quiet_secured :
    ∃ composed,
      compositionOf purposeOutside securedEnv =
        some ({ compat := .none
                controlSecurity := some [1] }, composed) ∧
      (servingOff composed).daemon.health = .ok ∧
      ¬ Quiet (servingOff composed)
        (refresh purposeOutside securedEnv
          (servingOff composed)) := by
  have hLoad : Registry.loadFrom (m := Except IoError)
      (some securedRegistry) = .ok
        { compat := .none, controlSecurity := some [1] } := by
    decide +kernel
  rcases compositionOf_offRegistry (fun _ => {}) (fun _ => 0)
    with ⟨composed, hOff⟩
  rcases compositionOf_eq_some _ hOff with
    ⟨shipped, -, hBundle, hCompose⟩
  have hSome : compositionOf purposeOutside securedEnv =
      some ({ compat := .none
              controlSecurity := some [1] }, composed) :=
    compositionOf_of_ok purposeOutside hLoad hBundle hCompose
  refine ⟨composed, hSome, rfl, fun hQuiet => ?_⟩
  have hNext := refresh_of_changed purposeOutside
    (w := servingOff composed) hSome (fun hSame =>
      Option.some_ne_none _
        (congrArg Config.controlSecurity hSame))
  rw [hQuiet.generation] at hNext
  omega

end Daemon

end Trustd
