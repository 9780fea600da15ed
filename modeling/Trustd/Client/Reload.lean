import Trustd.Daemon.Reads
import Trustd.Daemon.Watch

/-
  Who may reload the daemon: what a client works out for
  itself, and what the daemon enforces.

  Key definitions include:
    * `Trustd.ClientCore.mayReload`
    * `Trustd.ClientCore.ReadAlike`
    * `Trustd.Daemon.Enforcing`

  Key theorems include:
    * `Trustd.Daemon.run_enforcing`
    * `Trustd.ClientCore.evaluated_eq_iff`
    * `Trustd.ClientCore.mayReload_iff`
-/

------------------------------------------------------------
-- What Is Enforced
------------------------------------------------------------

namespace Trustd

namespace Daemon

open Control General Registry Render Store Wire

section

variable {κ : Type}
variable [Reader (Except IoError) κ]
variable (out : Outside)

/- The control object is that of the configuration in force. -/
def Enforcing (w : World) : Prop :=
  w.daemon.control =
    controlObject out w.daemon.config.controlSecurity

variable {out}

/- A configuration that is not new has the same object. -/
theorem adopt_enforcing
    {w : World}
    (hEnforcing : Enforcing out w)
    (fresh : Config)
    (stamp : Option (Nat × Int)) :
    Enforcing out (adopt out fresh stamp w) := by
  change (if fresh ≠ w.daemon.config then
      controlObject out fresh.controlSecurity
    else w.daemon.control) =
      controlObject out fresh.controlSecurity
  by_cases hNew : fresh ≠ w.daemon.config
  · rw [if_pos hNew]
  · rw [if_neg hNew, not_not.mp hNew]
    exact hEnforcing

/- Rendering and handing out touch neither of the two. -/
omit [Reader (Except IoError) κ] in
theorem announce_enforcing
    (env : Env κ)
    {w : World}
    (hEnforcing : Enforcing out w) :
    Enforcing out (announce out env w) := by
  rcases announce_spec out env w with ⟨_, _, _, hEq, -⟩
  rw [hEq, publish_eq]
  exact hEnforcing

theorem refresh_enforcing
    (env : Env κ)
    {w : World}
    (hEnforcing : Enforcing out w) :
    Enforcing out (refresh out env w) := by
  cases hMade : compositionOf out env with
  | none =>
      rcases refresh_of_none out hMade w with
        ⟨why, hEq | ⟨fresh, -, hEq⟩⟩
      · rw [hEq]
        exact hEnforcing
      · rw [hEq]
        exact adopt_enforcing hEnforcing fresh env.stamp
  | some made =>
      rcases made with ⟨fresh, composed⟩
      have hAdopted :=
        adopt_enforcing hEnforcing fresh env.stamp
      rw [refresh_of_some out hMade]
      split_ifs
      · exact hAdopted
      · exact announce_enforcing env
          (w := commit composed (adopt out fresh env.stamp w))
          hAdopted

theorem step_enforcing
    {w : World}
    (hEnforcing : Enforcing out w)
    (e : Event κ) :
    Enforcing out (step out w e) := by
  have hEffect := step_effect out w e
  generalize step out w e = w' at hEffect
  cases hEffect with
  | refreshed env => exact refresh_enforcing env hEnforcing
  | reloaded env x hPermits hReply =>
      exact refresh_enforcing env hEnforcing
  | answered env stream request hOther subscribers new hNew =>
      exact hEnforcing
  | departed position => exact hEnforcing

/- The object is never that of another configuration. -/
theorem run_enforcing
    (config : Config)
    (host : Host)
    (events : List (Event κ)) :
    Enforcing out
      (run (step out) (boot out config host) events) := by
  have hBoot : Enforcing out (boot out config host) := rfl
  exact run_preserves (I := Enforcing out)
    (fun _ e hEnforcing => step_enforcing hEnforcing e) hBoot
    events

end

end Daemon

end Trustd

------------------------------------------------------------
-- The Check Of A Client
------------------------------------------------------------

namespace Trustd

namespace ClientCore

open Daemon Registry Wire

section

variable {κ : Type}
variable [Reader (Except IoError) κ]
variable (out : Outside)

/- `Key::open` and `query_value`, whose errors are dropped. -/
def queried (root : Except IoError (Option κ)) :
    Option RegValue :=
  match root with
  | .ok (some key) =>
      match (Reader.value key controlSecurityValue :
          Except IoError (Option RegValue)) with
      | .ok value => value
      | .error _ => none
  | _ => none

/- The descriptor that `may_reload` evaluates. -/
def evaluated (root : Except IoError (Option κ)) : Bytes :=
  ((queried root).bind (fun value =>
    if out.validDescriptor value.data then some value.data
    else none)).getD out.defaultDescriptor

/- `may_reload`, by the caller whose token it is. -/
def mayReload
    (root : Except IoError (Option κ))
    (caller : Control.Stream) :
    Bool :=
  out.allows (evaluated out root) caller trustControl

/-
  A value the two sides make the same of: one the daemon takes
  too, one neither takes, or one that says what they fall back
  to anyway.
-/
def ReadAlike (root : Except IoError (Option κ)) : Prop :=
  ∀ value, queried root = some value →
    (value.ty = .binary ∧ value.data ≠ []) ∨
      out.validDescriptor value.data = false ∨
      value.data = out.defaultDescriptor

end

end ClientCore

end Trustd

------------------------------------------------------------
-- The Two Readings
------------------------------------------------------------

namespace Trustd

namespace ClientCore

open Daemon General Registry Render Wire

section

variable {κ : Type}
variable [Reader (Except IoError) κ]
variable (out : Outside)

/- A configuration holds what the value says. -/
theorem controlSecurity_of_load
    {root : Except IoError (Option κ)}
    {config : Config}
    (hLoad : Registry.load root = .ok config) :
    config.controlSecurity =
      controlSecurityOf (queried root) := by
  rcases bind_eq_ok_iff.mp hLoad with ⟨found, rfl, hFrom⟩
  cases found with
  | none =>
      cases hFrom
      rfl
  | some key =>
      rw [loadFrom_some, bind_eq_ok_iff] at hFrom
      rcases hFrom with ⟨compat, -, hFrom⟩
      rcases bind_eq_ok_iff.mp hFrom with
        ⟨security, hSecurity, hFrom⟩
      rcases bind_eq_ok_iff.mp hFrom with
        ⟨certificates, -, hFrom⟩
      have hConfigured : queried (.ok (some key)) =
          security := by
        unfold queried
        dsimp only
        rw [hSecurity]
      rw [hConfigured]
      cases certificates with
      | none =>
          cases hFrom
          rfl
      | some certificates =>
          rcases bind_eq_ok_iff.mp hFrom with ⟨_, -, hFrom⟩
          rcases bind_eq_ok_iff.mp hFrom with ⟨_, -, hFrom⟩
          rcases bind_eq_ok_iff.mp hFrom with ⟨_, -, hFrom⟩
          rcases bind_eq_ok_iff.mp hFrom with ⟨_, -, hFrom⟩
          cases hFrom
          rfl

/- What the daemon falls back from. -/
theorem controlObject_of_value (value : RegValue) :
    controlObject out (controlSecurityOf (some value)) =
      if (value.ty = .binary ∧ value.data ≠ []) ∧
          out.validDescriptor value.data = true then
        value.data
      else out.defaultDescriptor := by
  unfold controlSecurityOf
  by_cases hTaken : value.ty = .binary ∧ value.data ≠ []
  · rw [Option.filter_some, if_pos (by simpa using hTaken)]
    change (if out.validDescriptor value.data = true then
      value.data else out.defaultDescriptor) = _
    simp only [hTaken.1, hTaken.2, true_and, ne_eq,
      not_false_eq_true]
  · rw [Option.filter_some, if_neg (by simpa using hTaken),
      if_neg (fun h => hTaken h.1)]
    rfl

/- The descriptors are the same for the values read alike. -/
theorem evaluated_eq_iff
    (root : Except IoError (Option κ)) :
    evaluated out root =
        controlObject out
          (controlSecurityOf (queried root)) ↔
      ReadAlike out root := by
  unfold evaluated ReadAlike
  cases queried root with
  | none =>
      refine iff_of_true rfl ?_
      intro value hNone
      cases hNone
  | some value =>
      rw [controlObject_of_value, Option.bind_some]
      simp only [Option.some.injEq, forall_eq']
      cases hValid : out.validDescriptor value.data with
      | false => simp
      | true =>
          rw [if_pos rfl, Option.getD_some]
          by_cases hTaken : value.ty = .binary ∧
              value.data ≠ []
          · simp [hTaken]
          · simp [hTaken]

/-
  A client that finds whether it may reload the daemon
  evaluates what the daemon enforces once it has loaded the
  same value, and so finds what the daemon would answer, if
  and only if the value is absent, a binary one that is not
  empty, no valid descriptor, or the default itself.
-/
theorem mayReload_iff
    {root : Except IoError (Option κ)}
    {config : Config}
    (hLoad : Registry.load root = .ok config) :
    (evaluated out root =
        controlObject out config.controlSecurity ∧
      ∀ before host (events : List (Event κ)) caller,
        let w := run (step out) (boot out before host) events
        w.daemon.config = config →
          mayReload out root caller =
            permits out w caller .reload) ↔
      ReadAlike out root := by
  rw [← evaluated_eq_iff out root,
    ← controlSecurity_of_load hLoad]
  constructor
  · intro hBoth
    exact hBoth.1
  · intro hSame
    refine ⟨hSame, fun before host events caller => ?_⟩
    intro w hConfig
    have hEnforcing : Enforcing out w :=
      run_enforcing before host events
    unfold Enforcing at hEnforcing
    rw [hConfig, ← hSame] at hEnforcing
    unfold mayReload permits
    rw [hEnforcing]
    rfl

end

/- A descriptor that denies everyone everything. -/
def sealedDescriptor : Bytes :=
  [1, 0, 0x04, 0x80, 0, 0, 0, 0, 0, 0, 0, 0, 0, 0, 0, 0,
    20, 0, 0, 0, 2, 0, 8, 0, 0, 0, 0, 0]

/- A kernel that knows it, and a default that lets one in. -/
def sealedOutside : Outside :=
  { purposeOutside with
    validDescriptor bytes := decide (bytes = sealedDescriptor)
    allows descriptor _ _ := decide
      (descriptor ≠ sealedDescriptor) }

/- The descriptor under a value of some type. -/
def sealedRegistry (ty : ValueType) : Key :=
  .mk [(Text.utf8 compatValue,
      { ty := .dword, data := [0, 0, 0, 0] }),
    (Text.utf8 controlSecurityValue,
      { ty, data := sealedDescriptor })] []

/- As binary data it is what both sides evaluate. -/
theorem mayReload_binary :
    (Registry.load (m := Except IoError)
        (.ok (some (sealedRegistry .binary))) =
      .ok { compat := .none
            controlSecurity := some sealedDescriptor }) ∧
    evaluated sealedOutside
        (.ok (some (sealedRegistry .binary))) =
      sealedDescriptor ∧
    ∀ before host (events : List (Event Key)) caller,
      let w := run (step sealedOutside)
        (boot sealedOutside before host) events
      w.daemon.config =
          { compat := .none
            controlSecurity := some sealedDescriptor } →
        mayReload sealedOutside
            (.ok (some (sealedRegistry .binary))) caller =
          permits sealedOutside w caller .reload := by
  have hLoad : Registry.load (m := Except IoError)
      (.ok (some (sealedRegistry .binary))) =
        .ok { compat := .none
              controlSecurity := some sealedDescriptor } := by
    decide +kernel
  have hAlike : ReadAlike sealedOutside
      (.ok (some (sealedRegistry .binary))) := by
    intro value hValue
    have hFound : queried
        (.ok (some (sealedRegistry .binary))) =
          some { ty := .binary, data := sealedDescriptor } := by
      decide +kernel
    rw [hFound] at hValue
    cases hValue
    exact Or.inl ⟨rfl, by decide⟩
  exact ⟨hLoad, by decide +kernel,
    ((mayReload_iff sealedOutside hLoad).mpr hAlike).2⟩

/- As text it is what the client evaluates, and not in force. -/
theorem mayReload_text :
    (Registry.load (m := Except IoError)
        (.ok (some (sealedRegistry .sz))) =
      .ok { compat := .none }) ∧
    evaluated sealedOutside
        (.ok (some (sealedRegistry .sz))) ≠
      controlObject sealedOutside none ∧
    mayReload sealedOutside
        (.ok (some (sealedRegistry .sz))) 0 = false ∧
    permits sealedOutside
        (boot sealedOutside { compat := .none } sampleHost)
        0 .reload = true := by
  have hLoad : Registry.load (m := Except IoError)
      (.ok (some (sealedRegistry .sz))) =
        .ok { compat := .none } := by
    decide +kernel
  exact ⟨hLoad, by decide +kernel, by decide +kernel,
    by decide +kernel⟩

end ClientCore

end Trustd
