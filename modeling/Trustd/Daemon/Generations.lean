import Trustd.Daemon.Refresh

/-
  The generation as a version of what is served.

  Key definitions include:
    * `Trustd.Daemon.Succeeds`

  Key theorems include:
    * `Trustd.Daemon.step_succeeds`
    * `Trustd.Daemon.run_generations`
-/

------------------------------------------------------------
-- One Step
------------------------------------------------------------

namespace Trustd

namespace Daemon

open Cert Control General Registry Render Store Wire

/-
  A state that can come after another: of a later generation,
  or serving the same roots.
-/
def Succeeds (s s' : State) : Prop :=
  s.generation ≤ s'.generation ∧
    (s.generation = s'.generation →
      s'.composed.roots = s.composed.roots)

theorem Succeeds.refl (s : State) : Succeeds s s :=
  ⟨le_refl _, fun _ => rfl⟩

theorem Succeeds.trans
    {a b c : State}
    (hFirst : Succeeds a b)
    (hNext : Succeeds b c) :
    Succeeds a c := by
  refine ⟨hFirst.1.trans hNext.1, fun hSame => ?_⟩
  have hLe := hFirst.1
  have hLe' := hNext.1
  have hMid : a.generation = b.generation := by omega
  have hMid' : b.generation = c.generation := by omega
  exact (hNext.2 hMid').trans (hFirst.2 hMid)

section

variable {κ : Type}
variable [Reader (Except IoError) κ]
variable (out : Outside)

/-
  A refresh that changes the roots moves on to the next
  generation: it skips that only where they are the same.
-/
theorem refresh_succeeds
    (env : Env κ)
    (w : World) :
    Succeeds w.daemon (refresh out env w).daemon := by
  cases hComposition : compositionOf out env with
  | none =>
      rcases refresh_keeps out hComposition w with
        ⟨hComposed, hGeneration, _⟩
      refine ⟨hGeneration.ge, fun _ => ?_⟩
      exact congrArg Composed.roots hComposed
  | some made =>
      rcases made with ⟨fresh, composed⟩
      by_cases hSkip : (composed.roots =
          w.daemon.composed.roots ∧ w.daemon.health = .ok) ∧
            fresh = w.daemon.config
      · rw [refresh_of_some out hComposition, if_pos hSkip]
        exact ⟨le_refl _, fun _ => hSkip.1.1⟩
      · rw [refresh_of_new out hComposition hSkip]
        have hNext := (announce_leaves out env (commit composed
          (adopt out fresh env.stamp w))).2.2.1
        change _ = w.daemon.generation + 1 at hNext
        refine ⟨by omega, fun hSame => ?_⟩
        omega

theorem step_succeeds
    (w : World)
    (e : Event κ) :
    Succeeds w.daemon (step out w e).daemon := by
  have hEffect := step_effect out w e
  generalize step out w e = w' at hEffect
  cases hEffect with
  | refreshed env => exact refresh_succeeds out env w
  | reloaded env x _ _ => exact refresh_succeeds out env w
  | answered env stream request _ _ _ _ =>
      exact Succeeds.refl _
  | departed position => exact Succeeds.refl _

end

end Daemon

end Trustd

------------------------------------------------------------
-- Two States Of A Run
------------------------------------------------------------

namespace Trustd

namespace Daemon

open Cert Control General Registry Render Store Wire

section

variable {κ : Type}
variable [Reader (Except IoError) κ]
variable (out : Outside)

theorem run_succeeds
    (w : World)
    (events : List (Event κ)) :
    Succeeds w.daemon (run (step out) w events).daemon := by
  induction events generalizing w with
  | nil => exact Succeeds.refl _
  | cons e rest ih =>
      exact (step_succeeds out w e).trans (ih (step out w e))

/- What is served is a function of the roots composed. -/
theorem roots_congr
    {s s' : State}
    (hRoots : s'.composed.roots = s.composed.roots)
    (withDer : Bool)
    (purpose : Option Text) :
    s'.roots withDer purpose = s.roots withDer purpose := by
  simp only [State.roots, hRoots]

/-
  Over any run, from any state of it to any later one: the
  generation does not decrease; and where it is the same, so
  are the roots composed, the roots of every query, and all
  that a query is sent, whatever its peer takes.
-/
theorem run_generations
    (config : Config)
    (host : Host)
    (events more : List (Event κ)) :
    let s := (run (step out) (boot out config host)
      events).daemon
    let s' := (run (step out) (boot out config host)
      (events ++ more)).daemon
    s.generation ≤ s'.generation ∧
      (s.generation = s'.generation →
        s'.composed.roots = s.composed.roots ∧
        s'.status.generation = s.status.generation ∧
        ∀ withDer purpose,
          s'.roots withDer purpose = s.roots withDer purpose ∧
          ∀ room,
            sendRoots out.msgpack room s'.generation
                (s'.roots withDer purpose) =
              sendRoots out.msgpack room s.generation
                (s.roots withDer purpose)) := by
  intro s s'
  have hSucceeds : Succeeds s s' := by
    have hRun := run_succeeds out
      (run (step out) (boot out config host) events) more
    rw [← run_append] at hRun
    exact hRun
  refine ⟨hSucceeds.1, fun hSame => ?_⟩
  have hRoots := hSucceeds.2 hSame
  refine ⟨hRoots, hSame.symm, fun withDer purpose => ?_⟩
  have hQuery := roots_congr hRoots withDer purpose
  exact ⟨hQuery, fun room => by rw [hQuery, hSame]⟩

end

end Daemon

end Trustd
