import Mathlib.Data.List.Induction

/-
  Runs of a machine that takes events, and what is observed
  along them.

  A machine is a step function. Each step may also be seen to
  do something, which depends on the state it is taken in; a
  run's observations are those of its steps, in order.

  Key definitions include:
    * `General.run`
    * `General.observed`
    * `General.Along`

  Key theorems include:
    * `General.run_append`
    * `General.run_expand`
    * `General.run_invariant`
    * `General.run_invariant_along`
    * `General.run_preserves`
    * `General.run_simulates`
    * `General.always_iff_along`
-/

------------------------------------------------------------
-- Runs
------------------------------------------------------------

namespace General

variable {σ ε ω : Type}
variable (step : σ → ε → σ)
variable (observe : σ → ε → List ω)

/- The state after some events. -/
def run (s : σ) (events : List ε) : σ :=
  events.foldl step s

/- What is observed while they happen. -/
def observed : σ → List ε → List ω
  | _, [] => []
  | s, e :: rest =>
      observe s e ++ observed (step s e) rest

/- Every event is admitted in the state it happens in. -/
def Along (admits : σ → ε → Prop) : σ → List ε → Prop
  | _, [] => True
  | s, e :: rest =>
      admits s e ∧ Along admits (step s e) rest

@[simp] theorem run_nil (s : σ) : run step s [] = s := rfl

@[simp] theorem run_cons
    (s : σ)
    (e : ε)
    (rest : List ε) :
    run step s (e :: rest) = run step (step s e) rest := rfl

theorem run_append
    (s : σ)
    (a b : List ε) :
    run step s (a ++ b) = run step (run step s a) b :=
  List.foldl_append

theorem run_snoc
    (s : σ)
    (events : List ε)
    (e : ε) :
    run step s (events ++ [e]) =
      step (run step s events) e :=
  run_append step s events [e]

theorem observed_append
    (s : σ)
    (a b : List ε) :
    observed step observe s (a ++ b) =
      observed step observe s a ++
        observed step observe (run step s a) b := by
  induction a generalizing s with
  | nil => rfl
  | cons first rest ih =>
      simp [observed, ih]

theorem observed_snoc
    (s : σ)
    (events : List ε)
    (e : ε) :
    observed step observe s (events ++ [e]) =
      observed step observe s events ++
        observe (run step s events) e := by
  rw [observed_append, observed, observed, List.append_nil]

/-
  Where each step is a run of smaller ones, a run of steps is
  the run of what they are made of.
-/
theorem run_expand
    {δ : Type}
    {small : σ → δ → σ}
    {parts : σ → ε → List δ}
    (hParts : ∀ s e, step s e = run small s (parts s e))
    (s : σ)
    (events : List ε) :
    run step s events =
      run small s (observed step parts s events) := by
  induction events generalizing s with
  | nil => rfl
  | cons e rest ih =>
      rw [run_cons, observed, run_append, ih, hParts]

end General

------------------------------------------------------------
-- Invariants Of Runs
------------------------------------------------------------

namespace General

variable {σ ε ω : Type}
variable {step : σ → ε → σ}
variable {observe : σ → ε → List ω}

theorem along_append
    {admits : σ → ε → Prop}
    {s : σ}
    {a b : List ε} :
    Along step admits s (a ++ b) ↔
      Along step admits s a ∧
        Along step admits (run step s a) b := by
  induction a generalizing s with
  | nil => simp [Along]
  | cons e rest ih => simp [Along, ih, and_assoc]

/-
  What holds at the start and is preserved by every step that
  is admitted, of the state and the observations so far, holds
  at the end of every run whose steps are all admitted.
-/
theorem run_invariant_along
    {admits : σ → ε → Prop}
    {I : σ → List ω → Prop}
    {s : σ}
    (hStart : I s [])
    (hStep : ∀ s log e, admits s e → I s log →
      I (step s e) (log ++ observe s e))
    {events : List ε}
    (hAlong : Along step admits s events) :
    I (run step s events) (observed step observe s events) := by
  induction events using List.reverseRec with
  | nil => exact hStart
  | append_singleton events e ih =>
      rw [along_append] at hAlong
      rw [run_snoc, observed_snoc]
      exact hStep _ _ e hAlong.2.1 (ih hAlong.1)

theorem along_true
    (s : σ)
    (events : List ε) :
    Along step (fun _ _ => True) s events := by
  induction events generalizing s with
  | nil => trivial
  | cons e rest ih => exact ⟨trivial, ih (step s e)⟩

/- The same of every run where every step preserves it. -/
theorem run_invariant
    {I : σ → List ω → Prop}
    {s : σ}
    (hStart : I s [])
    (hStep : ∀ s log e, I s log →
      I (step s e) (log ++ observe s e))
    (events : List ε) :
    I (run step s events) (observed step observe s events) :=
  run_invariant_along hStart
    (fun s log e _ hI => hStep s log e hI)
    (along_true s events)

/- What every step preserves holds after every run. -/
theorem run_preserves
    {I : σ → Prop}
    (hStep : ∀ s e, I s → I (step s e))
    {s : σ}
    (hStart : I s)
    (events : List ε) :
    I (run step s events) := by
  induction events generalizing s with
  | nil => exact hStart
  | cons e rest ih => exact ih (hStep s e hStart)

/-
  A run is simulated by a run of smaller steps: what relates
  the two states at the start does so at the end.
-/
theorem run_simulates
    {φ δ : Type}
    {small : φ → δ → φ}
    {parts : σ → ε → List δ}
    {R : σ → φ → Prop}
    (hStep : ∀ s f e, R s f →
      R (step s e) (run small f (parts s e)))
    {s : σ}
    {f : φ}
    (hStart : R s f)
    (events : List ε) :
    R (run step s events)
      (run small f (observed step parts s events)) := by
  induction events generalizing s f with
  | nil => exact hStart
  | cons e rest ih =>
      rw [run_cons, observed, run_append]
      exact ih (hStep s f e hStart)

/-
  Where a step keeps what holds if it is admitted, and breaks
  it if not, it holds all along a run if and only if every
  step of the run is admitted.
-/
theorem always_iff_along
    {admits : σ → ε → Prop}
    {P : σ → Prop}
    (hKeep : ∀ s e, P s → admits s e → P (step s e))
    (hBreak : ∀ s e, P s → ¬ admits s e → ¬ P (step s e))
    {s : σ}
    (hStart : P s)
    (events : List ε) :
    (∀ before, before <+: events → P (run step s before)) ↔
      Along step admits s events := by
  induction events generalizing s with
  | nil =>
      refine iff_of_true (fun before hPrefix => ?_) trivial
      rw [List.prefix_nil.mp hPrefix]
      exact hStart
  | cons e rest ih =>
      constructor
      · intro hAlways
        have hNext := hAlways [e]
          (List.cons_prefix_cons.mpr ⟨rfl, List.nil_prefix⟩)
        have hAdmits : admits s e := by
          by_contra hNot
          exact hBreak s e hStart hNot hNext
        refine ⟨hAdmits, (ih hNext).mp ?_⟩
        intro before hPrefix
        exact hAlways (e :: before)
          (List.cons_prefix_cons.mpr ⟨rfl, hPrefix⟩)
      · rintro ⟨hAdmits, hRest⟩ before hPrefix
        cases before with
        | nil => exact hStart
        | cons first before =>
            rcases List.cons_prefix_cons.mp hPrefix with
              ⟨rfl, hBefore⟩
            have hNext := hKeep s first hStart hAdmits
            exact (ih hNext).mpr hRest before hBefore

end General
