import Mathlib.Logic.Basic

/-
  Programs whose every step can fail, and what holds at each
  moment of their runs.

  A machine carries its state, the states it has been in and
  the faults ahead of it. A step consumes one fault, which
  decides how the step goes, and leaves the state it reaches
  on record, so that stopping a program between two of its
  steps leaves it in one of the recorded states.

  Key definitions include:
    * `General.Machine`
    * `General.Prog`
    * `General.Prog.step`
    * `General.Prog.attempt`
    * `General.Outcome`
    * `General.Meets`
    * `General.Ensures`

  Key theorems include:
    * `General.Ensures.step`
    * `General.Ensures.bind`
    * `General.Ensures.attempt`
    * `General.Ensures.forEach`
    * `General.Ensures.visited`
    * `General.Meets.bind_spends`
-/

------------------------------------------------------------
-- Programs
------------------------------------------------------------

namespace General

variable {σ φ ε ε' α β : Type}

/-
  A state, the states so far with the latest first, and the
  faults of the steps to come.
-/
structure Machine (σ φ : Type) where
  state : σ
  past : List σ
  faults : Nat → φ

/- A machine that has made no step. -/
def Machine.start (state : σ) (faults : Nat → φ) :
    Machine σ φ :=
  { state, past := [state], faults }

/- The state a machine is in and those on its record. -/
def Machine.visited (m : Machine σ φ) : List σ :=
  m.state :: m.past

theorem Machine.forall_visited_start
    {P : σ → Prop}
    {state : σ}
    {faults : Nat → φ} :
    (∀ s ∈ (Machine.start state faults).visited, P s) ↔
      P state := by
  simp [Machine.start, Machine.visited]

/- Programs that may stop with an error. -/
def Prog (σ φ ε α : Type) : Type :=
  Machine σ φ → Except ε α × Machine σ φ

namespace Prog

def pure (a : α) : Prog σ φ ε α :=
  fun m => (.ok a, m)

def bind (x : Prog σ φ ε α) (f : α → Prog σ φ ε β) :
    Prog σ φ ε β :=
  fun m =>
    match x m with
    | (.ok a, m') => f a m'
    | (.error e, m') => (.error e, m')

instance : Monad (Prog σ φ ε) where
  pure := Prog.pure
  bind := Prog.bind

def throw (e : ε) : Prog σ φ ε α :=
  fun m => (.error e, m)

/- One step: an operation under the next fault. -/
def step (op : φ → σ → Except ε α × σ) : Prog σ φ ε α :=
  fun m =>
    let r := op (m.faults 0) m.state
    (r.1,
      { state := r.2
        past := r.2 :: m.past
        faults := fun k => m.faults (k + 1) })

/- Run to the end and hand over the outcome. -/
def attempt (x : Prog σ φ ε α) :
    Prog σ φ ε' (Except ε α) :=
  fun m => (.ok (x m).1, (x m).2)

def ofExcept : Except ε α → Prog σ φ ε α
  | .ok a => Prog.pure a
  | .error e => Prog.throw e

/- Rewrite the error a program stops with. -/
def mapError (f : ε → ε') (x : Prog σ φ ε α) :
    Prog σ φ ε' α :=
  fun m =>
    match x m with
    | (.ok a, m') => (.ok a, m')
    | (.error e, m') => (.error (f e), m')

/- Run a program for every element, up to the first error. -/
def forEach (f : α → Prog σ φ ε Unit) :
    List α → Prog σ φ ε Unit
  | [] => Prog.pure ()
  | a :: rest => Prog.bind (f a) (fun _ => forEach f rest)

@[simp] theorem pure_apply
    (a : α)
    (m : Machine σ φ) :
    (Pure.pure a : Prog σ φ ε α) m = (.ok a, m) := rfl

theorem bind_apply
    (x : Prog σ φ ε α)
    (f : α → Prog σ φ ε β)
    (m : Machine σ φ) :
    (x >>= f) m =
      match x m with
      | (.ok a, m') => f a m'
      | (.error e, m') => (.error e, m') := rfl

end Prog

end General

------------------------------------------------------------
-- What Holds Along A Run
------------------------------------------------------------

namespace General

variable {σ φ ε ε' α β : Type}
variable {G : φ → Prop}
variable {I P P' : σ → Prop}
variable {Q : α → σ → Prop}
variable {R : β → σ → Prop}
variable {E : ε → σ → Prop}

/- What is asked of an outcome and the state it left. -/
def Outcome
    (Q : α → σ → Prop)
    (E : ε → σ → Prop) :
    Except ε α → σ → Prop
  | .ok a, s => Q a s
  | .error e, s => E e s

theorem Outcome.mono
    {Q' : α → σ → Prop}
    {E' : ε → σ → Prop}
    (hQ : ∀ a s, Q a s → Q' a s)
    (hE : ∀ e s, E e s → E' e s)
    {r : Except ε α}
    {s : σ}
    (hOutcome : Outcome Q E r s) :
    Outcome Q' E' r s := by
  cases r with
  | ok a => exact hQ a s hOutcome
  | error e => exact hE e s hOutcome

/-
  From the machine `m` the program leaves only faults with
  `G` and only states with `I` behind, and it ends with a
  value and `Q` or with an error and `E`.
-/
def Meets
    (G : φ → Prop)
    (I : σ → Prop)
    (m : Machine σ φ)
    (x : Prog σ φ ε α)
    (Q : α → σ → Prop)
    (E : ε → σ → Prop) :
    Prop :=
  (∀ k, G ((x m).2.faults k)) ∧
    (∀ s ∈ (x m).2.visited, I s) ∧
      Outcome Q E (x m).1 (x m).2.state

/-
  Started in a state with `P`, with faults that all satisfy
  `G`, the program passes only through states with `I`, and
  ends with a value and `Q` or with an error and `E`.
-/
def Ensures
    (G : φ → Prop)
    (I P : σ → Prop)
    (x : Prog σ φ ε α)
    (Q : α → σ → Prop)
    (E : ε → σ → Prop) :
    Prop :=
  ∀ m : Machine σ φ,
    (∀ k, G (m.faults k)) → (∀ s ∈ m.visited, I s) →
      P m.state → Meets G I m x Q E

theorem Ensures.pure
    (a : α)
    (hQ : ∀ s, P s → Q a s) :
    Ensures G I P (Pure.pure a : Prog σ φ ε α) Q E :=
  fun m hG hI hP => ⟨hG, hI, hQ m.state hP⟩

theorem Ensures.throw
    (e : ε)
    (hE : ∀ s, P s → E e s) :
    Ensures G I P (Prog.throw e : Prog σ φ ε α) Q E :=
  fun m hG hI hP => ⟨hG, hI, hE m.state hP⟩

/- A step, from what its operation does to every state. -/
theorem Ensures.step
    {op : φ → σ → Except ε α × σ}
    (hStep : ∀ f s, G f → P s →
      I (op f s).2 ∧
        Outcome Q E (op f s).1 (op f s).2) :
    Ensures G I P (Prog.step op) Q E := by
  intro m hG hI hP
  rcases hStep (m.faults 0) m.state (hG 0) hP with
    ⟨hNext, hResult⟩
  refine ⟨fun k => hG (k + 1), ?_, hResult⟩
  intro s hs
  rcases List.mem_cons.mp hs with rfl | hs
  · exact hNext
  rcases List.mem_cons.mp hs with rfl | hs
  · exact hNext
  · exact hI s (List.mem_cons_of_mem _ hs)

theorem Ensures.bind
    {x : Prog σ φ ε α}
    {f : α → Prog σ φ ε β}
    (hx : Ensures G I P x Q E)
    (hf : ∀ a, Ensures G I (Q a) (f a) R E) :
    Ensures G I P (x >>= f) R E := by
  intro m hG hI hP
  rcases hx m hG hI hP with ⟨hG', hI', hQ⟩
  rw [Meets, Prog.bind_apply]
  cases hRun : x m with
  | mk r m' =>
      rw [hRun] at hG' hI' hQ
      cases r with
      | ok a => exact hf a m' hG' hI' hQ
      | error e => exact ⟨hG', hI', hQ⟩

/- An attempt succeeds with whatever the program ended in. -/
theorem Ensures.attempt
    {x : Prog σ φ ε α}
    {E' : ε' → σ → Prop}
    (hx : Ensures G I P x Q E) :
    Ensures G I P (Prog.attempt x) (Outcome Q E) E' :=
  fun m hG hI hP => hx m hG hI hP

theorem Ensures.mapError
    {x : Prog σ φ ε α}
    {f : ε → ε'}
    {E' : ε' → σ → Prop}
    (hx : Ensures G I P x Q (fun e s => E' (f e) s)) :
    Ensures G I P (Prog.mapError f x) Q E' := by
  intro m hG hI hP
  rcases hx m hG hI hP with ⟨hG', hI', hQ⟩
  unfold Meets Prog.mapError
  cases hRun : x m with
  | mk r m' =>
      rw [hRun] at hG' hI' hQ
      cases r with
      | ok a => exact ⟨hG', hI', hQ⟩
      | error e => exact ⟨hG', hI', hQ⟩

/- Stronger before, weaker after. -/
theorem Ensures.weaken
    {x : Prog σ φ ε α}
    {Q' : α → σ → Prop}
    {E' : ε → σ → Prop}
    (hx : Ensures G I P x Q E)
    (hP : ∀ s, P' s → P s)
    (hQ : ∀ a s, Q a s → Q' a s)
    (hE : ∀ e s, E e s → E' e s) :
    Ensures G I P' x Q' E' := by
  intro m hG hI hP'
  rcases hx m hG hI (hP _ hP') with ⟨hG', hI', hEnd⟩
  exact ⟨hG', hI', hEnd.mono hQ hE⟩

/- What does not depend on the state is assumed outright. -/
theorem Ensures.and_left
    {p : Prop}
    {x : Prog σ φ ε α}
    (hx : p → Ensures G I P x Q E) :
    Ensures G I (fun s => p ∧ P s) x Q E :=
  fun m hG hI hP => hx hP.1 m hG hI hP.2

theorem Ensures.exists
    {ι : Sort*}
    {P : ι → σ → Prop}
    {x : Prog σ φ ε α}
    (hx : ∀ i, Ensures G I (P i) x Q E) :
    Ensures G I (fun s => ∃ i, P i s) x Q E := by
  rintro m hG hI ⟨i, hP⟩
  exact hx i m hG hI hP

/- Handing over an outcome that is already there. -/
theorem Ensures.ofExcept (r : Except ε α) :
    Ensures G I (Outcome Q E r) (Prog.ofExcept r) Q E := by
  cases r with
  | ok a => exact Ensures.pure a (fun _ hQ => hQ)
  | error e => exact Ensures.throw e (fun _ hE => hE)

/- What a loop over the rest of a list needs holds of it. -/
theorem Ensures.forEach
    {f : α → Prog σ φ ε Unit}
    {J : List α → σ → Prop}
    (hf : ∀ a rest,
      Ensures G I (J (a :: rest)) (f a)
        (fun _ s => J rest s) E)
    (l : List α) :
    Ensures G I (J l) (Prog.forEach f l)
      (fun _ s => J [] s) E := by
  induction l with
  | nil => exact Ensures.pure () (fun _ hJ => hJ)
  | cons a rest ih => exact Ensures.bind (hf a rest) (fun _ => ih)

/- Every state a run passes through satisfies its invariant. -/
theorem Ensures.visited
    {x : Prog σ φ ε α}
    (hx : Ensures G I P x Q E)
    {s : σ}
    {faults : Nat → φ}
    (hG : ∀ k, G (faults k))
    (hI : I s)
    (hP : P s) :
    ∀ s' ∈ (x (Machine.start s faults)).2.visited, I s' := by
  exact (hx (Machine.start s faults) hG
    (Machine.forall_visited_start.mpr hI) hP).2.1

end General

------------------------------------------------------------
-- Where The Faults Are Known
------------------------------------------------------------

namespace General

variable {σ φ ε ε' α β : Type}
variable {G : φ → Prop}
variable {I P : σ → Prop}
variable {Q : α → σ → Prop}
variable {R : β → σ → Prop}
variable {E : ε → σ → Prop}

/- The program makes so many steps, however they go. -/
def Prog.Spends (x : Prog σ φ ε α) (n : Nat) : Prop :=
  ∀ m k, (x m).2.faults k = m.faults (k + n)

theorem Prog.Spends.pure (a : α) :
    (Pure.pure a : Prog σ φ ε α).Spends 0 :=
  fun _ _ => rfl

theorem Prog.Spends.throw (e : ε) :
    (Prog.throw e : Prog σ φ ε α).Spends 0 :=
  fun _ _ => rfl

theorem Prog.Spends.step (op : φ → σ → Except ε α × σ) :
    (Prog.step op).Spends 1 :=
  fun _ _ => rfl

theorem Prog.Spends.attempt
    {x : Prog σ φ ε α}
    {n : Nat}
    (hx : x.Spends n) :
    (Prog.attempt x : Prog σ φ ε' (Except ε α)).Spends n :=
  hx

theorem Prog.Spends.mapError
    {x : Prog σ φ ε α}
    {n : Nat}
    (hx : x.Spends n)
    (f : ε → ε') :
    (Prog.mapError f x).Spends n := by
  intro m k
  rw [← hx m k]
  unfold Prog.mapError
  rcases x m with ⟨_ | _, _⟩
  · rfl
  · rfl

/- What follows may make no step of its own. -/
theorem Prog.Spends.bind
    {x : Prog σ φ ε α}
    {f : α → Prog σ φ ε β}
    {n : Nat}
    (hx : x.Spends n)
    (hf : ∀ a, (f a).Spends 0) :
    (x >>= f).Spends n := by
  intro m k
  rw [Prog.bind_apply, ← hx m k]
  rcases x m with ⟨_ | a, m'⟩
  · rfl
  · exact hf a m' k

/- A step, from what it does under the fault it meets. -/
theorem Meets.step
    {m : Machine σ φ}
    {op : φ → σ → Except ε α × σ}
    (hG : ∀ k, G (m.faults k))
    (hI : ∀ s ∈ m.visited, I s)
    (hNext : I (op (m.faults 0) m.state).2)
    (hResult : Outcome Q E (op (m.faults 0) m.state).1
      (op (m.faults 0) m.state).2) :
    Meets G I m (Prog.step op) Q E := by
  refine ⟨fun k => hG (k + 1), ?_, hResult⟩
  intro s hs
  rcases List.mem_cons.mp hs with rfl | hs
  · exact hNext
  rcases List.mem_cons.mp hs with rfl | hs
  · exact hNext
  · exact hI s (List.mem_cons_of_mem _ hs)

theorem Meets.weaken
    {m : Machine σ φ}
    {x : Prog σ φ ε α}
    {Q' : α → σ → Prop}
    {E' : ε → σ → Prop}
    (hx : Meets G I m x Q E)
    (hQ : ∀ a s, Q a s → Q' a s)
    (hE : ∀ e s, E e s → E' e s) :
    Meets G I m x Q' E' :=
  ⟨hx.1, hx.2.1, hx.2.2.mono hQ hE⟩

theorem Meets.bind
    {m : Machine σ φ}
    {x : Prog σ φ ε α}
    {f : α → Prog σ φ ε β}
    (hx : Meets G I m x Q E)
    (hf : ∀ a, Ensures G I (Q a) (f a) R E) :
    Meets G I m (x >>= f) R E := by
  rcases hx with ⟨hG, hI, hQ⟩
  rw [Meets, Prog.bind_apply]
  rcases hRun : x m with ⟨e | a, m'⟩
  · rw [hRun] at hG hI hQ
    exact ⟨hG, hI, hQ⟩
  · rw [hRun] at hG hI hQ
    exact hf a m' hG hI hQ

/- What follows meets the faults that were not spent. -/
theorem Meets.bind_spends
    {m : Machine σ φ}
    {x : Prog σ φ ε α}
    {f : α → Prog σ φ ε β}
    {n : Nat}
    (hx : Meets G I m x Q E)
    (hSpends : x.Spends n)
    (hf : ∀ a m', (∀ k, m'.faults k = m.faults (k + n)) →
      (∀ k, G (m'.faults k)) → (∀ s ∈ m'.visited, I s) →
        Q a m'.state → Meets G I m' (f a) R E) :
    Meets G I m (x >>= f) R E := by
  rcases hx with ⟨hG, hI, hQ⟩
  have hFaults := hSpends m
  rw [Meets, Prog.bind_apply]
  rcases hRun : x m with ⟨e | a, m'⟩
  · rw [hRun] at hG hI hQ
    exact ⟨hG, hI, hQ⟩
  · rw [hRun] at hG hI hQ hFaults
    exact hf a m' hFaults hG hI hQ

end General

------------------------------------------------------------
-- Failing At Once
------------------------------------------------------------

namespace General

variable {σ φ ε ε' α β : Type}

/-
  The program stops with an error, the state as it was, and
  has been in no other.
-/
def Prog.FailsAt
    (x : Prog σ φ ε α)
    (m : Machine σ φ)
    (e : ε) :
    Prop :=
  (x m).1 = .error e ∧ (x m).2.state = m.state ∧
    (x m).2.visited ⊆ m.visited

theorem Prog.FailsAt.bind
    {x : Prog σ φ ε α}
    {m : Machine σ φ}
    {e : ε}
    (hx : x.FailsAt m e)
    (f : α → Prog σ φ ε β) :
    (x >>= f).FailsAt m e := by
  unfold Prog.FailsAt at hx ⊢
  rw [Prog.bind_apply]
  rcases hRun : x m with ⟨e' | a, m'⟩
  · rw [hRun] at hx
    cases hx.1
    exact ⟨rfl, hx.2⟩
  · rw [hRun] at hx
    cases hx.1

theorem Prog.FailsAt.mapError
    {x : Prog σ φ ε α}
    {m : Machine σ φ}
    {e : ε}
    (hx : x.FailsAt m e)
    (f : ε → ε') :
    (Prog.mapError f x).FailsAt m (f e) := by
  unfold Prog.FailsAt Prog.mapError at *
  rcases hRun : x m with ⟨e' | a, m'⟩
  · rw [hRun] at hx
    cases hx.1
    exact ⟨rfl, hx.2⟩
  · rw [hRun] at hx
    cases hx.1

/- What is made of an attempt that failed at once. -/
theorem Prog.FailsAt.attempt_bind
    {x : Prog σ φ ε α}
    {m : Machine σ φ}
    {e : ε}
    (hx : x.FailsAt m e)
    {f : Except ε α → Prog σ φ ε' β}
    {e' : ε'}
    (hf : f (.error e) = Prog.throw e') :
    (Prog.attempt x >>= f).FailsAt m e' := by
  have hRun : (Prog.attempt x >>= f) m = f (x m).1 (x m).2 :=
    rfl
  rw [hx.1, hf] at hRun
  rw [Prog.FailsAt, hRun]
  exact ⟨rfl, hx.2⟩

end General
