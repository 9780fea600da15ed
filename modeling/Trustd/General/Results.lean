import Mathlib.Data.List.Forall2

/-
  Computations that return a value or an error, read as
  statements about the steps that succeeded.

  Key theorems include:
    * `General.bind_eq_ok_iff`
    * `General.mapError_eq_ok_iff`
    * `General.guard_eq_ok_iff`
    * `General.mapM_eq_ok_iff`
-/

------------------------------------------------------------
-- Success Of A Computation
------------------------------------------------------------

namespace General

variable {ε ε' α β : Type}

/- A sequence succeeds when both of its steps do. -/
theorem bind_eq_ok_iff
    {x : Except ε α}
    {f : α → Except ε β}
    {b : β} :
    (x >>= f) = .ok b ↔ ∃ a, x = .ok a ∧ f a = .ok b := by
  cases x with
  | error e => simp [bind, Except.bind]
  | ok a => simp [bind, Except.bind]

theorem mapError_eq_ok_iff
    {x : Except ε α}
    {f : ε → ε'}
    {a : α} :
    x.mapError f = .ok a ↔ x = .ok a := by
  cases x with
  | error e => simp [Except.mapError]
  | ok a => simp [Except.mapError]

theorem map_eq_ok_iff
    {x : Except ε α}
    {f : α → β}
    {b : β} :
    x.map f = .ok b ↔ ∃ a, x = .ok a ∧ f a = b := by
  cases x with
  | error e => simp [Except.map]
  | ok a => simp [Except.map]

/- A check that throws is passed when it does not hold. -/
theorem guard_eq_ok_iff
    {p : Prop}
    [Decidable p]
    {e : ε}
    {rest : Except ε β}
    {b : β} :
    (if p then throw e else rest) = .ok b ↔
      ¬ p ∧ rest = .ok b := by
  by_cases hp : p
  · simp [hp, throw, throwThe, MonadExceptOf.throw]
  · simp [hp]

/- The same where the rest stands after the check. -/
theorem check_eq_ok_iff
    {p : Prop}
    [Decidable p]
    {e : ε}
    {next : α → Except ε β}
    {rest : Except ε β}
    {b : β} :
    (if p then throw e >>= next else rest) = .ok b ↔
      ¬ p ∧ rest = .ok b :=
  guard_eq_ok_iff

theorem pure_eq_ok_iff
    {a b : α} :
    (pure a : Except ε α) = .ok b ↔ a = b := by
  simp [pure, Except.pure]

theorem exists_left_of_mem
    {Reads : α → β → Prop}
    {as : List α}
    {bs : List β}
    (hAll : List.Forall₂ Reads as bs)
    {b : β}
    (hMem : b ∈ bs) :
    ∃ a ∈ as, Reads a b := by
  induction hAll with
  | nil => cases hMem
  | cons hHead hTail ih =>
      rcases List.mem_cons.mp hMem with rfl | hMem
      · exact ⟨_, List.mem_cons_self, hHead⟩
      · rcases ih hMem with ⟨a, ha, hReads⟩
        exact ⟨a, List.mem_cons_of_mem _ ha, hReads⟩

/-
  A list is read one by one, each of its elements as
  something that gives the result.
-/
theorem mapM_eq_ok_iff
    {γ : Type}
    {f : α → Except ε β}
    {Reads : γ → α → Prop}
    {g : γ → β}
    {l : List α}
    (hEach : ∀ a ∈ l, ∀ b,
      f a = .ok b ↔ ∃ c, Reads c a ∧ g c = b)
    {out : List β} :
    l.mapM f = .ok out ↔
      ∃ cs, List.Forall₂ Reads cs l ∧ cs.map g = out := by
  induction l generalizing out with
  | nil =>
      rw [List.mapM_nil, pure_eq_ok_iff]
      simp [eq_comm]
  | cons a l ih =>
      have hHead := hEach a List.mem_cons_self
      have hTail := fun out => @ih
        (fun x hx => hEach x (List.mem_cons_of_mem a hx)) out
      rw [List.mapM_cons, bind_eq_ok_iff]
      simp only [bind_eq_ok_iff, pure_eq_ok_iff, hHead, hTail]
      constructor
      · rintro ⟨_, ⟨c, hc, rfl⟩, _, ⟨cs, hcs, rfl⟩, rfl⟩
        exact ⟨c :: cs, .cons hc hcs, rfl⟩
      · rintro ⟨cs, hcs, rfl⟩
        cases hcs with
        | cons hc hcs =>
            exact ⟨_, ⟨_, hc, rfl⟩, _, ⟨_, hcs, rfl⟩, rfl⟩

/- A check on a result that passes names the result. -/
theorem exists_ok_of_any
    {x : Except ε α}
    {p : α → Bool}
    (hAny : x.toOption.any p = true) :
    ∃ a, x = .ok a ∧ p a = true := by
  cases x with
  | error e => cases hAny
  | ok a => exact ⟨a, rfl, hAny⟩

end General
