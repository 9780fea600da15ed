import Trustd.General.Results

/-
  Reads that take values off the front of a list.

  How one value is passed over is a parameter. A read passes
  over so many values if it takes off the front what passing
  over them does, whatever follows.

  Key definitions include:
    * `General.skipMany`
    * `General.Passes`
    * `General.Heads`
    * `General.Whole`

  Key theorems include:
    * `General.Passes.bind`
    * `General.Passes.cons`
    * `General.Heads.bind`
    * `General.Passes.whole`
-/

------------------------------------------------------------
-- Passing Over Values
------------------------------------------------------------

namespace General

variable {α β γ ε ε' ε'' : Type}

/- Pass over so many values. -/
def skipMany
    (skip : List β → Except ε (List β)) :
    Nat → List β → Except ε (List β)
  | 0, m => .ok m
  | n + 1, m => skip m >>= skipMany skip n

/-
  Where the read succeeds it takes what it reads off the
  front, whatever follows, and that is so many values.
-/
def Passes
    (skip : List β → Except ε (List β))
    (n : Nat)
    (p : List β → Except ε' (α × List β)) :
    Prop :=
  ∀ m a rest, p m = .ok (a, rest) →
    skipMany skip n m = .ok rest ∧
      ∃ v, m = v ++ rest ∧ n ≤ v.length ∧
        ∀ rest', p (v ++ rest') = .ok (a, rest')

/-
  The same of a header, which with the values it announces is
  one value.
-/
def Heads
    (skip : List β → Except ε (List β))
    (width : Nat → Nat)
    (p : List β → Except ε' (Nat × List β)) :
    Prop :=
  ∀ m n rest, p m = .ok (n, rest) →
    (∀ out, skipMany skip (width n) rest = .ok out →
      skip m = .ok out) ∧
      ∃ v, m = v ++ rest ∧ 1 ≤ v.length ∧
        ∀ rest', p (v ++ rest') = .ok (n, rest')

/- A list that is one value, whatever follows it. -/
def Whole
    (skip : List β → Except ε (List β))
    (v : List β) :
    Prop :=
  ∀ rest, skip (v ++ rest) = .ok rest

variable {skip : List β → Except ε (List β)}

theorem skipMany_one (m : List β) :
    skipMany skip 1 m = skip m := by
  rw [skipMany]
  cases skip m with
  | ok rest => rfl
  | error e => rfl

theorem skipMany_add
    {j k : Nat}
    {m rest out : List β}
    (hFirst : skipMany skip j m = .ok rest)
    (hSecond : skipMany skip k rest = .ok out) :
    skipMany skip (j + k) m = .ok out := by
  induction j generalizing m with
  | zero =>
      cases hFirst
      rw [Nat.zero_add]
      exact hSecond
  | succ j ih =>
      rw [skipMany, bind_eq_ok_iff] at hFirst
      rcases hFirst with ⟨mid, hOne, hRest⟩
      rw [Nat.add_right_comm, skipMany, bind_eq_ok_iff]
      exact ⟨mid, hOne, ih hRest⟩

theorem Passes.congr
    {n : Nat}
    {p q : List β → Except ε' (α × List β)}
    (hSame : ∀ m, p m = q m)
    (hp : Passes skip n p) :
    Passes skip n q := by
  rwa [← funext hSame]

theorem Passes.pure (a : α) :
    Passes skip 0
      (fun m => (.ok (a, m) : Except ε' (α × List β))) := by
  intro m b rest hRead
  cases hRead
  exact ⟨rfl, [], rfl, Nat.zero_le _, fun _ => rfl⟩

/- One read after another. -/
theorem Passes.bind
    {j k : Nat}
    {p : List β → Except ε' (α × List β)}
    {q : α → List β → Except ε' (γ × List β)}
    (hp : Passes skip j p)
    (hq : ∀ a, Passes skip k (q a)) :
    Passes skip (j + k)
      (fun m => p m >>= fun r => q r.1 r.2) := by
  intro m c out hRead
  rcases bind_eq_ok_iff.mp hRead with
    ⟨⟨a, rest⟩, hFirst, hSecond⟩
  rcases hp m a rest hFirst with
    ⟨hSkip, v, rfl, hLength, hAlways⟩
  rcases hq a rest c out hSecond with
    ⟨hSkip', w, rfl, hLength', hAlways'⟩
  refine ⟨skipMany_add hSkip hSkip', v ++ w,
    (List.append_assoc v w out).symm, ?_, fun rest' => ?_⟩
  · rw [List.length_append]
    exact Nat.add_le_add hLength hLength'
  · rw [List.append_assoc]
    exact bind_eq_ok_iff.mpr
      ⟨(a, w ++ rest'), hAlways (w ++ rest'), hAlways' rest'⟩

/- A header and the values it announces. -/
theorem Heads.bind
    {width : Nat → Nat}
    {p : List β → Except ε' (Nat × List β)}
    {q : Nat → List β → Except ε' (γ × List β)}
    (hp : Heads skip width p)
    (hq : ∀ n, Passes skip (width n) (q n)) :
    Passes skip 1 (fun m => p m >>= fun r => q r.1 r.2) := by
  intro m c out hRead
  rcases bind_eq_ok_iff.mp hRead with
    ⟨⟨n, rest⟩, hFirst, hSecond⟩
  rcases hp m n rest hFirst with
    ⟨hSkip, v, rfl, hLength, hAlways⟩
  rcases hq n rest c out hSecond with
    ⟨hSkip', w, rfl, hLength', hAlways'⟩
  refine ⟨?_, v ++ w, (List.append_assoc v w out).symm, ?_,
    fun rest' => ?_⟩
  · rw [skipMany_one]
    exact hSkip out hSkip'
  · rw [List.length_append]
    exact Nat.le_add_right_of_le hLength
  · rw [List.append_assoc]
    exact bind_eq_ok_iff.mpr
      ⟨(n, w ++ rest'), hAlways (w ++ rest'), hAlways' rest'⟩

theorem Passes.map
    {n : Nat}
    {p : List β → Except ε' (α × List β)}
    (f : α → γ)
    (hp : Passes skip n p) :
    Passes skip n
      (fun m => (p m).map (fun r => (f r.1, r.2))) := by
  have hPure : ∀ a, Passes skip 0
      (fun m => (.ok (f a, m) : Except ε' (γ × List β))) :=
    fun a => Passes.pure (f a)
  have hBind := hp.bind hPure
  intro m c out hRead
  apply hBind m c out
  dsimp only at hRead ⊢
  cases hRun : p m with
  | ok r =>
      rw [hRun] at hRead
      exact hRead
  | error e =>
      rw [hRun] at hRead
      cases hRead

theorem Passes.mapError
    {n : Nat}
    {p : List β → Except ε' (α × List β)}
    (f : ε' → ε'')
    (hp : Passes skip n p) :
    Passes skip n (fun m => (p m).mapError f) := by
  intro m a rest hRead
  rcases hp m a rest (mapError_eq_ok_iff.mp hRead) with
    ⟨hSkip, v, hFront, hLength, hAlways⟩
  exact ⟨hSkip, v, hFront, hLength, fun rest' =>
    mapError_eq_ok_iff.mpr (hAlways rest')⟩

theorem Heads.mapError
    {width : Nat → Nat}
    {p : List β → Except ε' (Nat × List β)}
    (f : ε' → ε'')
    (hp : Heads skip width p) :
    Heads skip width (fun m => (p m).mapError f) := by
  intro m n rest hRead
  rcases hp m n rest (mapError_eq_ok_iff.mp hRead) with
    ⟨hSkip, v, hFront, hLength, hAlways⟩
  exact ⟨hSkip, v, hFront, hLength, fun rest' =>
    mapError_eq_ok_iff.mpr (hAlways rest')⟩

/- One more than there were of a list. -/
theorem Passes.cons
    {n : Nat}
    {p : List β → Except ε' (α × List β)}
    {q : List β → Except ε' (List α × List β)}
    (hp : Passes skip 1 p)
    (hq : Passes skip n q) :
    Passes skip (n + 1) (fun m => do
      let (a, rest) ← p m
      let (as, rest) ← q rest
      return (a :: as, rest)) := by
  rw [Nat.add_comm n 1]
  refine Passes.congr (fun m => ?_)
    (hp.bind (fun a => hq.map (fun as => a :: as)))
  refine bind_congr (fun r => ?_)
  rcases r with ⟨a, rest⟩
  dsimp only
  cases q rest with
  | ok _ => rfl
  | error _ => rfl

/- What is read of a value is the value, whatever follows. -/
theorem Passes.whole
    {p : List β → Except ε' (α × List β)}
    (hp : Passes skip 1 p)
    {v rest out : List β}
    {a : α}
    (hWhole : Whole skip v)
    (hRead : p (v ++ rest) = .ok (a, out)) :
    out = rest ∧ ∀ rest', p (v ++ rest') = .ok (a, rest') := by
  rcases hp _ a out hRead with ⟨hSkip, w, hFront, -, hAlways⟩
  rw [skipMany_one, hWhole rest] at hSkip
  have hOut := (Except.ok.inj hSkip).symm
  subst hOut
  rw [List.append_cancel_right hFront]
  exact ⟨rfl, hAlways⟩

end General
