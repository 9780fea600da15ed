import Mathlib.Order.Monotone.Basic
import Mathlib.Tactic.SplitIfs
import Trustd.General.Fallible

/-
  A party that leads from one known state to the next, and
  another one that reads the states in between.

  The first is a program, and each of its steps leads from
  one phase to a later one. The second looks at a state for
  each of its reads, and what it is shown next is never an
  earlier phase than what it was shown before.

  Key definitions include:
    * `General.Climbs`
    * `General.Interleaves`
    * `General.Watching`
    * `General.Watches`
    * `General.Steady`
    * `General.Jumps`

  Key theorems include:
    * `General.Climbs.bind`
    * `General.Climbs.turns`
    * `General.Interleaves.sees`
    * `General.interleaves_jump`
    * `General.Watches.bind`
    * `General.Jumps.exists_views`
-/

------------------------------------------------------------
-- Phases
------------------------------------------------------------

namespace General

variable {σ φ ε ε' α β : Type}

/- The states of a run, the first one first. -/
def Machine.history (m : Machine σ φ) : List σ :=
  m.past.reverse

/-
  The states so far are phases in their order, the first of
  them the phase 0 and the last one the phase `i`.
-/
structure Machine.At
    (phase : Nat → σ)
    (i : Nat)
    (m : Machine σ φ) :
    Prop where
  state : m.state = phase i
  past : ∃ turns : List Nat, turns.Pairwise (· ≥ ·) ∧
    turns.head? = some i ∧ turns.getLast? = some 0 ∧
      m.past = turns.map phase

theorem Machine.at_start
    (phase : Nat → σ)
    (faults : Nat → φ) :
    (Machine.start (phase 0) faults).At phase 0 :=
  ⟨rfl, [0], List.pairwise_singleton _ _, rfl, rfl, rfl⟩

/- The next state is a phase that is not an earlier one. -/
theorem Machine.At.next
    {phase : Nat → σ}
    {i j : Nat}
    {m : Machine σ φ}
    (hAt : m.At phase i)
    (hLe : i ≤ j)
    (faults : Nat → φ) :
    Machine.At phase j {
      state := phase j
      past := phase j :: m.past
      faults } := by
  rcases hAt.past with ⟨turns, hOrder, hHead, hLast, hPast⟩
  refine ⟨rfl, j :: turns, ?_, rfl, ?_, ?_⟩
  · cases turns with
    | nil => cases hHead
    | cons k turns =>
        cases hHead
        rw [List.pairwise_cons]
        refine ⟨fun l hl => ?_, hOrder⟩
        rcases List.mem_cons.mp hl with rfl | hl
        · exact hLe
        · exact Nat.le_trans
            ((List.pairwise_cons.mp hOrder).1 l hl) hLe
  · rw [List.getLast?_cons, hLast]
    rfl
  · rw [hPast]
    rfl

/-
  Started in the phase `i`, the program ends in the phase `j`
  with a value that has `P`, or with an error before that,
  and with an error only by a fault that has not `G`.
-/
def Climbs
    (G : φ → Prop)
    (phase : Nat → σ)
    (i j : Nat)
    (x : Prog σ φ ε α)
    (P : α → Prop) :
    Prop :=
  ∀ m : Machine σ φ, m.At phase i →
    match (x m).1 with
    | .ok a => P a ∧ (x m).2.At phase j ∧
        ((∀ n, G (m.faults n)) →
          ∀ n, G ((x m).2.faults n))
    | .error _ => (∃ k ≤ j, (x m).2.At phase k) ∧
        ¬ ∀ n, G (m.faults n)

section

variable {G : φ → Prop}
variable {phase : Nat → σ}
variable {i j k : Nat}
variable {P : α → Prop}
variable {Q : β → Prop}

theorem Climbs.pure
    {a : α}
    (hP : P a) :
    Climbs G phase i i (Pure.pure a : Prog σ φ ε α) P :=
  fun _ hAt => ⟨hP, hAt, id⟩

theorem Climbs.bind
    {x : Prog σ φ ε α}
    {f : α → Prog σ φ ε β}
    (hx : Climbs G phase i j x P)
    (hLe : j ≤ k)
    (hf : ∀ a, P a → Climbs G phase j k (f a) Q) :
    Climbs G phase i k (x >>= f) Q := by
  intro m hAt
  have hFirst := hx m hAt
  rw [Prog.bind_apply]
  cases hRun : x m with
  | mk r m' =>
      rw [hRun] at hFirst
      cases r with
      | ok a =>
          have hSecond := hf a hFirst.1 m' hFirst.2.1
          dsimp only
          cases hResult : (f a m').1 with
          | ok b =>
              rw [hResult] at hSecond
              exact ⟨hSecond.1, hSecond.2.1, fun hG =>
                hSecond.2.2 (hFirst.2.2 hG)⟩
          | error e =>
              rw [hResult] at hSecond
              exact ⟨hSecond.1, fun hG =>
                hSecond.2 (hFirst.2.2 hG)⟩
      | error e =>
          rcases hFirst with ⟨⟨l, hl, hAt'⟩, hBad⟩
          exact ⟨⟨l, Nat.le_trans hl hLe, hAt'⟩, hBad⟩

theorem Climbs.mapError
    {x : Prog σ φ ε α}
    (hx : Climbs G phase i j x P)
    (f : ε → ε') :
    Climbs G phase i j (Prog.mapError f x) P := by
  intro m hAt
  have hFirst := hx m hAt
  unfold Prog.mapError
  cases hRun : x m with
  | mk r m' =>
      rw [hRun] at hFirst
      cases r with
      | ok a => exact hFirst
      | error e => exact hFirst

/- A step does its work or leaves the state alone. -/
theorem Climbs.step
    {op : φ → σ → Except ε α × σ}
    (hLe : i ≤ j)
    (hOk : ∀ fault a, (op fault (phase i)).1 = .ok a →
      P a ∧ (op fault (phase i)).2 = phase j)
    (hError : ∀ fault e, (op fault (phase i)).1 = .error e →
      (op fault (phase i)).2 = phase i ∧ ¬ G fault) :
    Climbs G phase i j (Prog.step op) P := by
  intro m hAt
  simp only [Prog.step]
  rw [hAt.state]
  cases hRun : (op (m.faults 0) (phase i)).1 with
  | ok a =>
      rw [(hOk _ a hRun).2]
      exact ⟨(hOk _ a hRun).1, hAt.next hLe _,
        fun hG n => hG (n + 1)⟩
  | error e =>
      rcases hError _ e hRun with ⟨hStays, hBad⟩
      rw [hStays]
      exact ⟨⟨i, hLe, hAt.next (Nat.le_refl i) _⟩,
        fun hG => hBad (hG 0)⟩

/- No phase of a run comes after the one it is in. -/
theorem Machine.At.le
    {m : Machine σ φ}
    (hAt : m.At phase i) :
    ∃ turns : List Nat, turns.Pairwise (· ≤ ·) ∧
      (∀ k ∈ turns, k ≤ i) ∧ m.history = turns.map phase := by
  rcases hAt.past with ⟨turns, hOrder, hHead, -, hPast⟩
  refine ⟨turns.reverse, ?_, fun k hk => ?_, ?_⟩
  · rw [List.pairwise_reverse]
    exact hOrder
  · rw [List.mem_reverse] at hk
    cases turns with
    | nil => cases hk
    | cons l turns =>
        cases hHead
        rcases List.mem_cons.mp hk with rfl | hk
        · exact Nat.le_refl k
        · exact (List.pairwise_cons.mp hOrder).1 k hk
  · rw [Machine.history, hPast, List.map_reverse]

/- The states of a whole run are phases in their order. -/
theorem Climbs.turns
    {x : Prog σ φ ε α}
    (hx : Climbs G phase 0 j x P)
    (faults : Nat → φ) :
    ∃ turns : List Nat, turns.Pairwise (· ≤ ·) ∧
      (∀ k ∈ turns, k ≤ j) ∧
        (x (Machine.start (phase 0) faults)).2.history =
          turns.map phase := by
  have hRun := hx _ (Machine.at_start phase faults)
  cases hResult : (x (Machine.start (phase 0) faults)).1 with
  | ok a =>
      rw [hResult] at hRun
      exact hRun.2.1.le
  | error e =>
      rw [hResult] at hRun
      rcases hRun with ⟨⟨k, hk, hAt⟩, -⟩
      rcases hAt.le with ⟨turns, hOrder, hLe, hHistory⟩
      exact ⟨turns, hOrder,
        fun l hl => Nat.le_trans (hLe l hl) hk, hHistory⟩

/- A run without such faults ends in the last phase. -/
theorem Climbs.ends
    {x : Prog σ φ ε α}
    (hx : Climbs G phase 0 j x P)
    (faults : Nat → φ)
    (hFaults : ∀ n, G (faults n)) :
    (x (Machine.start (phase 0) faults)).2.history.head? =
        some (phase 0) ∧
      (x (Machine.start (phase 0) faults)).2.history.getLast? =
        some (phase j) := by
  have hRun := hx _ (Machine.at_start phase faults)
  cases hResult : (x (Machine.start (phase 0) faults)).1 with
  | ok a =>
      rw [hResult] at hRun
      rcases hRun.2.1.past with ⟨turns, -, hHead, hLast, hPast⟩
      rw [Machine.history, hPast, List.head?_reverse,
        List.getLast?_reverse, List.getLast?_map,
        List.head?_map, hHead, hLast]
      exact ⟨rfl, rfl⟩
  | error e =>
      rw [hResult] at hRun
      exact absurd hFaults hRun.2

end

end General

------------------------------------------------------------
-- Interleavings
------------------------------------------------------------

namespace General

variable {σ : Type}
variable {phase : Nat → σ}
variable {i j k : Nat}

/- What one party sees, from time to time, of a history. -/
def Interleaves (history : List σ) (views : Nat → σ) : Prop :=
  ∃ times : Nat → Nat, Monotone times ∧
    ∀ n, history[times n]? = some (views n)

/- Views of phases from `i` to `j`, none after a later one. -/
def Sees
    (phase : Nat → σ)
    (i j : Nat)
    (views : Nat → σ) :
    Prop :=
  ∃ seen : Nat → Nat, Monotone seen ∧
    (∀ n, i ≤ seen n ∧ seen n ≤ j) ∧
      ∀ n, views n = phase (seen n)

/- The views after the first one. -/
def later (views : Nat → σ) : Nat → σ :=
  fun n => views (n + 1)

/- Of phases in their order none is seen after a later one. -/
theorem Interleaves.sees
    {turns : List Nat}
    (hOrder : turns.Pairwise (· ≤ ·))
    (hLe : ∀ k ∈ turns, k ≤ j)
    {views : Nat → σ}
    (hViews : Interleaves (turns.map phase) views) :
    Sees phase 0 j views := by
  rcases hViews with ⟨times, hTimes, hSees⟩
  have hTurn : ∀ n, ∃ k, turns[times n]? = some k ∧
      views n = phase k := by
    intro n
    have hSee := hSees n
    rw [List.getElem?_map, Option.map_eq_some_iff] at hSee
    rcases hSee with ⟨k, hk, hPhase⟩
    exact ⟨k, hk, hPhase.symm⟩
  choose seen hSeen hPhase using hTurn
  refine ⟨seen, fun m n hmn => ?_, fun n => ⟨Nat.zero_le _,
    hLe _ (List.mem_of_getElem? (hSeen n))⟩, hPhase⟩
  have hFirst := hSeen m
  have hSecond := hSeen n
  rcases (hTimes hmn).eq_or_lt with hSame | hLt
  · rw [hSame, hSecond] at hFirst
    exact (Option.some.inj hFirst).symm.le
  · rcases List.getElem?_eq_some_iff.mp hFirst with
      ⟨hm, hFirst⟩
    rcases List.getElem?_eq_some_iff.mp hSecond with
      ⟨hn, hSecond⟩
    have hTurns := List.pairwise_iff_getElem.mp hOrder
      (times m) (times n) hm hn hLt
    rw [hFirst, hSecond] at hTurns
    exact hTurns

/- The first state up to some time, and then the last. -/
theorem interleaves_jump
    {history : List σ}
    {first last : σ}
    (hFirst : history.head? = some first)
    (hLast : history.getLast? = some last)
    (time : Nat) :
    Interleaves history
      (fun n => if n < time then first else last) := by
  refine ⟨fun n => if n < time then 0 else
    history.length - 1, fun m n hLe => ?_, fun n => ?_⟩
  · dsimp only
    split_ifs with hm hn
    · exact Nat.le_refl 0
    · exact Nat.zero_le _
    · omega
    · exact Nat.le_refl _
  · dsimp only
    split_ifs with hn
    · rw [← List.head?_eq_getElem?]
      exact hFirst
    · rw [← List.getLast?_eq_getElem?]
      exact hLast

/- The last state all the time. -/
theorem interleaves_last
    {history : List σ}
    {last : σ}
    (hLast : history.getLast? = some last) :
    Interleaves history (fun _ => last) := by
  refine ⟨fun _ => history.length - 1, monotone_const,
    fun n => ?_⟩
  rw [← List.getLast?_eq_getElem?]
  exact hLast

/- The first view is a phase, and bounds the later ones. -/
theorem Sees.step
    {views : Nat → σ}
    (hSees : Sees phase i j views) :
    ∃ k, i ≤ k ∧ k ≤ j ∧ views 0 = phase k ∧
      Sees phase k j (later views) := by
  rcases hSees with ⟨seen, hSeen, hWithin, hPhase⟩
  exact ⟨seen 0, (hWithin 0).1, (hWithin 0).2, hPhase 0,
    fun n => seen (n + 1),
    fun m n hmn => hSeen (Nat.succ_le_succ hmn),
    fun n => ⟨hSeen (Nat.zero_le _), (hWithin _).2⟩,
    fun n => hPhase (n + 1)⟩

end General

------------------------------------------------------------
-- Readers
------------------------------------------------------------

namespace General

variable {σ ε α β : Type}

/- Programs that are shown a state for each of their reads. -/
abbrev Watching (σ ε : Type) : Type → Type :=
  StateT (Nat → σ) (Except ε)

/- One read, of the state that is shown next. -/
def look (f : σ → Except ε α) : Watching σ ε α :=
  fun views =>
    match f (views 0) with
    | .ok a => .ok (a, later views)
    | .error e => .error e

theorem Watching.bind_eq_ok_iff
    {x : Watching σ ε α}
    {f : α → Watching σ ε β}
    {views : Nat → σ}
    {r : β × (Nat → σ)} :
    (x >>= f) views = .ok r ↔
      ∃ a rest, x views = .ok (a, rest) ∧
        f a rest = .ok r := by
  have hBind : (x >>= f) views =
      (x views >>= fun r => f r.1 r.2) := rfl
  rw [hBind]
  rcases x views with e | ⟨a, rest⟩
  · simp [Bind.bind, Except.bind]
  · constructor
    · intro hOk
      exact ⟨a, rest, rfl, hOk⟩
    · rintro ⟨_, _, hRead, hOk⟩
      cases hRead
      exact hOk

/- What is the outcome of no reads. -/
theorem Watching.lift_eq_ok_iff
    {r : Except ε α}
    {views : Nat → σ}
    {a : α}
    {rest : Nat → σ} :
    (StateT.lift r : Watching σ ε α) views = .ok (a, rest) ↔
      r = .ok a ∧ rest = views := by
  cases r with
  | error e => simp [StateT.lift, bind, Except.bind]
  | ok b =>
      simp [StateT.lift, bind, Except.bind, pure, Except.pure,
        eq_comm]

/-
  Shown phases from `i` to `j`, a program that succeeds has
  `P` of its value and of a phase it has come to.
-/
def Watches
    (phase : Nat → σ)
    (i j : Nat)
    (x : Watching σ ε α)
    (P : α → Nat → Prop) :
    Prop :=
  ∀ views a rest, Sees phase i j views →
    x views = .ok (a, rest) →
      ∃ k, i ≤ k ∧ Sees phase k j rest ∧ P a k

section

variable {phase : Nat → σ}
variable {i j : Nat}
variable {P P' : α → Nat → Prop}
variable {Q : β → Nat → Prop}

theorem Watches.pure
    {a : α}
    (hP : P a i) :
    Watches phase i j (Pure.pure a : Watching σ ε α) P := by
  rintro views b rest hSees hOk
  cases hOk
  exact ⟨i, Nat.le_refl i, hSees, hP⟩

theorem Watches.lift
    {r : Except ε α}
    (hP : ∀ a, r = .ok a → P a i) :
    Watches phase i j (StateT.lift r : Watching σ ε α) P := by
  intro views a rest hSees hOk
  rcases Watching.lift_eq_ok_iff.mp hOk with ⟨hRead, rfl⟩
  exact ⟨i, Nat.le_refl i, hSees, hP a hRead⟩

theorem Watches.look
    {f : σ → Except ε α}
    (hP : ∀ a k, i ≤ k → k ≤ j → f (phase k) = .ok a →
      P a k) :
    Watches phase i j (General.look f) P := by
  intro views a rest hSees hOk
  rcases hSees.step with ⟨k, hik, hkj, hView, hLater⟩
  unfold General.look at hOk
  rw [hView] at hOk
  cases hRead : f (phase k) with
  | error e =>
      rw [hRead] at hOk
      cases hOk
  | ok b =>
      rw [hRead] at hOk
      cases hOk
      exact ⟨k, hik, hLater, hP a k hik hkj hRead⟩

theorem Watches.bind
    {x : Watching σ ε α}
    {f : α → Watching σ ε β}
    (hx : Watches phase i j x P)
    (hf : ∀ a k, i ≤ k → P a k → Watches phase k j (f a) Q) :
    Watches phase i j (x >>= f) Q := by
  intro views b rest hSees hOk
  rcases Watching.bind_eq_ok_iff.mp hOk with
    ⟨a, mid, hFirst, hSecond⟩
  rcases hx views a mid hSees hFirst with ⟨k, hik, hMid, hP⟩
  rcases hf a k hik hP mid b rest hMid hSecond with
    ⟨l, hkl, hRest, hQ⟩
  exact ⟨l, Nat.le_trans hik hkl, hRest, hQ⟩

theorem Watches.mono
    {x : Watching σ ε α}
    (hx : Watches phase i j x P)
    (hMono : ∀ a k, P a k → P' a k) :
    Watches phase i j x P' := by
  intro views a rest hSees hOk
  rcases hx views a rest hSees hOk with ⟨k, hik, hRest, hP⟩
  exact ⟨k, hik, hRest, hMono a k hP⟩

end

/- While it is shown the state `s` a program comes to `a`. -/
def Steady
    (s : σ)
    (x : Watching σ ε α)
    (a : α) :
    Prop :=
  ∃ reads, ∀ views : Nat → σ, (∀ n < reads, views n = s) →
    x views = .ok (a, fun n => views (n + reads))

section

variable {s s' : σ}

theorem Steady.pure (a : α) :
    Steady s (Pure.pure a : Watching σ ε α) a :=
  ⟨0, fun _ _ => rfl⟩

theorem Steady.lift
    {r : Except ε α}
    {a : α}
    (hOk : r = .ok a) :
    Steady s (StateT.lift r : Watching σ ε α) a :=
  ⟨0, fun _ _ => Watching.lift_eq_ok_iff.mpr ⟨hOk, rfl⟩⟩

theorem Steady.look
    {f : σ → Except ε α}
    {a : α}
    (hOk : f s = .ok a) :
    Steady s (General.look f) a := by
  refine ⟨1, fun views hViews => ?_⟩
  rw [General.look, hViews 0 Nat.zero_lt_one, hOk]
  rfl

theorem Steady.bind
    {x : Watching σ ε α}
    {f : α → Watching σ ε β}
    {a : α}
    {b : β}
    (hx : Steady s x a)
    (hf : Steady s (f a) b) :
    Steady s (x >>= f) b := by
  rcases hx with ⟨m, hx⟩
  rcases hf with ⟨n, hf⟩
  refine ⟨m + n, fun views hViews => ?_⟩
  refine Watching.bind_eq_ok_iff.mpr ⟨a, _,
    hx views (fun k hk => hViews k (by omega)), ?_⟩
  rw [hf _ (fun k hk => hViews _ (by omega))]
  simp only [Except.ok.injEq, Prod.mk.injEq, true_and]
  funext k
  congr 1
  omega

theorem Steady.exists_bind
    {x : Watching σ ε α}
    {f : α → Watching σ ε β}
    {a : α}
    (hx : Steady s x a)
    (hf : ∃ b, Steady s (f a) b) :
    ∃ b, Steady s (x >>= f) b := by
  rcases hf with ⟨b, hf⟩
  exact ⟨b, hx.bind hf⟩

/-
  While the state that is shown changes once, from `s` to
  `s'`, at some time a program comes to `a`.
-/
def Jumps
    (s s' : σ)
    (x : Watching σ ε α)
    (a : α) :
    Prop :=
  ∃ time, ∀ views : Nat → σ, (∀ n < time, views n = s) →
    (∀ n, time ≤ n → views n = s') →
      ∃ rest, (∀ n, rest n = s') ∧ x views = .ok (a, rest)

/- The change is between one part and the next. -/
theorem Steady.jump
    {x : Watching σ ε α}
    {f : α → Watching σ ε β}
    {a : α}
    {b : β}
    (hx : Steady s x a)
    (hf : Steady s' (f a) b) :
    Jumps s s' (x >>= f) b := by
  rcases hx with ⟨m, hx⟩
  rcases hf with ⟨n, hf⟩
  refine ⟨m, fun views hBefore hAfter => ?_⟩
  have hSecond := hf (fun k => views (k + m))
    (fun k _ => hAfter _ (by omega))
  exact ⟨_, fun k => hAfter _ (by omega),
    Watching.bind_eq_ok_iff.mpr
      ⟨a, _, hx views hBefore, hSecond⟩⟩

/- It is in the second part. -/
theorem Jumps.after
    {x : Watching σ ε α}
    {f : α → Watching σ ε β}
    {a : α}
    {b : β}
    (hx : Steady s x a)
    (hf : Jumps s s' (f a) b) :
    Jumps s s' (x >>= f) b := by
  rcases hx with ⟨m, hx⟩
  rcases hf with ⟨time, hf⟩
  refine ⟨m + time, fun views hBefore hAfter => ?_⟩
  rcases hf (fun k => views (k + m))
    (fun k hk => hBefore _ (by omega))
    (fun k hk => hAfter _ (by omega)) with ⟨rest, hRest, hOk⟩
  exact ⟨rest, hRest, Watching.bind_eq_ok_iff.mpr
    ⟨a, _, hx views (fun k hk => hBefore k (by omega)), hOk⟩⟩

/- It is in the first part. -/
theorem Jumps.bind
    {x : Watching σ ε α}
    {f : α → Watching σ ε β}
    {a : α}
    {b : β}
    (hx : Jumps s s' x a)
    (hf : Steady s' (f a) b) :
    Jumps s s' (x >>= f) b := by
  rcases hx with ⟨time, hx⟩
  rcases hf with ⟨n, hf⟩
  refine ⟨time, fun views hBefore hAfter => ?_⟩
  rcases hx views hBefore hAfter with ⟨rest, hRest, hOk⟩
  exact ⟨_, fun k => hRest _, Watching.bind_eq_ok_iff.mpr
    ⟨a, rest, hOk, hf rest (fun k _ => hRest k)⟩⟩

/- The views of such a run. -/
theorem Jumps.exists_views
    {x : Watching σ ε α}
    {a : α}
    (hx : Jumps s s' x a) :
    ∃ time rest, x (fun n => if n < time then s else s') =
      .ok (a, rest) := by
  rcases hx with ⟨time, hx⟩
  rcases hx (fun n => if n < time then s else s')
    (fun n hn => if_pos hn)
    (fun n hn => if_neg (Nat.not_lt.mpr hn)) with
    ⟨rest, -, hOk⟩
  exact ⟨time, rest, hOk⟩

end

end General
