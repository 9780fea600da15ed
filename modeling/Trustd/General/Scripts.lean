import Trustd.General.Fallible
import Trustd.General.Runs

/-
  Programs that share a state, one request at a time.

  A script says what is asked for next and how it goes on from
  every answer, so that others may be served between any two
  of its requests. Served alone it is a program whose steps
  are its requests.

  Key definitions include:
    * `General.Script`
    * `General.Script.prog`
    * `General.Script.Ends`
    * `General.Shared`
    * `General.Shared.move`
    * `General.Shared.journal`

  Key theorems include:
    * `General.Script.prog_bind`
    * `General.Script.Ends.bind`
    * `General.Shared.Kept.move`
    * `General.Shared.run_refines`
-/

------------------------------------------------------------
-- Scripts
------------------------------------------------------------

namespace General

/- What is asked for next, until the script ends. -/
inductive Script (O : Type) (R : O → Type) (ε α : Type) where
  | done (a : α)
  | fail (e : ε)
  | ask (o : O) (next : R o → Script O R ε α)

namespace Script

variable {O : Type}
variable {R : O → Type}
variable {σ φ ε ε' α β : Type}

def bind :
    Script O R ε α → (α → Script O R ε β) → Script O R ε β
  | done a, f => f a
  | fail e, _ => fail e
  | ask o next, f => ask o (fun r => (next r).bind f)

instance : Monad (Script O R ε) where
  pure := Script.done
  bind := Script.bind

/- Hand over the outcome. -/
def attempt : Script O R ε α → Script O R ε' (Except ε α)
  | done a => done (.ok a)
  | fail e => done (.error e)
  | ask o next => ask o (fun r => (next r).attempt)

/- Rewrite the error a script ends with. -/
def mapError (f : ε → ε') :
    Script O R ε α → Script O R ε' α
  | done a => done a
  | fail e => fail (f e)
  | ask o next => ask o (fun r => (next r).mapError f)

def ofExcept : Except ε α → Script O R ε α
  | .ok a => done a
  | .error e => fail e

/- The script where every request is a step of its own. -/
def prog (serve : (o : O) → φ → σ → R o × σ) :
    Script O R ε α → Prog σ φ ε α
  | done a => Prog.pure a
  | fail e => Prog.throw e
  | ask o next =>
      Prog.bind
        (Prog.step (fun fault s =>
          (.ok (serve o fault s).1, (serve o fault s).2)))
        (fun r => (next r).prog serve)

variable (serve : (o : O) → φ → σ → R o × σ)

@[simp] theorem prog_pure (a : α) :
    (Pure.pure a : Script O R ε α).prog serve =
      Pure.pure a := rfl

@[simp] theorem prog_fail (e : ε) :
    (fail e : Script O R ε α).prog serve = Prog.throw e := rfl

@[simp] theorem prog_bind
    (x : Script O R ε α)
    (f : α → Script O R ε β) :
    (x >>= f).prog serve =
      x.prog serve >>= fun a => (f a).prog serve := by
  induction x with
  | done a => rfl
  | fail e => rfl
  | ask o next ih =>
      funext m
      exact congrFun (ih _) _

@[simp] theorem prog_attempt (x : Script O R ε α) :
    (x.attempt : Script O R ε' (Except ε α)).prog serve =
      Prog.attempt (x.prog serve) := by
  induction x with
  | done a => rfl
  | fail e => rfl
  | ask o next ih =>
      funext m
      exact congrFun (ih _) _

@[simp] theorem prog_mapError
    (f : ε → ε')
    (x : Script O R ε α) :
    (x.mapError f).prog serve =
      Prog.mapError f (x.prog serve) := by
  induction x with
  | done a => rfl
  | fail e => rfl
  | ask o next ih =>
      funext m
      exact congrFun (ih _) _

/- A request whose answer is an outcome. -/
theorem prog_ask_ofExcept
    {o : O}
    (f : R o → Except ε α)
    {op : φ → σ → Except ε α × σ}
    (hServe : ∀ fault s,
      op fault s = (f (serve o fault s).1,
        (serve o fault s).2)) :
    (ask o (fun r => ofExcept (f r))).prog serve =
      Prog.step op := by
  funext m
  rw [prog]
  unfold Prog.bind Prog.step
  dsimp only
  rw [hServe]
  cases f (serve o (m.faults 0) m.state).1 with
  | ok a => rfl
  | error e => rfl

end Script

end General

------------------------------------------------------------
-- However It Is Answered
------------------------------------------------------------

namespace General

namespace Script

variable {O : Type}
variable {R : O → Type}
variable {δ ε ε' α β : Type}

/- A request and the answer to it. -/
abbrev Exchange (O : Type) (R : O → Type) : Type :=
  (o : O) × R o

/- What a script comes to by some exchanges. -/
inductive After :
    Script O R ε α → List (Exchange O R) →
      Script O R ε α → Prop where
  | start (x : Script O R ε α) : After x [] x
  | ask {o : O} {next : R o → Script O R ε α} {r : R o}
      {l : List (Exchange O R)} {x : Script O R ε α}
      (hRest : After (next r) l x) :
      After (Script.ask o next) (⟨o, r⟩ :: l) x

theorem After.snoc
    {x : Script O R ε α}
    {l : List (Exchange O R)}
    {o : O}
    {next : R o → Script O R ε α}
    (hAfter : After x l (Script.ask o next))
    (r : R o) :
    After x (l ++ [⟨o, r⟩]) (next r) := by
  generalize hLast : Script.ask o next = last at hAfter
  induction hAfter with
  | start x =>
      subst hLast
      exact After.ask (After.start _)
  | ask hRest ih => exact After.ask (ih hLast)

variable (P : O → Prop)
variable (A : Exchange O R → Prop)
variable (seen : Exchange O R → List δ)

/-
  However it is answered, by exchanges with `A`, the script
  asks only for what has `P`, and what is seen of them has `Q`
  with the value or `E` with the error it ends with.
-/
def Ends :
    Script O R ε α → (List δ → α → Prop) →
      (List δ → ε → Prop) → Prop
  | done a, Q, _ => Q [] a
  | fail e, _, E => E [] e
  | ask o next, Q, E =>
      P o ∧ ∀ r, A ⟨o, r⟩ → (next r).Ends
        (fun l a => Q (seen ⟨o, r⟩ ++ l) a)
        (fun l e => E (seen ⟨o, r⟩ ++ l) e)

variable {P}
variable {A}
variable {seen}

theorem Ends.mono
    {x : Script O R ε α}
    {Q Q' : List δ → α → Prop}
    {E E' : List δ → ε → Prop}
    (hEnds : x.Ends P A seen Q E)
    (hQ : ∀ l a, Q l a → Q' l a)
    (hE : ∀ l e, E l e → E' l e) :
    x.Ends P A seen Q' E' := by
  induction x generalizing Q Q' E E' with
  | done a => exact hQ [] a hEnds
  | fail e => exact hE [] e hEnds
  | ask o next ih =>
      refine ⟨hEnds.1, fun r hA =>
        ih r (hEnds.2 r hA) ?_ ?_⟩
      · exact fun l a => hQ _ a
      · exact fun l e => hE _ e

/- What follows is seen after what went before. -/
theorem Ends.bind
    {x : Script O R ε α}
    {f : α → Script O R ε β}
    {Q : List δ → β → Prop}
    {E : List δ → ε → Prop}
    (hEnds : x.Ends P A seen
      (fun l a => (f a).Ends P A seen
        (fun l' b => Q (l ++ l') b)
        (fun l' e => E (l ++ l') e)) E) :
    (x >>= f).Ends P A seen Q E := by
  induction x generalizing Q E with
  | done a => exact hEnds
  | fail e => exact hEnds
  | ask o next ih =>
      refine ⟨hEnds.1, fun r hA => ih r ?_⟩
      refine (hEnds.2 r hA).mono (fun l a hf => ?_)
        (fun _ _ hE => hE)
      refine hf.mono (fun l' b hQ => ?_) (fun l' e hE => ?_)
      · rwa [List.append_assoc] at hQ
      · rwa [List.append_assoc] at hE

theorem Ends.map
    {x : Script O R ε α}
    {f : α → β}
    {Q : List δ → β → Prop}
    {E : List δ → ε → Prop}
    (hEnds : x.Ends P A seen (fun l a => Q l (f a)) E) :
    (x >>= fun a => Pure.pure (f a)).Ends P A seen Q E := by
  refine Ends.bind (hEnds.mono (fun l a hQ => ?_)
    (fun _ _ hE => hE))
  rw [← List.append_nil l] at hQ
  exact hQ

theorem Ends.attempt
    {x : Script O R ε α}
    {Q : List δ → Except ε α → Prop}
    {E : List δ → ε' → Prop}
    (hEnds : x.Ends P A seen
      (fun l a => Q l (.ok a)) (fun l e => Q l (.error e))) :
    (x.attempt : Script O R ε' (Except ε α)).Ends P A seen
      Q E := by
  induction x generalizing Q E with
  | done a => exact hEnds
  | fail e => exact hEnds
  | ask o next ih =>
      exact ⟨hEnds.1, fun r hA => ih r (hEnds.2 r hA)⟩

theorem Ends.mapError
    {x : Script O R ε α}
    {f : ε → ε'}
    {Q : List δ → α → Prop}
    {E : List δ → ε' → Prop}
    (hEnds : x.Ends P A seen Q (fun l e => E l (f e))) :
    (x.mapError f).Ends P A seen Q E := by
  induction x generalizing Q E with
  | done a => exact hEnds
  | fail e => exact hEnds
  | ask o next ih =>
      exact ⟨hEnds.1, fun r hA => ih r (hEnds.2 r hA)⟩

/- A request whose answer is an outcome. -/
theorem Ends.ask_ofExcept
    {o : O}
    {f : R o → Except ε α}
    {Q : List δ → α → Prop}
    {E : List δ → ε → Prop}
    (hAsk : P o)
    (hQ : ∀ r a, A ⟨o, r⟩ → f r = .ok a →
      Q (seen ⟨o, r⟩) a)
    (hE : ∀ r e, A ⟨o, r⟩ → f r = .error e →
      E (seen ⟨o, r⟩) e) :
    (Script.ask o (fun r => ofExcept (f r))).Ends P A seen
      Q E := by
  refine ⟨hAsk, fun r hA => ?_⟩
  dsimp only
  cases hResult : f r with
  | ok a =>
      have hOne := hQ r a hA hResult
      rw [← List.append_nil (seen ⟨o, r⟩)] at hOne
      exact hOne
  | error e =>
      have hOne := hE r e hA hResult
      rw [← List.append_nil (seen ⟨o, r⟩)] at hOne
      exact hOne

/- The rest of a script does what is left to do. -/
theorem Ends.after
    {x x' : Script O R ε α}
    {l : List (Exchange O R)}
    (hAfter : After x l x')
    (hAnswers : ∀ e ∈ l, A e)
    {Q : List δ → α → Prop}
    {E : List δ → ε → Prop}
    (hEnds : x.Ends P A seen Q E) :
    x'.Ends P A seen (fun l' a => Q (l.flatMap seen ++ l') a)
      (fun l' e => E (l.flatMap seen ++ l') e) := by
  induction hAfter generalizing Q E with
  | start x => exact hEnds
  | ask hRest ih =>
      refine (ih
        (fun e he => hAnswers e (List.mem_cons_of_mem _ he))
        (hEnds.2 _ (hAnswers _ List.mem_cons_self))).mono
          (fun l' a hQ => ?_) (fun l' e hE => ?_)
      · rwa [List.flatMap_cons, List.append_assoc]
      · rwa [List.flatMap_cons, List.append_assoc]

end Script

end General

------------------------------------------------------------
-- Sharing A State
------------------------------------------------------------

namespace General

open Script

variable {κ σ φ O : Type}
variable {R : O → Type}
variable {δ ε α : Type}

/- A state, and what is left of every party's script. -/
structure Shared (κ σ : Type) (O : Type) (R : O → Type)
    (ε α : Type) where
  state : σ
  parties : List (κ × Script O R ε α)

/- A party comes in, or one of those there is served. -/
inductive Shared.Move (κ φ : Type) where
  | enter (party : κ)
  | turn (i : Nat) (fault : φ)

namespace Shared

/- A state that nobody works on yet. -/
def idle (state : σ) : Shared κ σ O R ε α :=
  { state, parties := [] }

section

variable (script : κ → Script O R ε α)
variable (serve : (o : O) → φ → σ → R o × σ)

/-
  A party that comes in has its whole script before it. One
  that is served is past its next request.
-/
def move (w : Shared κ σ O R ε α) :
    Move κ φ → Shared κ σ O R ε α
  | .enter party =>
      { w with parties := w.parties ++ [(party, script party)] }
  | .turn i fault =>
      match w.parties[i]? with
      | some (party, .ask o next) =>
          { state := (serve o fault w.state).2
            parties := w.parties.set i
              (party, next (serve o fault w.state).1) }
      | _ => w

/- The exchange of a move, and whose it is. -/
def exchanged (w : Shared κ σ O R ε α) :
    Move κ φ → List (Nat × Exchange O R)
  | .enter _ => []
  | .turn i fault =>
      match w.parties[i]? with
      | some (_, .ask o _) =>
          [(i, ⟨o, (serve o fault w.state).1⟩)]
      | _ => []

/- All that is seen, and of whom. -/
def journal
    (seen : Exchange O R → List δ)
    (w : Shared κ σ O R ε α)
    (moves : List (Move κ φ)) :
    List (Nat × δ) :=
  (observed (move script serve) (exchanged serve) w
    moves).flatMap (fun e => (seen e.2).map (fun d => (e.1, d)))

end

end Shared

/- The part of a log that is of one party. -/
def ofParty {γ : Type} (i : Nat) (log : List (Nat × γ)) :
    List γ :=
  (log.filter (fun e => e.1 = i)).map Prod.snd

@[simp] theorem ofParty_nil {γ : Type} (i : Nat) :
    ofParty i ([] : List (Nat × γ)) = [] := rfl

@[simp] theorem ofParty_append
    {γ : Type}
    (i : Nat)
    (a b : List (Nat × γ)) :
    ofParty i (a ++ b) = ofParty i a ++ ofParty i b := by
  unfold ofParty
  rw [List.filter_append, List.map_append]

theorem mem_ofParty
    {γ : Type}
    {i : Nat}
    {log : List (Nat × γ)}
    {g : γ}
    (hMem : g ∈ ofParty i log) :
    (i, g) ∈ log := by
  rcases List.mem_map.mp hMem with ⟨⟨j, g'⟩, he, rfl⟩
  rcases List.mem_filter.mp he with ⟨he, hSelf⟩
  rw [← of_decide_eq_true hSelf]
  exact he

theorem ofParty_self
    {γ : Type}
    (i : Nat)
    (l : List γ) :
    ofParty i (l.map (fun d => (i, d))) = l := by
  unfold ofParty
  rw [List.filter_eq_self.mpr (by simp), List.map_map]
  exact List.map_id l

theorem ofParty_other
    {γ : Type}
    {i j : Nat}
    (hOther : j ≠ i)
    (l : List γ) :
    ofParty i (l.map (fun d => (j, d))) = [] := by
  unfold ofParty
  rw [List.filter_eq_nil_iff.mpr (by simpa using
    fun _ _ => hOther), List.map_nil]

/- What is seen of one party is seen of its own exchanges. -/
theorem ofParty_flatMap
    {γ δ : Type}
    (seen : γ → List δ)
    (i : Nat)
    (log : List (Nat × γ)) :
    ofParty i (log.flatMap (fun e =>
      (seen e.2).map (fun d => (e.1, d)))) =
      (ofParty i log).flatMap seen := by
  induction log with
  | nil => rfl
  | cons e rest ih =>
      have hSplit : ofParty i (e :: rest) =
          ofParty i [e] ++ ofParty i rest :=
        ofParty_append i [e] rest
      rw [List.flatMap_cons, ofParty_append, ih, hSplit,
        List.flatMap_append]
      congr 1
      by_cases hSelf : e.1 = i
      · subst hSelf
        rw [ofParty_self]
        simp [ofParty]
      · rw [ofParty_other hSelf]
        simp [ofParty, hSelf]

end General

------------------------------------------------------------
-- Every Interleaving
------------------------------------------------------------

namespace General

open Script

namespace Shared

variable {κ σ φ O : Type}
variable {R : O → Type}
variable {δ ε α : Type}
variable {script : κ → Script O R ε α}
variable {serve : (o : O) → φ → σ → R o × σ}

/- Every party is where its own exchanges lead it. -/
def Kept
    (script : κ → Script O R ε α)
    (w : Shared κ σ O R ε α)
    (log : List (Nat × Exchange O R)) :
    Prop :=
  (∀ e ∈ log, e.1 < w.parties.length) ∧
    ∀ i party x, w.parties[i]? = some (party, x) →
      After (script party) (ofParty i log) x

theorem Kept.enter
    {w : Shared κ σ O R ε α}
    {log : List (Nat × Exchange O R)}
    (hKept : Kept script w log)
    (party : κ) :
    Kept script
      { w with parties := w.parties ++ [(party, script party)] }
      log := by
  constructor
  · intro e he
    have hOld := hKept.1 e he
    rw [List.length_append]
    omega
  · intro i own x hParty
    rcases Nat.lt_trichotomy i w.parties.length with
      hOld | rfl | hBeyond
    · rw [List.getElem?_append_left hOld] at hParty
      exact hKept.2 i own x hParty
    · -- one that has just come in has had no exchange
      rw [List.getElem?_append_right (Nat.le_refl _),
        Nat.sub_self] at hParty
      cases hParty
      have hNone : ofParty w.parties.length log = [] := by
        unfold ofParty
        rw [List.filter_eq_nil_iff.mpr, List.map_nil]
        intro e he
        have hOld := hKept.1 e he
        rw [decide_eq_true_eq]
        omega
      rw [hNone]
      exact After.start _
    · rw [List.getElem?_eq_none (by
        rw [List.length_append, List.length_singleton]
        omega)] at hParty
      cases hParty

theorem Kept.turn
    {w : Shared κ σ O R ε α}
    {log : List (Nat × Exchange O R)}
    (hKept : Kept script w log)
    {i : Nat}
    {party : κ}
    {o : O}
    {next : R o → Script O R ε α}
    (hTurn : w.parties[i]? = some (party, .ask o next))
    (state : σ)
    (r : R o) :
    Kept script
      { state, parties := w.parties.set i (party, next r) }
      (log ++ [(i, ⟨o, r⟩)]) := by
  have hThere : i < w.parties.length :=
    (List.getElem?_eq_some_iff.mp hTurn).1
  constructor
  · intro e he
    rw [List.length_set]
    rcases List.mem_append.mp he with he | he
    · exact hKept.1 e he
    · rw [List.mem_singleton.mp he]
      exact hThere
  · intro j own x hParty
    rw [ofParty_append]
    by_cases hSelf : i = j
    · subst hSelf
      rw [List.getElem?_set_self hThere] at hParty
      cases hParty
      have hOwn := ofParty_self i [(⟨o, r⟩ : Exchange O R)]
      rw [List.map_singleton] at hOwn
      rw [hOwn]
      exact (hKept.2 i party _ hTurn).snoc r
    · rw [List.getElem?_set_ne hSelf] at hParty
      have hNone := ofParty_other hSelf
        [(⟨o, r⟩ : Exchange O R)]
      rw [List.map_singleton] at hNone
      rw [hNone, List.append_nil]
      exact hKept.2 j own x hParty

theorem Kept.move
    {w : Shared κ σ O R ε α}
    {log : List (Nat × Exchange O R)}
    (hKept : Kept script w log)
    (m : Move κ φ) :
    Kept script (move script serve w m)
      (log ++ exchanged serve w m) := by
  cases m with
  | enter party =>
      rw [exchanged, List.append_nil]
      exact hKept.enter party
  | turn i fault =>
      unfold Shared.move exchanged
      dsimp only
      rcases hTurn : w.parties[i]? with _ | ⟨party, x⟩
      · rw [List.append_nil]
        exact hKept
      · cases x with
        | done a =>
            rw [List.append_nil]
            exact hKept
        | fail e =>
            rw [List.append_nil]
            exact hKept
        | ask o next => exact hKept.turn hTurn _ _

theorem kept_idle (state : σ) :
    Kept script (idle state : Shared κ σ O R ε α) [] := by
  constructor
  · intro e he
    cases he
  · intro i party x hParty
    cases hParty

variable {P : O → Prop}
variable {A : Exchange O R → Prop}
variable {seen : Exchange O R → List δ}
variable {ψ : Type}
variable {apply : ψ → δ → ψ}
variable {admits : ψ → δ → Prop}
variable {Rel : ψ → σ → Prop}
variable {Q : κ → List δ → α → Prop}
variable {E : κ → List δ → ε → Prop}

/-
  Requests with `P` are answered by exchanges with `A`, and
  what is seen of them is admitted by the state that is
  related, and leads it to one that is related again.
-/
structure Refines
    (serve : (o : O) → φ → σ → R o × σ)
    (P : O → Prop)
    (A : Exchange O R → Prop)
    (seen : Exchange O R → List δ)
    (apply : ψ → δ → ψ)
    (admits : ψ → δ → Prop)
    (Rel : ψ → σ → Prop) : Prop where
  answer : ∀ s o fault, A ⟨o, (serve o fault s).1⟩
  admitted : ∀ p s o fault, Rel p s → P o →
    Along apply admits p (seen ⟨o, (serve o fault s).1⟩)
  related : ∀ p s o fault, Rel p s → P o →
    Rel (run apply p (seen ⟨o, (serve o fault s).1⟩))
      (serve o fault s).2

/- What holds of a shared state and the exchanges so far. -/
structure Faithful
    (script : κ → Script O R ε α)
    (A : Exchange O R → Prop)
    (seen : Exchange O R → List δ)
    (apply : ψ → δ → ψ)
    (admits : ψ → δ → Prop)
    (Rel : ψ → σ → Prop)
    (p : ψ)
    (w : Shared κ σ O R ε α)
    (log : List (Nat × Exchange O R)) : Prop where
  kept : Kept script w log
  answers : ∀ e ∈ log, A e.2
  admitted : Along apply admits p
    (log.flatMap (fun e => seen e.2))
  related : Rel (run apply p (log.flatMap (fun e => seen e.2)))
    w.state

/- A party's script still ends as it was to end. -/
theorem Faithful.ends
    {p : ψ}
    {w : Shared κ σ O R ε α}
    {log : List (Nat × Exchange O R)}
    (hFaithful : Faithful script A seen apply admits Rel p w log)
    (hScript : ∀ party,
      (script party).Ends P A seen (Q party) (E party))
    {i : Nat}
    {party : κ}
    {x : Script O R ε α}
    (hParty : w.parties[i]? = some (party, x)) :
    x.Ends P A seen
      (fun l a => Q party
        ((ofParty i log).flatMap seen ++ l) a)
      (fun l e => E party
        ((ofParty i log).flatMap seen ++ l) e) :=
  Ends.after (hFaithful.kept.2 i party x hParty)
    (fun e he => hFaithful.answers (i, e) (mem_ofParty he))
    (hScript party)

/- One move keeps all of it. -/
theorem Faithful.move
    (hServe : Refines serve P A seen apply admits Rel)
    (hScript : ∀ party,
      (script party).Ends P A seen (Q party) (E party))
    {p : ψ}
    {w : Shared κ σ O R ε α}
    {log : List (Nat × Exchange O R)}
    (hFaithful : Faithful script A seen apply admits Rel p w log)
    (m : Move κ φ) :
    Faithful script A seen apply admits Rel p
      (Shared.move script serve w m)
      (log ++ exchanged serve w m) := by
  have hKept : Kept script (Shared.move script serve w m)
      (log ++ exchanged serve w m) :=
    hFaithful.kept.move m
  cases m with
  | enter party =>
      rw [exchanged, List.append_nil] at hKept ⊢
      exact ⟨hKept, hFaithful.answers, hFaithful.admitted,
        hFaithful.related⟩
  | turn i fault =>
      unfold Shared.move exchanged at hKept ⊢
      dsimp only at hKept ⊢
      rcases hTurn : w.parties[i]? with _ | ⟨party, x⟩
      · rw [List.append_nil]
        exact hFaithful
      · rw [hTurn] at hKept
        cases x with
        | done a =>
            rw [List.append_nil]
            exact hFaithful
        | fail e =>
            rw [List.append_nil]
            exact hFaithful
        | ask o next =>
            have hAsk : P o :=
              (hFaithful.ends hScript hTurn).1
            refine ⟨hKept, ?_, ?_, ?_⟩
            · intro e he
              rcases List.mem_append.mp he with he | he
              · exact hFaithful.answers e he
              · rw [List.mem_singleton.mp he]
                exact hServe.answer w.state o fault
            · rw [List.flatMap_append, along_append,
                List.flatMap_singleton]
              exact ⟨hFaithful.admitted, hServe.admitted _ _ o
                fault hFaithful.related hAsk⟩
            · rw [List.flatMap_append, run_append,
                List.flatMap_singleton]
              exact hServe.related _ _ o fault
                hFaithful.related hAsk

theorem run_faithful
    (hServe : Refines serve P A seen apply admits Rel)
    (hScript : ∀ party,
      (script party).Ends P A seen (Q party) (E party))
    {p : ψ}
    {state : σ}
    (hStart : Rel p state)
    (moves : List (Move κ φ)) :
    Faithful script A seen apply admits Rel p
      (run (Shared.move script serve) (idle state) moves)
      (observed (Shared.move script serve) (exchanged serve)
        (idle state) moves) := by
  refine run_invariant ⟨kept_idle state, ?_, trivial, hStart⟩
    (fun _ _ m hFaithful => hFaithful.move hServe hScript m)
    moves
  intro e he
  cases he

/- What is seen of everybody, in order. -/
theorem map_snd_journal
    (w : Shared κ σ O R ε α)
    (moves : List (Move κ φ)) :
    (journal script serve seen w moves).map Prod.snd =
      (observed (Shared.move script serve) (exchanged serve) w
        moves).flatMap (fun e => seen e.2) := by
  unfold journal
  rw [List.map_flatMap]
  congr 1
  funext e
  rw [List.map_map]
  exact List.map_id _

/-
  Where requests refine what is seen of them, the journal of
  every interleaving is a history that is admitted, and leads
  to what the shared state is related to; and of each party
  that ended as much is in it as its end says.
-/
theorem run_refines
    (hServe : Refines serve P A seen apply admits Rel)
    (hScript : ∀ party,
      (script party).Ends P A seen (Q party) (E party))
    {p : ψ}
    {state : σ}
    (hStart : Rel p state)
    (moves : List (Move κ φ)) :
    Along apply admits p
      ((journal script serve seen (idle state) moves).map
        Prod.snd) ∧
    Rel (run apply p
        ((journal script serve seen (idle state) moves).map
          Prod.snd))
      (run (Shared.move script serve) (idle state)
        moves).state ∧
    ∀ i party x,
      (run (Shared.move script serve) (idle state)
        moves).parties[i]? = some (party, x) →
      (∀ a, x = .done a → Q party (ofParty i
        (journal script serve seen (idle state) moves)) a) ∧
      (∀ e, x = .fail e → E party (ofParty i
        (journal script serve seen (idle state) moves)) e) := by
  have hFaithful := run_faithful hServe hScript hStart moves
  rw [map_snd_journal]
  refine ⟨hFaithful.admitted, hFaithful.related, ?_⟩
  intro i party x hParty
  have hOwn := ofParty_flatMap seen i (observed
    (Shared.move script serve) (exchanged serve)
    (idle state) moves)
  have hEnds := hFaithful.ends hScript hParty
  rw [journal, hOwn]
  constructor
  · rintro a rfl
    rw [Ends, List.append_nil] at hEnds
    exact hEnds
  · rintro e rfl
    rw [Ends, List.append_nil] at hEnds
    exact hEnds

end Shared

end General
