import Mathlib.Data.List.Nodup
import Mathlib.Data.List.Chain

/-
  A board that shows one value at a time to those who listen.

  Everyone has a number of their own. Whoever is waiting may
  leave, be told something, or be given a copy of the value
  and become a listener; at each change of the value all the
  listeners are told something, and those who were given a
  copy stay.

  Key definitions include:
    * `General.Board`
    * `General.Keeps`
    * `General.Changes`
    * `General.Informed`

  Key theorems include:
    * `General.Informed.keep`
    * `General.Informed.change`
-/

------------------------------------------------------------
-- Boards
------------------------------------------------------------

namespace General

/-
  The value and its version, who waits and who listens in
  which form, and all that was told to anyone.
-/
structure Board (β ρ μ : Type) where
  version : Nat
  value : β
  next : Nat
  waiting : List Nat
  listeners : List (Nat × ρ)
  told : List (Nat × μ)

variable {β ρ μ : Type}

/- What was told to one of them. -/
def toldTo (id : Nat) (told : List (Nat × μ)) : List μ :=
  (told.filter (fun x => x.1 = id)).map Prod.snd

/- The same to each of some messages. -/
def addressed (id : Nat) (messages : List μ) :
    List (Nat × μ) :=
  messages.map (fun m => (id, m))

/- Everyone who is there. -/
def Board.names (b : Board β ρ μ) : List Nat :=
  b.waiting ++ b.listeners.map Prod.fst

@[simp] theorem toldTo_append
    (id : Nat)
    (a b : List (Nat × μ)) :
    toldTo id (a ++ b) = toldTo id a ++ toldTo id b := by
  unfold toldTo
  rw [List.filter_append, List.map_append]

theorem toldTo_addressed
    (id : Nat)
    (messages : List μ) :
    toldTo id (addressed id messages) = messages := by
  unfold toldTo addressed
  rw [List.filter_eq_self.mpr]
  · rw [List.map_map]
    exact List.map_id _
  · intro x hMem
    rcases List.mem_map.mp hMem with ⟨m, _, rfl⟩
    exact decide_eq_true rfl

/- Of what was told to others there is nothing. -/
theorem toldTo_eq_nil
    {id : Nat}
    {told : List (Nat × μ)}
    (hOthers : ∀ x ∈ told, x.1 ≠ id) :
    toldTo id told = [] := by
  unfold toldTo
  rw [List.filter_eq_nil_iff.mpr]
  · rfl
  · intro x hMem hSame
    exact hOthers x hMem (of_decide_eq_true hSame)

theorem toldTo_addressed_other
    {id other : Nat}
    (hOther : other ≠ id)
    (messages : List μ) :
    toldTo id (addressed other messages) = [] := by
  apply toldTo_eq_nil
  intro x hMem
  rcases List.mem_map.mp hMem with ⟨m, _, rfl⟩
  exact hOther

/- In a round of all, each is told what is theirs. -/
theorem toldTo_round
    {listeners : List (Nat × ρ)}
    (hNodup : (listeners.map Prod.fst).Nodup)
    (messages : Nat × ρ → List μ)
    {l : Nat × ρ}
    (hMem : l ∈ listeners) :
    toldTo l.1 (listeners.flatMap
      (fun x => addressed x.1 (messages x))) =
        messages l := by
  induction listeners with
  | nil => cases hMem
  | cons first rest ih =>
      rw [List.map_cons, List.nodup_cons] at hNodup
      rw [List.flatMap_cons, toldTo_append]
      have hRest : ∀ id, id ∉ rest.map Prod.fst →
          toldTo id (rest.flatMap
            (fun x => addressed x.1 (messages x))) = [] := by
        intro id hAbsent
        apply toldTo_eq_nil
        intro x hx hSame
        rcases List.mem_flatMap.mp hx with ⟨y, hy, hxy⟩
        rcases List.mem_map.mp hxy with ⟨m, _, rfl⟩
        apply hAbsent
        rw [← hSame]
        exact List.mem_map_of_mem hy
      rcases List.mem_cons.mp hMem with rfl | hLater
      · rw [toldTo_addressed, hRest _ hNodup.1,
          List.append_nil]
      · have hOther : first.1 ≠ l.1 := by
          intro hSame
          apply hNodup.1
          rw [hSame]
          exact List.mem_map_of_mem hLater
        rw [toldTo_addressed_other hOther,
          ih hNodup.2 hLater, List.nil_append]

end General

------------------------------------------------------------
-- What Can Happen
------------------------------------------------------------

namespace General

variable {β ρ μ : Type}
variable (Copy : Nat → β → ρ → List μ → Prop)

/- What can happen while the value stays. -/
inductive Keeps (b : Board β ρ μ) : Board β ρ μ → Prop where
  | arrive :
      Keeps b { b with
        next := b.next + 1
        waiting := b.waiting ++ [b.next + 1] }
  | leave
      {waiting : List Nat}
      (hPart : waiting.Sublist b.waiting) :
      Keeps b { b with waiting }
  | depart
      {listeners : List (Nat × ρ)}
      (hPart : listeners.Sublist b.listeners) :
      Keeps b { b with listeners }
  | farewell
      {id : Nat}
      (hAbsent : id ∉ b.names)
      (hKnown : id ≤ b.next)
      (messages : List μ) :
      Keeps b { b with
        told := b.told ++ addressed id messages }
  | join
      {id : Nat}
      {form : ρ}
      {messages : List μ}
      (hWaits : id ∈ b.waiting)
      (hCopy : Copy b.version b.value form messages) :
      Keeps b { b with
        waiting := b.waiting.filter (fun x => x ≠ id)
        listeners := b.listeners ++ [(id, form)]
        told := b.told ++ addressed id messages }

/- A change of the value. -/
structure Changes (b b' : Board β ρ μ) : Prop where
  version : b'.version = b.version + 1
  next : b'.next = b.next
  waiting : b'.waiting = b.waiting
  listeners : b'.listeners.Sublist b.listeners
  told : ∃ messages : Nat × ρ → List μ,
    b'.told = b.told ++ b.listeners.flatMap
      (fun l => addressed l.1 (messages l)) ∧
    ∀ l ∈ b'.listeners,
      Copy b'.version b'.value l.2 (messages l)

/- One copy that was given, of which value. -/
structure Given (β μ : Type) where
  version : Nat
  value : β
  messages : List μ

/-
  Some messages are copies of values that were shown, of one
  version after the other, the last of them of the value that
  is shown now.
-/
def UpToDate
    (shown : List (Nat × β))
    (version : Nat)
    (value : β)
    (form : ρ)
    (messages : List μ) :
    Prop :=
  ∃ (earlier : List (Given β μ)) (last : Given β μ),
    messages =
      (earlier ++ [last]).flatMap Given.messages ∧
    (earlier ++ [last]).IsChain
      (fun c d => d.version = c.version + 1) ∧
    (∀ c ∈ earlier ++ [last],
      (c.version, c.value) ∈ shown ∧
        Copy c.version c.value form c.messages) ∧
    last.version = version ∧ last.value = value

/- What holds of a board and the values it has shown. -/
structure Informed
    (b : Board β ρ μ)
    (shown : List (Nat × β)) : Prop where
  distinct : b.names.Nodup
  known : ∀ id ∈ b.names, id ≤ b.next
  told : ∀ x ∈ b.told, x.1 ≤ b.next
  silent : ∀ id ∈ b.waiting, toldTo id b.told = []
  listeners : ∀ l ∈ b.listeners,
    UpToDate Copy shown b.version b.value l.2
      (toldTo l.1 b.told)
  current : (b.version, b.value) ∈ shown
  latest : ∀ x ∈ shown, x.1 ≤ b.version
  unique : ∀ x ∈ shown, ∀ y ∈ shown, x.1 = y.1 → x = y

end General

------------------------------------------------------------
-- What Stays True
------------------------------------------------------------

namespace General

variable {β ρ μ : Type}
variable {Copy : Nat → β → ρ → List μ → Prop}
variable {b b' : Board β ρ μ}
variable {shown : List (Nat × β)}

theorem UpToDate.mono
    {more : List (Nat × β)}
    (hMore : ∀ x ∈ shown, x ∈ more)
    {version : Nat}
    {value : β}
    {form : ρ}
    {messages : List μ}
    (hDate : UpToDate Copy shown version value form messages) :
    UpToDate Copy more version value form messages := by
  rcases hDate with
    ⟨earlier, last, hEq, hOrder, hCopies, hLast⟩
  refine ⟨earlier, last, hEq, hOrder, ?_, hLast⟩
  intro c hMem
  exact ⟨hMore _ (hCopies c hMem).1, (hCopies c hMem).2⟩

/- The first copy one is given. -/
theorem UpToDate.first
    {version : Nat}
    {value : β}
    {form : ρ}
    {messages : List μ}
    (hShown : (version, value) ∈ shown)
    (hCopy : Copy version value form messages) :
    UpToDate Copy shown version value form messages := by
  refine ⟨[], ⟨version, value, messages⟩, ?_,
    List.isChain_singleton _, ?_, rfl, rfl⟩
  · exact (List.append_nil _).symm
  · intro c hMem
    rw [List.mem_singleton.mp hMem]
    exact ⟨hShown, hCopy⟩

/- One more copy, of the next value. -/
theorem UpToDate.next
    {version version' : Nat}
    {value value' : β}
    {form : ρ}
    {messages more : List μ}
    (hDate : UpToDate Copy shown version value form messages)
    (hLater : version' = version + 1)
    (hShown : (version', value') ∈ shown)
    (hCopy : Copy version' value' form more) :
    UpToDate Copy shown version' value' form
      (messages ++ more) := by
  rcases hDate with
    ⟨earlier, last, hEq, hOrder, hCopies, hLast, _⟩
  refine ⟨earlier ++ [last], ⟨version', value', more⟩, ?_,
    ?_, ?_, rfl, rfl⟩
  · rw [hEq]
    apply Eq.trans _ List.flatMap_append.symm
    exact congrArg _ (List.append_nil more).symm
  · rw [List.append_assoc]
    apply List.isChain_append_cons_cons.mpr
    refine ⟨hOrder, ?_, List.isChain_singleton _⟩
    rw [hLast]
    exact hLater
  · intro c hMem
    rcases List.mem_append.mp hMem with hBefore | hHere
    · exact hCopies c hBefore
    · rw [List.mem_singleton.mp hHere]
      exact ⟨hShown, hCopy⟩

theorem mem_names_of_waiting
    {id : Nat}
    (hMem : id ∈ b.waiting) :
    id ∈ b.names := by
  unfold Board.names
  exact List.mem_append_left _ hMem

theorem mem_names_of_listener
    {l : Nat × ρ}
    (hMem : l ∈ b.listeners) :
    l.1 ∈ b.names := by
  unfold Board.names
  exact List.mem_append_right _ (List.mem_map_of_mem hMem)

/- Telling one who is not there is heard by no one else. -/
theorem toldTo_farewell
    {id other : Nat}
    (hAbsent : id ∉ b.names)
    (hThere : other ∈ b.names)
    (messages : List μ) :
    toldTo other (b.told ++ addressed id messages) =
      toldTo other b.told := by
  have hOther : id ≠ other := by
    rintro rfl
    exact hAbsent hThere
  rw [toldTo_append, toldTo_addressed_other hOther,
    List.append_nil]

/- A board that no one has come to yet. -/
theorem informed_fresh
    (hWaiting : b.waiting = [])
    (hListeners : b.listeners = [])
    (hTold : b.told = []) :
    Informed Copy b [(b.version, b.value)] := by
  have hNames : b.names = [] := by
    unfold Board.names
    rw [hWaiting, hListeners]
    rfl
  exact {
    distinct := by
      rw [hNames]
      exact List.nodup_nil
    known := by
      rw [hNames]
      exact fun _ hMem => absurd hMem List.not_mem_nil
    told := by
      rw [hTold]
      exact fun _ hMem => absurd hMem List.not_mem_nil
    silent := by
      rw [hWaiting]
      exact fun _ hMem => absurd hMem List.not_mem_nil
    listeners := by
      rw [hListeners]
      exact fun _ hMem => absurd hMem List.not_mem_nil
    current := List.mem_cons_self
    latest := by
      intro x hMem
      rw [List.mem_singleton.mp hMem]
    unique := by
      intro x hx y hy _
      rw [List.mem_singleton.mp hx, List.mem_singleton.mp hy] }

/- Those who are there and are told nothing more. -/
theorem Informed.part
    (hInformed : Informed Copy b shown)
    {waiting : List Nat}
    {listeners : List (Nat × ρ)}
    (hWaiting : waiting.Sublist b.waiting)
    (hListeners : listeners.Sublist b.listeners) :
    Informed Copy { b with waiting, listeners } shown := by
  have hNames : Board.names { b with waiting, listeners }
      |>.Sublist b.names :=
    hWaiting.append (hListeners.map Prod.fst)
  exact {
    distinct := hInformed.distinct.sublist hNames
    known := fun id hMem =>
      hInformed.known id (hNames.subset hMem)
    told := hInformed.told
    silent := fun id hMem =>
      hInformed.silent id (hWaiting.subset hMem)
    listeners := fun l hMem =>
      hInformed.listeners l (hListeners.subset hMem)
    current := hInformed.current
    latest := hInformed.latest
    unique := hInformed.unique }

theorem Informed.arrive
    (hInformed : Informed Copy b shown) :
    Informed Copy { b with
      next := b.next + 1
      waiting := b.waiting ++ [b.next + 1] } shown := by
  have hNew : b.next + 1 ∉ b.names := by
    intro hMem
    have hOld := hInformed.known _ hMem
    omega
  have hPerm : (Board.names { b with
      next := b.next + 1
      waiting := b.waiting ++ [b.next + 1] }).Perm
      ((b.next + 1) :: b.names) := by
    unfold Board.names
    rw [List.append_assoc]
    exact List.perm_middle
  exact {
    distinct := by
      rw [hPerm.nodup_iff]
      exact List.nodup_cons.mpr ⟨hNew, hInformed.distinct⟩
    known := by
      intro id hMem
      rcases List.mem_cons.mp (hPerm.mem_iff.mp hMem) with
        rfl | hOld
      · exact le_rfl
      · exact (hInformed.known id hOld).trans (Nat.le_succ _)
    told := fun x hMem =>
      (hInformed.told x hMem).trans (Nat.le_succ _)
    silent := by
      intro id hMem
      rcases List.mem_append.mp hMem with hOld | hHere
      · exact hInformed.silent id hOld
      · rw [List.mem_singleton.mp hHere]
        apply toldTo_eq_nil
        intro x hx hSame
        have hKnown := hInformed.told x hx
        omega
    listeners := hInformed.listeners
    current := hInformed.current
    latest := hInformed.latest
    unique := hInformed.unique }

theorem Informed.farewell
    (hInformed : Informed Copy b shown)
    {id : Nat}
    (hAbsent : id ∉ b.names)
    (hKnown : id ≤ b.next)
    (messages : List μ) :
    Informed Copy { b with
      told := b.told ++ addressed id messages } shown := by
  exact {
    distinct := hInformed.distinct
    known := hInformed.known
    told := by
      intro x hMem
      rcases List.mem_append.mp hMem with hOld | hHere
      · exact hInformed.told x hOld
      · rcases List.mem_map.mp hHere with ⟨m, _, rfl⟩
        exact hKnown
    silent := by
      intro other hMem
      change toldTo other (_ ++ _) = []
      rw [toldTo_farewell hAbsent (mem_names_of_waiting hMem)]
      exact hInformed.silent other hMem
    listeners := by
      intro l hMem
      change UpToDate _ _ _ _ _ (toldTo l.1 (_ ++ _))
      rw [toldTo_farewell hAbsent (mem_names_of_listener hMem)]
      exact hInformed.listeners l hMem
    current := hInformed.current
    latest := hInformed.latest
    unique := hInformed.unique }

/- One that was waiting listens from now on. -/
theorem Informed.listen
    (hInformed : Informed Copy b shown)
    {id : Nat}
    {form : ρ}
    (hAbsent : id ∉ b.names)
    (hKnown : id ≤ b.next)
    (hDate : UpToDate Copy shown b.version b.value form
      (toldTo id b.told)) :
    Informed Copy { b with
      listeners := b.listeners ++ [(id, form)] } shown := by
  have hPerm : (Board.names { b with
      listeners := b.listeners ++ [(id, form)] }).Perm
      (id :: b.names) := by
    unfold Board.names
    rw [List.map_append, ← List.append_assoc]
    exact List.perm_append_singleton id _
  exact {
    distinct := by
      rw [hPerm.nodup_iff]
      exact List.nodup_cons.mpr ⟨hAbsent, hInformed.distinct⟩
    known := by
      intro other hMem
      rcases List.mem_cons.mp (hPerm.mem_iff.mp hMem) with
        rfl | hOld
      · exact hKnown
      · exact hInformed.known other hOld
    told := hInformed.told
    silent := hInformed.silent
    listeners := by
      intro l hMem
      rcases List.mem_append.mp hMem with hOld | hHere
      · exact hInformed.listeners l hOld
      · rw [List.mem_singleton.mp hHere]
        exact hDate
    current := hInformed.current
    latest := hInformed.latest
    unique := hInformed.unique }

/- Whoever waits and then leaves is not there any more. -/
theorem Informed.absent_of_left
    (hInformed : Informed Copy b shown)
    {id : Nat}
    (hWaits : id ∈ b.waiting) :
    id ∉ Board.names { b with
      waiting := b.waiting.filter (fun x => x ≠ id) } := by
  intro hMem
  rcases List.mem_append.mp hMem with hStill | hListens
  · exact of_decide_eq_true (List.mem_filter.mp hStill).2 rfl
  · have hDistinct := hInformed.distinct
    unfold Board.names at hDistinct
    exact (List.nodup_append.mp hDistinct).2.2 id hWaits id
      hListens rfl

/- What can happen while the value stays keeps all this. -/
theorem Informed.keep
    (hInformed : Informed Copy b shown)
    (hKeeps : Keeps Copy b b') :
    Informed Copy b' shown := by
  cases hKeeps with
  | arrive => exact hInformed.arrive
  | leave hPart =>
      exact hInformed.part hPart (List.Sublist.refl _)
  | depart hPart =>
      exact hInformed.part (List.Sublist.refl _) hPart
  | farewell hAbsent hKnown messages =>
      exact hInformed.farewell hAbsent hKnown messages
  | @join id form messages hWaits hCopy =>
      have hKnown := hInformed.known id
        (mem_names_of_waiting hWaits)
      have hAbsent := hInformed.absent_of_left hWaits
      have hLeft := hInformed.part (List.filter_sublist
        (p := fun x => x ≠ id) (l := b.waiting))
        (List.Sublist.refl b.listeners)
      have hTold := hLeft.farewell hAbsent hKnown messages
      apply hTold.listen hAbsent hKnown
      change UpToDate _ _ _ _ _ (toldTo id (_ ++ _))
      rw [toldTo_append, hInformed.silent id hWaits,
        toldTo_addressed, List.nil_append]
      exact UpToDate.first hInformed.current hCopy

/- No one comes by a change. -/
theorem Changes.names
    (hChanges : Changes Copy b b') :
    b'.names.Sublist b.names := by
  unfold Board.names
  rw [hChanges.waiting]
  exact (List.Sublist.refl _).append
    (hChanges.listeners.map Prod.fst)

/- A change of the value reaches everyone who stays. -/
theorem Informed.change
    (hInformed : Informed Copy b shown)
    (hChanges : Changes Copy b b') :
    Informed Copy b' (shown ++ [(b'.version, b'.value)]) := by
  rcases hChanges.told with ⟨messages, hTold, hCopies⟩
  have hNames := hChanges.names
  have hDistinct : (b.listeners.map Prod.fst).Nodup := by
    have hAll := hInformed.distinct
    unfold Board.names at hAll
    exact (List.nodup_append.mp hAll).2.1
  have hOlder : ∀ x ∈ shown, x.1 ≠ b'.version := by
    intro x hMem
    have hLate := hInformed.latest x hMem
    have hLess := hChanges.version
    omega
  exact {
    distinct := hInformed.distinct.sublist hNames
    known := by
      intro id hMem
      rw [hChanges.next]
      exact hInformed.known id (hNames.subset hMem)
    told := by
      intro x hMem
      rw [hChanges.next]
      rw [hTold] at hMem
      rcases List.mem_append.mp hMem with hOld | hNew
      · exact hInformed.told x hOld
      · rcases List.mem_flatMap.mp hNew with ⟨l, hl, hx⟩
        rcases List.mem_map.mp hx with ⟨m, _, rfl⟩
        exact hInformed.known l.1 (mem_names_of_listener hl)
    silent := by
      intro id hMem
      rw [hChanges.waiting] at hMem
      rw [hTold, toldTo_append, hInformed.silent id hMem,
        List.nil_append]
      apply toldTo_eq_nil
      intro x hx hSame
      rcases List.mem_flatMap.mp hx with ⟨l, hl, hxl⟩
      rcases List.mem_map.mp hxl with ⟨m, _, rfl⟩
      have hAll := hInformed.distinct
      unfold Board.names at hAll
      exact (List.nodup_append.mp hAll).2.2 id hMem l.1
        (List.mem_map_of_mem hl) hSame.symm
    listeners := by
      intro l hMem
      have hOld := hChanges.listeners.subset hMem
      rw [hTold, toldTo_append,
        toldTo_round hDistinct messages hOld]
      have hBefore := (hInformed.listeners l hOld).mono
        (fun x hx => List.mem_append_left
          [(b'.version, b'.value)] hx)
      apply hBefore.next hChanges.version
      · exact List.mem_append_right _ List.mem_cons_self
      · exact hCopies l hMem
    current := List.mem_append_right _ List.mem_cons_self
    latest := by
      intro x hMem
      rcases List.mem_append.mp hMem with hOld | hHere
      · rw [hChanges.version]
        exact (hInformed.latest x hOld).trans (Nat.le_succ _)
      · rw [List.mem_singleton.mp hHere]
    unique := by
      intro x hx y hy hSame
      rcases List.mem_append.mp hx with hx | hx
      · rcases List.mem_append.mp hy with hy | hy
        · exact hInformed.unique x hx y hy hSame
        · rw [List.mem_singleton.mp hy] at hSame
          exact absurd hSame (hOlder x hx)
      · rcases List.mem_append.mp hy with hy | hy
        · rw [List.mem_singleton.mp hx] at hSame
          exact absurd hSame.symm (hOlder y hy)
        · rw [List.mem_singleton.mp hx,
            List.mem_singleton.mp hy] }

/- What is shown may be written down once more. -/
theorem Informed.again
    (hInformed : Informed Copy b shown) :
    Informed Copy b (shown ++ [(b.version, b.value)]) := by
  have hSame : ∀ x, x ∈ shown ++ [(b.version, b.value)] ↔
      x ∈ shown := by
    intro x
    constructor
    · intro hMem
      rcases List.mem_append.mp hMem with hOld | hHere
      · exact hOld
      · rw [List.mem_singleton.mp hHere]
        exact hInformed.current
    · exact List.mem_append_left _
  exact { hInformed with
    listeners := fun l hMem =>
      (hInformed.listeners l hMem).mono
        (fun x hx => (hSame x).mpr hx)
    current := (hSame _).mpr hInformed.current
    latest := fun x hx =>
      hInformed.latest x ((hSame x).mp hx)
    unique := fun x hx y hy =>
      hInformed.unique x ((hSame x).mp hx) y
        ((hSame y).mp hy) }

end General
