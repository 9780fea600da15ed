import Mathlib.Data.List.Forall2
import Mathlib.Data.List.Nodup

/-
  Named entries, where names are compared by what they fold
  to: a list that is read as a partial map from folded names.

  Key definitions include:
    * `General.entry`
    * `General.put`
    * `General.remove`
    * `General.Distinct`
    * `General.Alike`

  Key theorems include:
    * `General.entry_put`
    * `General.put_put`
    * `General.filter_put`
    * `General.entry_remove`
    * `General.Alike.put`
-/

------------------------------------------------------------
-- Reading An Entry
------------------------------------------------------------

namespace General

variable {α β γ : Type}
variable [DecidableEq γ]
variable (fold : α → γ)

/- What is entered under a name: the first entry of it. -/
def entry (l : List (α × β)) (a : α) : Option β :=
  (l.find? (fun e => fold e.1 = fold a)).map Prod.snd

/- No two entries have the same name. -/
def Distinct (l : List (α × β)) : Prop :=
  (l.map (fun e => fold e.1)).Nodup

instance (l : List (α × β)) : Decidable (Distinct fold l) :=
  inferInstanceAs (Decidable (List.Nodup _))

variable {fold}

@[simp] theorem entry_nil (a : α) :
    entry fold ([] : List (α × β)) a = none := rfl

theorem entry_cons
    (e : α × β)
    (l : List (α × β))
    (a : α) :
    entry fold (e :: l) a =
      if fold e.1 = fold a then some e.2
      else entry fold l a := by
  unfold entry
  by_cases hSame : fold e.1 = fold a
  · rw [if_pos hSame, List.find?_cons_of_pos (by simpa)]
    rfl
  · rw [if_neg hSame, List.find?_cons_of_neg (by simpa)]

/- Only what a name folds to matters. -/
theorem entry_congr
    {a a' : α}
    (hSame : fold a = fold a')
    (l : List (α × β)) :
    entry fold l a = entry fold l a' := by
  unfold entry
  rw [hSame]

theorem mem_of_entry
    {l : List (α × β)}
    {a : α}
    {b : β}
    (hEntry : entry fold l a = some b) :
    ∃ n, (n, b) ∈ l ∧ fold n = fold a := by
  rcases Option.map_eq_some_iff.mp hEntry with
    ⟨⟨n, b'⟩, hFind, rfl⟩
  refine ⟨n, List.mem_of_find?_eq_some hFind, ?_⟩
  simpa using List.find?_some hFind

theorem entry_eq_none_iff
    {l : List (α × β)}
    {a : α} :
    entry fold l a = none ↔ ∀ e ∈ l, fold e.1 ≠ fold a := by
  unfold entry
  rw [Option.map_eq_none_iff, List.find?_eq_none]
  simp

/- A name that is listed has an entry. -/
theorem exists_entry
    (fold : α → γ)
    {l : List (α × β)}
    {e : α × β}
    (hMem : e ∈ l) :
    ∃ b, entry fold l e.1 = some b := by
  cases hEntry : entry fold l e.1 with
  | none => exact absurd rfl (entry_eq_none_iff.mp hEntry e hMem)
  | some b => exact ⟨b, rfl⟩

/- Where names are distinct it is its own. -/
theorem Distinct.entry_of_mem
    {l : List (α × β)}
    (hDistinct : Distinct fold l)
    {e : α × β}
    (hMem : e ∈ l) :
    entry fold l e.1 = some e.2 := by
  induction l with
  | nil => cases hMem
  | cons x rest ih =>
      rcases List.nodup_cons.mp hDistinct with ⟨hNew, hRest⟩
      rw [entry_cons]
      rcases List.mem_cons.mp hMem with rfl | hMem
      · rw [if_pos rfl]
      · have hOther : fold x.1 ≠ fold e.1 := fun hSame =>
          hNew (List.mem_map.mpr ⟨e, hMem, hSame.symm⟩)
        rw [if_neg hOther, ih hRest hMem]

end General

------------------------------------------------------------
-- Writing An Entry
------------------------------------------------------------

namespace General

variable {α β γ : Type}
variable [DecidableEq γ]
variable (fold : α → γ)

/-
  Write an entry: in the place of the one that has the name,
  under the name it has there, or else at the end.
-/
def put : List (α × β) → α → β → List (α × β)
  | [], a, b => [(a, b)]
  | e :: rest, a, b =>
      if fold e.1 = fold a then (e.1, b) :: rest
      else e :: put rest a b

/- The name that an entry is written under. -/
def nameIn (l : List (α × β)) (a : α) : α :=
  ((l.find? (fun e => fold e.1 = fold a)).map Prod.fst).getD a

/- Delete the entries that have a name. -/
def remove (l : List (α × β)) (a : α) : List (α × β) :=
  l.filter (fun e => fold e.1 ≠ fold a)

variable {fold}

/- Written as a partial map is updated. -/
theorem entry_put
    (l : List (α × β))
    (a a' : α)
    (b : β) :
    entry fold (put fold l a b) a' =
      if fold a = fold a' then some b
      else entry fold l a' := by
  induction l with
  | nil => rw [put, entry_cons]
  | cons e rest ih =>
      rw [put, entry_cons]
      by_cases hHere : fold e.1 = fold a
      · rw [if_pos hHere, entry_cons, hHere]
        split_ifs with hSame
        · rfl
        · rfl
      · rw [if_neg hHere, entry_cons, ih]
        by_cases hSame : fold a = fold a'
        · rw [if_pos hSame, if_pos hSame,
            if_neg (by rwa [← hSame])]
        · rw [if_neg hSame, if_neg hSame]

/- The later of two writings is the one that counts. -/
theorem put_put
    (l : List (α × β))
    (a : α)
    (b b' : β) :
    put fold (put fold l a b) a b' = put fold l a b' := by
  induction l with
  | nil => simp [put]
  | cons e rest ih =>
      by_cases hHere : fold e.1 = fold a
      · simp [put, hHere]
      · simp [put, hHere, ih]

theorem fold_nameIn
    (l : List (α × β))
    (a : α) :
    fold (nameIn fold l a) = fold a := by
  unfold nameIn
  cases hFind : l.find? (fun e => fold e.1 = fold a) with
  | none => rfl
  | some e => simpa using List.find?_some hFind

theorem nameIn_cons
    (e : α × β)
    (l : List (α × β))
    (a : α) :
    nameIn fold (e :: l) a =
      if fold e.1 = fold a then e.1 else nameIn fold l a := by
  unfold nameIn
  by_cases hSame : fold e.1 = fold a
  · rw [if_pos hSame, List.find?_cons_of_pos (by simpa)]
    rfl
  · rw [if_neg hSame, List.find?_cons_of_neg (by simpa)]

/- Entries of other names stay, in their order. -/
theorem remove_put
    (l : List (α × β))
    (a : α)
    (b : β) :
    remove fold (put fold l a b) a = remove fold l a := by
  unfold remove
  induction l with
  | nil => simp [put]
  | cons e rest ih =>
      by_cases hHere : fold e.1 = fold a
      · simp [put, hHere]
      · rw [put, if_neg hHere, List.filter_cons, ih,
          List.filter_cons]

/- The name has the one entry that was written. -/
theorem filter_put
    {l : List (α × β)}
    (hDistinct : Distinct fold l)
    (a : α)
    (b : β) :
    (put fold l a b).filter (fun e => fold e.1 = fold a) =
      [(nameIn fold l a, b)] := by
  induction l with
  | nil => simp [put, nameIn]
  | cons e rest ih =>
      rcases List.nodup_cons.mp hDistinct with ⟨hNew, hRest⟩
      rw [put, nameIn_cons]
      by_cases hHere : fold e.1 = fold a
      · have hOthers :
            rest.filter (fun x => fold x.1 = fold a) = [] := by
          rw [List.filter_eq_nil_iff]
          intro x hx hSame
          have hSame : fold x.1 = fold a := by simpa using hSame
          apply hNew
          exact List.mem_map.mpr
            ⟨x, hx, hSame.trans hHere.symm⟩
        rw [if_pos hHere, if_pos hHere,
          List.filter_cons_of_pos (by simpa), hOthers]
      · rw [if_neg hHere, if_neg hHere,
          List.filter_cons_of_neg (by simpa), ih hRest]

theorem nameIn_of_mem
    {l : List (α × β)}
    (hDistinct : Distinct fold l)
    {e : α × β}
    (hMem : e ∈ l)
    {a : α}
    (hSame : fold e.1 = fold a) :
    nameIn fold l a = e.1 := by
  induction l with
  | nil => cases hMem
  | cons x rest ih =>
      rcases List.nodup_cons.mp hDistinct with ⟨hNew, hRest⟩
      rw [nameIn_cons]
      rcases List.mem_cons.mp hMem with rfl | hMem
      · rw [if_pos hSame]
      · have hOther : fold x.1 ≠ fold a := fun hHere =>
          hNew (List.mem_map.mpr
            ⟨e, hMem, hSame.trans hHere.symm⟩)
        rw [if_neg hOther, ih hRest hMem]

theorem nameIn_of_not_mem
    {l : List (α × β)}
    {a : α}
    (hNone : ∀ e ∈ l, fold e.1 ≠ fold a) :
    nameIn fold l a = a := by
  have hFind : l.find? (fun e => fold e.1 = fold a) = none :=
    List.find?_eq_none.mpr (fun e he => by
      simpa using hNone e he)
  rw [nameIn, hFind]
  rfl

/- Nothing is written under a name but the one given. -/
theorem name_of_mem_put
    {l : List (α × β)}
    {a : α}
    {b : β}
    {e : α × β}
    (hMem : e ∈ put fold l a b) :
    e.1 = a ∨ ∃ x ∈ l, e.1 = x.1 := by
  induction l with
  | nil =>
      rw [List.mem_singleton.mp hMem]
      exact Or.inl rfl
  | cons x rest ih =>
      rw [put] at hMem
      split_ifs at hMem with hHere
      · rcases List.mem_cons.mp hMem with rfl | hMem
        · exact Or.inr ⟨x, List.mem_cons_self, rfl⟩
        · exact Or.inr
            ⟨e, List.mem_cons_of_mem x hMem, rfl⟩
      · rcases List.mem_cons.mp hMem with rfl | hMem
        · exact Or.inr ⟨e, List.mem_cons_self, rfl⟩
        · rcases ih hMem with hNew | ⟨y, hy, hSame⟩
          · exact Or.inl hNew
          · exact Or.inr
              ⟨y, List.mem_cons_of_mem x hy, hSame⟩

theorem map_fold_put
    (l : List (α × β))
    (a : α)
    (b : β) :
    (put fold l a b).map (fun e => fold e.1) =
      if ∃ e ∈ l, fold e.1 = fold a then
        l.map (fun e => fold e.1)
      else l.map (fun e => fold e.1) ++ [fold a] := by
  induction l with
  | nil => simp [put]
  | cons e rest ih =>
      by_cases hHere : fold e.1 = fold a
      · simp [put, hHere]
      · by_cases hLater : ∃ x ∈ rest, fold x.1 = fold a
        · rw [put, if_neg hHere, List.map_cons, ih,
            if_pos hLater, if_pos, List.map_cons]
          rcases hLater with ⟨x, hx, hSame⟩
          exact ⟨x, List.mem_cons_of_mem e hx, hSame⟩
        · rw [put, if_neg hHere, List.map_cons, ih,
            if_neg hLater, if_neg]
          · rfl
          · rintro ⟨x, hx, hSame⟩
            rcases List.mem_cons.mp hx with rfl | hx
            · exact hHere hSame
            · exact hLater ⟨x, hx, hSame⟩

theorem Distinct.put
    {l : List (α × β)}
    (hDistinct : Distinct fold l)
    (a : α)
    (b : β) :
    Distinct fold (put fold l a b) := by
  unfold Distinct
  rw [map_fold_put]
  split_ifs with hThere
  · exact hDistinct
  · rw [List.nodup_append]
    refine ⟨hDistinct, List.nodup_singleton _, ?_⟩
    intro c hc d hd hSame
    rcases List.mem_map.mp hc with ⟨e, he, rfl⟩
    rw [List.mem_singleton.mp hd] at hSame
    exact hThere ⟨e, he, hSame⟩

theorem mem_remove
    {l : List (α × β)}
    {a : α}
    {e : α × β} :
    e ∈ remove fold l a ↔ e ∈ l ∧ fold e.1 ≠ fold a := by
  unfold remove
  simp

/- The one entry written, and those of other names. -/
theorem mem_put_iff
    {l : List (α × β)}
    (hDistinct : Distinct fold l)
    {a : α}
    {b : β}
    {e : α × β} :
    e ∈ put fold l a b ↔
      e = (nameIn fold l a, b) ∨
        (e ∈ l ∧ fold e.1 ≠ fold a) := by
  by_cases hSame : fold e.1 = fold a
  · have hFilter : e ∈ put fold l a b ↔
        e ∈ (put fold l a b).filter
          (fun x => fold x.1 = fold a) := by
      rw [List.mem_filter]
      simp [hSame]
    rw [hFilter, filter_put hDistinct, List.mem_singleton]
    simp [hSame]
  · have hOthers : e ∈ put fold l a b ↔ e ∈ remove fold l a := by
      rw [← remove_put l a b, mem_remove]
      simp [hSame]
    rw [hOthers, mem_remove]
    constructor
    · exact Or.inr
    · rintro (rfl | hMem)
      · exact absurd (fold_nameIn l a) hSame
      · exact hMem

theorem Distinct.remove
    {l : List (α × β)}
    (hDistinct : Distinct fold l)
    (a : α) :
    Distinct fold (remove fold l a) :=
  List.Nodup.sublist
    (List.Sublist.map _ List.filter_sublist) hDistinct

/- Deleted as a partial map is restricted. -/
theorem entry_remove
    (l : List (α × β))
    (a a' : α) :
    entry fold (remove fold l a) a' =
      if fold a = fold a' then none
      else entry fold l a' := by
  unfold remove
  induction l with
  | nil => simp
  | cons e rest ih =>
      by_cases hHere : fold e.1 = fold a
      · rw [List.filter_cons_of_neg (by simpa), ih,
          entry_cons, hHere]
        split_ifs with hSame
        · rfl
        · rfl
      · rw [List.filter_cons_of_pos (by simpa), entry_cons,
          ih, entry_cons]
        by_cases hSame : fold a = fold a'
        · rw [if_pos hSame, if_pos hSame,
            if_neg (by rwa [← hSame])]
        · rw [if_neg hSame, if_neg hSame]

end General

------------------------------------------------------------
-- Entries Under Other Names
------------------------------------------------------------

namespace General

variable {α α' β β' γ : Type}
variable [DecidableEq γ]
variable {fold : α' → γ}
variable {g : α → α'}
variable {S : β → β' → Prop}

/- Entries with `g` of the names, and what is entered alike. -/
def Alike
    (g : α → α')
    (S : β → β' → Prop) :
    List (α × β) → List (α' × β') → Prop :=
  List.Forall₂ (fun e e' => e'.1 = g e.1 ∧ S e.2 e'.2)

/- One reads of them what one reads of the others. -/
theorem Alike.entry
    {l : List (α × β)}
    {l' : List (α' × β')}
    (hAlike : Alike g S l l')
    (a : α) :
    Option.Rel S (entry (fun n => fold (g n)) l a)
      (entry fold l' (g a)) := by
  induction hAlike with
  | nil => exact Option.Rel.none
  | cons hHead hTail ih =>
      rw [entry_cons, entry_cons, hHead.1]
      split_ifs
      · exact Option.Rel.some hHead.2
      · exact ih

theorem Alike.put
    {l : List (α × β)}
    {l' : List (α' × β')}
    (hAlike : Alike g S l l')
    (a : α)
    {b : β}
    {b' : β'}
    (hWritten : S b b') :
    Alike g S (put (fun n => fold (g n)) l a b)
      (put fold l' (g a) b') := by
  induction hAlike with
  | nil => exact List.Forall₂.cons ⟨rfl, hWritten⟩ .nil
  | cons hHead hTail ih =>
      rw [General.put, General.put, hHead.1]
      split_ifs
      · exact List.Forall₂.cons ⟨rfl, hWritten⟩ hTail
      · exact List.Forall₂.cons hHead ih

theorem Alike.remove
    {l : List (α × β)}
    {l' : List (α' × β')}
    (hAlike : Alike g S l l')
    (a : α) :
    Alike g S (remove (fun n => fold (g n)) l a)
      (remove fold l' (g a)) := by
  unfold General.remove
  induction hAlike with
  | nil => exact .nil
  | cons hHead hTail ih =>
      rw [List.filter_cons, List.filter_cons, hHead.1]
      split_ifs
      · exact List.Forall₂.cons hHead ih
      · exact ih

omit [DecidableEq γ] in
theorem Alike.distinct
    {l : List (α × β)}
    {l' : List (α' × β')}
    (hAlike : Alike g S l l')
    (hDistinct : Distinct (fun n => fold (g n)) l) :
    Distinct fold l' := by
  have hNames : l'.map (fun e => fold e.1) =
      l.map (fun e => fold (g e.1)) := by
    clear hDistinct
    induction hAlike with
    | nil => rfl
    | cons hHead hTail ih =>
        rw [List.map_cons, List.map_cons, ih, hHead.1]
  rw [Distinct, hNames]
  exact hDistinct

/- What is there on one side is on the other. -/
theorem exists_of_rel
    {x : Option β}
    {b' : β'}
    (hRel : Option.Rel S x (some b')) :
    ∃ b, x = some b ∧ S b b' := by
  cases x with
  | none => cases hRel
  | some b =>
      cases hRel with
      | some hSome => exact ⟨b, rfl, hSome⟩

theorem rel_getD
    {x : Option β}
    {y : Option β'}
    (hRel : Option.Rel S x y)
    {b : β}
    {b' : β'}
    (hDefault : S b b') :
    S (x.getD b) (y.getD b') := by
  cases hRel with
  | none => exact hDefault
  | some hSome => exact hSome

end General
