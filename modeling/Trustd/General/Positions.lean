import Mathlib.Data.List.Nodup
import Mathlib.Data.List.NodupEquivFin
import Mathlib.Data.Finset.Max

/-
  Positions written down from one list and removed, the last
  first, from what the list has become.

  Key definitions include:
    * `General.removeAt`
    * `General.sweep`
    * `General.picked`

  Key theorems include:
    * `General.sweep_nodup`
    * `General.sweep_eq_iff`
-/

------------------------------------------------------------
-- Removing
------------------------------------------------------------

namespace General

variable {α : Type}

/- Remove one position; there is no such position past it. -/
def removeAt (l : List α) (i : Nat) : Option (List α) :=
  if i < l.length then some (l.eraseIdx i) else none

/- Remove some positions one by one, from the last. -/
def sweep (positions : List Nat) (l : List α) :
    Option (List α) :=
  positions.reverse.foldlM removeAt l

/- What stands at some positions. -/
def picked (positions : List Nat) (l : List α) : List α :=
  positions.filterMap (fun i => l[i]?)

@[simp] theorem sweep_nil (l : List α) :
    sweep [] l = some l := rfl

theorem sweep_cons
    (i : Nat)
    (rest : List Nat)
    (l : List α) :
    sweep (i :: rest) l =
      (sweep rest l).bind (fun m => removeAt m i) := by
  unfold sweep
  rw [List.reverse_cons, List.foldlM_append]
  apply bind_congr
  intro m
  rw [List.foldlM_cons]
  exact bind_pure _

/- What is left is in the order it was in. -/
theorem sweep_sublist
    {positions : List Nat}
    {l m : List α}
    (hSweep : sweep positions l = some m) :
    m.Sublist l := by
  induction positions generalizing m with
  | nil =>
      cases hSweep
      exact List.Sublist.refl l
  | cons i rest ih =>
      rw [sweep_cons] at hSweep
      rcases Option.bind_eq_some_iff.mp hSweep with
        ⟨middle, hRest, hHere⟩
      unfold removeAt at hHere
      split_ifs at hHere
      cases hHere
      exact (List.eraseIdx_sublist _ _).trans (ih hRest)

theorem mem_picked
    {positions : List Nat}
    {l : List α}
    {a : α} :
    a ∈ picked positions l ↔
      ∃ i ∈ positions, l[i]? = some a := by
  unfold picked
  exact List.mem_filterMap

/- With no repetition each position has its own element. -/
theorem getElem?_inj_of_nodup
    {l : List α}
    (hNodup : l.Nodup)
    {i j : Nat}
    {a : α}
    (hLeft : l[i]? = some a)
    (hRight : l[j]? = some a) :
    i = j := by
  rcases List.getElem?_eq_some_iff.mp hLeft with ⟨hi, hLeft⟩
  rcases List.getElem?_eq_some_iff.mp hRight with ⟨hj, hRight⟩
  apply (hNodup.getElem_inj_iff).mp
  rw [hLeft, hRight]

theorem picked_cons
    {l : List α}
    {i : Nat}
    {a : α}
    (hHere : l[i]? = some a)
    (rest : List Nat) :
    picked (i :: rest) l = a :: picked rest l := by
  unfold picked
  exact List.filterMap_cons_some hHere

theorem removeAt_of_le
    {l : List α}
    {i : Nat}
    (hPast : l.length ≤ i) :
    removeAt l i = none := by
  unfold removeAt
  exact if_neg (Nat.not_lt.mpr hPast)

variable [DecidableEq α]

theorem removeAt_of_nodup
    {l : List α}
    (hNodup : l.Nodup)
    {i : Nat}
    {a : α}
    (hHere : l[i]? = some a) :
    removeAt l i = some (l.filter (fun b => b ≠ a)) := by
  rcases List.getElem?_eq_some_iff.mp hHere with ⟨hi, hEq⟩
  unfold removeAt
  rw [if_pos hi, ← hNodup.erase_getElem i hi, hEq,
    hNodup.erase_eq_filter]
  congr 1
  apply List.filter_congr
  intro b _
  exact (decide_not).symm

/- What is picked later leaves the elements before alone. -/
theorem take_prefix_filter
    {l : List α}
    (hNodup : l.Nodup)
    {i : Nat}
    {rest : List Nat}
    (hLater : ∀ j ∈ rest, i < j) :
    l.take (i + 1) <+:
      l.filter (fun a => a ∉ picked rest l) := by
  have hKept : (l.take (i + 1)).filter
      (fun a => a ∉ picked rest l) = l.take (i + 1) := by
    apply List.filter_eq_self.mpr
    intro a hMem
    rcases List.mem_iff_getElem?.mp hMem with ⟨k, hk⟩
    rw [List.getElem?_take] at hk
    split_ifs at hk with hLess
    apply decide_eq_true
    intro hPicked
    rcases mem_picked.mp hPicked with ⟨j, hj, hj'⟩
    have hSame := getElem?_inj_of_nodup hNodup hk hj'
    have hBefore := hLater j hj
    omega
  refine ⟨(l.drop (i + 1)).filter
    (fun a => a ∉ picked rest l), ?_⟩
  conv_lhs => rw [← hKept]
  rw [← List.filter_append, List.take_append_drop]

/-
  Sweeping a list without repetitions removes what stands at
  the positions, if they are all there.
-/
theorem sweep_nodup
    {positions : List Nat}
    (hSorted : positions.Pairwise (· < ·))
    {l : List α}
    (hNodup : l.Nodup) :
    sweep positions l =
      if ∀ i ∈ positions, i < l.length then
        some (l.filter (fun a => a ∉ picked positions l))
      else none := by
  induction positions with
  | nil => simp [picked]
  | cons i rest ih =>
      rcases List.pairwise_cons.mp hSorted with
        ⟨hLater, hRest⟩
      rw [sweep_cons, ih hRest]
      by_cases hAll : ∀ j ∈ rest, j < l.length
      · rw [if_pos hAll, Option.bind_some]
        by_cases hi : i < l.length
        · have hHere := List.getElem?_eq_getElem hi
          have hStays : (l.filter
              (fun a => a ∉ picked rest l))[i]? =
              some l[i] := by
            rcases take_prefix_filter hNodup hLater with
              ⟨tail, hTail⟩
            rw [← hTail, List.getElem?_append_left,
              List.getElem?_take_of_lt (Nat.lt_succ_self i),
              hHere]
            rw [List.length_take]
            omega
          have hMore : ∀ j ∈ i :: rest, j < l.length :=
            List.forall_mem_cons.mpr ⟨hi, hAll⟩
          rw [removeAt_of_nodup (hNodup.filter _) hStays,
            if_pos hMore, picked_cons hHere,
            List.filter_filter]
          congr 1
          apply List.filter_congr
          intro a _
          simp
        · have hPast := Nat.not_lt.mp hi
          rw [removeAt_of_le
            ((List.length_filter_le _ l).trans hPast),
            if_neg]
          intro hMore
          exact hi (hMore i List.mem_cons_self)
      · rw [if_neg hAll, if_neg]
        · rfl
        · intro hMore
          exact hAll (fun j hj =>
            hMore j (List.mem_cons_of_mem i hj))

end General

------------------------------------------------------------
-- Positions Of What A List Was
------------------------------------------------------------

namespace General

variable {α : Type}

/- An element is no further on in a part of a list. -/
theorem index_le_of_sublist
    {k s : List α}
    (hPart : k.Sublist s)
    (hNodup : s.Nodup)
    {i j : Nat}
    {a : α}
    (hLeft : k[i]? = some a)
    (hRight : s[j]? = some a) :
    i ≤ j := by
  rcases List.sublist_iff_exists_orderEmbedding_getElem?_eq.mp
    hPart with ⟨f, hf⟩
  have hThere := (hf i).symm.trans hLeft
  have hSame := getElem?_inj_of_nodup hNodup hThere hRight
  rw [← hSame]
  exact f.strictMono.le_apply

/- If one stays where it was, so do all before it. -/
theorem take_eq_of_sublist
    {k s : List α}
    (hPart : k.Sublist s)
    (hNodup : s.Nodup)
    {i : Nat}
    {a : α}
    (hLeft : k[i]? = some a)
    (hRight : s[i]? = some a) :
    k.take (i + 1) = s.take (i + 1) := by
  induction hPart generalizing i with
  | slnil => rfl
  | @cons k s b hPart ih =>
      rcases List.nodup_cons.mp hNodup with ⟨hFirst, hRest⟩
      cases i with
      | zero =>
          have hMem := hPart.subset (List.mem_of_getElem? hLeft)
          rw [List.getElem?_cons_zero] at hRight
          cases hRight
          exact absurd hMem hFirst
      | succ n =>
          rw [List.getElem?_cons_succ] at hRight
          have hLess := index_le_of_sublist hPart hRest hLeft
            hRight
          omega
  | @cons_cons k s b hPart ih =>
      cases i with
      | zero => rfl
      | succ n =>
          rw [List.getElem?_cons_succ] at hLeft hRight
          rw [List.take_succ_cons, List.take_succ_cons,
            ih (List.nodup_cons.mp hNodup).2 hLeft hRight]

/-
  Positions of one list are swept from what it has become,
  a part of it with others after: what is removed is what
  stood there if and only if the last of them, and all before
  it, still stand where they did.
-/
theorem sweep_eq_iff
    {s k n : List α}
    (hNodup : s.Nodup)
    (hPart : k.Sublist s)
    (hFresh : ∀ a ∈ n, a ∉ s)
    (hNow : (k ++ n).Nodup)
    {positions : List Nat}
    (hSorted : positions.Pairwise (· < ·))
    (hBounded : ∀ i ∈ positions, i < s.length)
    {stays : α → Bool}
    (hStays : ∀ a, stays a = true ↔
      a ∉ picked positions s) :
    sweep positions (k ++ n) =
        some ((k ++ n).filter stays) ↔
      ∀ i ∈ positions, s.take (i + 1) <+: k ++ n := by
  classical
  rw [sweep_nodup hSorted hNow]
  constructor
  · intro hExact i hMem
    by_cases hAll : ∀ j ∈ positions, j < (k ++ n).length
    · rw [if_pos hAll] at hExact
      have hSame : ∀ a ∈ k ++ n,
          a ∈ picked positions (k ++ n) →
            a ∈ picked positions s := by
        intro a hNow hPicked
        by_contra hNot
        have hKept : a ∈ (k ++ n).filter stays :=
          List.mem_filter.mpr ⟨hNow, (hStays a).mpr hNot⟩
        rw [← Option.some.inj hExact] at hKept
        exact of_decide_eq_true (List.mem_filter.mp hKept).2
          hPicked
      -- The last position tells of all before it.
      rcases positions.toFinset.exists_max_image id
        ⟨i, List.mem_toFinset.mpr hMem⟩ with
        ⟨m, hm, hMax⟩
      rw [List.mem_toFinset] at hm
      obtain ⟨a, hThere⟩ : ∃ a, (k ++ n)[m]? = some a :=
        ⟨_, List.getElem?_eq_getElem (hAll m hm)⟩
      rcases mem_picked.mp (hSame a
        (List.mem_of_getElem? hThere)
        (mem_picked.mpr ⟨m, hm, hThere⟩)) with ⟨j, hj, hOld⟩
      have hKept : m < k.length := by
        by_contra hNot
        rw [List.getElem?_append_right (Nat.not_lt.mp hNot)]
          at hThere
        exact hFresh a (List.mem_of_getElem? hThere)
          (List.mem_of_getElem? hOld)
      rw [List.getElem?_append_left hKept] at hThere
      have hLow := index_le_of_sublist hPart hNodup hThere hOld
      have hHigh := hMax j (List.mem_toFinset.mpr hj)
      have hSelf : j = m := le_antisymm hHigh hLow
      rw [hSelf] at hOld
      have hTake := take_eq_of_sublist hPart hNodup hThere hOld
      have hBefore : i + 1 ≤ m + 1 :=
        Nat.succ_le_succ (hMax i (List.mem_toFinset.mpr hMem))
      apply (List.take_prefix_take_left hBefore).trans
      rw [← hTake]
      exact (List.take_prefix _ _).trans
        (List.prefix_append k n)
    · rw [if_neg hAll] at hExact
      cases hExact
  · intro hStands
    have hSame : ∀ i ∈ positions, (k ++ n)[i]? = s[i]? := by
      intro i hMem
      rcases hStands i hMem with ⟨tail, hTail⟩
      have hLess := hBounded i hMem
      rw [← hTail, List.getElem?_append_left,
        List.getElem?_take_of_lt (Nat.lt_succ_self i)]
      rw [List.length_take]
      omega
    have hAll : ∀ i ∈ positions, i < (k ++ n).length := by
      intro i hMem
      have hOld := List.getElem?_eq_getElem (hBounded i hMem)
      rw [← hSame i hMem] at hOld
      exact (List.getElem?_eq_some_iff.mp hOld).1
    have hPicked : picked positions (k ++ n) =
        picked positions s := List.filterMap_congr hSame
    rw [if_pos hAll, hPicked]
    congr 1
    apply List.filter_congr
    intro a _
    exact Bool.eq_iff_iff.mpr
      (decide_eq_true_iff.trans (hStays a).symm)

end General
