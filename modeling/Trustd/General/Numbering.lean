import Mathlib.Data.List.Nodup
import Mathlib.Logic.Function.Basic

/-
  Numbering the elements of a list, those of each key apart.

  Key definitions include:
    * `General.numbered`

  Key theorems include:
    * `General.numbers_of_key`
    * `General.nodup_numbered`
    * `General.append_cons_inj_last`
-/

------------------------------------------------------------
-- Numbers
------------------------------------------------------------

namespace General

variable {α β : Type}
variable [DecidableEq β]
variable (key : α → β)

/-
  Each element with the number of those of its key before it,
  where so many of each were seen already.
-/
def numbered (seen : β → Nat) : List α → List (α × Nat)
  | [] => []
  | a :: l =>
      (a, seen (key a)) ::
        numbered (Function.update seen (key a)
          (seen (key a) + 1)) l

theorem map_fst_numbered
    (seen : β → Nat)
    (l : List α) :
    (numbered key seen l).map Prod.fst = l := by
  induction l generalizing seen with
  | nil => rfl
  | cons a l ih => rw [numbered, List.map_cons, ih]

/- The numbers of one key run up from what was seen. -/
theorem numbers_of_key
    (seen : β → Nat)
    (l : List α)
    (b : β) :
    ((numbered key seen l).filter
        (fun p => key p.1 = b)).map Prod.snd =
      List.range' (seen b)
        (l.countP (fun a => key a = b)) := by
  induction l generalizing seen with
  | nil => rfl
  | cons a l ih =>
      rw [numbered]
      by_cases hKey : key a = b
      · rw [List.filter_cons_of_pos (by simpa using hKey),
          List.countP_cons_of_pos (by simpa using hKey),
          List.map_cons, ih, List.range'_succ, ← hKey,
          Function.update_self]
      · rw [List.filter_cons_of_neg (by simpa using hKey),
          List.countP_cons_of_neg (by simpa using hKey), ih,
          Function.update_of_ne (Ne.symm hKey)]

/- A key comes with every number that is its turn. -/
theorem mem_numbered_iff
    {seen : β → Nat}
    {l : List α}
    {b : β}
    {n : Nat} :
    (∃ a, (a, n) ∈ numbered key seen l ∧ key a = b) ↔
      seen b ≤ n ∧
        n < seen b + l.countP (fun a => key a = b) := by
  rw [← List.mem_range'_1, ← numbers_of_key key seen l b,
    List.mem_map]
  constructor
  · rintro ⟨a, hMem, hKey⟩
    exact ⟨(a, n), List.mem_filter.mpr
      ⟨hMem, decide_eq_true hKey⟩, rfl⟩
  · rintro ⟨⟨a, k⟩, hMem, rfl⟩
    rcases List.mem_filter.mp hMem with ⟨hMem, hKey⟩
    exact ⟨a, hMem, of_decide_eq_true hKey⟩

/- No key comes with one number twice. -/
theorem nodup_numbered
    (seen : β → Nat)
    (l : List α) :
    ((numbered key seen l).map
      (fun p => (key p.1, p.2))).Nodup := by
  induction l generalizing seen with
  | nil => exact List.nodup_nil
  | cons a l ih =>
      rw [numbered, List.map_cons]
      refine List.nodup_cons.mpr ⟨fun hMem => ?_, ih _⟩
      rcases List.mem_map.mp hMem with ⟨⟨x, n⟩, hMem, hPair⟩
      rw [Prod.mk.injEq] at hPair
      rcases hPair with ⟨hKey, rfl⟩
      have hTurn := ((mem_numbered_iff key).mp
        ⟨x, hMem, hKey⟩).1
      rw [Function.update_self] at hTurn
      exact absurd hTurn (Nat.not_succ_le_self _)

/- A list is cut at the last of its separators in one way. -/
omit [DecidableEq β] in
theorem append_cons_inj_last
    {sep : α}
    {l l' r r' : List α}
    (hr : sep ∉ r)
    (hr' : sep ∉ r')
    (hSame : l ++ sep :: r = l' ++ sep :: r') :
    l = l' ∧ r = r' := by
  rcases List.append_eq_append_iff.mp hSame with
    ⟨t, hl, ht⟩ | ⟨t, hl, ht⟩
  · cases t with
    | nil =>
        rw [List.append_nil] at hl
        exact ⟨hl.symm, (List.cons.inj ht).2⟩
    | cons x t =>
        rw [List.cons_append, List.cons.injEq] at ht
        exact absurd (ht.2 ▸ List.mem_append_right t
          List.mem_cons_self) hr
  · cases t with
    | nil =>
        rw [List.append_nil] at hl
        exact ⟨hl, (List.cons.inj ht).2.symm⟩
    | cons x t =>
        rw [List.cons_append, List.cons.injEq] at ht
        exact absurd (ht.2 ▸ List.mem_append_right t
          List.mem_cons_self) hr'

end General
