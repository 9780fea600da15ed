import Mathlib.Data.List.Nodup
import Mathlib.Data.List.Sort

/-
  The first element of each key in a list, and a loop that
  keeps an element if its key is neither refused nor kept.

  Key definitions include:
    * `General.firsts`
    * `General.keepNew`
    * `General.repeats`

  Key theorems include:
    * `General.mem_firsts_iff`
    * `General.nodup_firsts`
    * `General.foldl_keepNew`
    * `General.repeats_snoc`
    * `General.mem_firsts_append_of_injective`
-/

------------------------------------------------------------
-- The First Of Each Key
------------------------------------------------------------

namespace General

variable {α κ : Type}
variable [DecidableEq κ]
variable (key : α → κ)

/- Of the elements of one key, the first. -/
def firsts : List α → List α
  | [] => []
  | a :: rest =>
      a :: (firsts rest).filter (fun b => key b ≠ key a)

variable {key}

theorem mem_firsts_cons_iff
    {a b : α}
    {rest : List α} :
    b ∈ firsts key (a :: rest) ↔
      b = a ∨ (b ∈ firsts key rest ∧ key b ≠ key a) := by
  rw [firsts, List.mem_cons, List.mem_filter,
    decide_eq_true_eq]

theorem mem_of_mem_firsts
    {l : List α}
    {a : α}
    (hFirst : a ∈ firsts key l) :
    a ∈ l := by
  induction l with
  | nil => exact hFirst
  | cons b rest ih =>
      rcases mem_firsts_cons_iff.mp hFirst with rfl | ⟨h, -⟩
      · exact List.mem_cons_self
      · exact List.mem_cons_of_mem b (ih h)

/- No key is without its first element. -/
variable (key) in
theorem exists_mem_firsts
    {l : List α}
    {a : α}
    (hMem : a ∈ l) :
    ∃ b ∈ firsts key l, key b = key a := by
  induction l with
  | nil => cases hMem
  | cons c rest ih =>
      by_cases hHead : key c = key a
      · exact ⟨c, mem_firsts_cons_iff.mpr (Or.inl rfl), hHead⟩
      · rcases List.mem_cons.mp hMem with rfl | hRest
        · exact absurd rfl hHead
        rcases ih hRest with ⟨b, hb, hKey⟩
        refine ⟨b, ?_, hKey⟩
        rw [mem_firsts_cons_iff, hKey]
        exact Or.inr ⟨hb, fun hSame => hHead hSame.symm⟩

/- The first element of a key is the one that is found. -/
theorem mem_firsts_of_find?
    {l : List α}
    {a : α}
    {k : κ}
    (hFound : l.find? (fun b => key b = k) = some a) :
    a ∈ firsts key l := by
  have hKey : key a = k := by
    simpa using List.find?_some hFound
  induction l with
  | nil => cases hFound
  | cons c rest ih =>
      rw [mem_firsts_cons_iff]
      by_cases hHead : key c = k
      · rw [List.find?_cons_of_pos (by simpa using hHead)]
          at hFound
        cases hFound
        exact Or.inl rfl
      · rw [List.find?_cons_of_neg (by simpa using hHead)]
          at hFound
        refine Or.inr ⟨ih hFound, fun hSame => hHead ?_⟩
        rw [← hSame, hKey]

theorem nodup_firsts (l : List α) :
    ((firsts key l).map key).Nodup := by
  induction l with
  | nil => exact List.nodup_nil
  | cons a rest ih =>
      rw [firsts, List.map_cons, List.nodup_cons]
      constructor
      · intro hMem
        rcases List.mem_map.mp hMem with ⟨b, hb, hKey⟩
        have hOther := (List.mem_filter.mp hb).2
        exact of_decide_eq_true hOther hKey
      · exact ih.sublist (List.filter_sublist.map key)

/- What stands in a list with nothing of its key before it. -/
theorem mem_firsts_iff
    {l : List α}
    {a : α} :
    a ∈ firsts key l ↔
      ∃ before after, l = before ++ a :: after ∧
        ∀ b ∈ before, key b ≠ key a := by
  induction l with
  | nil => simp [firsts]
  | cons c rest ih =>
      rw [mem_firsts_cons_iff, ih]
      constructor
      · rintro (rfl | ⟨⟨before, after, rfl, hBefore⟩, hKey⟩)
        · exact ⟨[], rest, rfl, by simp⟩
        · refine ⟨c :: before, after, rfl, ?_⟩
          rw [List.forall_mem_cons]
          exact ⟨fun hSame => hKey hSame.symm, hBefore⟩
      · rintro ⟨before, after, hList, hBefore⟩
        cases before with
        | nil =>
            rw [List.nil_append, List.cons.injEq] at hList
            exact Or.inl hList.1.symm
        | cons d before =>
            rw [List.cons_append, List.cons.injEq] at hList
            rcases hList with ⟨rfl, rfl⟩
            rw [List.forall_mem_cons] at hBefore
            exact Or.inr ⟨⟨before, after, rfl, hBefore.2⟩,
              fun hSame => hBefore.1 hSame.symm⟩

/-
  Where the elements of the first list are told apart by
  their keys, its order and its repetitions do not matter.
-/
theorem mem_firsts_append_of_injective
    {l m : List α}
    {a : α}
    (hInjective : ∀ b ∈ l, ∀ c ∈ l, key b = key c → b = c) :
    a ∈ firsts key (l ++ m) ↔
      a ∈ l ∨ (a ∈ firsts key m ∧ ∀ b ∈ l, key b ≠ key a) := by
  induction l with
  | nil => simp
  | cons c rest ih =>
      have hRest := ih (fun b hb d hd => hInjective b
        (List.mem_cons_of_mem c hb) d
        (List.mem_cons_of_mem c hd))
      rw [List.cons_append, mem_firsts_cons_iff, hRest,
        List.mem_cons, List.forall_mem_cons]
      by_cases hKey : key a = key c
      · constructor
        · rintro (rfl | ⟨-, hOther⟩)
          · exact Or.inl (Or.inl rfl)
          · exact absurd hKey hOther
        · rintro ((rfl | hMem) | ⟨-, hOther, -⟩)
          · exact Or.inl rfl
          · exact Or.inl (hInjective a
              (List.mem_cons_of_mem c hMem) c
              List.mem_cons_self hKey)
          · exact absurd hKey.symm hOther
      · have hApart : key c ≠ key a := fun hSame =>
          hKey hSame.symm
        have hNe : a ≠ c := by
          rintro rfl
          exact hKey rfl
        simp only [hNe, hKey, hApart, false_or, ne_eq,
          not_false_eq_true, and_true, true_and]

end General

------------------------------------------------------------
-- Keeping What Is New
------------------------------------------------------------

namespace General

variable {α κ : Type}
variable [DecidableEq κ]
variable (key : α → κ)
variable (refused : κ → Bool)

/- Keep an element of a key that is neither refused nor kept. -/
def keepNew (kept : List α) (a : α) : List α :=
  if refused (key a) then kept
  else if key a ∈ kept.map key then kept
  else kept ++ [a]

/- What a loop adds to what it had kept before. -/
theorem foldl_keepNew
    (kept l : List α) :
    l.foldl (keepNew key refused) kept =
      kept ++ (firsts key l).filter (fun a =>
        !refused (key a) && decide (key a ∉ kept.map key)) := by
  induction l generalizing kept with
  | nil => exact (List.append_nil kept).symm
  | cons a rest ih =>
      have hTail : ∀ p : κ → Bool, p (key a) = false →
          ((firsts key rest).filter (fun b =>
            key b ≠ key a)).filter (fun b => p (key b)) =
          (firsts key rest).filter (fun b => p (key b)) := by
        intro p hp
        rw [List.filter_filter]
        apply List.filter_congr
        intro b _
        by_cases hKey : key b = key a
        · rw [hKey, hp, Bool.false_and]
        · simp [hKey]
      rw [List.foldl_cons, ih, firsts, keepNew]
      split_ifs with hRefused hKept
      · have hHead := hTail (fun k =>
          !refused k && decide (k ∉ kept.map key)) (by
            simp [hRefused])
        rw [List.filter_cons_of_neg (by simp [hRefused]),
          hHead]
      · have hHead := hTail (fun k =>
          !refused k && decide (k ∉ kept.map key)) (by
            simp only [hKept, not_true_eq_false, decide_false,
              Bool.and_false])
        rw [List.filter_cons_of_neg (by
          simp only [hKept, not_true_eq_false, decide_false,
            Bool.and_false, Bool.false_eq_true,
            not_false_eq_true]), hHead]
      · rw [List.filter_cons_of_pos (by
          simp only [hRefused, hKept, not_false_eq_true,
            decide_true, Bool.not_false, Bool.and_self]),
          List.append_assoc, List.singleton_append,
          List.filter_filter]
        congr 2
        apply List.filter_congr
        intro b _
        rw [List.map_append, List.map_singleton]
        by_cases hKey : key b = key a
        · simp [hKey]
        · simp [hKey]

end General

------------------------------------------------------------
-- What Repeats A Key
------------------------------------------------------------

namespace General

variable {α κ : Type}
variable [DecidableEq κ]
variable (key : α → κ)

/- The elements of a key that is one of some, or seen before. -/
def repeatsAfter (seen : List κ) : List α → List α
  | [] => []
  | a :: rest =>
      if key a ∈ seen then a :: repeatsAfter seen rest
      else repeatsAfter (key a :: seen) rest

/- The elements whose key stands before them already. -/
def repeats (l : List α) : List α :=
  repeatsAfter key [] l

theorem repeatsAfter_snoc
    (seen : List κ)
    (l : List α)
    (a : α) :
    repeatsAfter key seen (l ++ [a]) =
      repeatsAfter key seen l ++
        if key a ∈ seen ∨ key a ∈ l.map key then [a]
        else [] := by
  induction l generalizing seen with
  | nil => simp [repeatsAfter]
  | cons b rest ih =>
      rw [List.cons_append, repeatsAfter, repeatsAfter, ih, ih]
      have hSame : key b ∈ seen →
          ((key a ∈ seen ∨ key a ∈ (b :: rest).map key) ↔
            key a ∈ seen ∨ key a ∈ rest.map key) := by
        intro hSeen
        rw [List.map_cons, List.mem_cons]
        constructor
        · rintro (hMem | hHead | hRest)
          · exact Or.inl hMem
          · exact Or.inl (hHead ▸ hSeen)
          · exact Or.inr hRest
        · rintro (hMem | hRest)
          · exact Or.inl hMem
          · exact Or.inr (Or.inr hRest)
      have hNew : (key a ∈ key b :: seen ∨
          key a ∈ rest.map key) ↔
            (key a ∈ seen ∨ key a ∈ (b :: rest).map key) := by
        rw [List.map_cons, List.mem_cons, List.mem_cons]
        tauto
      by_cases hSeen : key b ∈ seen
      · rw [if_pos hSeen, if_pos hSeen, List.cons_append]
        simp only [hSame hSeen]
      · rw [if_neg hSeen, if_neg hSeen]
        simp only [hNew]

theorem repeats_snoc
    (l : List α)
    (a : α) :
    repeats key (l ++ [a]) =
      repeats key l ++
        if key a ∈ l.map key then [a] else [] := by
  rw [repeats, repeatsAfter_snoc, repeats]
  simp only [List.not_mem_nil, false_or]

end General
