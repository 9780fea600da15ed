import Trustd.General.Lists

/-
  Lists cut at separators, and when what was joined with a
  separator comes apart again into what was joined.

  Key definitions include:
    * `General.splitAt`
    * `General.pieces`

  Key theorems include:
    * `General.splitAt_append`
    * `General.flatten_splitAt`
    * `General.flatMap_pieces_eq_iff`
    * `General.pieces_terminated_eq_iff`
-/

------------------------------------------------------------
-- Cutting
------------------------------------------------------------

namespace General

variable {α : Type}
variable (p : α → Bool)

/- Cut a list at each of its separators. -/
def splitAt : List α → List (List α)
  | [] => [[]]
  | a :: rest =>
      if p a then [] :: splitAt rest
      else
        match splitAt rest with
        | part :: parts => (a :: part) :: parts
        | [] => [[a]]

/- What stands between the separators, where anything does. -/
def pieces (l : List α) : List (List α) :=
  (splitAt p l).filter (fun part => !part.isEmpty)

variable {p}

theorem splitAt_ne_nil (l : List α) :
    splitAt p l ≠ [] := by
  cases l with
  | nil => exact List.cons_ne_nil _ _
  | cons a rest =>
      rw [splitAt]
      split_ifs
      · exact List.cons_ne_nil _ _
      · split
        · exact List.cons_ne_nil _ _
        · exact List.cons_ne_nil _ _

theorem splitAt_cons_of_neg
    {a : α}
    (ha : p a = false)
    {rest part : List α}
    {parts : List (List α)}
    (hRest : splitAt p rest = part :: parts) :
    splitAt p (a :: rest) = (a :: part) :: parts := by
  rw [splitAt, ha, if_neg Bool.false_ne_true, hRest]

/- What holds no separator goes with the first part. -/
theorem splitAt_plain_append
    {a : List α}
    (hPlain : ∀ x ∈ a, p x = false)
    {l part : List α}
    {parts : List (List α)}
    (hRest : splitAt p l = part :: parts) :
    splitAt p (a ++ l) = (a ++ part) :: parts := by
  induction a with
  | nil => exact hRest
  | cons x a ih =>
      rw [List.cons_append, List.cons_append]
      exact splitAt_cons_of_neg (hPlain x List.mem_cons_self)
        (ih (fun y hy => hPlain y (List.mem_cons_of_mem x hy)))

/- A separator cuts a list in two that are cut alike. -/
theorem splitAt_append
    {z : α}
    (hz : p z = true)
    (l m : List α) :
    splitAt p (l ++ z :: m) = splitAt p l ++ splitAt p m := by
  induction l with
  | nil =>
      have hCut : splitAt p (z :: m) = [] :: splitAt p m := by
        rw [splitAt, if_pos hz]
      rw [List.nil_append, hCut]
      rfl
  | cons a rest ih =>
      rw [List.cons_append]
      cases ha : p a with
      | true => rw [splitAt, splitAt, ih, ha, if_pos rfl,
          if_pos rfl, List.cons_append]
      | false =>
          rcases List.exists_cons_of_ne_nil
            (splitAt_ne_nil (p := p) rest) with
            ⟨part, parts, hRest⟩
          rw [splitAt_cons_of_neg ha hRest]
          rw [hRest, List.cons_append] at ih
          rw [splitAt_cons_of_neg ha ih, List.cons_append]

theorem splitAt_of_forall
    {l : List α}
    (hPlain : ∀ a ∈ l, p a = false) :
    splitAt p l = [l] := by
  induction l with
  | nil => rfl
  | cons a rest ih =>
      exact splitAt_cons_of_neg (hPlain a List.mem_cons_self)
        (ih (fun x hx => hPlain x (List.mem_cons_of_mem a hx)))

/- All that is lost is the separators. -/
theorem flatten_splitAt (l : List α) :
    (splitAt p l).flatten = l.filter (fun a => !p a) := by
  induction l with
  | nil => rfl
  | cons a rest ih =>
      cases ha : p a with
      | true =>
          rw [splitAt, if_pos ha, List.flatten_cons,
            List.nil_append, ih, List.filter_cons_of_neg
              (by rw [ha]; decide)]
      | false =>
          rcases List.exists_cons_of_ne_nil
            (splitAt_ne_nil (p := p) rest) with
            ⟨part, parts, hRest⟩
          rw [splitAt_cons_of_neg ha hRest, List.flatten_cons,
            List.cons_append, List.filter_cons_of_pos
              (by rw [ha]; rfl), ← ih, hRest,
            List.flatten_cons]

end General

------------------------------------------------------------
-- Pieces
------------------------------------------------------------

namespace General

variable {α : Type}
variable {p : α → Bool}

theorem pieces_append
    {z : α}
    (hz : p z = true)
    (l m : List α) :
    pieces p (l ++ z :: m) = pieces p l ++ pieces p m := by
  unfold pieces
  rw [splitAt_append hz, List.filter_append]

theorem flatten_pieces (l : List α) :
    (pieces p l).flatten = l.filter (fun a => !p a) := by
  have hEmpty : ∀ parts : List (List α),
      (parts.filter (fun part => !part.isEmpty)).flatten =
        parts.flatten := by
    intro parts
    induction parts with
    | nil => rfl
    | cons part parts ih =>
        cases part with
        | nil => exact ih
        | cons a part =>
            rw [List.filter_cons_of_pos rfl,
              List.flatten_cons, List.flatten_cons, ih]
  rw [pieces, hEmpty, flatten_splitAt]

/- Without separators there is one piece, if there is any. -/
theorem pieces_of_forall
    {l : List α}
    (hPlain : ∀ a ∈ l, p a = false) :
    pieces p l = if l = [] then [] else [l] := by
  rw [pieces, splitAt_of_forall hPlain]
  cases l with
  | nil => rfl
  | cons a rest => rw [if_neg (List.cons_ne_nil a rest)]; rfl

/- A list is its only piece if it is one without separators. -/
theorem pieces_of_plain
    {l : List α}
    (hNonempty : l ≠ [])
    (hPlain : ∀ a ∈ l, p a = false) :
    pieces p l = [l] := by
  rw [pieces_of_forall hPlain, if_neg hNonempty]

theorem length_flatten_flatMap_pieces (ls : List (List α)) :
    (ls.flatMap (pieces p)).flatten.length =
      (ls.map (fun l =>
        (l.filter (fun a => !p a)).length)).sum := by
  induction ls with
  | nil => rfl
  | cons l ls ih =>
      rw [List.flatMap_cons, List.flatten_append,
        List.length_append, ih, flatten_pieces,
        List.map_cons, List.sum_cons]

/-
  Each list is its only piece if all of them together come
  out as they are: the elements that are lost are counted
  first, and then the pieces.
-/
theorem flatMap_pieces_eq_iff
    {ls : List (List α)} :
    ls.flatMap (pieces p) = ls ↔
      ∀ l ∈ ls, l ≠ [] ∧ ∀ a ∈ l, p a = false := by
  constructor
  · intro hEq
    have hCount :
        (ls.map (fun l =>
          (l.filter (fun a => !p a)).length)).sum =
          (ls.map List.length).sum := by
      rw [← length_flatten_flatMap_pieces, hEq,
        List.length_flatten]
    have hKept := forall_eq_of_sum_eq
      (fun l _ => List.length_filter_le _ l) hCount
    have hPlain : ∀ l ∈ ls, ∀ a ∈ l, p a = false := by
      intro l hl a ha
      have hAll := List.length_filter_eq_length_iff.mp
        (hKept l hl)
      simpa using hAll a ha
    have hPieces :
        (ls.map (fun l => (pieces p l).length)).sum =
          (ls.map (fun _ => 1)).sum := by
      rw [← List.length_flatMap, hEq]
      simp
    have hOne := forall_eq_of_sum_eq (l := ls)
      (f := fun l => (pieces p l).length) (g := fun _ => 1)
      (fun l hl => by
        rw [pieces_of_forall (hPlain l hl)]
        split_ifs
        · exact Nat.zero_le 1
        · exact le_rfl) hPieces
    intro l hl
    refine ⟨?_, hPlain l hl⟩
    rintro rfl
    exact absurd (hOne [] hl) Nat.zero_ne_one
  · intro hEach
    induction ls with
    | nil => rfl
    | cons l ls ih =>
        rcases hEach l List.mem_cons_self with
          ⟨hNonempty, hPlain⟩
        rw [List.flatMap_cons, pieces_of_plain hNonempty hPlain,
          ih (fun x hx => hEach x (List.mem_cons_of_mem l hx)),
          List.singleton_append]

/- Lists that each end in a separator, and one at the end. -/
theorem pieces_terminated
    {z : α}
    (hz : p z = true)
    (ls : List (List α)) :
    pieces p (ls.flatMap (fun l => l ++ [z]) ++ [z]) =
      ls.flatMap (pieces p) := by
  induction ls with
  | nil =>
      have hCut := pieces_append hz ([] : List α) []
      rw [List.nil_append] at hCut
      exact hCut
  | cons l ls ih =>
      rw [List.flatMap_cons, List.append_assoc,
        List.append_assoc, List.singleton_append,
        pieces_append hz, ih, List.flatMap_cons]

/- They come apart again if they can be told apart. -/
theorem pieces_terminated_eq_iff
    {z : α}
    (hz : p z = true)
    {ls : List (List α)} :
    pieces p (ls.flatMap (fun l => l ++ [z]) ++ [z]) = ls ↔
      ∀ l ∈ ls, l ≠ [] ∧ ∀ a ∈ l, p a = false := by
  rw [pieces_terminated hz, flatMap_pieces_eq_iff]

end General
