import Mathlib.Data.List.Chain
import Mathlib.Data.List.TakeWhile

/-
  Lists read with some of their elements as spacing: the
  spacing at both ends is dropped and each run of it inside
  becomes one separator.

  Two definitions are compared. One trims first and then
  collapses eagerly, putting the separator where a run
  starts; the other walks the list once and puts it where
  the run ends. They agree, and the second is the one whose
  counts are easy to follow.

  Key definitions include:
    * `General.trimBy`
    * `General.collapse`
    * `General.squeeze`
    * `General.Spaced`

  Key theorems include:
    * `General.collapse_trimBy`
    * `General.filter_squeeze`
    * `General.spaced_squeeze`
    * `General.countP_squeeze_eq`
    * `General.countP_squeeze_le`
    * `General.countP_squeeze_le_squeeze`
    * `General.squeeze_squeeze`
    * `General.squeeze_run`
    * `General.trimBy_append`
-/

------------------------------------------------------------
-- Two Ways To Normalise Spacing
------------------------------------------------------------

namespace General

variable {α : Type}

/- Drop the spacing at both ends. -/
def trimBy (p : α → Bool) (l : List α) : List α :=
  ((l.dropWhile p).reverse.dropWhile p).reverse

/- Put one separator where a run of spacing starts. -/
def collapse (p : α → Bool) (sep : α) :
    Bool → List α → List α
  | _, [] => []
  | inRun, a :: rest =>
      if p a then
        if inRun then collapse p sep true rest
        else sep :: collapse p sep true rest
      else a :: collapse p sep false rest

/-
  Hold a run of spacing back until something follows it. The
  flags say whether anything was kept so far and whether a
  run is being held back.
-/
def squeeze (p : α → Bool) (sep : α) :
    Bool → Bool → List α → List α
  | _, _, [] => []
  | started, pending, a :: rest =>
      if p a then squeeze p sep started true rest
      else if started && pending then
        sep :: a :: squeeze p sep true false rest
      else a :: squeeze p sep true false rest

@[simp] theorem squeeze_nil
    (p : α → Bool)
    (sep : α)
    (started pending : Bool) :
    squeeze p sep started pending [] = [] := rfl

theorem squeeze_spacing
    (p : α → Bool)
    (sep : α)
    (started pending : Bool)
    {a : α}
    (ha : p a = true)
    (rest : List α) :
    squeeze p sep started pending (a :: rest) =
      squeeze p sep started true rest := by
  simp [squeeze, ha]

theorem squeeze_kept
    (p : α → Bool)
    (sep : α)
    (started pending : Bool)
    {a : α}
    (ha : p a = false)
    (rest : List α) :
    squeeze p sep started pending (a :: rest) =
      (if started && pending then [sep] else []) ++
        a :: squeeze p sep true false rest := by
  cases hFlag : started && pending with
  | false => simp [squeeze, ha, hFlag]
  | true => simp [squeeze, ha, hFlag]

/- Nothing is held back before the first kept element. -/
theorem squeeze_not_started
    (p : α → Bool)
    (sep : α)
    (pending : Bool)
    (l : List α) :
    squeeze p sep false pending l =
      squeeze p sep false false l := by
  induction l generalizing pending with
  | nil => rfl
  | cons a rest ih => simp [squeeze, ih true]

theorem squeeze_dropWhile
    (p : α → Bool)
    (sep : α)
    (l : List α) :
    squeeze p sep false false (l.dropWhile p) =
      squeeze p sep false false l := by
  induction l with
  | nil => rfl
  | cons a rest ih =>
      by_cases ha : p a
      · rw [List.dropWhile_cons_of_pos ha, ih]
        simp [squeeze, ha, squeeze_not_started p sep true]
      · rw [List.dropWhile_cons_of_neg ha]

/- Spacing after the last kept element is dropped. -/
theorem squeeze_append_spacing
    (p : α → Bool)
    (sep : α)
    (started pending : Bool)
    (l tail : List α)
    (hTail : ∀ a ∈ tail, p a = true) :
    squeeze p sep started pending (l ++ tail) =
      squeeze p sep started pending l := by
  induction l generalizing started pending with
  | nil =>
      induction tail generalizing pending with
      | nil => rfl
      | cons a tail ih =>
          have ha := hTail a List.mem_cons_self
          have hRest := ih (fun b hb =>
            hTail b (List.mem_cons_of_mem a hb))
          simpa [squeeze, ha] using hRest true
  | cons a l ih => simp [squeeze, ih]

/-
  On a list that ends in a kept element the two definitions
  differ only in which end of a run the separator is at.
-/
theorem squeeze_started
    (p : α → Bool)
    (sep : α)
    (l : List α)
    (hLast : ∀ a, l.getLast? = some a → p a = false) :
    squeeze p sep true false l = collapse p sep false l ∧
      (l ≠ [] → squeeze p sep true true l =
        sep :: collapse p sep true l) := by
  induction l with
  | nil => exact ⟨rfl, fun h => absurd rfl h⟩
  | cons a rest ih =>
      have hRest : ∀ b, rest.getLast? = some b →
          p b = false := by
        intro b hb
        apply hLast
        rw [List.getLast?_cons, hb]
        rfl
      rcases ih hRest with ⟨hFalse, hTrue⟩
      by_cases ha : p a
      · have hNe : rest ≠ [] := by
          rintro rfl
          have := hLast a rfl
          rw [ha] at this
          cases this
        simp [squeeze, collapse, ha, hTrue hNe]
      · simp [squeeze, collapse, ha, hFalse]

/- Trimming and collapsing is holding back. -/
theorem collapse_trimBy
    (p : α → Bool)
    (sep : α)
    (l : List α) :
    collapse p sep false (trimBy p l) =
      squeeze p sep false false l := by
  have hFront := squeeze_dropWhile p sep l
  have hSplit :
      l.dropWhile p =
        trimBy p l ++
          ((l.dropWhile p).reverse.takeWhile p).reverse := by
    rw [trimBy, ← List.reverse_append,
      List.takeWhile_append_dropWhile, List.reverse_reverse]
  have hTail : ∀ a ∈
      ((l.dropWhile p).reverse.takeWhile p).reverse,
        p a = true := by
    intro a ha
    exact List.mem_takeWhile_imp (List.mem_reverse.mp ha)
  have hBack :
      squeeze p sep false false (trimBy p l) =
        squeeze p sep false false l := by
    rw [← hFront, hSplit,
      squeeze_append_spacing p sep _ _ _ _ hTail]
  have hLast : ∀ a, (trimBy p l).getLast? = some a →
      p a = false := by
    intro a ha
    have hHead := List.head?_dropWhile_not p
      (l.dropWhile p).reverse
    rw [trimBy, List.getLast?_reverse] at ha
    simpa only [ha] using hHead
  have hHead : ∀ a, (trimBy p l).head? = some a →
      p a = false := by
    intro a ha
    have hDrop := List.head?_dropWhile_not p l
    have hPrefix : (l.dropWhile p).head? = some a := by
      rw [hSplit, List.head?_append, ha]
      rfl
    simpa only [hPrefix] using hDrop
  rw [← hBack]
  cases hTrim : trimBy p l with
  | nil => rfl
  | cons a rest =>
      have ha : p a = false := hHead a (by rw [hTrim]; rfl)
      have hStarted := (squeeze_started p sep rest (by
        intro b hb
        apply hLast
        rw [hTrim, List.getLast?_cons, hb]
        rfl)).1
      simp [collapse, squeeze, ha, hStarted]

end General

------------------------------------------------------------
-- Counting What Is Kept
------------------------------------------------------------

namespace General

variable {α : Type}

/- A list of nothing but spacing leaves nothing. -/
theorem squeeze_eq_nil
    (p : α → Bool)
    (sep : α)
    (l : List α)
    (hl : ∀ a ∈ l, p a = true) :
    squeeze p sep false false l = [] := by
  simpa using
    squeeze_append_spacing p sep false false [] l hl

/- Elements that are no spacing are all kept, in order. -/
theorem filter_squeeze
    {p q : α → Bool}
    {sep : α}
    (hSep : q sep = false)
    (hSpacing : ∀ a, p a = true → q a = false)
    (started pending : Bool)
    (l : List α) :
    (squeeze p sep started pending l).filter q =
      l.filter q := by
  induction l generalizing started pending with
  | nil => rfl
  | cons a rest ih =>
      cases ha : p a with
      | true =>
          rw [squeeze_spacing p sep _ _ ha, ih,
            List.filter_cons, hSpacing a ha]
          rfl
      | false =>
          rw [squeeze_kept p sep _ _ ha, List.filter_append,
            List.filter_cons, ih, List.filter_cons]
          split_ifs <;> simp [hSep]

theorem countP_squeeze_eq
    (p q : α → Bool)
    (sep : α)
    (hSep : q sep = false)
    (hSpacing : ∀ a, p a = true → q a = false)
    (started pending : Bool)
    (l : List α) :
    (squeeze p sep started pending l).countP q =
      l.countP q := by
  rw [List.countP_eq_length_filter,
    filter_squeeze hSep hSpacing,
    ← List.countP_eq_length_filter]

/- Kept and spacing elements are not multiplied. -/
theorem countP_squeeze_le
    (p q : α → Bool)
    (sep : α)
    (hSpacing : ∀ a, p a = true → q a = true)
    (started pending : Bool)
    (l : List α) :
    (squeeze p sep started pending l).countP q ≤
      l.countP q +
        (if started && pending then 1 else 0) := by
  induction l generalizing started pending with
  | nil => simp
  | cons a rest ih =>
      cases ha : p a with
      | true =>
          have hRest := ih started true
          rw [squeeze_spacing p sep _ _ ha,
            List.countP_cons, if_pos (hSpacing a ha)]
          split_ifs at hRest ⊢ <;> omega
      | false =>
          have hRest := ih true false
          have hSep := List.countP_le_length
            (p := q) (l := if started && pending then [sep]
              else [])
          rw [squeeze_kept p sep _ _ ha, List.countP_append,
            List.countP_cons, List.countP_cons]
          simp only [Bool.and_false, Bool.false_eq_true,
            if_false] at hRest
          split_ifs at hSep ⊢ <;>
            simp only [List.length_cons, List.length_nil]
              at hSep <;> omega

/-
  Calling more elements spacing keeps no more of the
  elements counted, when all of those that differ count: a
  run the coarser reading turns into one separator holds a
  separator or a counted element of the finer one.
-/
theorem countP_squeeze_le_squeeze
    (p p' q : α → Bool)
    (sep : α)
    (hSep : q sep = true)
    (hCoarser : ∀ a, p a = true → p' a = true)
    (hCounted : ∀ a, p' a = true → q a = true)
    (started pending started' pending' : Bool)
    (hStarted : started' = true → started = true)
    (l : List α) :
    (squeeze p' sep started' pending' l).countP q ≤
      (squeeze p sep started pending l).countP q +
        (if started' && pending' && !pending then 1
          else 0) := by
  induction l generalizing started pending started'
      pending' with
  | nil => simp
  | cons a rest ih =>
      cases ha : p a with
      | true =>
          have hRest := ih started true started' true
            hStarted
          rw [squeeze_spacing p sep _ _ ha,
            squeeze_spacing p' sep _ _ (hCoarser a ha)]
          simp only [Bool.not_true, Bool.and_false,
            Bool.false_eq_true, if_false] at hRest
          omega
      | false =>
          cases ha' : p' a with
          | true =>
              have hRest := ih true false started' true
                (fun _ => rfl)
              rw [squeeze_spacing p' sep _ _ ha',
                squeeze_kept p sep _ _ ha,
                List.countP_append, List.countP_cons,
                if_pos (hCounted a ha')]
              split_ifs at hRest ⊢ <;> omega
          | false =>
              have hRest := ih true false true false
                (fun _ => rfl)
              rw [squeeze_kept p' sep _ _ ha',
                squeeze_kept p sep _ _ ha,
                List.countP_append, List.countP_append,
                List.countP_cons, List.countP_cons]
              simp only [Bool.not_false, Bool.and_true,
                Bool.and_false, Bool.false_eq_true,
                if_false] at hRest
              cases started' with
              | false => simp; omega
              | true =>
                  rw [hStarted rfl]
                  cases pending <;> cases pending' <;>
                    simp [hSep] <;> omega

/- Without an element they disagree on, the readings agree. -/
theorem squeeze_congr
    (p p' : α → Bool)
    (sep : α)
    (started pending : Bool)
    (l : List α)
    (hSame : ∀ a ∈ l, p a = p' a) :
    squeeze p sep started pending l =
      squeeze p' sep started pending l := by
  induction l generalizing started pending with
  | nil => rfl
  | cons a rest ih =>
      have hRest := fun s t => ih s t (fun b hb =>
        hSame b (List.mem_cons_of_mem a hb))
      simp [squeeze, hSame a List.mem_cons_self, hRest]

/- The only spacing that is kept is the separator. -/
theorem mem_squeeze
    (p : α → Bool)
    (sep : α)
    (started pending : Bool)
    (l : List α)
    {a : α}
    (ha : a ∈ squeeze p sep started pending l) :
    a = sep ∨ (a ∈ l ∧ p a = false) := by
  induction l generalizing started pending with
  | nil => cases ha
  | cons b rest ih =>
      cases hb : p b with
      | true =>
          rw [squeeze_spacing p sep _ _ hb] at ha
          rcases ih _ _ ha with rfl | ⟨hMem, hKept⟩
          · exact Or.inl rfl
          · exact Or.inr ⟨List.mem_cons_of_mem b hMem, hKept⟩
      | false =>
          rw [squeeze_kept p sep _ _ hb, List.mem_append,
            List.mem_cons] at ha
          rcases ha with ha | rfl | ha
          · split_ifs at ha
            · exact Or.inl (List.mem_singleton.mp ha)
            · cases ha
          · exact Or.inr ⟨List.mem_cons_self, hb⟩
          · rcases ih _ _ ha with rfl | ⟨hMem, hKept⟩
            · exact Or.inl rfl
            · exact Or.inr
                ⟨List.mem_cons_of_mem b hMem, hKept⟩

theorem length_squeeze_le
    (p : α → Bool)
    (sep : α)
    (l : List α) :
    (squeeze p sep false false l).length ≤ l.length := by
  simpa [List.countP_true] using
    countP_squeeze_le p (fun _ => true) sep
      (fun _ _ => rfl) false false l

end General

------------------------------------------------------------
-- Lists That Squeeze Alike
------------------------------------------------------------

namespace General

variable {α : Type}

/- What is squeezed is squeezed already. -/
theorem squeeze_squeeze
    {p : α → Bool}
    {sep : α}
    (hSep : p sep = true)
    (started pending : Bool)
    (l : List α) :
    squeeze p sep started false
        (squeeze p sep started pending l) =
      squeeze p sep started pending l := by
  induction l generalizing started pending with
  | nil => rfl
  | cons a rest ih =>
      cases ha : p a with
      | true =>
          rw [squeeze_spacing p sep _ _ ha]
          exact ih started true
      | false =>
          rw [squeeze_kept p sep _ _ ha]
          cases hFlag : started && pending with
          | true =>
              rw [Bool.and_eq_true] at hFlag
              rw [hFlag.1, if_pos rfl, List.singleton_append,
                squeeze_spacing p sep _ _ hSep,
                squeeze_kept p sep _ _ ha, ih true false]
              rfl
          | false =>
              rw [if_neg (by decide), List.nil_append,
                squeeze_kept p sep _ _ ha, ih true false]
              simp

/- Changing what is kept does not change the spacing. -/
theorem squeeze_map
    {p : α → Bool}
    {sep : α}
    {f : α → α}
    (hSpacing : ∀ a, p (f a) = p a)
    (hSep : f sep = sep)
    (started pending : Bool)
    (l : List α) :
    squeeze p sep started pending (l.map f) =
      (squeeze p sep started pending l).map f := by
  induction l generalizing started pending with
  | nil => rfl
  | cons a rest ih =>
      simp only [List.map_cons, squeeze, hSpacing, ih]
      split_ifs
      · rfl
      · rw [List.map_cons, List.map_cons, hSep]
      · rfl

/- A run counts once, however long it is. -/
theorem squeeze_run
    {p : α → Bool}
    (sep : α)
    {x : α}
    (hx : p x = true)
    (started pending : Bool)
    (a b : List α) :
    squeeze p sep started pending (a ++ x :: x :: b) =
      squeeze p sep started pending (a ++ x :: b) := by
  induction a generalizing started pending with
  | nil =>
      rw [List.nil_append, List.nil_append,
        squeeze_spacing p sep _ _ hx,
        squeeze_spacing p sep _ _ hx,
        squeeze_spacing p sep _ _ hx]
  | cons c a ih =>
      simp only [List.cons_append, squeeze, ih]

theorem squeeze_front
    {p : α → Bool}
    (sep : α)
    {x : α}
    (hx : p x = true)
    (l : List α) :
    squeeze p sep false false (x :: l) =
      squeeze p sep false false l := by
  rw [squeeze_spacing p sep _ _ hx, squeeze_not_started]

theorem squeeze_back
    {p : α → Bool}
    (sep : α)
    {x : α}
    (hx : p x = true)
    (l : List α) :
    squeeze p sep false false (l ++ [x]) =
      squeeze p sep false false l :=
  squeeze_append_spacing p sep _ _ _ _
    (by simpa using hx)

end General

------------------------------------------------------------
-- Well-Spaced Lists
------------------------------------------------------------

namespace General

variable {α : Type}

/- No spacing at either end, and never two in a row. -/
structure Spaced (p : α → Bool) (l : List α) : Prop where
  first : ∀ a, l.head? = some a → p a = false
  last : ∀ a, l.getLast? = some a → p a = false
  apart : l.IsChain (fun a b => p a = false ∨ p b = false)

theorem spaced_singleton
    {p : α → Bool}
    {a : α}
    (ha : p a = false) :
    Spaced p [a] where
  first b hb := by
    rcases hb
    exact ha
  last b hb := by
    rcases hb
    exact ha
  apart := List.isChain_singleton a

/- Some spacing or none may come before a kept element. -/
theorem Spaced.cons
    {p : α → Bool}
    {a b : α}
    {between l : List α}
    (ha : p a = false)
    (hBetween : between.length ≤ 1)
    (hSpaced : Spaced p (b :: l)) :
    Spaced p (a :: (between ++ b :: l)) where
  first c hc := by
    rcases hc
    exact ha
  last c hc := by
    rw [List.getLast?_cons_of_ne_nil (by simp),
      List.getLast?_append_of_ne_nil _ (List.cons_ne_nil _ _)]
      at hc
    exact hSpaced.last c hc
  apart := by
    have hb := hSpaced.first b rfl
    rcases between with _ | ⟨sep, _ | ⟨c, rest⟩⟩
    · exact List.isChain_cons_cons.mpr
        ⟨Or.inl ha, hSpaced.apart⟩
    · exact List.isChain_cons_cons.mpr
        ⟨Or.inl ha, List.isChain_cons_cons.mpr
          ⟨Or.inr hb, hSpaced.apart⟩⟩
    · rw [List.length_cons, List.length_cons] at hBetween
      omega

/- What is held back is written only before what is kept. -/
theorem spaced_squeeze_started
    {p : α → Bool}
    {sep a : α}
    (ha : p a = false)
    (pending : Bool)
    (l : List α) :
    Spaced p (a :: squeeze p sep true pending l) := by
  induction l generalizing a pending with
  | nil => exact spaced_singleton ha
  | cons b rest ih =>
      cases hb : p b with
      | true =>
          rw [squeeze_spacing p sep _ _ hb]
          exact ih ha true
      | false =>
          rw [squeeze_kept p sep _ _ hb]
          refine (ih hb false).cons ha ?_
          split_ifs
          · exact Nat.le_refl 1
          · exact Nat.zero_le 1

theorem spaced_squeeze
    (p : α → Bool)
    (sep : α)
    (pending : Bool)
    (l : List α) :
    Spaced p (squeeze p sep false pending l) := by
  induction l generalizing pending with
  | nil =>
      refine ⟨?_, ?_, List.isChain_nil⟩
      · rintro a ⟨⟩
      · rintro a ⟨⟩
  | cons a rest ih =>
      cases ha : p a with
      | true =>
          rw [squeeze_spacing p sep _ _ ha]
          exact ih true
      | false =>
          rw [squeeze_kept p sep _ _ ha]
          exact spaced_squeeze_started ha false rest

/- Changing what is kept to what is kept. -/
theorem Spaced.map
    {β : Type}
    {p : α → Bool}
    {q : β → Bool}
    {f : α → β}
    (hKept : ∀ a, p a = false → q (f a) = false)
    {l : List α}
    (hSpaced : Spaced p l) :
    Spaced q (l.map f) where
  first b hb := by
    rw [List.head?_map, Option.map_eq_some_iff] at hb
    rcases hb with ⟨a, ha, rfl⟩
    exact hKept a (hSpaced.first a ha)
  last b hb := by
    rw [List.getLast?_map, Option.map_eq_some_iff] at hb
    rcases hb with ⟨a, ha, rfl⟩
    exact hKept a (hSpaced.last a ha)
  apart := by
    rw [List.isChain_map]
    exact hSpaced.apart.imp
      (fun a b h => h.imp (hKept a) (hKept b))

end General

------------------------------------------------------------
-- Trimming
------------------------------------------------------------

namespace General

variable {α : Type}

/- Spacing around a list is trimmed away with its own. -/
theorem trimBy_append
    {p : α → Bool}
    {front back : List α}
    (hFront : ∀ a ∈ front, p a = true)
    (hBack : ∀ a ∈ back, p a = true)
    (l : List α) :
    trimBy p (front ++ l ++ back) = trimBy p l := by
  rw [trimBy, trimBy, List.append_assoc,
    List.dropWhile_append_of_pos hFront, List.dropWhile_append]
  split_ifs with hNone
  · rw [List.isEmpty_iff] at hNone
    rw [hNone, List.dropWhile_eq_nil_iff.mpr hBack]
  · rw [List.reverse_append, List.dropWhile_append_of_pos]
    intro a ha
    exact hBack a (List.mem_reverse.mp ha)

/- What is trimmed is trimmed already. -/
theorem trimBy_trimBy
    (p : α → Bool)
    (l : List α) :
    trimBy p (trimBy p l) = trimBy p l := by
  have hFront : l = l.takeWhile p ++ l.dropWhile p :=
    List.takeWhile_append_dropWhile.symm
  have hBack : l.dropWhile p = trimBy p l ++
      ((l.dropWhile p).reverse.takeWhile p).reverse := by
    rw [trimBy, ← List.reverse_append,
      List.takeWhile_append_dropWhile, List.reverse_reverse]
  have hTrim := @trimBy_append _ p (l.takeWhile p)
    ((l.dropWhile p).reverse.takeWhile p).reverse
    (fun a ha => List.mem_takeWhile_imp ha)
    (fun a ha => List.mem_takeWhile_imp
      (List.mem_reverse.mp ha)) (trimBy p l)
  rw [List.append_assoc, ← hBack, ← hFront] at hTrim
  exact hTrim.symm

end General
