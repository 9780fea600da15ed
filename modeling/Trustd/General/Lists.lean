import Mathlib.Data.List.Sort
import Mathlib.Data.List.Nodup
import Mathlib.Data.List.Destutter
import Mathlib.Algebra.GroupWithZero.Nat
import Mathlib.Tactic.Order

/-
  List facts that the development relies on and that do not
  mention it: cutting a list into chunks, comparing lists
  from the left, concatenations that can be taken apart
  again, sums that agree only when every term does, and
  lists without repetitions in a row.

  Key definitions include:
    * `General.chunks`
    * `General.lexLe`
    * `General.SelfDelimiting`

  Key theorems include:
    * `General.flatten_chunks`
    * `General.foldl_forall`
    * `General.lexLe_total`
    * `General.SelfDelimiting.flatMap_injective`
    * `General.forall_eq_of_sum_eq`
    * `General.nodup_destutter_ne`
-/

------------------------------------------------------------
-- Chunks
------------------------------------------------------------

namespace General

variable {α β : Type}

/-
  Cut a list into pieces of `n` elements, the last of them
  possibly shorter. A width of zero is read as one.
-/
def chunks (n : Nat) : List α → List (List α)
  | [] => []
  | a :: rest =>
      (a :: rest.take (n - 1)) :: chunks n (rest.drop (n - 1))
termination_by l => l.length
decreasing_by
  simp only [List.length_drop, List.length_cons]
  omega

@[simp] theorem chunks_nil (n : Nat) :
    chunks n ([] : List α) = [] := by
  simp [chunks]

theorem chunks_cons
    (n : Nat)
    (a : α)
    (rest : List α) :
    chunks n (a :: rest) =
      (a :: rest.take (n - 1)) ::
        chunks n (rest.drop (n - 1)) := by
  rw [chunks]

/- The chunks hold the list's elements in the list's order. -/
theorem flatten_chunks
    (n : Nat)
    (l : List α) :
    (chunks n l).flatten = l := by
  induction l using chunks.induct n with
  | case1 => simp
  | case2 a rest ih =>
      rw [chunks_cons, List.flatten_cons, ih,
        List.cons_append, List.take_append_drop]

/- No chunk is empty, and none is wider than asked for. -/
theorem length_of_mem_chunks
    (n : Nat)
    (hn : 0 < n)
    (l : List α) :
    ∀ chunk ∈ chunks n l,
      0 < chunk.length ∧ chunk.length ≤ n := by
  induction l using chunks.induct n with
  | case1 => simp
  | case2 a rest ih =>
      intro chunk hChunk
      rw [chunks_cons, List.mem_cons] at hChunk
      rcases hChunk with rfl | hChunk
      · simp only [List.length_cons, List.length_take]
        omega
      · exact ih chunk hChunk

/- An element of a chunk is an element of the list. -/
theorem mem_of_mem_chunks
    (n : Nat)
    {l chunk : List α}
    (hChunk : chunk ∈ chunks n l)
    {a : α}
    (hMem : a ∈ chunk) :
    a ∈ l := by
  rw [← flatten_chunks n l]
  exact List.mem_flatten.mpr ⟨chunk, hChunk, hMem⟩

end General

------------------------------------------------------------
-- Comparison From The Left
------------------------------------------------------------

namespace General

variable {α : Type} [LinearOrder α]

/-
  Compare two lists element by element; the shorter of two
  lists that agree so far comes first.
-/
def lexLe : List α → List α → Bool
  | [], _ => true
  | _ :: _, [] => false
  | a :: as, b :: bs =>
      if a < b then true
      else if b < a then false
      else lexLe as bs

@[simp] theorem lexLe_refl (l : List α) :
    lexLe l l = true := by
  induction l with
  | nil => rfl
  | cons a as ih => simp [lexLe, ih]

theorem lexLe_total
    (l m : List α) :
    lexLe l m = true ∨ lexLe m l = true := by
  induction l generalizing m with
  | nil => exact Or.inl rfl
  | cons a as ih =>
      cases m with
      | nil => exact Or.inr rfl
      | cons b bs =>
          rcases lt_trichotomy a b with hLt | rfl | hGt
          · exact Or.inl (by simp [lexLe, hLt])
          · simpa [lexLe] using ih bs
          · exact Or.inr (by simp [lexLe, hGt])

theorem lexLe_antisymm
    {l m : List α}
    (hLeft : lexLe l m = true)
    (hRight : lexLe m l = true) :
    l = m := by
  induction l generalizing m with
  | nil =>
      cases m with
      | nil => rfl
      | cons b bs => simp [lexLe] at hRight
  | cons a as ih =>
      cases m with
      | nil => simp [lexLe] at hLeft
      | cons b bs =>
          rcases lt_trichotomy a b with hLt | rfl | hGt
          · simp [lexLe, hLt, not_lt.mpr hLt.le] at hRight
          · simp only [lexLe, lt_irrefl, if_false]
              at hLeft hRight
            rw [ih hLeft hRight]
          · simp [lexLe, hGt, not_lt.mpr hGt.le] at hLeft

theorem lexLe_trans
    {l m n : List α}
    (hLeft : lexLe l m = true)
    (hRight : lexLe m n = true) :
    lexLe l n = true := by
  induction l generalizing m n with
  | nil => rfl
  | cons a as ih =>
      cases m with
      | nil => simp [lexLe] at hLeft
      | cons b bs =>
          cases n with
          | nil => simp [lexLe] at hRight
          | cons c cs =>
              simp only [lexLe] at hLeft hRight ⊢
              split_ifs at hLeft hRight ⊢ <;>
                first
                | rfl
                | exact ih hLeft hRight
                | order

end General

------------------------------------------------------------
-- Concatenations That Come Apart
------------------------------------------------------------

namespace General

variable {α β : Type}

/-
  An encoding that says itself where it ends: followed by
  anything, it determines both what it encodes and what
  follows.
-/
def SelfDelimiting
    (encode : α → List β)
    (P : α → Prop) : Prop :=
  ∀ a b : α, P a → P b →
    ∀ r s : List β,
      encode a ++ r = encode b ++ s → a = b ∧ r = s

/-
  A concatenation of nonempty self-delimiting encodings
  determines the list that was encoded.
-/
theorem SelfDelimiting.flatMap_injective
    {encode : α → List β}
    {P : α → Prop}
    (hSelf : SelfDelimiting encode P)
    (hNonempty : ∀ a, encode a ≠ [])
    {l m : List α}
    (hl : ∀ a ∈ l, P a)
    (hm : ∀ a ∈ m, P a)
    (hEq : l.flatMap encode = m.flatMap encode) :
    l = m := by
  induction l generalizing m with
  | nil =>
      cases m with
      | nil => rfl
      | cons b bs =>
          have hNil : encode b = [] := by
            have hParts := hEq.symm
            simp only [List.flatMap_nil,
              List.flatMap_cons,
              List.append_eq_nil_iff] at hParts
            exact hParts.1
          exact absurd hNil (hNonempty b)
  | cons a as ih =>
      cases m with
      | nil =>
          have hNil : encode a = [] := by
            simp only [List.flatMap_nil,
              List.flatMap_cons,
              List.append_eq_nil_iff] at hEq
            exact hEq.1
          exact absurd hNil (hNonempty a)
      | cons b bs =>
          simp only [List.flatMap_cons] at hEq
          have hParts :=
            hSelf a b (hl a List.mem_cons_self)
              (hm b List.mem_cons_self) _ _ hEq
          have hRest : as = bs :=
            ih (fun x hx => hl x (List.mem_cons_of_mem a hx))
              (fun x hx => hm x (List.mem_cons_of_mem b hx))
              hParts.2
          rw [hParts.1, hRest]

end General

------------------------------------------------------------
-- Sums
------------------------------------------------------------

namespace General

variable {α : Type}

theorem sum_le_sum_of_forall_le
    {f g : α → Nat}
    {l : List α}
    (hLe : ∀ a ∈ l, f a ≤ g a) :
    (l.map f).sum ≤ (l.map g).sum := by
  induction l with
  | nil => simp
  | cons a as ih =>
      have hHead := hLe a List.mem_cons_self
      have hTail :=
        ih (fun x hx => hLe x (List.mem_cons_of_mem a hx))
      simp only [List.map_cons, List.sum_cons]
      omega

/-
  Two sums of terms that are pairwise in order agree only
  when the terms do.
-/
theorem forall_eq_of_sum_eq
    {f g : α → Nat}
    {l : List α}
    (hLe : ∀ a ∈ l, f a ≤ g a)
    (hSum : (l.map f).sum = (l.map g).sum) :
    ∀ a ∈ l, f a = g a := by
  induction l with
  | nil => simp
  | cons a as ih =>
      have hHead := hLe a List.mem_cons_self
      have hRest : ∀ x ∈ as, f x ≤ g x :=
        fun x hx => hLe x (List.mem_cons_of_mem a hx)
      have hTail := sum_le_sum_of_forall_le hRest
      simp only [List.map_cons, List.sum_cons] at hSum
      intro x hx
      rcases List.mem_cons.mp hx with rfl | hx
      · omega
      · exact ih hRest (by omega) x hx

end General

------------------------------------------------------------
-- Maps And Concatenations
------------------------------------------------------------

namespace General

variable {α β : Type}

/- A monadic map whose every step succeeds is a map. -/
theorem mapM_eq_pure
    {m : Type → Type}
    [Monad m]
    [LawfulMonad m]
    {f : α → m β}
    {g : α → β}
    {l : List α}
    (hEach : ∀ a ∈ l, f a = pure (g a)) :
    l.mapM f = pure (l.map g) := by
  induction l with
  | nil => simp
  | cons a as ih =>
      rw [List.mapM_cons, hEach a List.mem_cons_self,
        ih (fun x hx => hEach x (List.mem_cons_of_mem a hx))]
      simp

theorem length_le_length_flatten
    {l : List α}
    {ls : List (List α)}
    (hMem : l ∈ ls) :
    l.length ≤ ls.flatten.length :=
  (List.sublist_flatten_of_mem hMem).length_le

/- Something more before each image can only lengthen. -/
theorem length_le_length_flatMap_snoc
    (f : α → List β)
    (g : α → β)
    (l : List α) :
    l.length ≤
      (l.flatMap (fun a => f a ++ [g a])).length := by
  induction l with
  | nil => exact le_rfl
  | cons a rest ih =>
      simp only [List.flatMap_cons, List.length_append,
        List.length_cons, List.length_nil]
      omega

/- Only the images come out exactly if nothing is added. -/
theorem flatMap_snoc_eq_map_iff
    (f : α → List β)
    (g : α → β)
    (l : List α) :
    l.flatMap (fun a => f a ++ [g a]) = l.map g ↔
      ∀ a ∈ l, f a = [] := by
  induction l with
  | nil => simp
  | cons a rest ih =>
      rw [List.flatMap_cons, List.map_cons,
        List.forall_mem_cons, ← ih]
      constructor
      · intro hEq
        have hRest := length_le_length_flatMap_snoc f g rest
        have hLength := congrArg List.length hEq
        simp only [List.length_append, List.length_cons,
          List.length_nil, List.length_map] at hLength
        have hNil : f a = [] :=
          List.length_eq_zero_iff.mp (by omega)
        rw [hNil] at hEq
        exact ⟨hNil, (List.cons.inj hEq).2⟩
      · rintro ⟨hNil, hRest⟩
        rw [hNil, hRest]
        rfl

end General

------------------------------------------------------------
-- Repetitions In A Row
------------------------------------------------------------

namespace General

variable {α : Type}
variable [DecidableEq α]

theorem mem_destutter'_ne
    {a x : α}
    {l : List α} :
    x ∈ l.destutter' (· ≠ ·) a ↔ x = a ∨ x ∈ l := by
  induction l generalizing a with
  | nil => simp
  | cons b l ih =>
      rw [List.destutter'_cons]
      by_cases hSame : a = b
      · subst hSame
        rw [if_neg (not_not.mpr rfl), ih, List.mem_cons]
        constructor
        · rintro (hx | hx)
          · exact Or.inl hx
          · exact Or.inr (Or.inr hx)
        · rintro (hx | hx | hx)
          · exact Or.inl hx
          · exact Or.inl hx
          · exact Or.inr hx
      · rw [if_pos hSame, List.mem_cons, ih, List.mem_cons]

/- Nothing is lost when repetitions in a row are. -/
theorem mem_destutter_ne
    {x : α}
    {l : List α} :
    x ∈ l.destutter (· ≠ ·) ↔ x ∈ l := by
  cases l with
  | nil => simp
  | cons a l =>
      rw [List.destutter_cons', mem_destutter'_ne,
        List.mem_cons]

/- In order, and nothing equal to the next: no repetition. -/
omit [DecidableEq α] in
theorem nodup_of_pairwise_isChain
    {r : α → α → Prop}
    (hAntisymm : ∀ a b, r a b → r b a → a = b)
    {l : List α}
    (hOrder : l.Pairwise r)
    (hChain : l.IsChain (· ≠ ·)) :
    l.Nodup := by
  induction l with
  | nil => exact List.nodup_nil
  | cons a l ih =>
      rcases List.pairwise_cons.mp hOrder with ⟨hHead, hTail⟩
      refine List.nodup_cons.mpr ⟨?_, ih hTail hChain.tail⟩
      cases l with
      | nil => exact List.not_mem_nil
      | cons b l =>
          have hNext : a ≠ b := (List.isChain_cons_cons.mp
            hChain).1
          intro hMem
          rcases List.mem_cons.mp hMem with rfl | hMem
          · exact hNext rfl
          · apply hNext
            exact hAntisymm a b (hHead b List.mem_cons_self)
              ((List.pairwise_cons.mp hTail).1 a hMem)

/- A list in order has no repetition left. -/
theorem nodup_destutter_ne
    {r : α → α → Prop}
    (hAntisymm : ∀ a b, r a b → r b a → a = b)
    {l : List α}
    (hOrder : l.Pairwise r) :
    (l.destutter (· ≠ ·)).Nodup :=
  nodup_of_pairwise_isChain hAntisymm
    (hOrder.sublist (List.destutter_sublist _ l))
    (List.isChain_destutter _ l)

end General

------------------------------------------------------------
-- Loops
------------------------------------------------------------

namespace General

variable {α σ : Type}

/-
  What every turn makes true of what it is about, and no other
  turn makes false, is true in the end.
-/
theorem foldl_forall
    {step : σ → α → σ}
    {Holds : α → σ → Prop}
    (hTurn : ∀ s a, Holds a (step s a))
    (hKeep : ∀ s a b, Holds b s → Holds b (step s a))
    (l : List α)
    (s : σ) :
    (∀ a ∈ l, Holds a (l.foldl step s)) ∧
      ∀ b, Holds b s → Holds b (l.foldl step s) := by
  induction l generalizing s with
  | nil => simp
  | cons a rest ih =>
      rcases ih (step s a) with ⟨hLater, hKept⟩
      rw [List.foldl_cons, List.forall_mem_cons]
      exact ⟨⟨hKept a (hTurn s a), hLater⟩,
        fun b hb => hKept b (hKeep s a b hb)⟩

end General
