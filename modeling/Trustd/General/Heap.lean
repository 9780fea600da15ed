import Mathlib.Data.Finmap
import Mathlib.Data.List.Forall2
import Mathlib.Order.Lattice.Nat

/-
  Memory that is allocated, read and freed.

  A heap has blocks at addresses, of any type; which address
  an allocation is given is a parameter. A region is what one
  owner has allocated. What is built in a region is read back
  from every heap that still holds what the region owns, and
  freeing what it owns leaves the heap as it was before.

  Key definitions include:
    * `General.Heap`
    * `General.Slice`
    * `General.Region`
    * `General.Builds`
    * `General.Reading`

  Key theorems include:
    * `General.Builds.bind`
    * `General.Builds.place`
    * `General.Builds.map`
    * `General.Region.SideBySide.enter`
    * `General.Region.SideBySide.leave`
-/

------------------------------------------------------------
-- Heaps
------------------------------------------------------------

namespace General

variable {β τ : Type}

/- The live blocks, by address. None is at the null address. -/
structure Heap (β : Type) where
  blocks : Finmap (fun _ : Nat => β)
  null_notMem : 0 ∉ blocks

/-
  Which address is given, when those of some addresses are
  taken, and the address of what takes no memory.
-/
structure Allocator where
  fresh : Finset Nat → Nat
  fresh_notMem : ∀ taken, fresh taken ∉ taken
  fresh_ne_null : ∀ taken, fresh taken ≠ 0
  dangling : Nat
  dangling_ne_null : dangling ≠ 0

/- One above all that are taken. -/
def Allocator.bump : Allocator where
  fresh taken := taken.sup id + 1
  fresh_notMem taken hMem := by
    have hLe : taken.sup id + 1 ≤ taken.sup id :=
      Finset.le_sup (f := id) hMem
    omega
  fresh_ne_null taken := Nat.succ_ne_zero _
  dangling := 1
  dangling_ne_null := Nat.one_ne_zero

namespace Heap

/- No block is live. -/
def empty : Heap β := ⟨∅, Finmap.notMem_empty⟩

def read
    (heap : Heap β)
    (address : Nat) :
    Option β :=
  heap.blocks.lookup address

/- The address of a new block, and the heap with it. -/
def alloc
    (A : Allocator)
    (heap : Heap β)
    (block : β) :
    Nat × Heap β :=
  (A.fresh heap.blocks.keys,
    { blocks :=
        heap.blocks.insert (A.fresh heap.blocks.keys) block
      null_notMem := fun hMem =>
        (Finmap.mem_insert.mp hMem).elim
          (fun hNull => A.fresh_ne_null _ hNull.symm)
          heap.null_notMem })

def free
    (heap : Heap β)
    (address : Nat) :
    Heap β where
  blocks := heap.blocks.erase address
  null_notMem hMem :=
    heap.null_notMem (Finmap.mem_erase.mp hMem).2

def freeAll
    (heap : Heap β) :
    List Nat → Heap β
  | [] => heap
  | address :: rest => (heap.free address).freeAll rest

end Heap

end General

------------------------------------------------------------
-- What Is Read
------------------------------------------------------------

namespace General

namespace Heap

variable {β τ : Type}
variable {A : Allocator}
variable {heap heap' : Heap β}
variable {address : Nat}
variable {block : β}

theorem ext_read
    (hRead : ∀ address, heap.read address = heap'.read address) :
    heap = heap' := by
  cases heap
  cases heap'
  simp only [Heap.mk.injEq]
  exact Finmap.ext_lookup hRead

@[simp] theorem read_null (heap : Heap β) :
    heap.read 0 = none :=
  Finmap.lookup_eq_none.mpr heap.null_notMem

theorem ne_null_of_read
    (hRead : heap.read address = some block) :
    address ≠ 0 := by
  intro hNull
  rw [hNull, read_null] at hRead
  cases hRead

theorem alloc_ne_null
    (A : Allocator)
    (heap : Heap β)
    (block : β) :
    (heap.alloc A block).1 ≠ 0 :=
  A.fresh_ne_null _

/- A block is put where none was. -/
theorem read_alloc_before
    (A : Allocator)
    (heap : Heap β)
    (block : β) :
    heap.read (heap.alloc A block).1 = none := by
  apply Finmap.lookup_eq_none.mpr
  intro hMem
  exact A.fresh_notMem _ (Finmap.mem_keys.mpr hMem)

@[simp] theorem read_alloc_self
    (A : Allocator)
    (heap : Heap β)
    (block : β) :
    (heap.alloc A block).2.read (heap.alloc A block).1 =
      some block :=
  Finmap.lookup_insert _

theorem read_alloc_of_ne
    (hNe : address ≠ (heap.alloc A block).1) :
    (heap.alloc A block).2.read address = heap.read address :=
  Finmap.lookup_insert_of_ne _ hNe

/- What was live still is, and is what it was. -/
theorem read_alloc_of_read
    {old : β}
    (hRead : heap.read address = some old) :
    (heap.alloc A block).2.read address = some old := by
  rw [read_alloc_of_ne, hRead]
  intro hSame
  rw [hSame, read_alloc_before] at hRead
  cases hRead

@[simp] theorem read_free
    (heap : Heap β)
    (a address : Nat) :
    (heap.free a).read address =
      if address = a then none else heap.read address := by
  split_ifs with hSame
  · rw [hSame]
    exact Finmap.lookup_erase a heap.blocks
  · exact Finmap.lookup_erase_ne hSame

@[simp] theorem read_freeAll
    (heap : Heap β)
    (addresses : List Nat)
    (address : Nat) :
    (heap.freeAll addresses).read address =
      if address ∈ addresses then none
      else heap.read address := by
  induction addresses generalizing heap with
  | nil => simp [freeAll]
  | cons a rest ih =>
      rw [freeAll, ih, read_free]
      simp only [List.mem_cons]
      split_ifs <;> simp_all

theorem freeAll_append
    (heap : Heap β)
    (first second : List Nat) :
    heap.freeAll (first ++ second) =
      (heap.freeAll first).freeAll second := by
  induction first generalizing heap with
  | nil => rfl
  | cons a rest ih => exact ih (heap.free a)

end Heap

end General

------------------------------------------------------------
-- Slices
------------------------------------------------------------

namespace General

variable {β τ : Type}

/- A kind of block: values of one type, side by side. -/
structure Slice (τ β : Type) where
  block : List τ → β
  contents : β → Option (List τ)
  contents_block : ∀ l, contents (block l) = some l

/-
  So many values from an address on, where they are live. No
  value is read from any address.
-/
def Heap.slice
    (s : Slice τ β)
    (heap : Heap β)
    (data len : Nat) :
    Option (List τ) :=
  if len = 0 then some []
  else
    ((heap.read data).bind s.contents).bind (fun l =>
      if len ≤ l.length then some (l.take len) else none)

@[simp] theorem Heap.slice_zero
    (s : Slice τ β)
    (heap : Heap β)
    (data : Nat) :
    heap.slice s data 0 = some [] :=
  if_pos rfl

theorem Heap.slice_of_read
    {s : Slice τ β}
    {heap : Heap β}
    {data : Nat}
    {l : List τ}
    (hRead : heap.read data = some (s.block l)) :
    heap.slice s data l.length = some l := by
  unfold Heap.slice
  split_ifs with hNone
  · rw [List.length_eq_zero_iff.mp hNone]
  · rw [hRead, Option.bind_some, s.contents_block]
    simp

/- Everything that is live in the one is so in the other. -/
def Heap.Within (heap heap' : Heap β) : Prop :=
  ∀ address block, heap.read address = some block →
    heap'.read address = some block

theorem Heap.Within.slice
    {s : Slice τ β}
    {heap heap' : Heap β}
    (hWithin : heap.Within heap')
    {data len : Nat}
    {l : List τ}
    (hSlice : heap.slice s data len = some l) :
    heap'.slice s data len = some l := by
  unfold Heap.slice at hSlice ⊢
  split_ifs at hSlice ⊢ with hNone
  · exact hSlice
  · rcases Option.bind_eq_some_iff.mp hSlice with
      ⟨all, hAll, hTake⟩
    rcases Option.bind_eq_some_iff.mp hAll with
      ⟨block, hRead, hContents⟩
    rw [hWithin data block hRead, Option.bind_some, hContents,
      Option.bind_some]
    exact hTake

theorem Heap.slice_length
    {s : Slice τ β}
    {heap : Heap β}
    {data len : Nat}
    {l : List τ}
    (hSlice : heap.slice s data len = some l) :
    l.length = len := by
  unfold Heap.slice at hSlice
  split_ifs at hSlice with hNone
  · cases hSlice
    exact hNone.symm
  · rcases Option.bind_eq_some_iff.mp hSlice with
      ⟨all, -, hTake⟩
    split_ifs at hTake with hLe
    cases hTake
    exact List.length_take_of_le hLe

end General

------------------------------------------------------------
-- Regions
------------------------------------------------------------

namespace General

variable {β τ : Type}

/- A heap, and what of it one owner has allocated. -/
structure Region (β : Type) where
  heap : Heap β
  owned : List Nat
  owned_live : ∀ a ∈ owned, heap.read a ≠ none
  owned_nodup : owned.Nodup

namespace Region

/- Nothing is allocated yet. -/
def start (heap : Heap β) : Region β where
  heap := heap
  owned := []
  owned_live _ hMem := absurd hMem List.not_mem_nil
  owned_nodup := List.nodup_nil

/- A new block, owned. -/
def alloc
    (A : Allocator)
    (block : β)
    (r : Region β) :
    Nat × Region β :=
  ((r.heap.alloc A block).1,
    { heap := (r.heap.alloc A block).2
      owned := r.owned ++ [(r.heap.alloc A block).1]
      owned_live := by
        intro a hMem
        rcases List.mem_append.mp hMem with hOld | hNew
        · rcases Option.ne_none_iff_exists'.mp
            (r.owned_live a hOld) with ⟨old, hOld⟩
          rw [Heap.read_alloc_of_read hOld]
          exact Option.some_ne_none old
        · rw [List.mem_singleton.mp hNew,
            Heap.read_alloc_self]
          exact Option.some_ne_none block
      owned_nodup := by
        rw [List.nodup_append]
        refine ⟨r.owned_nodup, List.nodup_singleton _, ?_⟩
        intro a hOld b hNew hSame
        rw [List.mem_singleton.mp hNew] at hSame
        apply r.owned_live a hOld
        rw [hSame]
        exact Heap.read_alloc_before A r.heap block })

/- What the heap holds besides. -/
def others (r : Region β) : Heap β :=
  r.heap.freeAll r.owned

/- A heap that has everything the region owns. -/
def Held
    (r : Region β)
    (heap : Heap β) :
    Prop :=
  ∀ a ∈ r.owned, heap.read a = r.heap.read a

/-
  More may be owned, and nothing is different otherwise: the
  rest of the heap, and what was owned.
-/
structure Grows (r r' : Region β) : Prop where
  others : r'.others = r.others
  held : ∀ heap, r'.Held heap → r.Held heap

theorem Grows.refl (r : Region β) : Grows r r :=
  ⟨rfl, fun _ hHeld => hHeld⟩

theorem Grows.trans
    {r r' r'' : Region β}
    (hFirst : Grows r r')
    (hSecond : Grows r' r'') :
    Grows r r'' :=
  ⟨hSecond.others.trans hFirst.others,
    fun heap hHeld => hFirst.held heap
      (hSecond.held heap hHeld)⟩

theorem held_self (r : Region β) : r.Held r.heap :=
  fun _ _ => rfl

/- What a region owns is not of the rest. -/
theorem read_others
    (r : Region β)
    (address : Nat) :
    r.others.read address =
      if address ∈ r.owned then none
      else r.heap.read address :=
  Heap.read_freeAll r.heap r.owned address

theorem grows_alloc
    (A : Allocator)
    (block : β)
    (r : Region β) :
    Grows r (r.alloc A block).2 := by
  have hBefore := Heap.read_alloc_before A r.heap block
  constructor
  · apply Heap.ext_read
    intro address
    rw [read_others, read_others]
    simp only [alloc, List.mem_append, List.mem_singleton]
    by_cases hNew : address = (r.heap.alloc A block).1
    · rw [if_pos (Or.inr hNew), hNew, hBefore, ite_self]
    · rw [Heap.read_alloc_of_ne hNew]
      simp [hNew]
  · intro heap hHeld a hMem
    rw [hHeld a (List.mem_append_left _ hMem)]
    apply Heap.read_alloc_of_ne
    intro hSame
    apply r.owned_live a hMem
    rw [hSame, hBefore]

end Region

end General

------------------------------------------------------------
-- Regions Side By Side
------------------------------------------------------------

namespace General

variable {β : Type}

namespace Region

/- What all of the regions own. -/
def allOwned (rs : List (Region β)) : List Nat :=
  (rs.map Region.owned).flatten

/-
  Regions of one heap that own nothing in common. Without what
  they own the heap is the one they started from.
-/
structure SideBySide
    (base heap : Heap β)
    (rs : List (Region β)) :
    Prop where
  held : ∀ r ∈ rs, r.Held heap
  apart : (allOwned rs).Nodup
  rest : heap.freeAll (allOwned rs) = base

theorem sideBySide_nil (heap : Heap β) :
    SideBySide heap heap [] where
  held _ hMem := absurd hMem List.not_mem_nil
  apart := List.nodup_nil
  rest := rfl

variable {base heap : Heap β}
variable {rs : List (Region β)}

theorem SideBySide.live
    (hSide : SideBySide base heap rs)
    {a : Nat}
    (hMem : a ∈ allOwned rs) :
    heap.read a ≠ none := by
  rcases List.mem_flatten.mp hMem with ⟨l, hList, hOwned⟩
  rcases List.mem_map.mp hList with ⟨r, hRegion, rfl⟩
  rw [hSide.held r hRegion a hOwned]
  exact r.owned_live a hOwned

/- A new region owns nothing that was there before. -/
theorem notMem_owned
    {r : Region β}
    (hGrown : Grows (start heap) r)
    {a : Nat}
    (hLive : heap.read a ≠ none) :
    a ∉ r.owned ∧ r.heap.read a = heap.read a := by
  have hRest : r.others = heap := hGrown.others
  have hRead := r.read_others a
  rw [hRest] at hRead
  split_ifs at hRead with hMem
  · exact absurd hRead hLive
  · exact ⟨hMem, hRead.symm⟩

theorem Grows.within
    {r : Region β}
    (hGrown : Grows (start heap) r) :
    heap.Within r.heap := by
  intro address block hRead
  rw [← hRead]
  apply (notMem_owned hGrown ?_).2
  rw [hRead]
  exact Option.some_ne_none block

theorem SideBySide.enter
    (hSide : SideBySide base heap rs)
    {r : Region β}
    (hGrown : Grows (start heap) r) :
    SideBySide base r.heap (r :: rs) where
  held r' hMem := by
    rcases List.mem_cons.mp hMem with rfl | hOld
    · exact held_self _
    · intro a hOwned
      have hHere := hSide.held r' hOld a hOwned
      rw [← hHere]
      apply (notMem_owned hGrown ?_).2
      rw [hHere]
      exact r'.owned_live a hOwned
  apart := by
    rw [allOwned, List.map_cons, List.flatten_cons,
      List.nodup_append]
    refine ⟨r.owned_nodup, hSide.apart, ?_⟩
    intro a hNew b hOld hSame
    apply (notMem_owned hGrown (hSide.live hOld)).1
    rw [← hSame]
    exact hNew
  rest := by
    have hRest : r.heap.freeAll r.owned = heap := hGrown.others
    rw [allOwned, List.map_cons, List.flatten_cons,
      Heap.freeAll_append, hRest]
    exact hSide.rest

/- One of them may be given up. -/
theorem SideBySide.leave
    {before after : List (Region β)}
    {r : Region β}
    (hSide : SideBySide base heap (before ++ r :: after)) :
    SideBySide base (heap.freeAll r.owned)
      (before ++ after) := by
  have hParts : allOwned (before ++ r :: after) =
      allOwned before ++ (r.owned ++ allOwned after) := by
    simp [allOwned]
  have hRest : allOwned (before ++ after) =
      allOwned before ++ allOwned after := by
    simp [allOwned]
  have hApart := hSide.apart
  rw [hParts] at hApart
  simp only [List.nodup_append, List.mem_append] at hApart
  rcases hApart with
    ⟨hBefore, ⟨hHere, hAfter, hLater⟩, hEarlier⟩
  constructor
  · intro r' hMem a hOwned
    rw [Heap.read_freeAll, if_neg]
    · apply hSide.held r' _ a hOwned
      rcases List.mem_append.mp hMem with hOld | hOld
      · exact List.mem_append_left _ hOld
      · exact List.mem_append_right _
          (List.mem_cons_of_mem r hOld)
    · intro hGone
      rcases List.mem_append.mp hMem with hOld | hOld
      · exact hEarlier a (List.mem_flatten.mpr
          ⟨_, List.mem_map_of_mem hOld, hOwned⟩) a
            (Or.inl hGone) rfl
      · exact hLater a hGone a (List.mem_flatten.mpr
          ⟨_, List.mem_map_of_mem hOld, hOwned⟩) rfl
  · rw [hRest, List.nodup_append]
    exact ⟨hBefore, hAfter, fun a hFirst b hSecond =>
      hEarlier a hFirst b (Or.inr hSecond)⟩
  · rw [← hSide.rest, hParts, hRest]
    apply Heap.ext_read
    intro address
    simp only [Heap.read_freeAll, List.mem_append]
    split_ifs <;> simp_all

/- What is related to a list's members has one for each. -/
theorem exists_of_forall₂
    {γ δ : Type}
    {R : γ → δ → Prop}
    {l : List γ}
    {l' : List δ}
    (hRelated : List.Forall₂ R l l')
    {d : δ}
    (hMem : d ∈ l') :
    ∃ c ∈ l, R c d := by
  induction hRelated with
  | nil => cases hMem
  | @cons c d' l l' hHead hRest ih =>
      rcases List.mem_cons.mp hMem with rfl | hMem
      · exact ⟨c, List.mem_cons_self, hHead⟩
      · rcases ih hMem with ⟨c', hMem, hHere⟩
        exact ⟨c', List.mem_cons_of_mem c hMem, hHere⟩

/- Addresses of different regions are different. -/
theorem nodup_of_owned
    {addresses : List Nat}
    (hApart : (allOwned rs).Nodup)
    (hOwned : List.Forall₂ (fun r a => a ∈ r.owned) rs
      addresses) :
    addresses.Nodup := by
  induction hOwned with
  | nil => exact List.nodup_nil
  | @cons r a rs addresses hHere hRest ih =>
      rw [allOwned, List.map_cons, List.flatten_cons,
        List.nodup_append] at hApart
      rcases hApart with ⟨-, hAfter, hLater⟩
      apply List.nodup_cons.mpr
      refine ⟨fun hMem => ?_, ih hAfter⟩
      rcases exists_of_forall₂ hRest hMem with
        ⟨r', hRegion, hOwned⟩
      exact hLater a hHere a (List.mem_flatten.mpr
        ⟨_, List.mem_map_of_mem hRegion, hOwned⟩) rfl

/- What was there before them is untouched. -/
theorem SideBySide.read_base
    (hSide : SideBySide base heap rs)
    {address : Nat}
    {block : β}
    (hRead : base.read address = some block) :
    heap.read address = some block := by
  rw [← hSide.rest, Heap.read_freeAll] at hRead
  split_ifs at hRead
  exact hRead

end Region

end General

------------------------------------------------------------
-- Building
------------------------------------------------------------

namespace General

variable {β τ α γ : Type}

/- A value, with what it takes allocated in a region. -/
def Filling (β α : Type) : Type :=
  Region β → α × Region β

namespace Filling

instance : Monad (Filling β) where
  pure a := fun r => (a, r)
  bind x f := fun r => f (x r).1 (x r).2

@[simp] theorem pure_apply
    (a : α)
    (r : Region β) :
    (pure a : Filling β α) r = (a, r) :=
  rfl

@[simp] theorem bind_apply
    (x : Filling β α)
    (f : α → Filling β γ)
    (r : Region β) :
    (x >>= f) r = f (x r).1 (x r).2 :=
  rfl

/- Values side by side. Nothing is allocated for none. -/
def place
    (A : Allocator)
    (s : Slice τ β)
    (l : List τ) :
    Filling β Nat :=
  fun r =>
    if l = [] then (A.dangling, r)
    else r.alloc A (s.block l)

/- One after the other. -/
def map
    (f : α → Filling β γ) :
    List α → Filling β (List γ)
  | [] => pure []
  | a :: rest => do
      let b ← f a
      let out ← map f rest
      return b :: out

end Filling

/-
  What is built is of use in every heap that has what the
  region owns then, and building it only adds to the region.
-/
def Builds
    (x : Filling β α)
    (Q : α → Heap β → Prop) :
    Prop :=
  ∀ r, Region.Grows r (x r).2 ∧
    ∀ heap, (x r).2.Held heap → Q (x r).1 heap

namespace Builds

theorem pure
    {a : α}
    {Q : α → Heap β → Prop}
    (hHere : ∀ heap, Q a heap) :
    Builds (Pure.pure a) Q :=
  fun r => ⟨Region.Grows.refl r, fun heap _ => hHere heap⟩

/- What was built first is of use to what is built then. -/
theorem bind
    {x : Filling β α}
    {f : α → Filling β γ}
    {P : α → Heap β → Prop}
    {Q : γ → Heap β → Prop}
    (hFirst : Builds x P)
    (hThen : ∀ a,
      Builds (f a) (fun b heap => P a heap → Q b heap)) :
    Builds (x >>= f) Q := by
  intro r
  have hGrown := (hThen (x r).1 (x r).2).1
  refine ⟨(hFirst r).1.trans hGrown, fun heap hHeld => ?_⟩
  apply (hThen (x r).1 (x r).2).2 heap hHeld
  exact (hFirst r).2 heap (hGrown.held heap hHeld)

theorem weaken
    {x : Filling β α}
    {P Q : α → Heap β → Prop}
    (hBuilds : Builds x P)
    (hWeak : ∀ a heap, P a heap → Q a heap) :
    Builds x Q :=
  fun r => ⟨(hBuilds r).1, fun heap hHeld =>
    hWeak _ heap ((hBuilds r).2 heap hHeld)⟩

theorem place
    (A : Allocator)
    (s : Slice τ β)
    (l : List τ) :
    Builds (Filling.place A s l) (fun data heap =>
      data ≠ 0 ∧ heap.slice s data l.length = some l) := by
  intro r
  unfold Filling.place
  split_ifs with hNone
  · rw [hNone]
    exact ⟨Region.Grows.refl r, fun heap _ =>
      ⟨A.dangling_ne_null, Heap.slice_zero s heap _⟩⟩
  · refine ⟨Region.grows_alloc A (s.block l) r, ?_⟩
    intro heap hHeld
    refine ⟨Heap.alloc_ne_null A r.heap (s.block l), ?_⟩
    apply Heap.slice_of_read
    rw [hHeld _ (by simp [Region.alloc])]
    exact Heap.read_alloc_self A r.heap (s.block l)

theorem map
    {f : α → Filling β γ}
    {P : α → γ → Heap β → Prop}
    (l : List α)
    (hEach : ∀ a ∈ l, Builds (f a) (P a)) :
    Builds (Filling.map f l) (fun out heap =>
      List.Forall₂ (fun a b => P a b heap) l out) := by
  induction l with
  | nil => exact Builds.pure (fun heap => List.Forall₂.nil)
  | cons a rest ih =>
      apply Builds.bind (hEach a List.mem_cons_self)
      intro b
      apply Builds.bind (ih (fun a' hMem =>
        hEach a' (List.mem_cons_of_mem a hMem)))
      intro out
      apply Builds.pure
      intro heap hRest hHead
      exact List.Forall₂.cons hHead hRest

end Builds

end General

------------------------------------------------------------
-- Reading
------------------------------------------------------------

namespace General

variable {β τ ε α γ : Type}

/-
  A read of a heap that may refuse what it finds. There is no
  outcome where it looks at what is not live.
-/
def Reading (β ε α : Type) : Type :=
  Heap β → Option (Except ε α)

namespace Reading

instance : Monad (Reading β ε) where
  pure a := fun _ => some (.ok a)
  bind x f := fun heap =>
    (x heap).bind (fun outcome =>
      match outcome with
      | .ok a => f a heap
      | .error e => some (.error e))

/- Refuse. -/
def refuse (e : ε) : Reading β ε α :=
  fun _ => some (.error e)

/- What is known without the heap. -/
def ofExcept (outcome : Except ε α) : Reading β ε α :=
  fun _ => some outcome

/- So many values from an address on. -/
def slice
    (s : Slice τ β)
    (data len : Nat) :
    Reading β ε (List τ) :=
  fun heap => (heap.slice s data len).map Except.ok

/- One after the other, until one is refused. -/
def map
    (f : α → Reading β ε γ) :
    List α → Reading β ε (List γ)
  | [] => pure []
  | a :: rest => do
      let b ← f a
      let out ← map f rest
      return b :: out

section

variable {x : Reading β ε α}
variable {f : α → Reading β ε γ}
variable {heap : Heap β}

@[simp] theorem pure_apply
    (a : α)
    (heap : Heap β) :
    (pure a : Reading β ε α) heap = some (.ok a) :=
  rfl

@[simp] theorem refuse_apply
    (e : ε)
    (heap : Heap β) :
    (refuse e : Reading β ε α) heap = some (.error e) :=
  rfl

@[simp] theorem ofExcept_apply
    (outcome : Except ε α)
    (heap : Heap β) :
    (ofExcept outcome : Reading β ε α) heap = some outcome :=
  rfl

theorem bind_ok
    {a : α}
    (hRead : x heap = some (.ok a)) :
    (x >>= f) heap = f a heap := by
  change (x heap).bind _ = _
  rw [hRead]
  rfl

theorem bind_error
    {e : ε}
    (hRead : x heap = some (.error e)) :
    (x >>= f) heap = some (.error e) := by
  change (x heap).bind _ = _
  rw [hRead]
  rfl

/- What goes through is read in two steps. -/
theorem bind_eq_ok
    {c : γ} :
    (x >>= f) heap = some (.ok c) ↔
      ∃ a, x heap = some (.ok a) ∧
        f a heap = some (.ok c) := by
  constructor
  · intro hRead
    change (x heap).bind _ = _ at hRead
    rcases Option.bind_eq_some_iff.mp hRead with
      ⟨outcome, hFirst, hThen⟩
    cases outcome with
    | ok a => exact ⟨a, hFirst, hThen⟩
    | error e => cases hThen
  · rintro ⟨a, hFirst, hThen⟩
    rw [bind_ok hFirst, hThen]

theorem slice_ok
    {s : Slice τ β}
    {data len : Nat}
    {l : List τ}
    (hSlice : heap.slice s data len = some l) :
    (slice s data len : Reading β ε (List τ)) heap =
      some (.ok l) := by
  rw [slice, hSlice]
  rfl

theorem slice_eq_ok
    {s : Slice τ β}
    {data len : Nat}
    {l : List τ}
    (hRead : (slice s data len : Reading β ε (List τ)) heap =
      some (.ok l)) :
    heap.slice s data len = some l := by
  rcases Option.map_eq_some_iff.mp hRead with ⟨l', hSlice, hSame⟩
  cases hSame
  exact hSlice

theorem map_ok
    {l : List α}
    {out : List γ}
    (hEach : List.Forall₂ (fun b a =>
      f a heap = some (.ok b)) out l) :
    map f l heap = some (.ok out) := by
  induction hEach with
  | nil => rfl
  | cons hHead hRest ih =>
      rw [map, bind_ok hHead, bind_ok ih]
      rfl

end

end Reading

end General
