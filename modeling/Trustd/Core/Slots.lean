import Mathlib.Data.List.Forall2
import Mathlib.Data.List.Perm.Basic
import Trustd.Core.Wire
import Trustd.General.Passing

/-
  Maps that are read field by field, in whatever order the
  fields come.

  A decoder is a table of slots: a key, how its value is read,
  and what of the locals it writes. Key and value of a field
  are kept as the bytes they are.

  Key definitions include:
    * `Trustd.Wire.Framing`
    * `Trustd.Wire.Slot`
    * `Trustd.Wire.slotField`
    * `Trustd.Wire.RawField`
    * `Trustd.Wire.Varied`

  Key theorems include:
    * `Trustd.Wire.forEachField_iff`
    * `Trustd.Wire.forEachField_varied`
    * `Trustd.Wire.forEachField_passes`
-/

------------------------------------------------------------
-- What Is Relied On
------------------------------------------------------------

namespace Trustd

namespace Wire

open General

/-
  A reader passes over one value and nothing else: what it
  reads, or what it skips, is taken off the front whatever
  follows. An array is a header and its items, a map a header
  and twice as many. Looking for `nil` looks at one byte.
-/
structure Framing (mp : MsgPack) : Prop where
  skip : Passes mp.skip 1
    (fun m => (mp.skip m).map (fun rest => ((), rest)))
  map : Heads mp.skip (fun n => 2 * n) mp.readMap
  array : Heads mp.skip (fun n => n) mp.readArray
  str : Passes mp.skip 1 mp.readStr
  bool : Passes mp.skip 1 mp.readBool
  uint : Passes mp.skip 1 mp.readUint
  int : Passes mp.skip 1 mp.readInt
  bin : Passes mp.skip 1 mp.readBin
  nil : Passes mp.skip 1
    (fun m => (mp.readNil m).map (fun rest => ((), rest)))
  peeksNil : ∀ b rest rest',
    mp.peeksNil (b :: rest) = mp.peeksNil (b :: rest')

variable {mp : MsgPack}

theorem readStrs_passes
    (hFraming : Framing mp)
    (n : Nat) :
    Passes mp.skip n (readStrs mp n) := by
  induction n with
  | zero => exact Passes.pure []
  | succ n ih =>
      exact (hFraming.str.mapError WireError.encoding).cons ih

/- A count that is read to its end was no lie. -/
theorem readStrList_passes
    (hFraming : Framing mp) :
    Passes mp.skip 1 (readStrList mp) := by
  intro m texts out hRead
  rw [readStrList, bind_eq_ok_iff] at hRead
  rcases hRead with ⟨⟨n, rest⟩, hArray, hStrs⟩
  rcases guard_eq_ok_iff.mp hStrs with ⟨-, hStrs⟩
  rcases (hFraming.array.mapError WireError.encoding)
    m n rest hArray with ⟨hSkip, v, rfl, hLength, hAlways⟩
  rcases readStrs_passes hFraming n rest texts out hStrs with
    ⟨hSkip', w, rfl, hLength', hAlways'⟩
  refine ⟨?_, v ++ w, (List.append_assoc v w out).symm, ?_,
    fun rest' => ?_⟩
  · rw [skipMany_one]
    exact hSkip out hSkip'
  · rw [List.length_append]
    exact Nat.le_add_right_of_le hLength
  · rw [List.append_assoc, readStrList, bind_eq_ok_iff]
    refine ⟨(n, w ++ rest'), hAlways _, ?_⟩
    rw [guard_eq_ok_iff]
    refine ⟨?_, hAlways' rest'⟩
    rw [List.length_append]
    omega

theorem readOptStr_passes
    (hFraming : Framing mp) :
    Passes mp.skip 1 (readOptStr mp) := by
  have hNil : Passes mp.skip 1 (fun m =>
      reading (mp.readNil m) >>= fun rest =>
        Except.ok ((none : Option Text), rest)) := by
    refine Passes.congr (fun m => ?_)
      ((hFraming.nil.mapError WireError.encoding).map
        (fun _ => none))
    cases mp.readNil m with
    | ok rest => rfl
    | error e => rfl
  have hStr : Passes mp.skip 1 (fun m =>
      reading (mp.readStr m) >>= fun r =>
        Except.ok (some r.1, r.2)) := by
    refine Passes.congr (fun m => ?_)
      ((hFraming.str.mapError WireError.encoding).map some)
    cases mp.readStr m with
    | ok r => rfl
    | error e => rfl
  -- the first byte decides, and it is one of those read
  have hFirst : ∀ {v rest : Bytes}, 1 ≤ v.length →
      ∀ rest', mp.peeksNil (v ++ rest') =
        mp.peeksNil (v ++ rest) := by
    intro v rest hLength rest'
    cases v with
    | nil => cases hLength
    | cons b v => exact hFraming.peeksNil b _ _
  intro m text out hRead
  rw [readOptStr] at hRead
  split_ifs at hRead with hPeek
  · rcases hNil m text out hRead with
      ⟨hSkip, v, rfl, hLength, hAlways⟩
    refine ⟨hSkip, v, rfl, hLength, fun rest' => ?_⟩
    rw [readOptStr, hFirst hLength rest', if_pos hPeek]
    exact hAlways rest'
  · rcases hStr m text out hRead with
      ⟨hSkip, v, rfl, hLength, hAlways⟩
    refine ⟨hSkip, v, rfl, hLength, fun rest' => ?_⟩
    rw [readOptStr, hFirst hLength rest', if_neg hPeek]
    exact hAlways rest'

end Wire

end Trustd

------------------------------------------------------------
-- Slots
------------------------------------------------------------

namespace Trustd

namespace Wire

open General

/- A key, how its value is read and where it is put. -/
structure Slot (σ : Type) where
  {α : Type}
  key : Text
  read : MsgPack → Bytes → Except WireError (α × Bytes)
  put : α → σ → σ

/- A field is taken up by the first slot of its key. -/
def slotField {σ : Type}
    (mp : MsgPack) :
    List (Slot σ) → Text → σ → Bytes →
      Except WireError (σ × Bytes)
  | [], _, s, r => skipField mp s r
  | slot :: slots, key, s, r =>
      if key = slot.key then
        store (fun v => slot.put v s) (slot.read mp r)
      else slotField mp slots key s r

/- Two slots that write apart from each other. -/
def Apart {σ : Type} (a b : Slot σ) : Prop :=
  ∀ x y s, a.put x (b.put y s) = b.put y (a.put x s)

/- Slots that read one value each, and write apart. -/
structure Sound {σ : Type}
    (mp : MsgPack)
    (slots : List (Slot σ)) :
    Prop where
  reads : ∀ slot ∈ slots, Passes mp.skip 1 (slot.read mp)
  apart : slots.Pairwise Apart

/- A field as it is: its key, and the bytes of both parts. -/
structure RawField where
  key : Text
  spelling : Bytes
  value : Bytes
deriving DecidableEq

def RawField.bytes (f : RawField) : Bytes :=
  f.spelling ++ f.value

/- The key is read off its bytes, and the value is one. -/
structure RawField.Framed
    (mp : MsgPack)
    (f : RawField) :
    Prop where
  spelling : ∀ rest,
    mp.readStr (f.spelling ++ rest) = .ok (f.key, rest)
  value : Whole mp.skip f.value

section

variable {σ : Type}
variable {mp : MsgPack}
variable {slots : List (Slot σ)}
variable {f g : RawField}
variable {u u' : σ → σ}

/- What a field does to the locals. -/
def Acts
    (field : Text → σ → Bytes →
      Except WireError (σ × Bytes))
    (f : RawField)
    (u : σ → σ) :
    Prop :=
  ∀ s rest, field f.key s (f.value ++ rest) = .ok (u s, rest)

/- What a field of the key can do to them. -/
inductive Effect
    (slots : List (Slot σ))
    (key : Text) :
    (σ → σ) → Prop where
  | known
      {slot : Slot σ}
      (hSlot : slot ∈ slots)
      (hKey : slot.key = key)
      (v : slot.α) :
      Effect slots key (slot.put v)
  | unknown
      (hKey : key ∉ slots.map Slot.key) :
      Effect slots key id

theorem Acts.unique
    {field : Text → σ → Bytes →
      Except WireError (σ × Bytes)}
    (hLeft : Acts field f u)
    (hRight : Acts field f u') :
    u = u' := by
  funext s
  have hSame := (hLeft s []).symm.trans (hRight s [])
  exact congrArg Prod.fst (Except.ok.inj hSame)

/- The slot of a key, or none. -/
theorem slotField_cases
    (mp : MsgPack)
    (slots : List (Slot σ))
    (key : Text) :
    (∃ slot ∈ slots, slot.key = key ∧
      ∀ s r, slotField mp slots key s r =
        store (fun v => slot.put v s) (slot.read mp r)) ∨
      (key ∉ slots.map Slot.key ∧
        ∀ s r, slotField mp slots key s r =
          skipField mp s r) := by
  induction slots with
  | nil => exact Or.inr ⟨by simp, fun _ _ => rfl⟩
  | cons slot slots ih =>
      by_cases hKey : key = slot.key
      · refine Or.inl ⟨slot, List.mem_cons_self, hKey.symm,
          fun s r => ?_⟩
        rw [slotField, if_pos hKey]
      · rcases ih with ⟨found, hMem, hFound, hField⟩ |
          ⟨hNone, hField⟩
        · refine Or.inl ⟨found, List.mem_cons_of_mem slot hMem,
            hFound, fun s r => ?_⟩
          rw [slotField, if_neg hKey, hField]
        · refine Or.inr ⟨?_, fun s r => ?_⟩
          · rw [List.map_cons, List.mem_cons, not_or]
            exact ⟨hKey, hNone⟩
          · rw [slotField, if_neg hKey, hField]

theorem store_eq_ok_iff
    {α : Type}
    {set : α → σ}
    {x : Except WireError (α × Bytes)}
    {s : σ}
    {rest : Bytes} :
    store set x = .ok (s, rest) ↔
      ∃ a, x = .ok (a, rest) ∧ set a = s := by
  unfold store
  cases x with
  | error e => simp [Except.map]
  | ok r => simp [Except.map, Prod.ext_iff, and_comm]

/- A field that is skipped does nothing. -/
theorem acts_skip
    {field : Text → σ → Bytes →
      Except WireError (σ × Bytes)}
    (hFramed : f.Framed mp)
    (hField : ∀ s r, field f.key s r = skipField mp s r) :
    Acts field f id := by
  intro s rest
  rw [hField, skipField, hFramed.value rest]
  rfl

/-
  A field that is taken up is read to its end and no further,
  and does the same to the locals wherever it stands.
-/
theorem slotField_acts
    (hSound : Sound mp slots)
    (hFramed : f.Framed mp)
    {s s' : σ}
    {rest out : Bytes}
    (hRead : slotField mp slots f.key s (f.value ++ rest) =
      .ok (s', out)) :
    out = rest ∧ ∃ u, Acts (slotField mp slots) f u ∧
      Effect slots f.key u ∧ s' = u s := by
  rcases slotField_cases mp slots f.key with
    ⟨slot, hSlot, hKey, hField⟩ | ⟨hNone, hField⟩
  · rw [hField, store_eq_ok_iff] at hRead
    rcases hRead with ⟨v, hValue, rfl⟩
    rcases (hSound.reads slot hSlot).whole hFramed.value hValue
      with ⟨rfl, hAlways⟩
    refine ⟨rfl, slot.put v, fun s rest => ?_,
      .known hSlot hKey v, rfl⟩
    rw [hField, hAlways]
    rfl
  · have hActs := acts_skip hFramed hField
    rw [hActs s rest] at hRead
    cases hRead
    exact ⟨rfl, id, hActs, .unknown hNone, rfl⟩

theorem Acts.effect
    (hSound : Sound mp slots)
    (hFramed : f.Framed mp)
    (s : σ)
    (hActs : Acts (slotField mp slots) f u) :
    Effect slots f.key u := by
  rcases slotField_acts hSound hFramed (hActs s [])
    with ⟨-, u', hSame, hEffect, -⟩
  rw [hActs.unique hSame]
  exact hEffect

/- What fields of two keys do can be done in either order. -/
theorem Effect.commute
    (hApart : slots.Pairwise Apart)
    {key key' : Text}
    (hKeys : key ≠ key')
    (hLeft : Effect slots key u)
    (hRight : Effect slots key' u')
    (s : σ) :
    u (u' s) = u' (u s) := by
  have hSymm : Std.Symm (Apart (σ := σ)) :=
    ⟨fun _ _ hApart x y s => (hApart y x s).symm⟩
  cases hLeft with
  | unknown hNone => rfl
  | @known a ha hKeyA v =>
      cases hRight with
      | unknown hNone => rfl
      | @known b hb hKeyB w =>
          have hNe : a ≠ b := by
            rintro rfl
            exact hKeys (hKeyA.symm.trans hKeyB)
          exact hApart.forall ha hb hNe v w s

end

end Wire

end Trustd

------------------------------------------------------------
-- Maps
------------------------------------------------------------

namespace Trustd

namespace Wire

open General

/- The bytes of a map, of fields that are each framed. -/
structure IsMap
    (mp : MsgPack)
    (fields : List RawField)
    (bytes : Bytes) :
    Prop where
  header : ∃ head,
    bytes = head ++ fields.flatMap RawField.bytes ∧
      ∀ rest, mp.readMap (head ++ rest) =
        .ok (fields.length, rest)
  framed : ∀ f ∈ fields, f.Framed mp

section

variable {σ : Type}
variable {mp : MsgPack}
variable {slots : List (Slot σ)}
variable {fields : List RawField}

/-
  The fields are taken up one by one, and are all taken up if
  and only if each can be and no key comes twice.
-/
theorem fieldsFrom_iff
    (hSound : Sound mp slots)
    (hFramed : ∀ f ∈ fields, f.Framed mp)
    {seen : List Text}
    (hSeen : seen.Nodup)
    {s s' : σ}
    {rest out : Bytes} :
    fieldsFrom mp (slotField mp slots) fields.length seen s
        (fields.flatMap RawField.bytes ++ rest) =
          .ok (s', out) ↔
      out = rest ∧ (seen ++ fields.map RawField.key).Nodup ∧
        ∃ us, List.Forall₂ (Acts (slotField mp slots))
            fields us ∧
          s' = us.foldl (fun s u => u s) s := by
  induction fields generalizing seen s with
  | nil =>
      rw [List.length_nil, fieldsFrom, List.flatMap_nil,
        List.nil_append, Except.ok.injEq, Prod.mk.injEq]
      simp [hSeen, eq_comm, and_comm]
  | cons f fields ih =>
      rw [List.forall_mem_cons] at hFramed
      rw [List.flatMap_cons, List.append_assoc,
        RawField.bytes, List.append_assoc, List.length_cons,
        fieldsFrom, hFramed.1.spelling]
      have hAppend : seen ++ (f :: fields).map RawField.key =
          (seen ++ [f.key]) ++ fields.map RawField.key := by
        simp
      rw [hAppend]
      change (if f.key ∈ seen then
          throw (WireError.duplicate f.key)
        else slotField mp slots f.key s
            (f.value ++ (fields.flatMap RawField.bytes ++
              rest)) >>= fun r =>
          fieldsFrom mp (slotField mp slots) fields.length
            (seen ++ [f.key]) r.1 r.2) = _ ↔ _
      rw [guard_eq_ok_iff, bind_eq_ok_iff]
      constructor
      · rintro ⟨hNew, ⟨t, mid⟩, hField, hRest⟩
        rcases slotField_acts hSound hFramed.1 hField with
          ⟨rfl, u, hActs, -, rfl⟩
        have hSeen' : (seen ++ [f.key]).Nodup := by
          rw [List.nodup_append]
          refine ⟨hSeen, List.nodup_singleton _, ?_⟩
          rintro a ha b hb rfl
          rw [List.mem_singleton.mp hb] at ha
          exact hNew ha
        rcases (ih hFramed.2 hSeen').mp hRest with
          ⟨rfl, hKeys, us, hUs, rfl⟩
        exact ⟨rfl, hKeys, u :: us, .cons hActs hUs, rfl⟩
      · rintro ⟨rfl, hKeys, us, hUs, rfl⟩
        cases hUs with
        | @cons _ u _ us hActs hUs =>
            have hSeen' := (List.nodup_append.mp hKeys).1
            refine ⟨?_, (u s, _), hActs s _,
              (ih hFramed.2 hSeen').mpr
                ⟨rfl, hKeys, us, hUs, rfl⟩⟩
            intro hMem
            exact (List.nodup_append.mp hSeen').2.2 f.key hMem
              f.key (List.mem_singleton_self _) rfl

/- The same of a map as a whole. -/
theorem forEachField_iff
    (hSound : Sound mp slots)
    {bytes : Bytes}
    (hMap : IsMap mp fields bytes)
    {s s' : σ}
    {rest out : Bytes} :
    forEachField mp (slotField mp slots) s (bytes ++ rest) =
        .ok (s', out) ↔
      out = rest ∧ (fields.map RawField.key).Nodup ∧
        ∃ us, List.Forall₂ (Acts (slotField mp slots))
            fields us ∧
          s' = us.foldl (fun s u => u s) s := by
  rcases hMap.header with ⟨head, rfl, hHead⟩
  rw [List.append_assoc, forEachField, hHead]
  exact fieldsFrom_iff hSound hMap.framed List.nodup_nil

/-
  A map with the same fields in whatever order, the value of
  each the same or as good, and further fields under unknown
  keys. No key comes twice.
-/
structure Varied
    (known : List Text)
    (same : RawField → RawField → Prop)
    (fields others : List RawField) :
    Prop where
  arranged : ∃ kept extras,
    List.Forall₂ same fields kept ∧
      others.Perm (kept ++ extras) ∧
        ∀ f ∈ extras, f.key ∉ known
  nodup : (others.map RawField.key).Nodup

/- Fields that are as good act as those they stand for. -/
def Replaces
    (field : Text → σ → Bytes →
      Except WireError (σ × Bytes))
    (f g : RawField) :
    Prop :=
  ∀ u, Acts field f u → Acts field g u

theorem forall₂_replaces
    {field : Text → σ → Bytes →
      Except WireError (σ × Bytes)}
    {kept : List RawField}
    (hSame : List.Forall₂ (Replaces field) fields kept)
    {us : List (σ → σ)}
    (hActs : List.Forall₂ (Acts field) fields us) :
    List.Forall₂ (Acts field) kept us := by
  induction hSame generalizing us with
  | nil =>
      cases hActs
      exact .nil
  | cons hHead _ ih =>
      cases hActs with
      | cons hFirst hRest =>
          exact .cons (hHead _ hFirst) (ih hRest)

/- Fields under unknown keys do nothing. -/
theorem forall₂_unknown
    {extras : List RawField}
    (hFramed : ∀ f ∈ extras, f.Framed mp)
    (hUnknown : ∀ f ∈ extras,
      f.key ∉ slots.map Slot.key) :
    List.Forall₂ (Acts (slotField mp slots)) extras
      (List.replicate extras.length id) := by
  induction extras with
  | nil => exact .nil
  | cons f extras ih =>
      rw [List.forall_mem_cons] at hFramed hUnknown
      refine .cons ?_ (ih hFramed.2 hUnknown.2)
      rcases slotField_cases mp slots f.key with
        ⟨slot, hSlot, hKey, -⟩ | ⟨-, hField⟩
      · exact absurd (hKey ▸ List.mem_map_of_mem hSlot)
          hUnknown.1
      · exact acts_skip hFramed.1 hField

theorem foldl_replicate_id
    (n : Nat)
    (s : σ) :
    (List.replicate n (id : σ → σ)).foldl
      (fun s u => u s) s = s := by
  induction n with
  | zero => rfl
  | succ n ih => exact ih

/- What is done is done by one of the fields. -/
theorem exists_acts
    {field : Text → σ → Bytes →
      Except WireError (σ × Bytes)}
    {us : List (σ → σ)}
    (hActs : List.Forall₂ (Acts field) fields us)
    {u : σ → σ}
    (hMem : u ∈ us) :
    ∃ f ∈ fields, Acts field f u := by
  induction hActs with
  | nil => cases hMem
  | @cons f v fields us hHead _ ih =>
      rcases List.mem_cons.mp hMem with rfl | hMem
      · exact ⟨f, List.mem_cons_self, hHead⟩
      · rcases ih hMem with ⟨g, hg, hLater⟩
        exact ⟨g, List.mem_cons_of_mem f hg, hLater⟩

theorem exists_acts_of_mem
    {field : Text → σ → Bytes →
      Except WireError (σ × Bytes)}
    {us : List (σ → σ)}
    (hActs : List.Forall₂ (Acts field) fields us)
    {f : RawField}
    (hMem : f ∈ fields) :
    ∃ u, Acts field f u := by
  induction hActs with
  | nil => cases hMem
  | @cons g u fields us hHead _ ih =>
      rcases List.mem_cons.mp hMem with rfl | hMem
      · exact ⟨u, hHead⟩
      · exact ih hMem

/- What such a map reads as is what the first did. -/
theorem forEachField_varied
    (hSound : Sound mp slots)
    {others : List RawField}
    {same : RawField → RawField → Prop}
    (hVaried :
      Varied (slots.map Slot.key) same fields others)
    (hSame : ∀ f g, same f g →
      Replaces (slotField mp slots) f g)
    {bytes bytes' : Bytes}
    (hMap : IsMap mp fields bytes)
    (hMap' : IsMap mp others bytes')
    {s s' : σ}
    {rest out : Bytes}
    (hRead : forEachField mp (slotField mp slots) s
      (bytes ++ rest) = .ok (s', out))
    (rest' : Bytes) :
    forEachField mp (slotField mp slots) s
      (bytes' ++ rest') = .ok (s', rest') := by
  rcases (forEachField_iff hSound hMap).mp hRead with
    ⟨-, -, us, hUs, rfl⟩
  rcases hVaried.arranged with
    ⟨kept, extras, hKept, hPerm, hUnknown⟩
  have hFramed' : ∀ f ∈ extras, f.Framed mp := fun f hf =>
    hMap'.framed f (hPerm.symm.subset
      (List.mem_append_right kept hf))
  have hAll : List.Forall₂ (Acts (slotField mp slots))
      (kept ++ extras)
      (us ++ List.replicate extras.length id) :=
    List.rel_append (forall₂_replaces
      (hKept.imp hSame) hUs)
      (forall₂_unknown hFramed' hUnknown)
  rcases List.perm_comp_forall₂ hPerm hAll with
    ⟨vs, hVs, hPerm'⟩
  refine (forEachField_iff hSound hMap').mpr
    ⟨rfl, hVaried.nodup, vs, hVs, ?_⟩
  -- no two fields of one key, so that each two commute
  have hCommute : ∀ v ∈ vs, ∀ w ∈ vs, ∀ t : σ,
      w (v t) = v (w t) := by
    intro v hv w hw t
    rcases exists_acts hVs hv with ⟨f, hf, hV⟩
    rcases exists_acts hVs hw with ⟨g, hg, hW⟩
    by_cases hKeys : f.key = g.key
    · have hOne : f = g := List.inj_on_of_nodup_map
        hVaried.nodup hf hg hKeys
      subst hOne
      rw [hV.unique hW]
    · exact (Effect.commute hSound.apart hKeys
        (hV.effect hSound (hMap'.framed f hf) t)
        (hW.effect hSound (hMap'.framed g hg) t) t).symm
  rw [hPerm'.foldl_eq' hCommute, List.foldl_append,
    foldl_replicate_id]

end

end Wire

end Trustd

------------------------------------------------------------
-- Maps Inside Maps
------------------------------------------------------------

namespace Trustd

namespace Wire

open General

variable {σ : Type}
variable {mp : MsgPack}
variable {slots : List (Slot σ)}

theorem skipField_passes
    (hFraming : Framing mp)
    (s : σ) :
    Passes mp.skip 1 (skipField mp s) := by
  refine Passes.congr (fun m => ?_)
    ((hFraming.skip.mapError WireError.encoding).map
      (fun _ => s))
  rw [skipField]
  cases mp.skip m with
  | ok rest => rfl
  | error e => rfl

theorem slotField_passes
    (hFraming : Framing mp)
    (hSound : Sound mp slots)
    (key : Text)
    (s : σ) :
    Passes mp.skip 1 (slotField mp slots key s) := by
  rcases slotField_cases mp slots key with
    ⟨slot, hSlot, -, hField⟩ | ⟨-, hField⟩
  · rw [funext (hField s)]
    exact (hSound.reads slot hSlot).map
      (fun v => slot.put v s)
  · rw [funext (hField s)]
    exact skipField_passes hFraming s

/- A field is a key and a value. -/
theorem fieldsFrom_passes
    (hFraming : Framing mp)
    (hSound : Sound mp slots)
    (n : Nat)
    (seen : List Text)
    (s : σ) :
    Passes mp.skip (2 * n)
      (fieldsFrom mp (slotField mp slots) n seen s) := by
  induction n generalizing seen s with
  | zero => exact Passes.pure s
  | succ n ih =>
      have hField : ∀ key, Passes mp.skip (1 + 2 * n)
          (fun m => if key ∈ seen then
              throw (WireError.duplicate key)
            else slotField mp slots key s m >>= fun r =>
              fieldsFrom mp (slotField mp slots) n
                (seen ++ [key]) r.1 r.2) := by
        intro key
        by_cases hSeen : key ∈ seen
        · intro m a rest hRead
          exact absurd hSeen (guard_eq_ok_iff.mp hRead).1
        · simp only [if_neg hSeen]
          exact (slotField_passes hFraming hSound key s).bind
            (fun t => ih (seen ++ [key]) t)
      have hWidth : 2 * (n + 1) = 1 + (1 + 2 * n) := by
        omega
      rw [hWidth]
      exact (hFraming.str.mapError WireError.encoding).bind
        hField

/- A map is read as one value. -/
theorem forEachField_passes
    (hFraming : Framing mp)
    (hSound : Sound mp slots)
    (s : σ) :
    Passes mp.skip 1
      (forEachField mp (slotField mp slots) s) :=
  (hFraming.map.mapError WireError.encoding).bind
    (fun n => fieldsFrom_passes hFraming hSound n [] s)

end Wire

end Trustd
