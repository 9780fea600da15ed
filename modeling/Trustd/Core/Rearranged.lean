import Trustd.Core.RoundTrip

/-
  The decoders of the control wire do not ask in which order
  fields come, nor for what they do not know, and refuse a
  field that comes twice.

  Key definitions include:
    * `Trustd.Wire.requestSlots`
    * `Trustd.Wire.replySlots`
    * `Trustd.Wire.rootSlots`
    * `Trustd.Wire.SameField`
    * `Trustd.Wire.Insensitive`
    * `Trustd.Wire.Strict`

  Key theorems include:
    * `Trustd.Wire.replySlots_sound`
    * `Trustd.Wire.SameField.replaces`
    * `Trustd.Wire.decode_rearranged`
-/

------------------------------------------------------------
-- The Tables
------------------------------------------------------------

namespace Trustd

namespace Wire

open General

def strSlot {σ : Type}
    (key : Text)
    (put : Text → σ → σ) :
    Slot σ where
  key := key
  read mp r := reading (mp.readStr r)
  put := put

def boolSlot {σ : Type}
    (key : Text)
    (put : Bool → σ → σ) :
    Slot σ where
  key := key
  read mp r := reading (mp.readBool r)
  put := put

def uintSlot {σ : Type}
    (key : Text)
    (put : Nat → σ → σ) :
    Slot σ where
  key := key
  read mp r := reading (mp.readUint r)
  put := put

def optSlot {σ : Type}
    (key : Text)
    (put : Option Text → σ → σ) :
    Slot σ where
  key := key
  read mp r := readOptStr mp r
  put := put

def strsSlot {σ : Type}
    (key : Text)
    (put : List Text → σ → σ) :
    Slot σ where
  key := key
  read mp r := readStrList mp r
  put := put

/- The slots of a request. -/
def requestSlots : List (Slot RequestFields) :=
  [strSlot "query".toList
      (fun v s => { s with query := some v }),
    boolSlot "with_der".toList
      (fun v s => { s with withDer := v }),
    optSlot "purpose".toList
      (fun v s => { s with purpose := v })]

/- The slots of a root. -/
def rootSlots : List (Slot Root) :=
  [strSlot "fingerprint".toList
      (fun v s => { s with fingerprint := v }),
    strSlot "subject".toList
      (fun v s => { s with subject := v }),
    strsSlot "purposes".toList
      (fun v s => { s with purposes := v }),
    strSlot "source".toList
      (fun v s => { s with
        source := (sourceParse v).getD .shipped }),
    optSlot "name".toList
      (fun v s => { s with name := v }),
    { key := "not_after".toList
      read := fun mp r => reading (mp.readInt r)
      put := fun v s => { s with notAfter := v } },
    { key := "der".toList
      read := fun mp r => reading (mp.readBin r)
      put := fun v s => { s with der := v } }]

/- The array of roots of a reply. -/
def rootsSlot : Slot ReplyFields where
  key := "roots".toList
  read mp r := reading (mp.readArray r) >>= fun r =>
    readRoots mp r.1 r.2
  put v s := { s with roots := s.roots ++ v }

/- The slots of a reply. -/
def replySlots : List (Slot ReplyFields) :=
  [boolSlot "ok".toList
      (fun v s => { s with ok := some v }),
    strSlot "error".toList
      (fun v s => { s with error := some v }),
    strSlot "kind".toList
      (fun v s => { s with kind := some v }),
    uintSlot "generation".toList
      (fun v s => { s with
        generation := v
        status := { s.status with generation := v } }),
    boolSlot "more".toList
      (fun v s => { s with more := v }),
    rootsSlot,
    strSlot "health".toList
      (fun v s => { s with status := { s.status with
        health := (Health.parse v).getD .ok } }),
    optSlot "message".toList
      (fun v s => { s with
        status := { s.status with message := v } }),
    uintSlot "shipped".toList
      (fun v s => { s with
        status := { s.status with shipped := v } }),
    uintSlot "added".toList
      (fun v s => { s with
        status := { s.status with added := v } }),
    uintSlot "distrusted".toList
      (fun v s => { s with
        status := { s.status with distrusted := v } }),
    uintSlot "skipped".toList
      (fun v s => { s with
        status := { s.status with skipped := v } }),
    uintSlot "effective".toList
      (fun v s => { s with
        status := { s.status with effective := v } }),
    uintSlot "compat_mode".toList
      (fun v s => { s with status := { s.status with
        compatMode := v % 2 ^ 32 } }),
    strsSlot "rendered".toList
      (fun v s => { s with
        status := { s.status with rendered := v } })]

/- The keys that are known in a request. -/
def requestKeys : List Text :=
  ["query".toList, "with_der".toList, "purpose".toList]

/- The keys that are known in a root. -/
def rootKeys : List Text :=
  ["fingerprint".toList, "subject".toList,
    "purposes".toList, "source".toList, "name".toList,
    "not_after".toList, "der".toList]

/- The keys that are known in a reply. -/
def replyKeys : List Text :=
  ["ok".toList, "error".toList, "kind".toList,
    "generation".toList, "more".toList, "roots".toList,
    "health".toList, "message".toList, "shipped".toList,
    "added".toList, "distrusted".toList, "skipped".toList,
    "effective".toList, "compat_mode".toList,
    "rendered".toList]

/- The decoders are those of the tables. -/
theorem requestField_eq (mp : MsgPack) :
    RequestFields.field mp = slotField mp requestSlots := rfl

theorem rootField_eq (mp : MsgPack) :
    Root.field mp = slotField mp rootSlots := rfl

theorem rootsSlot_store
    (mp : MsgPack)
    (s : ReplyFields)
    (r : Bytes) :
    (do
      let (n, r) ← reading (mp.readArray r)
      store (fun v => { s with roots := s.roots ++ v })
        (readRoots mp n r)) =
      store (fun v => rootsSlot.put v s)
        (rootsSlot.read mp r) := by
  unfold rootsSlot
  dsimp only
  cases reading (mp.readArray r) with
  | ok _ => rfl
  | error _ => rfl

theorem replyField_eq (mp : MsgPack) :
    ReplyFields.field mp = slotField mp replySlots := by
  funext key s r
  unfold ReplyFields.field
  rw [rootsSlot_store]
  rfl

end Wire

end Trustd

------------------------------------------------------------
-- Soundness
------------------------------------------------------------

namespace Trustd

namespace Wire

open General

variable {mp : MsgPack}

theorem requestSlots_sound
    (hFraming : Framing mp) :
    Sound mp requestSlots := by
  constructor
  · simp only [requestSlots, List.forall_mem_cons]
    exact ⟨hFraming.str.mapError _, hFraming.bool.mapError _,
      readOptStr_passes hFraming, by simp⟩
  · simp only [requestSlots, List.pairwise_cons,
      List.forall_mem_cons, List.not_mem_nil,
      false_imp_iff, implies_true, and_true, List.Pairwise.nil]
    exact ⟨⟨fun _ _ _ => rfl, fun _ _ _ => rfl⟩,
      fun _ _ _ => rfl⟩

theorem rootSlots_sound
    (hFraming : Framing mp) :
    Sound mp rootSlots := by
  have hStr := hFraming.str.mapError WireError.encoding
  constructor
  · simp only [rootSlots, List.forall_mem_cons]
    exact ⟨hStr, hStr, readStrList_passes hFraming, hStr,
      readOptStr_passes hFraming, hFraming.int.mapError _,
      hFraming.bin.mapError _, by simp⟩
  · simp only [rootSlots, List.pairwise_cons,
      List.forall_mem_cons, List.not_mem_nil,
      false_imp_iff, implies_true, and_true, List.Pairwise.nil]
    repeat' apply And.intro
    all_goals exact fun _ _ _ => rfl

/- A root is one value, and so is an array of them. -/
theorem decodeRoot_passes
    (hFraming : Framing mp) :
    Passes mp.skip 1 (decodeRoot mp) :=
  forEachField_passes hFraming (rootSlots_sound hFraming) {}

theorem readRoots_passes
    (hFraming : Framing mp)
    (n : Nat) :
    Passes mp.skip n (readRoots mp n) := by
  induction n with
  | zero => exact Passes.pure []
  | succ n ih => exact (decodeRoot_passes hFraming).cons ih

theorem replySlots_sound
    (hFraming : Framing mp) :
    Sound mp replySlots := by
  have hStr := hFraming.str.mapError WireError.encoding
  have hUint := hFraming.uint.mapError WireError.encoding
  have hBool := hFraming.bool.mapError WireError.encoding
  have hRoots : Passes mp.skip 1 (rootsSlot.read mp) :=
    (hFraming.array.mapError WireError.encoding).bind
      (readRoots_passes hFraming)
  constructor
  · simp only [replySlots, List.forall_mem_cons]
    exact ⟨hBool, hStr, hStr, hUint, hBool, hRoots, hStr,
      readOptStr_passes hFraming, hUint, hUint, hUint, hUint,
      hUint, hUint, readStrList_passes hFraming, by simp⟩
  · simp only [replySlots, List.pairwise_cons,
      List.forall_mem_cons, List.not_mem_nil,
      false_imp_iff, implies_true, and_true, List.Pairwise.nil]
    repeat' apply And.intro
    all_goals exact fun _ _ _ => rfl

end Wire

end Trustd

------------------------------------------------------------
-- Messages That Say The Same
------------------------------------------------------------

namespace Trustd

namespace Wire

open General

variable {mp : MsgPack}

/- A field of the same value. -/
structure SameValue (f g : RawField) : Prop where
  key : g.key = f.key
  value : g.value = f.value

/- An array of values as they are. -/
def IsArray
    (mp : MsgPack)
    (values : List Bytes)
    (bytes : Bytes) :
    Prop :=
  ∃ head, bytes = head ++ values.flatten ∧
    ∀ rest, mp.readArray (head ++ rest) =
      .ok (values.length, rest)

/- A root with its fields in another order, and further ones. -/
def SameRoot
    (mp : MsgPack)
    (root other : Bytes) :
    Prop :=
  ∃ fields others, IsMap mp fields root ∧
    IsMap mp others other ∧
      Varied rootKeys SameValue fields others

/- A reply's field of the same value, or of such roots. -/
inductive SameField
    (mp : MsgPack)
    (f g : RawField) :
    Prop where
  | value
      (hSame : SameValue f g)
  | roots
      {roots others : List Bytes}
      (hKey : f.key = "roots".toList)
      (hKey' : g.key = "roots".toList)
      (hValue : IsArray mp roots f.value)
      (hValue' : IsArray mp others g.value)
      (hRoots : List.Forall₂ (SameRoot mp) roots others)

theorem SameValue.replaces
    {σ : Type}
    {field : Text → σ → Bytes →
      Except WireError (σ × Bytes)}
    {f g : RawField}
    (hSame : SameValue f g) :
    Replaces field f g := by
  intro u hActs s rest
  rw [hSame.key, hSame.value]
  exact hActs s rest

/- What such a root reads as is what the first did. -/
theorem decodeRoot_varied
    (hFraming : Framing mp)
    {root other : Bytes}
    (hSame : SameRoot mp root other)
    {r : Root}
    {rest out : Bytes}
    (hRead : decodeRoot mp (root ++ rest) = .ok (r, out)) :
    out = rest ∧
      ∀ rest', decodeRoot mp (other ++ rest') =
        .ok (r, rest') := by
  rcases hSame with ⟨fields, others, hMap, hMap', hVaried⟩
  have hSound := rootSlots_sound hFraming
  rw [decodeRoot, rootField_eq] at hRead
  refine ⟨((forEachField_iff hSound hMap).mp hRead).1,
    fun rest' => ?_⟩
  rw [decodeRoot, rootField_eq]
  exact forEachField_varied hSound hVaried
    (fun f g hValue => hValue.replaces) hMap hMap' hRead rest'

theorem readRoots_varied
    (hFraming : Framing mp)
    {roots others : List Bytes}
    (hSame : List.Forall₂ (SameRoot mp) roots others)
    {rs : List Root}
    {rest out : Bytes}
    (hRead : readRoots mp roots.length
      (roots.flatten ++ rest) = .ok (rs, out)) :
    out = rest ∧
      ∀ rest', readRoots mp others.length
        (others.flatten ++ rest') = .ok (rs, rest') := by
  induction hSame generalizing rs with
  | nil =>
      cases hRead
      exact ⟨rfl, fun _ => rfl⟩
  | @cons root other roots others hHead _ ih =>
      rw [List.flatten_cons, List.append_assoc,
        List.length_cons, readRoots, bind_eq_ok_iff] at hRead
      rcases hRead with ⟨⟨r, mid⟩, hRoot, hRest⟩
      rcases bind_eq_ok_iff.mp hRest with
        ⟨⟨rs', out'⟩, hRoots, hPure⟩
      cases hPure
      rcases decodeRoot_varied hFraming hHead hRoot with
        ⟨rfl, hRoot'⟩
      rcases ih hRoots with ⟨rfl, hRoots'⟩
      refine ⟨rfl, fun rest' => ?_⟩
      rw [List.flatten_cons, List.append_assoc,
        List.length_cons, readRoots, hRoot']
      change (readRoots mp others.length
        (others.flatten ++ rest') >>= _) = _
      rw [hRoots']
      rfl

theorem SameField.replaces
    (hFraming : Framing mp)
    {f g : RawField}
    (hSame : SameField mp f g) :
    Replaces (slotField mp replySlots) f g := by
  cases hSame with
  | value hValue => exact hValue.replaces
  | @roots roots others hKey hKey' hValue hValue' hRoots =>
      have hField : ∀ s r,
          slotField mp replySlots "roots".toList s r =
            store (fun v => { s with roots := s.roots ++ v })
              (reading (mp.readArray r) >>= fun r =>
                readRoots mp r.1 r.2) := fun _ _ => rfl
      intro u hActs s rest
      rcases hValue with ⟨head, hValue, hHead⟩
      rcases hValue' with ⟨head', hValue', hHead'⟩
      have hRead := hActs s rest
      rw [hKey, hValue, List.append_assoc, hField,
        store_eq_ok_iff] at hRead
      rcases hRead with ⟨rs, hRead, hPut⟩
      rw [hHead] at hRead
      rcases readRoots_varied hFraming hRoots hRead with
        ⟨-, hAlways⟩
      rw [hKey', hValue', List.append_assoc, hField,
        store_eq_ok_iff]
      refine ⟨rs, ?_, hPut⟩
      rw [hHead']
      exact hAlways rest

end Wire

end Trustd

------------------------------------------------------------
-- The Decoders
------------------------------------------------------------

namespace Trustd

namespace Wire

open General

/-
  Whatever a message decodes to, so does every message that
  has its fields, in any order and with unknown ones among
  them.
-/
def Insensitive {α : Type}
    (mp : MsgPack)
    (known : List Text)
    (same : RawField → RawField → Prop)
    (decode : Bytes → Except WireError α) :
    Prop :=
  ∀ fields others bytes bytes', IsMap mp fields bytes →
    IsMap mp others bytes' → Varied known same fields others →
      ∀ rest rest' v, decode (bytes ++ rest) = .ok v →
        decode (bytes' ++ rest') = .ok v

/- A message with a key twice decodes to nothing. -/
def Strict {α : Type}
    (mp : MsgPack)
    (decode : Bytes → Except WireError α) :
    Prop :=
  ∀ fields bytes, IsMap mp fields bytes →
    ¬ (fields.map RawField.key).Nodup →
      ∀ rest v, decode (bytes ++ rest) ≠ .ok v

variable {mp : MsgPack}

/- A decoder that goes by the locals its fields leave. -/
theorem insensitive_of_locals
    {σ α : Type}
    {slots : List (Slot σ)}
    (hSound : Sound mp slots)
    {known : List Text}
    (hKnown : slots.map Slot.key = known)
    {same : RawField → RawField → Prop}
    (hSame : ∀ f g, same f g →
      Replaces (slotField mp slots) f g)
    {start : σ}
    {finish : σ → Except WireError α} :
    Insensitive mp known same (fun m =>
      forEachField mp (slotField mp slots) start m >>= fun r =>
        finish r.1) := by
  subst hKnown
  intro fields others bytes bytes' hMap hMap' hVaried rest
    rest' v hRead
  rcases bind_eq_ok_iff.mp hRead with
    ⟨⟨s, out⟩, hFields, hFinish⟩
  exact bind_eq_ok_iff.mpr ⟨(s, rest'),
    forEachField_varied hSound hVaried hSame hMap hMap'
      hFields rest', hFinish⟩

theorem strict_of_locals
    {σ α : Type}
    {slots : List (Slot σ)}
    (hSound : Sound mp slots)
    {start : σ}
    {finish : σ → Except WireError α} :
    Strict mp (fun m =>
      forEachField mp (slotField mp slots) start m >>= fun r =>
        finish r.1) := by
  intro fields bytes hMap hTwice rest v hRead
  rcases bind_eq_ok_iff.mp hRead with ⟨⟨s, out⟩, hFields, -⟩
  exact hTwice ((forEachField_iff hSound hMap).mp hFields).2.1

/- Every root of an array that is read is read. -/
theorem exists_of_readRoots
    (hFraming : Framing mp)
    {roots : List Bytes}
    (hWhole : ∀ root ∈ roots, Whole mp.skip root)
    {rs : List Root}
    {rest out : Bytes}
    (hRead : readRoots mp roots.length
      (roots.flatten ++ rest) = .ok (rs, out))
    {root : Bytes}
    (hMem : root ∈ roots) :
    ∃ r rest', decodeRoot mp (root ++ rest') =
      .ok (r, rest') := by
  induction roots generalizing rs out with
  | nil => cases hMem
  | cons first roots ih =>
      rw [List.forall_mem_cons] at hWhole
      rw [List.flatten_cons, List.append_assoc,
        List.length_cons, readRoots, bind_eq_ok_iff] at hRead
      rcases hRead with ⟨⟨r, mid⟩, hRoot, hRest⟩
      rcases bind_eq_ok_iff.mp hRest with
        ⟨⟨rs', out'⟩, hRoots, -⟩
      rcases (decodeRoot_passes hFraming).whole hWhole.1 hRoot
        with ⟨rfl, -⟩
      rcases List.mem_cons.mp hMem with rfl | hMem
      · exact ⟨r, _, hRoot⟩
      · exact ih hWhole.2 hRoots hMem

/- What of a request is asked once its fields are read. -/
def RequestFields.finish (s : RequestFields) :
    Except WireError Request :=
  match s.query with
  | none => throw (.missing "query".toList)
  | some query =>
      if query = "roots".toList then
        return .roots s.withDer s.purpose
      else if query = "subscribe".toList then
        return .subscribe s.withDer
      else if query = "status".toList then return .status
      else if query = "reload".toList then return .reload
      else throw (.unknownQuery query)

/- What a reply is once its fields are read. -/
def ReplyFields.finish (s : ReplyFields) :
    Except WireError Reply :=
  match s.ok with
  | none => throw (.missing "ok".toList)
  | some false =>
      return .error (s.error.getD "unspecified error".toList)
  | some true =>
      if s.kind = some "roots".toList then
        return .roots s.generation s.roots s.more
      else if s.kind = some "status".toList then
        return .status s.status
      else return .ok

theorem request_decode_eq (mp : MsgPack) :
    Request.decode mp = fun m =>
      forEachField mp (slotField mp requestSlots) {} m >>=
        fun r => r.1.finish := by
  rw [← requestField_eq]
  rfl

theorem reply_decode_eq (mp : MsgPack) :
    Reply.decode mp = fun m =>
      forEachField mp (slotField mp replySlots) {} m >>=
        fun r => r.1.finish := by
  rw [← replyField_eq]
  rfl

theorem decodeRoot_eq (mp : MsgPack) :
    (fun m => (decodeRoot mp m).map Prod.fst) = fun m =>
      forEachField mp (slotField mp rootSlots) {} m >>=
        fun r => Except.ok r.1 := by
  funext m
  rw [decodeRoot, rootField_eq]
  cases forEachField mp (slotField mp rootSlots) {} m with
  | ok _ => rfl
  | error _ => rfl

/- A reply of which one root has a key twice. -/
theorem reply_strict_roots
    (hFraming : Framing mp)
    {fields : List RawField}
    {bytes : Bytes}
    (hMap : IsMap mp fields bytes)
    {f : RawField}
    (hMem : f ∈ fields)
    (hKey : f.key = "roots".toList)
    {roots : List Bytes}
    (hArray : IsArray mp roots f.value)
    (hWhole : ∀ root ∈ roots, Whole mp.skip root)
    {root : Bytes}
    (hRoot : root ∈ roots)
    {rootFields : List RawField}
    (hRootMap : IsMap mp rootFields root)
    (hTwice : ¬ (rootFields.map RawField.key).Nodup)
    (rest : Bytes)
    (v : Reply) :
    Reply.decode mp (bytes ++ rest) ≠ .ok v := by
  intro hRead
  rw [reply_decode_eq] at hRead
  rcases bind_eq_ok_iff.mp hRead with ⟨⟨s, out⟩, hFields, -⟩
  rcases (forEachField_iff (replySlots_sound hFraming)
    hMap).mp hFields with ⟨-, -, us, hUs, -⟩
  rcases exists_acts_of_mem hUs hMem with ⟨u, hActs⟩
  have hField : ∀ s r,
      slotField mp replySlots "roots".toList s r =
        store (fun v => { s with roots := s.roots ++ v })
          (reading (mp.readArray r) >>= fun r =>
            readRoots mp r.1 r.2) := fun _ _ => rfl
  rcases hArray with ⟨head, hValue, hHead⟩
  have hAct := hActs {} rest
  rw [hKey, hValue, List.append_assoc, hField,
    store_eq_ok_iff] at hAct
  rcases hAct with ⟨rs, hRoots, -⟩
  rw [hHead] at hRoots
  rcases exists_of_readRoots hFraming hWhole hRoots hRoot with
    ⟨r, rest', hDecode⟩
  rw [decodeRoot, rootField_eq] at hDecode
  exact hTwice ((forEachField_iff
    (rootSlots_sound hFraming) hRootMap).mp hDecode).2.1

/-
  The decoders disregard the order of fields and the fields
  that they do not know, in a message and in each of its
  roots, and refuse a key that comes twice in either.
-/
theorem decode_rearranged
    (hFraming : Framing mp) :
    Insensitive mp requestKeys SameValue (Request.decode mp) ∧
    Insensitive mp replyKeys (SameField mp)
      (Reply.decode mp) ∧
    Insensitive mp rootKeys SameValue
      (fun m => (decodeRoot mp m).map Prod.fst) ∧
    Strict mp (Request.decode mp) ∧
    Strict mp (Reply.decode mp) ∧
    Strict mp (fun m => (decodeRoot mp m).map Prod.fst) ∧
    ∀ fields bytes, IsMap mp fields bytes →
      ∀ f ∈ fields, f.key = "roots".toList →
        ∀ roots, IsArray mp roots f.value →
          (∀ root ∈ roots, Whole mp.skip root) →
          ∀ root ∈ roots, ∀ rootFields,
            IsMap mp rootFields root →
            ¬ (rootFields.map RawField.key).Nodup →
            ∀ rest v,
              Reply.decode mp (bytes ++ rest) ≠ .ok v := by
  rw [request_decode_eq, reply_decode_eq, decodeRoot_eq]
  refine ⟨?_, ?_, ?_, ?_, ?_, ?_, ?_⟩
  · exact insensitive_of_locals (requestSlots_sound hFraming)
      rfl (fun _ _ hSame => hSame.replaces)
  · exact insensitive_of_locals (replySlots_sound hFraming)
      rfl (fun _ _ hSame => hSame.replaces hFraming)
  · exact insensitive_of_locals (rootSlots_sound hFraming)
      rfl (fun _ _ hSame => hSame.replaces)
  · exact strict_of_locals (requestSlots_sound hFraming)
  · exact strict_of_locals (replySlots_sound hFraming)
  · exact strict_of_locals (rootSlots_sound hFraming)
  · intro fields bytes hMap f hMem hKey roots hArray hWhole
      root hRoot rootFields hRootMap hTwice rest v
    rw [← reply_decode_eq]
    exact reply_strict_roots hFraming hMap hMem hKey hArray
      hWhole hRoot hRootMap hTwice rest v

/- A field whose value is one item. -/
def itemField (key : Text) (item : Item) : RawField where
  key := key
  spelling := messagePack.write (.str key)
  value := messagePack.write item

theorem itemField_framed
    {key : Text}
    {item : Item}
    (hFits : StrFits key)
    (hItem : ∀ rest, messagePack.skip
      (messagePack.write item ++ rest) = .ok rest) :
    (itemField key item).Framed messagePack :=
  ⟨fun rest => lawful_messagePack.str key rest hFits, hItem⟩

/- What a text is written as is skipped. -/
theorem skip_str
    {text : Text}
    (hFits : StrFits text)
    (rest : Bytes) :
    messagePack.skip (messagePack.write (.str text) ++ rest) =
      .ok rest := by
  have hPasses := framing_messagePack.str _ _ _
    (lawful_messagePack.str text rest hFits)
  rw [skipMany_one] at hPasses
  exact hPasses.1

/- A query, and the same after a key that is not known. -/
def plainQuery : List RawField :=
  [itemField "query".toList (.str "status".toList)]

def longerQuery : List RawField :=
  [itemField "extra".toList (.str "status".toList),
    itemField "query".toList (.str "status".toList)]

theorem isMap_longerQuery :
    IsMap messagePack longerQuery
      (messagePack.write (.map 2) ++
        longerQuery.flatMap RawField.bytes) where
  header := ⟨_, rfl, fun rest =>
    lawful_messagePack.map 2 rest (by decide)⟩
  framed := by
    simp only [longerQuery, List.forall_mem_cons]
    exact ⟨itemField_framed (by decide) (skip_str (by decide)),
      itemField_framed (by decide) (skip_str (by decide)),
      by simp⟩

theorem isMap_plainQuery :
    IsMap messagePack plainQuery
      (messagePack.write (.map 1) ++
        plainQuery.flatMap RawField.bytes) where
  header := ⟨_, rfl, fun rest =>
    lawful_messagePack.map 1 rest (by decide)⟩
  framed := by
    simp only [plainQuery, List.forall_mem_cons]
    exact ⟨itemField_framed (by decide) (skip_str (by decide)),
      by simp⟩

theorem decode_rearranged_longer :
    Request.decode messagePack
      (messagePack.write (.map 2) ++
        longerQuery.flatMap RawField.bytes ++ []) =
      .ok .status := by
  refine (decode_rearranged framing_messagePack).1 plainQuery
    longerQuery _ _ isMap_plainQuery isMap_longerQuery
    ⟨⟨plainQuery, [itemField "extra".toList
      (.str "status".toList)], ?_, ?_, ?_⟩, by decide⟩ [] []
    .status (by decide +kernel)
  · exact .cons ⟨rfl, rfl⟩ .nil
  · exact List.Perm.swap _ _ _
  · decide

end Wire

end Trustd
