import Trustd.Core.Framing

/-
  Decoding undoes encoding, over the whole control wire.

  A message is a map; each of its fields is a key and the
  bytes of a value, and a decoder takes a value up by changing
  its locals.

  Key definitions include:
    * `Trustd.Wire.Lawful`
    * `Trustd.Wire.Field`
    * `Trustd.Wire.Request.Fits`
    * `Trustd.Wire.Reply.Fits`

  Key theorems include:
    * `Trustd.Wire.forEachField_fields`
    * `Trustd.Wire.decode_encode`
-/

------------------------------------------------------------
-- What Is Relied On
------------------------------------------------------------

namespace Trustd

namespace Wire

/- A string a header can give the length of. -/
def StrFits (text : Text) : Prop :=
  (Text.utf8 text).length < 2 ^ 32

instance (text : Text) : Decidable (StrFits text) :=
  inferInstanceAs (Decidable (_ < _))

/-
  The reader undoes the writer: an item is read back off the
  front of whatever follows it. Every item is a byte at least,
  and `nil` is told from a string by looking at it.
-/
structure Lawful (mp : MsgPack) : Prop where
  map : ∀ n rest, n < 2 ^ 32 →
    mp.readMap (mp.write (.map n) ++ rest) = .ok (n, rest)
  array : ∀ n rest, n < 2 ^ 32 →
    mp.readArray (mp.write (.array n) ++ rest) = .ok (n, rest)
  str : ∀ text rest, StrFits text →
    mp.readStr (mp.write (.str text) ++ rest) =
      .ok (text, rest)
  bool : ∀ value rest,
    mp.readBool (mp.write (.bool value) ++ rest) =
      .ok (value, rest)
  uint : ∀ n rest, n < 2 ^ 64 →
    mp.readUint (mp.write (.uint n) ++ rest) = .ok (n, rest)
  int : ∀ n rest, -2 ^ 63 ≤ n → n < 2 ^ 63 →
    mp.readInt (mp.write (.int n) ++ rest) = .ok (n, rest)
  bin : ∀ data rest, data.length < 2 ^ 32 →
    mp.readBin (mp.write (.bin data) ++ rest) =
      .ok (data, rest)
  nil : ∀ rest, mp.readNil (mp.write .nil ++ rest) = .ok rest
  peeksNil_nil : ∀ rest,
    mp.peeksNil (mp.write .nil ++ rest) = true
  peeksNil_str : ∀ text rest, StrFits text →
    mp.peeksNil (mp.write (.str text) ++ rest) = false
  nonempty : ∀ item, 1 ≤ (mp.write item).length

/- Strings, and a list of them, that headers can count. -/
def StrsFit (texts : List Text) : Prop :=
  texts.length < 2 ^ 32 ∧ ∀ text ∈ texts, StrFits text

def OptFits (text : Option Text) : Prop :=
  ∀ t, text = some t → StrFits t

def Request.Fits : Request → Prop
  | .roots _ purpose => OptFits purpose
  | _ => True

/- The types of a root's fields, and countable lengths. -/
structure Root.Fits (root : Root) : Prop where
  fingerprint : StrFits root.fingerprint
  subject : StrFits root.subject
  purposes : StrsFit root.purposes
  name : OptFits root.name
  notAfter : -2 ^ 63 ≤ root.notAfter ∧ root.notAfter < 2 ^ 63
  der : root.der.length < 2 ^ 32

/- The types of a status's fields, and countable lengths. -/
structure Status.Fits (s : Status) : Prop where
  generation : s.generation < 2 ^ 64
  message : OptFits s.message
  shipped : s.shipped < 2 ^ 64
  added : s.added < 2 ^ 64
  distrusted : s.distrusted < 2 ^ 64
  skipped : s.skipped < 2 ^ 64
  effective : s.effective < 2 ^ 64
  compatMode : s.compatMode < 2 ^ 32
  rendered : StrsFit s.rendered

def Reply.Fits : Reply → Prop
  | .ok => True
  | .error message => StrFits message
  | .roots generation batch _ =>
      generation < 2 ^ 64 ∧ batch.length < 2 ^ 32 ∧
        ∀ root ∈ batch, root.Fits
  | .status s => s.Fits

end Wire

end Trustd

------------------------------------------------------------
-- Fields Of A Map
------------------------------------------------------------

namespace Trustd

namespace Wire

/- A key, the items of its value, and what is done with it. -/
structure Field (σ : Type) where
  key : Text
  items : List Item
  put : σ → σ

/- The items a field is written as. -/
def Field.all {σ : Type} (f : Field σ) : List Item :=
  .str f.key :: f.items

/- Keys a map can have: countable and none of them twice. -/
def KeysFit (keys : List Text) : Prop :=
  keys.Nodup ∧ keys.length < 2 ^ 32 ∧
    ∀ key ∈ keys, StrFits key

instance (keys : List Text) : Decidable (KeysFit keys) :=
  inferInstanceAs (Decidable (_ ∧ _))

/- A decoder takes the field up, whatever follows it. -/
def Field.Reads {σ : Type}
    (mp : MsgPack)
    (field : Text → σ → Bytes → Except WireError (σ × Bytes))
    (f : Field σ) :
    Prop :=
  ∀ s rest, field f.key s (mp.toBytes f.items ++ rest) =
    .ok (f.put s, rest)

section

variable {mp : MsgPack}
variable (hLawful : Lawful mp)

theorem toBytes_cons
    (item : Item)
    (items : List Item) :
    mp.toBytes (item :: items) =
      mp.write item ++ mp.toBytes items := rfl

theorem toBytes_append
    (a b : List Item) :
    mp.toBytes (a ++ b) = mp.toBytes a ++ mp.toBytes b :=
  List.flatMap_append

theorem toBytes_singleton (item : Item) :
    mp.toBytes [item] = mp.write item := by
  simp [MsgPack.toBytes]

include hLawful

/- Every field is taken up in turn, its key once. -/
theorem fieldsFrom_fields {σ : Type}
    {field : Text → σ → Bytes → Except WireError (σ × Bytes)}
    (fields : List (Field σ))
    (hReads : ∀ f ∈ fields, f.Reads mp field)
    (hFits : ∀ f ∈ fields, StrFits f.key)
    (seen : List Text)
    (hKeys : (seen ++ fields.map Field.key).Nodup)
    (s : σ)
    (rest : Bytes) :
    fieldsFrom mp field fields.length seen s
        (mp.toBytes (fields.flatMap Field.all) ++ rest) =
      .ok (fields.foldl (fun s f => f.put s) s, rest) := by
  induction fields generalizing seen s with
  | nil => rfl
  | cons f fields ih =>
      have hNew : f.key ∉ seen := by
        intro hMem
        rw [List.map_cons, List.nodup_append] at hKeys
        exact hKeys.2.2 f.key hMem f.key List.mem_cons_self rfl
      have hRest : (seen ++ [f.key] ++
          fields.map Field.key).Nodup := by
        simpa using hKeys
      rw [List.flatMap_cons, toBytes_append, Field.all,
        toBytes_cons, List.append_assoc, List.append_assoc,
        List.length_cons, fieldsFrom, hLawful.str f.key _
          (hFits f List.mem_cons_self)]
      simp only [reading, Except.mapError, bind, Except.bind,
        if_neg hNew]
      rw [hReads f List.mem_cons_self]
      exact ih (fun f hf => hReads f (List.mem_cons_of_mem _ hf))
        (fun f hf => hFits f (List.mem_cons_of_mem _ hf))
        (seen ++ [f.key]) hRest (f.put s)

/- A map of as many fields as it says is read to its end. -/
theorem forEachField_fields {σ : Type}
    {field : Text → σ → Bytes → Except WireError (σ × Bytes)}
    {fields : List (Field σ)}
    (hReads : ∀ f ∈ fields, f.Reads mp field)
    (hKeys : KeysFit (fields.map Field.key))
    (s : σ)
    (rest : Bytes) :
    forEachField mp field s (mp.toBytes
        (.map fields.length :: fields.flatMap Field.all) ++
          rest) =
      .ok (fields.foldl (fun s f => f.put s) s, rest) := by
  rcases hKeys with ⟨hDistinct, hCount, hFits⟩
  rw [List.length_map] at hCount
  rw [toBytes_cons, List.append_assoc, forEachField,
    hLawful.map _ _ hCount]
  exact fieldsFrom_fields hLawful fields hReads
    (fun f hf => hFits f.key (List.mem_map_of_mem hf)) []
    hDistinct s rest

end

end Wire

end Trustd

------------------------------------------------------------
-- Values Of A Field
------------------------------------------------------------

namespace Trustd

namespace Wire

section

variable {mp : MsgPack}
variable (hLawful : Lawful mp)
variable {σ : Type}

/- What was read whole is put where it belongs. -/
theorem store_reading {α : Type}
    (set : α → σ)
    {x : Except Text (α × Bytes)}
    {a : α}
    {rest : Bytes}
    (hRead : x = .ok (a, rest)) :
    store set (reading x) = .ok (set a, rest) := by
  rw [hRead]
  rfl

include hLawful

theorem readStrs_write
    (texts : List Text)
    (hFits : ∀ text ∈ texts, StrFits text)
    (rest : Bytes) :
    readStrs mp texts.length
        (mp.toBytes (texts.map Item.str) ++ rest) =
      .ok (texts, rest) := by
  induction texts with
  | nil => rfl
  | cons text texts ih =>
      rw [List.map_cons, toBytes_cons, List.append_assoc,
        List.length_cons, readStrs,
        hLawful.str text _ (hFits text List.mem_cons_self)]
      simp only [reading, Except.mapError, bind, Except.bind]
      rw [ih (fun t ht => hFits t (List.mem_cons_of_mem _ ht))]
      rfl

theorem length_le_toBytes (items : List Item) :
    items.length ≤ (mp.toBytes items).length := by
  induction items with
  | nil => exact Nat.le_refl _
  | cons item items ih =>
      have hOne := hLawful.nonempty item
      rw [toBytes_cons, List.length_append, List.length_cons]
      omega

/- A list is no longer than what is left of the message. -/
theorem readStrList_write
    {texts : List Text}
    (hFits : StrsFit texts)
    (rest : Bytes) :
    readStrList mp (mp.toBytes
        (.array (texts.length % 2 ^ 32) ::
          texts.map Item.str) ++ rest) =
      .ok (texts, rest) := by
  have hLength := length_le_toBytes hLawful
    (texts.map Item.str)
  rw [List.length_map] at hLength
  rw [Nat.mod_eq_of_lt hFits.1, toBytes_cons,
    List.append_assoc, readStrList,
    hLawful.array _ _ hFits.1]
  simp only [reading, Except.mapError, bind, Except.bind]
  rw [if_neg (by rw [List.length_append]; omega)]
  exact readStrs_write hLawful texts hFits.2 rest

theorem readOptStr_write
    {text : Option Text}
    (hFits : OptFits text)
    (rest : Bytes) :
    readOptStr mp (mp.write (optItem text) ++ rest) =
      .ok (text, rest) := by
  cases text with
  | none =>
      rw [readOptStr, optItem, if_pos (hLawful.peeksNil_nil _),
        hLawful.nil]
      rfl
  | some text =>
      have hStr := hFits text rfl
      rw [readOptStr, optItem, if_neg (by
        rw [hLawful.peeksNil_str _ _ hStr]; simp),
        hLawful.str _ _ hStr]
      rfl

end

end Wire

end Trustd

------------------------------------------------------------
-- Fields By Type
------------------------------------------------------------

namespace Trustd

namespace Wire

section

variable {σ : Type}

def strField
    (key : Text)
    (put : Text → σ → σ)
    (text : Text) :
    Field σ :=
  ⟨key, [.str text], put text⟩

def boolField
    (key : Text)
    (put : Bool → σ → σ)
    (value : Bool) :
    Field σ :=
  ⟨key, [.bool value], put value⟩

def uintField
    (key : Text)
    (put : Nat → σ → σ)
    (value : Nat) :
    Field σ :=
  ⟨key, [.uint value], put value⟩

def intField
    (key : Text)
    (put : Int → σ → σ)
    (value : Int) :
    Field σ :=
  ⟨key, [.int value], put value⟩

def binField
    (key : Text)
    (put : Bytes → σ → σ)
    (data : Bytes) :
    Field σ :=
  ⟨key, [.bin data], put data⟩

def optField
    (key : Text)
    (put : Option Text → σ → σ)
    (text : Option Text) :
    Field σ :=
  ⟨key, [optItem text], put text⟩

def strsField
    (key : Text)
    (put : List Text → σ → σ)
    (texts : List Text) :
    Field σ :=
  ⟨key, .array (texts.length % 2 ^ 32) :: texts.map Item.str,
    put texts⟩

variable {mp : MsgPack}
variable (hLawful : Lawful mp)
variable {field : Text → σ → Bytes →
  Except WireError (σ × Bytes)}
variable {key : Text}

include hLawful

theorem strField_reads
    {put : Text → σ → σ}
    (hField : ∀ s r, field key s r =
      store (fun v => put v s) (reading (mp.readStr r)))
    {text : Text}
    (hFits : StrFits text) :
    (strField key put text).Reads mp field := by
  intro s rest
  change field key s (mp.toBytes [.str text] ++ rest) = _
  rw [toBytes_singleton, hField]
  exact store_reading _ (hLawful.str text rest hFits)

theorem boolField_reads
    {put : Bool → σ → σ}
    (hField : ∀ s r, field key s r =
      store (fun v => put v s) (reading (mp.readBool r)))
    (value : Bool) :
    (boolField key put value).Reads mp field := by
  intro s rest
  change field key s (mp.toBytes [.bool value] ++ rest) = _
  rw [toBytes_singleton, hField]
  exact store_reading _ (hLawful.bool value rest)

theorem uintField_reads
    {put : Nat → σ → σ}
    (hField : ∀ s r, field key s r =
      store (fun v => put v s) (reading (mp.readUint r)))
    {value : Nat}
    (hFits : value < 2 ^ 64) :
    (uintField key put value).Reads mp field := by
  intro s rest
  change field key s (mp.toBytes [.uint value] ++ rest) = _
  rw [toBytes_singleton, hField]
  exact store_reading _ (hLawful.uint value rest hFits)

theorem intField_reads
    {put : Int → σ → σ}
    (hField : ∀ s r, field key s r =
      store (fun v => put v s) (reading (mp.readInt r)))
    {value : Int}
    (hFits : -2 ^ 63 ≤ value ∧ value < 2 ^ 63) :
    (intField key put value).Reads mp field := by
  intro s rest
  change field key s (mp.toBytes [.int value] ++ rest) = _
  rw [toBytes_singleton, hField]
  exact store_reading _
    (hLawful.int value rest hFits.1 hFits.2)

theorem binField_reads
    {put : Bytes → σ → σ}
    (hField : ∀ s r, field key s r =
      store (fun v => put v s) (reading (mp.readBin r)))
    {data : Bytes}
    (hFits : data.length < 2 ^ 32) :
    (binField key put data).Reads mp field := by
  intro s rest
  change field key s (mp.toBytes [.bin data] ++ rest) = _
  rw [toBytes_singleton, hField]
  exact store_reading _ (hLawful.bin data rest hFits)

theorem optField_reads
    {put : Option Text → σ → σ}
    (hField : ∀ s r, field key s r =
      store (fun v => put v s) (readOptStr mp r))
    {text : Option Text}
    (hFits : OptFits text) :
    (optField key put text).Reads mp field := by
  intro s rest
  change field key s (mp.toBytes [optItem text] ++ rest) = _
  rw [toBytes_singleton, hField,
    readOptStr_write hLawful hFits rest]
  rfl

theorem strsField_reads
    {put : List Text → σ → σ}
    (hField : ∀ s r, field key s r =
      store (fun v => put v s) (readStrList mp r))
    {texts : List Text}
    (hFits : StrsFit texts) :
    (strsField key put texts).Reads mp field := by
  intro s rest
  change field key s (mp.toBytes
    (.array (texts.length % 2 ^ 32) ::
      texts.map Item.str) ++ rest) = _
  rw [hField, readStrList_write hLawful hFits rest]
  rfl

end

end Wire

end Trustd

------------------------------------------------------------
-- Requests
------------------------------------------------------------

namespace Trustd

namespace Wire

def queryField : Text → Field RequestFields :=
  strField "query".toList
    (fun v s => { s with query := some v })

def withDerField : Bool → Field RequestFields :=
  boolField "with_der".toList
    (fun v s => { s with withDer := v })

/- The fields a request is written as. -/
def Request.fields : Request → List (Field RequestFields)
  | .roots withDer purpose =>
      [queryField "roots".toList, withDerField withDer,
        optField "purpose".toList
          (fun v s => { s with purpose := v }) purpose]
  | .subscribe withDer =>
      [queryField "subscribe".toList, withDerField withDer]
  | .status => [queryField "status".toList]
  | .reload => [queryField "reload".toList]

theorem Request.items_eq (request : Request) :
    request.items = .map request.fields.length ::
      request.fields.flatMap Field.all := by
  cases request with
  | roots withDer purpose => rfl
  | subscribe withDer => rfl
  | status => rfl
  | reload => rfl

section

variable {mp : MsgPack}
variable (hLawful : Lawful mp)

include hLawful

theorem queryField_reads
    {query : Text}
    (hFits : StrFits query) :
    (queryField query).Reads mp (RequestFields.field mp) :=
  strField_reads hLawful (fun _ _ => rfl) hFits

theorem withDerField_reads (withDer : Bool) :
    (withDerField withDer).Reads mp
      (RequestFields.field mp) :=
  boolField_reads hLawful (fun _ _ => rfl) withDer

/- The decoder takes up every field of a request. -/
theorem Request.fields_read
    {request : Request}
    (hFits : request.Fits) :
    ∀ f ∈ request.fields,
      f.Reads mp (RequestFields.field mp) := by
  cases request with
  | roots withDer purpose =>
      simp only [fields, List.forall_mem_cons]
      exact ⟨queryField_reads hLawful (by decide),
        withDerField_reads hLawful withDer,
        optField_reads hLawful (fun _ _ => rfl) hFits,
        by simp⟩
  | subscribe withDer =>
      simp only [fields, List.forall_mem_cons]
      exact ⟨queryField_reads hLawful (by decide),
        withDerField_reads hLawful withDer, by simp⟩
  | status =>
      simp only [fields, List.forall_mem_cons]
      exact ⟨queryField_reads hLawful (by decide), by simp⟩
  | reload =>
      simp only [fields, List.forall_mem_cons]
      exact ⟨queryField_reads hLawful (by decide), by simp⟩

omit hLawful in
theorem Request.keysFit (request : Request) :
    KeysFit (request.fields.map Field.key) := by
  have hKeys : KeysFit ["query".toList, "with_der".toList,
      "purpose".toList] := by decide
  have hKeys' : KeysFit ["query".toList,
      "with_der".toList] := by decide
  have hKey : KeysFit ["query".toList] := by decide
  cases request with
  | roots withDer purpose => exact hKeys
  | subscribe withDer => exact hKeys'
  | status => exact hKey
  | reload => exact hKey

/- A request reads back as itself. -/
theorem Request.decode_written
    {request : Request}
    (hFits : request.Fits) :
    Request.decode mp (request.encode mp) = .ok request := by
  have hFields := forEachField_fields hLawful
    (Request.fields_read hLawful hFits) request.keysFit {} []
  rw [← Request.items_eq, List.append_nil] at hFields
  rw [Request.decode, Request.encode, hFields]
  cases request with
  | roots withDer purpose => rfl
  | subscribe withDer => rfl
  | status => rfl
  | reload => rfl

end

end Wire

end Trustd

------------------------------------------------------------
-- Roots
------------------------------------------------------------

namespace Trustd

namespace Wire

/- The fields a root is written as. -/
def Root.fields (root : Root) : List (Field Root) :=
  [strField "fingerprint".toList
      (fun v s => { s with fingerprint := v })
      root.fingerprint,
    strField "subject".toList
      (fun v s => { s with subject := v }) root.subject,
    strsField "purposes".toList
      (fun v s => { s with purposes := v }) root.purposes,
    strField "source".toList
      (fun v s => { s with
        source := (sourceParse v).getD .shipped })
      (sourceAsStr root.source),
    optField "name".toList
      (fun v s => { s with name := v }) root.name,
    intField "not_after".toList
      (fun v s => { s with notAfter := v }) root.notAfter,
    binField "der".toList
      (fun v s => { s with der := v }) root.der]

theorem Root.items_eq (root : Root) :
    root.items = .map root.fields.length ::
      root.fields.flatMap Field.all := by
  simp [Root.items, Root.fields, strListItems, optStrItems,
    Field.all, strField, strsField, optField, intField,
    binField]

theorem sourceParse_asStr (source : Source) :
    sourceParse (sourceAsStr source) = some source := by
  cases source with
  | shipped => rfl
  | added => rfl

theorem Root.fold_fields (root : Root) :
    root.fields.foldl (fun s f => f.put s) {} = root := by
  simp [Root.fields, strField, strsField, optField, intField,
    binField, sourceParse_asStr]

theorem Root.keysFit (root : Root) :
    KeysFit (root.fields.map Field.key) := by
  have hKeys : KeysFit ["fingerprint".toList,
      "subject".toList, "purposes".toList, "source".toList,
      "name".toList, "not_after".toList, "der".toList] := by
    decide
  exact hKeys

section

variable {mp : MsgPack}
variable (hLawful : Lawful mp)

include hLawful

theorem Root.fields_read
    {root : Root}
    (hFits : root.Fits) :
    ∀ f ∈ root.fields, f.Reads mp (Root.field mp) := by
  have hSource : StrFits (sourceAsStr root.source) := by
    cases root.source with
    | shipped => decide
    | added => decide
  simp only [Root.fields, List.forall_mem_cons]
  exact ⟨strField_reads hLawful (fun _ _ => rfl)
      hFits.fingerprint,
    strField_reads hLawful (fun _ _ => rfl) hFits.subject,
    strsField_reads hLawful (fun _ _ => rfl) hFits.purposes,
    strField_reads hLawful (fun _ _ => rfl) hSource,
    optField_reads hLawful (fun _ _ => rfl) hFits.name,
    intField_reads hLawful (fun _ _ => rfl) hFits.notAfter,
    binField_reads hLawful (fun _ _ => rfl) hFits.der,
    by simp⟩

/- A root reads back, whatever follows it. -/
theorem decodeRoot_write
    {root : Root}
    (hFits : root.Fits)
    (rest : Bytes) :
    decodeRoot mp (mp.toBytes root.items ++ rest) =
      .ok (root, rest) := by
  rw [Root.items_eq, decodeRoot, forEachField_fields hLawful
    (Root.fields_read hLawful hFits) root.keysFit,
    Root.fold_fields]

theorem readRoots_write
    (batch : List Root)
    (hFits : ∀ root ∈ batch, root.Fits)
    (rest : Bytes) :
    readRoots mp batch.length
        (mp.toBytes (batch.flatMap Root.items) ++ rest) =
      .ok (batch, rest) := by
  induction batch with
  | nil => rfl
  | cons root batch ih =>
      rw [List.flatMap_cons, toBytes_append, List.append_assoc,
        List.length_cons, readRoots, decodeRoot_write hLawful
          (hFits root List.mem_cons_self)]
      simp only [bind, Except.bind]
      rw [ih (fun r hr => hFits r (List.mem_cons_of_mem _ hr))]
      rfl

end

end Wire

end Trustd

------------------------------------------------------------
-- Replies
------------------------------------------------------------

namespace Trustd

namespace Wire

def okField : Bool → Field ReplyFields :=
  boolField "ok".toList (fun v s => { s with ok := some v })

def kindField : Text → Field ReplyFields :=
  strField "kind".toList
    (fun v s => { s with kind := some v })

def generationField : Nat → Field ReplyFields :=
  uintField "generation".toList (fun v s => { s with
    generation := v
    status := { s.status with generation := v } })

/- The roots of a chunk. -/
def batchField (batch : List Root) : Field ReplyFields :=
  ⟨"roots".toList, .array (batch.length % 2 ^ 32) ::
    batch.flatMap Root.items,
    fun s => { s with roots := s.roots ++ batch }⟩

/- One of a status's counters. -/
def countField
    (key : Text)
    (put : Nat → Status → Status) :
    Nat → Field ReplyFields :=
  uintField key
    (fun v s => { s with status := put v s.status })

/- The fields after the kind of a status. -/
def Status.fields (s : Status) : List (Field ReplyFields) :=
  [generationField s.generation,
    strField "health".toList (fun v r => { r with
        status := { r.status with
          health := (Health.parse v).getD .ok } })
      s.health.asStr,
    optField "message".toList (fun v r => { r with
        status := { r.status with message := v } }) s.message,
    countField "shipped".toList
      (fun v r => { r with shipped := v }) s.shipped,
    countField "added".toList
      (fun v r => { r with added := v }) s.added,
    countField "distrusted".toList
      (fun v r => { r with distrusted := v }) s.distrusted,
    countField "skipped".toList
      (fun v r => { r with skipped := v }) s.skipped,
    countField "effective".toList
      (fun v r => { r with effective := v }) s.effective,
    countField "compat_mode".toList
      (fun v r => { r with compatMode := v % 2 ^ 32 })
      s.compatMode,
    strsField "rendered".toList (fun v r => { r with
        status := { r.status with rendered := v } })
      s.rendered]

/- The fields a reply is written as. -/
def Reply.fields : Reply → List (Field ReplyFields)
  | .ok => [okField true]
  | .error message =>
      [okField false, strField "error".toList
        (fun v s => { s with error := some v }) message]
  | .roots generation batch more =>
      [okField true, kindField "roots".toList,
        generationField generation, boolField "more".toList
          (fun v s => { s with more := v }) more,
        batchField batch]
  | .status s =>
      okField true :: kindField "status".toList :: s.fields

theorem Reply.items_eq (reply : Reply) :
    reply.items = .map reply.fields.length ::
      reply.fields.flatMap Field.all := by
  cases reply with
  | ok => rfl
  | error message => rfl
  | roots generation batch more =>
      simp [Reply.items, Reply.fields, Field.all, okField,
        kindField, generationField, batchField, boolField,
        strField, uintField]
  | status s =>
      simp [Reply.items, Status.items, Reply.fields,
        Status.fields, Field.all, okField, kindField,
        generationField, countField, boolField, strField,
        uintField, optField, strsField, optStrItems,
        strListItems]

theorem Reply.keysFit (reply : Reply) :
    KeysFit (reply.fields.map Field.key) := by
  have hOk : KeysFit ["ok".toList] := by decide
  have hError : KeysFit ["ok".toList, "error".toList] := by
    decide
  have hRoots : KeysFit ["ok".toList, "kind".toList,
      "generation".toList, "more".toList, "roots".toList] := by
    decide
  have hStatus : KeysFit ["ok".toList, "kind".toList,
      "generation".toList, "health".toList, "message".toList,
      "shipped".toList, "added".toList, "distrusted".toList,
      "skipped".toList, "effective".toList,
      "compat_mode".toList, "rendered".toList] := by
    decide +kernel
  cases reply with
  | ok => exact hOk
  | error message => exact hError
  | roots generation batch more => exact hRoots
  | status s => exact hStatus

theorem parse_asStr (health : Health) :
    Health.parse health.asStr = some health := by
  cases health with
  | ok => rfl
  | degraded => rfl

/- What a status's fields leave in the decoder's locals. -/
theorem Status.fold_fields
    {s : Status}
    (hCompat : s.compatMode < 2 ^ 32)
    (r : ReplyFields) :
    s.fields.foldl (fun s f => f.put s) r =
      { r with
        generation := s.generation
        status := s } := by
  simp only [Status.fields, generationField, countField,
    strField, uintField, optField, strsField, List.foldl_cons,
    List.foldl_nil, parse_asStr, Option.getD_some,
    Nat.mod_eq_of_lt hCompat]

section

variable {mp : MsgPack}
variable (hLawful : Lawful mp)

include hLawful

theorem okField_reads (value : Bool) :
    (okField value).Reads mp (ReplyFields.field mp) :=
  boolField_reads hLawful (fun _ _ => rfl) value

theorem kindField_reads
    {kind : Text}
    (hFits : StrFits kind) :
    (kindField kind).Reads mp (ReplyFields.field mp) :=
  strField_reads hLawful (fun _ _ => rfl) hFits

theorem generationField_reads
    {generation : Nat}
    (hFits : generation < 2 ^ 64) :
    (generationField generation).Reads mp
      (ReplyFields.field mp) :=
  uintField_reads hLawful (fun _ _ => rfl) hFits

/- The roots of a chunk go after those that are there. -/
omit hLawful in
theorem ReplyFields.field_roots
    (s : ReplyFields)
    (r : Bytes) :
    ReplyFields.field mp "roots".toList s r = (do
      let (n, r) ← reading (mp.readArray r)
      store (fun v => { s with roots := s.roots ++ v })
        (readRoots mp n r)) := rfl

theorem batchField_reads
    {batch : List Root}
    (hCount : batch.length < 2 ^ 32)
    (hFits : ∀ root ∈ batch, root.Fits) :
    (batchField batch).Reads mp (ReplyFields.field mp) := by
  intro s rest
  unfold batchField
  dsimp only
  rw [ReplyFields.field_roots, Nat.mod_eq_of_lt hCount,
    toBytes_cons, List.append_assoc,
    hLawful.array _ _ hCount]
  simp only [reading, Except.mapError, bind, Except.bind]
  rw [readRoots_write hLawful batch hFits]
  rfl

theorem Status.fields_read
    {s : Status}
    (hFits : s.Fits) :
    ∀ f ∈ s.fields, f.Reads mp (ReplyFields.field mp) := by
  have hHealth : StrFits s.health.asStr := by
    cases s.health with
    | ok => decide
    | degraded => decide
  have hCompat : s.compatMode < 2 ^ 64 :=
    hFits.compatMode.trans (by decide)
  simp only [Status.fields, List.forall_mem_cons]
  exact ⟨generationField_reads hLawful hFits.generation,
    strField_reads hLawful (fun _ _ => rfl) hHealth,
    optField_reads hLawful (fun _ _ => rfl) hFits.message,
    uintField_reads hLawful (fun _ _ => rfl) hFits.shipped,
    uintField_reads hLawful (fun _ _ => rfl) hFits.added,
    uintField_reads hLawful (fun _ _ => rfl) hFits.distrusted,
    uintField_reads hLawful (fun _ _ => rfl) hFits.skipped,
    uintField_reads hLawful (fun _ _ => rfl) hFits.effective,
    uintField_reads hLawful (fun _ _ => rfl) hCompat,
    strsField_reads hLawful (fun _ _ => rfl) hFits.rendered,
    by simp⟩

/- The decoder takes up every field of a reply. -/
theorem Reply.fields_read
    {reply : Reply}
    (hFits : reply.Fits) :
    ∀ f ∈ reply.fields,
      f.Reads mp (ReplyFields.field mp) := by
  cases reply with
  | ok =>
      simp only [fields, List.forall_mem_cons]
      exact ⟨okField_reads hLawful true, by simp⟩
  | error message =>
      simp only [fields, List.forall_mem_cons]
      exact ⟨okField_reads hLawful false,
        strField_reads hLawful (fun _ _ => rfl) hFits,
        by simp⟩
  | roots generation batch more =>
      rcases hFits with ⟨hGeneration, hCount, hRoots⟩
      simp only [fields, List.forall_mem_cons]
      exact ⟨okField_reads hLawful true,
        kindField_reads hLawful (by decide),
        generationField_reads hLawful hGeneration,
        boolField_reads hLawful (fun _ _ => rfl) more,
        batchField_reads hLawful hCount hRoots, by simp⟩
  | status s =>
      simp only [fields, List.forall_mem_cons]
      exact ⟨okField_reads hLawful true,
        kindField_reads hLawful (by decide),
        Status.fields_read hLawful hFits⟩

/- A reply reads back as itself. -/
theorem Reply.decode_written
    {reply : Reply}
    (hFits : reply.Fits) :
    Reply.decode mp (reply.encode mp) = .ok reply := by
  have hFields := forEachField_fields hLawful
    (Reply.fields_read hLawful hFits) reply.keysFit {} []
  rw [← Reply.items_eq, List.append_nil] at hFields
  rw [Reply.decode, Reply.encode, hFields]
  cases reply with
  | ok => rfl
  | error message => rfl
  | roots generation batch more => rfl
  | status s =>
      simp only [Reply.fields, List.foldl_cons,
        Status.fold_fields hFits.compatMode, bind, Except.bind]
      rfl

end

end Wire

end Trustd

------------------------------------------------------------
-- MessagePack Reads Back
------------------------------------------------------------

namespace Trustd

namespace Wire

theorem fromBeBytes_beBytes
    (width n : Nat)
    (hFits : n < 256 ^ width) :
    fromBeBytes (beBytes width n) = n := by
  induction width generalizing n with
  | zero =>
      rw [Nat.pow_zero, Nat.lt_one_iff] at hFits
      rw [hFits]
      rfl
  | succ width ih =>
      have hHigh : n / 256 < 256 ^ width :=
        Nat.div_lt_of_lt_mul (by rwa [Nat.pow_succ'] at hFits)
      have hStep : fromBeBytes (beBytes (width + 1) n) =
          fromBeBytes (beBytes width (n / 256)) * 256 +
            (UInt8.ofNat n).toNat := by
        simp [fromBeBytes, beBytes]
      have hByte : (UInt8.ofNat n).toNat = n % 256 := by
        simp
      rw [hStep, ih _ hHigh, hByte]
      omega

theorem takeBytes_append
    (data rest : Bytes) :
    takeBytes data.length (data ++ rest) =
      .ok (data, rest) :=
  takeBytes_eq_ok_iff.mpr ⟨rfl, rfl⟩

section

variable {short : Nat → Option Nat}
variable {wide : List (Nat × Nat)}

/- A number the type's byte holds. -/
theorem readHeader_short
    {b n : Nat}
    (hByte : b < 256)
    (hShort : short b = some n)
    (rest : Bytes) :
    readHeader short wide (UInt8.ofNat b :: rest) =
      .ok (n, rest) := by
  have hToNat : (UInt8.ofNat b).toNat = b := by
    simpa using Nat.mod_eq_of_lt hByte
  rw [readHeader, hToNat, hShort]

/- A number that follows the type's byte. -/
theorem readHeader_tagged
    {tag width n : Nat}
    (hByte : tag < 256)
    (hShort : short tag = none)
    (hWide : wide.find? (fun w => w.1 = tag) =
      some (tag, width))
    (hFits : n < 256 ^ width)
    (rest : Bytes) :
    readHeader short wide (tagged tag width n ++ rest) =
      .ok (n, rest) := by
  have hToNat : (UInt8.ofNat tag).toNat = tag := by
    simpa using Nat.mod_eq_of_lt hByte
  have hTake := takeBytes_append (beBytes width n) rest
  rw [length_beBytes] at hTake
  rw [tagged, List.cons_append, readHeader, hToNat, hShort]
  dsimp only
  rw [hWide]
  dsimp only
  rw [hTake]
  simp only [Except.map, fromBeBytes_beBytes width n hFits]

end

theorem within_eq_some
    {low high b : Nat}
    (hLow : low ≤ b)
    (hHigh : b < high) :
    within low high b = some (b - low) :=
  if_pos ⟨hLow, hHigh⟩

theorem readMapHeader_write
    {n : Nat}
    (hFits : n < 2 ^ 32)
    (rest : Bytes) :
    readMapHeader (writeCount 0x80 0xde 0xdf n ++ rest) =
      .ok (n, rest) := by
  unfold readMapHeader writeCount
  split_ifs with hShort hWide
  · refine readHeader_short (by omega) ?_ rest
    rw [within_eq_some (by omega) (by omega)]
    exact congrArg some (by omega)
  · exact readHeader_tagged (by decide) (by decide)
      (by decide) (by omega) rest
  · exact readHeader_tagged (by decide) (by decide)
      (by decide) (by omega) rest

theorem readArrayHeader_write
    {n : Nat}
    (hFits : n < 2 ^ 32)
    (rest : Bytes) :
    readArrayHeader (writeCount 0x90 0xdc 0xdd n ++ rest) =
      .ok (n, rest) := by
  unfold readArrayHeader writeCount
  split_ifs with hShort hWide
  · refine readHeader_short (by omega) ?_ rest
    rw [within_eq_some (by omega) (by omega)]
    exact congrArg some (by omega)
  · exact readHeader_tagged (by decide) (by decide)
      (by decide) (by omega) rest
  · exact readHeader_tagged (by decide) (by decide)
      (by decide) (by omega) rest

theorem readStrBytes_write
    {data : Bytes}
    (hFits : data.length < 2 ^ 32)
    (rest : Bytes) :
    readStrBytes (writeStrHeader data.length ++
      (data ++ rest)) = .ok (data, rest) := by
  have hHeader : readHeader (within 0xa0 0xc0)
      [(0xd9, 1), (0xda, 2), (0xdb, 4)]
        (writeStrHeader data.length ++ (data ++ rest)) =
          .ok (data.length, data ++ rest) := by
    unfold writeStrHeader
    split_ifs with hShort hByte hWide
    · refine readHeader_short (by omega) ?_ _
      rw [within_eq_some (by omega) (by omega)]
      exact congrArg some (by omega)
    · exact readHeader_tagged (by decide) (by decide)
        (by decide) (by omega) _
    · exact readHeader_tagged (by decide) (by decide)
        (by decide) (by omega) _
    · exact readHeader_tagged (by decide) (by decide)
        (by decide) (by omega) _
  rw [readStrBytes, hHeader]
  exact takeBytes_append data rest

theorem readBinBytes_write
    {data : Bytes}
    (hFits : data.length < 2 ^ 32)
    (rest : Bytes) :
    readBinBytes (writeBinHeader data.length ++
      (data ++ rest)) = .ok (data, rest) := by
  have hHeader : readHeader (fun _ => none)
      [(0xc4, 1), (0xc5, 2), (0xc6, 4)]
        (writeBinHeader data.length ++ (data ++ rest)) =
          .ok (data.length, data ++ rest) := by
    unfold writeBinHeader
    split_ifs with hByte hWide
    · exact readHeader_tagged (by decide) rfl
        (by decide) (by omega) _
    · exact readHeader_tagged (by decide) rfl
        (by decide) (by omega) _
    · exact readHeader_tagged (by decide) rfl
        (by decide) (by omega) _
  rw [readBinBytes, hHeader]
  exact takeBytes_append data rest

theorem readUintValue_write
    {n : Nat}
    (hFits : n < 2 ^ 64)
    (rest : Bytes) :
    readUintValue (writeUint n ++ rest) = .ok (n, rest) := by
  unfold readUintValue writeUint
  split_ifs with hShort hByte hWide hWider
  · refine readHeader_short (by omega) ?_ rest
    rw [within_eq_some (by omega) (by omega)]
    rfl
  · exact readHeader_tagged (by decide) (by decide)
      (by decide) (by omega) rest
  · exact readHeader_tagged (by decide) (by decide)
      (by decide) (by omega) rest
  · exact readHeader_tagged (by decide) (by decide)
      (by decide) (by omega) rest
  · exact readHeader_tagged (by decide) (by decide)
      (by decide) (by omega) rest

/- A negative number is read off its two's complement. -/
theorem readIntValue_tagged
    (width : Nat)
    {tag n : Nat}
    (hTag : 0xd0 ≤ tag ∧ tag < 0xe0)
    (hWide : [(0xd0, 1), (0xd1, 2), (0xd2, 4),
      (0xd3, 8)].find? (fun w : Nat × Nat => w.1 = tag) =
        some (tag, width))
    (hFits : n < 256 ^ width)
    (rest : Bytes) :
    readIntValue (tagged tag width n ++ rest) =
      .ok (signed (8 * width) n, rest) := by
  have hToNat : (UInt8.ofNat tag).toNat = tag := by
    simpa using Nat.mod_eq_of_lt (by omega : tag < 256)
  have hTake := takeBytes_append (beBytes width n) rest
  rw [length_beBytes] at hTake
  rw [tagged, List.cons_append, readIntValue, hToNat,
    if_neg (by omega), hWide]
  dsimp only
  rw [hTake]
  simp only [Except.map, fromBeBytes_beBytes width n hFits]

theorem readIntValue_write
    {n : Int}
    (hLow : -2 ^ 63 ≤ n)
    (hHigh : n < 2 ^ 63)
    (rest : Bytes) :
    readIntValue (writeInt n ++ rest) = .ok (n, rest) := by
  cases n with
  | ofNat n =>
      have hRead := readUintValue_write (n := n)
        (by simp only [Int.ofNat_eq_natCast] at hHigh; omega)
        rest
      change readIntValue (writeUint n ++ rest) = _
      revert hRead
      unfold writeUint
      split_ifs with hShort hByte hWide hWider
      · exact readIntValue_of_uint
      · exact readIntValue_of_uint
      · exact readIntValue_of_uint
      · exact readIntValue_of_uint
      · exact readIntValue_of_uint
  | negSucc n =>
      have hBound : n < 2 ^ 63 := by
        rw [Int.negSucc_eq] at hLow
        omega
      unfold writeInt
      dsimp only
      split_ifs with hShort hByte hWide hWider
      · have hToNat : (UInt8.ofNat (2 ^ 8 - 1 - n)).toNat =
            2 ^ 8 - 1 - n := by
          simpa using Nat.mod_eq_of_lt
            (by omega : 2 ^ 8 - 1 - n < 256)
        rw [List.singleton_append, readIntValue, hToNat,
          if_pos (by omega), signed, if_neg (by omega),
          Int.negSucc_eq]
        congr 2
        omega
      · rw [readIntValue_tagged 1 (by decide)
          (by decide) (by omega), signed, if_neg (by omega),
          Int.negSucc_eq]
        congr 2
        omega
      · rw [readIntValue_tagged 2 (by decide)
          (by decide) (by omega), signed, if_neg (by omega),
          Int.negSucc_eq]
        congr 2
        omega
      · rw [readIntValue_tagged 4 (by decide)
          (by decide) (by omega), signed, if_neg (by omega),
          Int.negSucc_eq]
        congr 2
        omega
      · rw [readIntValue_tagged 8 (by decide)
          (by decide) (by omega), signed, if_neg (by omega),
          Int.negSucc_eq]
        congr 2
        omega

/- No string begins like `nil`. -/
theorem head_writeStrHeader (n : Nat) (rest : Bytes) :
    (writeStrHeader n ++ rest).head? ≠ some 0xc0 := by
  unfold writeStrHeader tagged
  split_ifs with hShort hByte hWide
  · have hNe : UInt8.ofNat (0xa0 + n) ≠ 0xc0 := by
      intro hEq
      have hNat := congrArg UInt8.toNat hEq
      simp at hNat
      omega
    simpa using hNe
  · simp
  · simp
  · simp

theorem lawful_messagePack : Lawful messagePack where
  map n rest hFits := readMapHeader_write hFits rest
  array n rest hFits := readArrayHeader_write hFits rest
  str text rest hFits := by
    change readStrText (writeStrHeader _ ++ Text.utf8 text ++
      rest) = _
    rw [List.append_assoc, readStrText,
      readStrBytes_write hFits]
    simp only [bind, Except.bind, Text.fromUtf8_utf8]
    rfl
  bool value rest := by
    cases value with
    | false => rfl
    | true => rfl
  uint n rest hFits := readUintValue_write hFits rest
  int n rest hLow hHigh := readIntValue_write hLow hHigh rest
  bin data rest hFits := by
    change readBinBytes (writeBinHeader _ ++ data ++ rest) = _
    rw [List.append_assoc, readBinBytes_write hFits]
  nil rest := rfl
  peeksNil_nil rest := rfl
  peeksNil_str text rest hFits := by
    change decide ((writeStrHeader _ ++ Text.utf8 text ++
      rest).head? = some 0xc0) = false
    rw [List.append_assoc]
    exact decide_eq_false (head_writeStrHeader _ _)
  nonempty item := by
    rw [sized_messagePack item]
    cases item with
    | map count =>
        change 1 ≤ countSize count
        unfold countSize
        split_ifs <;> omega
    | array count =>
        change 1 ≤ countSize count
        unfold countSize
        split_ifs <;> omega
    | str text =>
        change 1 ≤ strSize _
        unfold strSize
        split_ifs <;> omega
    | bool value => exact le_refl _
    | uint value =>
        change 1 ≤ uintSize value
        unfold uintSize
        split_ifs <;> omega
    | int value =>
        change 1 ≤ intSize value
        cases value with
        | ofNat n =>
            change 1 ≤ uintSize n
            unfold uintSize
            split_ifs <;> omega
        | negSucc n =>
            unfold intSize
            dsimp only
            split_ifs <;> omega
    | bin data =>
        change 1 ≤ binSize data.length
        unfold binSize
        split_ifs <;> omega
    | nil => exact le_refl _

end Wire

end Trustd

------------------------------------------------------------
-- The Whole Wire
------------------------------------------------------------

namespace Trustd

namespace Wire

/-
  Whatever MessagePack's crate is, as long as its reader
  undoes its writer: every request and every reply, of values
  of the fields' types and lengths a header can give, is read
  back as it was.
-/
theorem decode_encode
    {mp : MsgPack}
    (hLawful : Lawful mp) :
    (∀ request : Request, request.Fits →
        Request.decode mp (request.encode mp) =
          .ok request) ∧
      ∀ reply : Reply, reply.Fits →
        Reply.decode mp (reply.encode mp) = .ok reply :=
  ⟨fun _ hFits => Request.decode_written hLawful hFits,
    fun _ hFits => Reply.decode_written hLawful hFits⟩

/- A root with everything in it. -/
def sampleRoot : Root :=
  { fingerprint := "ab12".toList
    subject := "CN=Test Root".toList
    purposes := ["ServerAuth".toList, []]
    source := .added
    name := some []
    notAfter := -1
    der := [0x30, 0x00] }

/- Nothing in it is longer than a header can say. -/
theorem decode_encode_sample :
    Reply.decode messagePack ((Reply.roots 7
        [sampleRoot, {}] true).encode messagePack) =
      .ok (.roots 7 [sampleRoot, {}] true) := by
  refine (decode_encode lawful_messagePack).2 _
    ⟨by decide, by decide, fun root hRoot => ?_⟩
  have hFits : ∀ root ∈ [sampleRoot, {}],
      StrFits root.fingerprint ∧ StrFits root.subject ∧
        root.purposes.length < 2 ^ 32 ∧
        (∀ purpose ∈ root.purposes, StrFits purpose) ∧
        (∀ name ∈ root.name.toList, StrFits name) ∧
        (-2 ^ 63 ≤ root.notAfter ∧
          root.notAfter < 2 ^ 63) ∧
        root.der.length < 2 ^ 32 := by
    decide +kernel
  rcases hFits root hRoot with
    ⟨hFingerprint, hSubject, hCount, hPurposes, hName,
      hNotAfter, hDer⟩
  exact ⟨hFingerprint, hSubject, ⟨hCount, hPurposes⟩,
    fun name h => hName name (by simp [h]), hNotAfter, hDer⟩

end Wire

end Trustd
