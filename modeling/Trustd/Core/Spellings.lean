import Trustd.Core.OpenSsl
import Trustd.Core.Store
import Trustd.Core.Walker
import Trustd.General.Results
import Mathlib.Algebra.Order.BigOperators.Group.List
import Mathlib.Logic.Relation

/-
  The byte strings that `canonical_name` reads as a Name, and
  what all the spellings of one subject have in common.

  Key definitions include:
    * `Trustd.OpenSsl.SpellsName`
    * `Trustd.OpenSsl.Respells`
    * `Trustd.OpenSsl.Edits`

  Key theorems include:
    * `Trustd.OpenSsl.canonicalName_iff`
    * `Trustd.OpenSsl.nameWith_edits`
    * `Trustd.OpenSsl.canonicalName_idempotent`
    * `Trustd.OpenSsl.subjectHash_respelled`
-/

------------------------------------------------------------
-- Spellings
------------------------------------------------------------

namespace Trustd

namespace OpenSsl

open Cert General

/-
  An attribute as it is read: its lengths may be written in
  any form, and what follows its value is not looked at.
-/
def SpellsAttribute (a : Attribute) (ava : Bytes) : Prop :=
  ∃ content afterOid rest,
    readTlv ava = .ok (0x30, content, []) ∧
      readTlv content = .ok (0x06, a.oid, afterOid) ∧
      readTlv afterOid = .ok (a.tag, a.value, rest)

def SpellsRdn (rdn : Rdn) (e : Bytes) : Prop :=
  ∃ avas : List Bytes,
    readTlv e = .ok (0x31, avas.flatten, []) ∧
      List.Forall₂ SpellsAttribute rdn avas

def SpellsName (name : Name) (nameDer : Bytes) : Prop :=
  ∃ rdns : List Bytes,
    readTlv nameDer = .ok (0x30, rdns.flatten, []) ∧
      List.Forall₂ SpellsRdn name rdns

/- An attribute as it is written back. -/
theorem attributeWith_codeValue (a : Attribute) :
    attributeWith a (codeValue a) =
      tlv 0x30 (if isCanonString a.tag then
          tlv 0x06 a.oid ++ tlv 0x0C (fold a.value)
        else tlv 0x06 a.oid ++ tlv a.tag a.value) := by
  rw [isCanonString_eq]
  cases hTag : isStringType a.tag with
  | true => simp [attributeWith, codeValue, outTag, hTag]
  | false => simp [attributeWith, codeValue, outTag, hTag]

theorem canonicalAva_iff
    (ava out : Bytes) :
    canonicalAva ava = .ok out ↔
      ∃ a, SpellsAttribute a ava ∧
        attributeWith a (codeValue a) = out := by
  simp only [canonicalAva, bind_eq_ok_iff, check_eq_ok_iff,
    pure_eq_ok_iff, not_or, not_not, ne_eq, Prod.exists]
  constructor
  · rintro ⟨tag, content, rest, hAva, ⟨rfl, rfl⟩, oidTag, oid,
      afterOid, hOid, rfl, valueTag, value, tail, hValue, hOut⟩
    refine ⟨⟨oid, valueTag, value⟩,
      ⟨content, afterOid, tail, hAva, hOid, hValue⟩, ?_⟩
    rw [attributeWith_codeValue]
    exact hOut
  · rintro ⟨a, ⟨content, afterOid, tail, hAva, hOid, hValue⟩,
      hOut⟩
    rw [attributeWith_codeValue] at hOut
    exact ⟨0x30, content, [], hAva, ⟨rfl, rfl⟩, 0x06, a.oid,
      afterOid, hOid, rfl, a.tag, a.value, tail, hValue, hOut⟩

theorem canonicalRdn_iff
    {e : Bytes}
    (hSet : ∃ content, readTlv e = .ok (0x31, content, []))
    (out : Bytes) :
    Cert.canonicalRdn e = .ok out ↔
      ∃ rdn, SpellsRdn rdn e ∧
        tlv 0x31 (setBody codeValue rdn) = out := by
  simp only [Cert.canonicalRdn, bind_eq_ok_iff,
    pure_eq_ok_iff, derElements_iff,
    mapM_eq_ok_iff (fun a _ => canonicalAva_iff a)]
  rcases hSet with ⟨content, hSet⟩
  constructor
  · rintro ⟨avas, ⟨⟨tag, rest, hRead⟩, -⟩, encoded,
      ⟨rdn, hAvas, rfl⟩, hOut⟩
    cases hSet.symm.trans hRead
    exact ⟨rdn, ⟨avas, hRead, hAvas⟩, hOut⟩
  · rintro ⟨rdn, ⟨avas, hRead, hAvas⟩, hOut⟩
    refine ⟨avas, ⟨⟨0x31, [], hRead⟩, fun ava hAva => ?_⟩, _,
      ⟨rdn, hAvas, rfl⟩, hOut⟩
    rcases exists_left_of_mem hAvas hAva with
      ⟨a, -, value, _, _, hRead, -, -⟩
    exact ⟨0x30, value, hRead⟩

/-
  What is accepted is what spells a Name, and what comes out
  depends on nothing but the Name.
-/
theorem canonicalName_iff
    {n out : Bytes} :
    Cert.canonicalName n = .ok out ↔
      ∃ name, SpellsName name n ∧
        nameWith codeValue name = out := by
  have hFlat : ∀ name : Name, nameWith codeValue name =
      (name.map (fun rdn =>
        tlv 0x31 (setBody codeValue rdn))).flatten := by
    intro name
    rw [nameWith, List.flatMap_def, List.map_map]
    rfl
  simp only [Cert.canonicalName, bind_eq_ok_iff,
    pure_eq_ok_iff, derContents_iff, hFlat]
  constructor
  · rintro ⟨rdns, ⟨hRead, hSets⟩, sets, hMap, hOut⟩
    rw [mapM_eq_ok_iff (fun e he =>
      canonicalRdn_iff (hSets e he))] at hMap
    rcases hMap with ⟨name, hRdns, rfl⟩
    exact ⟨name, ⟨rdns, hRead, hRdns⟩, hOut⟩
  · rintro ⟨name, ⟨rdns, hRead, hRdns⟩, hOut⟩
    have hSets : ∀ e ∈ rdns, ∃ content,
        readTlv e = .ok (0x31, content, []) := by
      intro e he
      rcases exists_left_of_mem hRdns he with
        ⟨rdn, -, avas, hRead, -⟩
      exact ⟨avas.flatten, hRead⟩
    refine ⟨rdns, ⟨hRead, hSets⟩, _, ?_, hOut⟩
    rw [mapM_eq_ok_iff (fun e he =>
      canonicalRdn_iff (hSets e he))]
    exact ⟨name, hRdns, rfl⟩

end OpenSsl

end Trustd

------------------------------------------------------------
-- Spellings Of One Subject
------------------------------------------------------------

namespace Trustd

namespace OpenSsl

open Cert General Store

/- One change of a string value that is folded away. -/
inductive Respells : Bytes → Bytes → Prop where
  | letter
      (before after : Bytes)
      (b : UInt8)
      (hUpper : 0x41 ≤ b ∧ b ≤ 0x5A) :
      Respells (before ++ b :: after)
        (before ++ (b + 0x20) :: after)
  | front
      (value : Bytes) :
      Respells value (0x20 :: value)
  | back
      (value : Bytes) :
      Respells value (value ++ [0x20])
  | run
      (before after : Bytes) :
      Respells (before ++ 0x20 :: after)
        (before ++ 0x20 :: 0x20 :: after)

/- One change of an attribute: of its value or its type. -/
inductive EditsAttribute : Attribute → Attribute → Prop where
  | respell
      (a : Attribute)
      (value : Bytes)
      (hString : isStringType a.tag = true)
      (hValue : Respells a.value value) :
      EditsAttribute a { a with value }
  | retag
      (a : Attribute)
      (tag : UInt8)
      (hString : isStringType a.tag = true)
      (hTag : isStringType tag = true) :
      EditsAttribute a { a with tag }

/- One change of a Name. -/
inductive Edits : Name → Name → Prop where
  | reorder
      (before after : Name)
      (rdn other : Rdn)
      (hPerm : rdn.Perm other) :
      Edits (before ++ rdn :: after) (before ++ other :: after)
  | member
      (before after : Name)
      (left right : Rdn)
      (a b : Attribute)
      (hEdits : EditsAttribute a b) :
      Edits (before ++ (left ++ a :: right) :: after)
        (before ++ (left ++ b :: right) :: after)

/- Lowercasing, byte by byte. -/
theorem lowercase_classes :
    ∀ b, isBlank (toAsciiLowercase b) = isBlank b ∧
      toAsciiLowercase (toAsciiLowercase b) =
        toAsciiLowercase b ∧
      (0x41 ≤ b ∧ b ≤ 0x5A →
        toAsciiLowercase (b + 0x20) = toAsciiLowercase b) :=
  forall_byte (by decide +kernel)

/- `fold` may as well lowercase first. -/
theorem fold_eq_squeeze_map (value : Bytes) :
    fold value = squeeze isBlank 0x20 false false
      (value.map toAsciiLowercase) := by
  rw [fold_eq_squeeze, squeeze_map
    (fun b => (lowercase_classes b).1) rfl]

theorem fold_fold (value : Bytes) :
    fold (fold value) = fold value := by
  have hLower : (fold value).map toAsciiLowercase =
      fold value := by
    rw [fold_eq_squeeze, List.map_map]
    apply List.map_congr_left
    intro b _
    exact (lowercase_classes b).2.1
  rw [fold_eq_squeeze_map (fold value), hLower,
    fold_eq_squeeze_map, squeeze_squeeze rfl]

theorem fold_respells
    {value other : Bytes}
    (hRespells : Respells value other) :
    fold other = fold value := by
  cases hRespells with
  | letter before after b hUpper =>
      rw [fold_eq_squeeze_map, fold_eq_squeeze_map]
      simp only [List.map_append, List.map_cons,
        (lowercase_classes b).2.2 hUpper]
  | front =>
      rw [fold_eq_squeeze, fold_eq_squeeze,
        squeeze_front 0x20 rfl]
  | back =>
      rw [fold_eq_squeeze, fold_eq_squeeze,
        squeeze_back 0x20 rfl]
  | run before after =>
      rw [fold_eq_squeeze, fold_eq_squeeze,
        squeeze_run 0x20 rfl]

theorem attributeWith_edits
    {a b : Attribute}
    (hEdits : EditsAttribute a b) :
    attributeWith b (codeValue b) =
      attributeWith a (codeValue a) := by
  cases hEdits with
  | respell value hString hValue =>
      simp only [attributeWith, codeValue, hString, if_true,
        fold_respells hValue]
  | retag tag hString hTag =>
      simp only [attributeWith, codeValue, outTag, hString,
        hTag, if_true]

/- There is one order for some encodings. -/
theorem sortEncodings_eq_of_perm
    {es others : List Bytes}
    (hPerm : es.Perm others) :
    sortEncodings es = sortEncodings others := by
  let r : Bytes → Bytes → Prop := fun a b =>
    bytesLe a b = true
  have hTotal : Std.Total r := ⟨bytesLe_total⟩
  have hTrans : IsTrans Bytes r :=
    ⟨fun _ _ _ hab hbc => bytesLe_trans hab hbc⟩
  have hAntisymm : Std.Antisymm r :=
    ⟨fun _ _ hab hba => bytesLe_antisymm hab hba⟩
  have hBoth : (sortEncodings es).Perm
      (sortEncodings others) :=
    (sortEncodings_perm es).trans
      (hPerm.trans (sortEncodings_perm others).symm)
  exact @List.Perm.eq_of_pairwise' _ r hAntisymm _ _
    (List.pairwise_insertionSort r es)
    (List.pairwise_insertionSort r others) hBoth

theorem setBody_edits
    {f : Attribute → Bytes}
    {rdn other : Rdn}
    (hPerm : (rdn.map (fun a => attributeWith a (f a))).Perm
      (other.map (fun a => attributeWith a (f a)))) :
    setBody f rdn = setBody f other := by
  rw [setBody, setBody, sortEncodings_eq_of_perm hPerm]

theorem nameWith_edit
    {name other : Name}
    (hEdits : Edits name other) :
    nameWith codeValue name = nameWith codeValue other := by
  have hSame : ∀ (before after : Name) (rdn other : Rdn),
      setBody codeValue rdn = setBody codeValue other →
      nameWith codeValue (before ++ rdn :: after) =
        nameWith codeValue (before ++ other :: after) := by
    intro before after rdn other hBody
    simp only [nameWith, List.map_append, List.map_cons, hBody]
  cases hEdits with
  | reorder before after rdn other hPerm =>
      exact hSame _ _ _ _ (setBody_edits (hPerm.map _))
  | member before after left right a b hEdits =>
      apply hSame
      rw [setBody, setBody]
      simp only [List.map_append, List.map_cons,
        attributeWith_edits hEdits]

/- Any number of changes, there or back. -/
theorem nameWith_edits
    {name other : Name}
    (hEdits : Relation.EqvGen Edits name other) :
    nameWith codeValue name = nameWith codeValue other := by
  induction hEdits with
  | rel name other hEdit => exact nameWith_edit hEdit
  | refl name => rfl
  | symm name other _ ih => exact ih.symm
  | trans name other third _ _ ih ih' => exact ih.trans ih'

theorem spellsRdn_rdnDer
    {rdn : Rdn}
    (hLen : (rdnDer rdn).length < 2 ^ 32) :
    SpellsRdn rdn (rdnDer rdn) := by
  have hSetLen := length_lt_tlv 0x31
    (rdn.map Attribute.der).flatten
  rw [rdnDer] at hLen
  refine ⟨rdn.map Attribute.der,
    readTlv_whole 0x31 (by omega), ?_⟩
  rw [List.forall₂_map_right_iff, List.forall₂_same]
  intro a ha
  have hDerLen := length_le_length_flatten
    (List.mem_map_of_mem (f := Attribute.der) ha)
  have hParts := a.length_lt_der
  have hBody := length_lt_tlv 0x30
    (tlv 0x06 a.oid ++ tlv a.tag a.value)
  rw [Attribute.der] at hDerLen hParts
  exact ⟨_, _, [], readTlv_whole 0x30 (by omega),
    readTlv_tlv 0x06 a.oid (by omega) _,
    readTlv_whole a.tag (by omega)⟩

/- A Name's own encoding spells it. -/
theorem spellsName_nameDer
    {name : Name}
    (hLen : (name.map rdnDer).flatten.length < 2 ^ 32) :
    SpellsName name (nameDer name) := by
  refine ⟨name.map rdnDer, readTlv_whole 0x30 hLen, ?_⟩
  rw [List.forall₂_map_right_iff, List.forall₂_same]
  intro rdn hRdn
  have hRdnLen := length_le_length_flatten
    (List.mem_map_of_mem (f := rdnDer) hRdn)
  exact spellsRdn_rdnDer (by omega)

/-
  All the spellings of one subject have one hash: the names
  they spell differ by any changes, there or back, and their
  lengths are written in any form.
-/
theorem subjectHash_respelled
    (sha1 : Bytes → Bytes)
    {name other : Name}
    {n m : Bytes}
    (hName : SpellsName name n)
    (hOther : SpellsName other m)
    (hEdits : Relation.EqvGen Edits name other) :
    ∃ hash, subjectHash sha1 n = .ok hash ∧
      subjectHash sha1 m = .ok hash := by
  have hLeft := canonicalName_iff.mpr ⟨name, hName, rfl⟩
  have hRight := canonicalName_iff.mpr ⟨other, hOther, rfl⟩
  rw [← nameWith_edits hEdits] at hRight
  simp only [subjectHash, hLeft, hRight]
  exact ⟨_, rfl, rfl⟩

/- The common name of the certificates of the tests. -/
def purposeName : Bytes :=
  purposeSubject.drop 13

/- The same as a PrintableString that starts with a blank. -/
def respelledName : Name :=
  commonName 0x13 (0x20 :: purposeName)

/- Its length takes two bytes more than it has to. -/
def respelledSubject : Bytes :=
  [0x30, 0x82, 0x00, 0x2C] ++ (respelledName.map rdnDer).flatten

theorem subjectHash_respelled_purpose :
    ∃ hash,
      subjectHash purposeCrates.sha1 purposeSubject =
        .ok hash ∧
      subjectHash purposeCrates.sha1 respelledSubject =
        .ok hash := by
  have hName : SpellsName (commonName 0x0C purposeName)
      purposeSubject := by
    have hDer : nameDer (commonName 0x0C purposeName) =
        purposeSubject := by
      decide +kernel
    rw [← hDer]
    exact spellsName_nameDer (by decide +kernel)
  have hOther : SpellsName respelledName respelledSubject :=
    ⟨respelledName.map rdnDer, by decide +kernel,
      .cons (spellsRdn_rdnDer (by decide +kernel)) .nil⟩
  refine subjectHash_respelled purposeCrates.sha1 hName hOther
    (.trans _ (commonName 0x13 purposeName) _ (.rel _ _ ?_)
      (.rel _ _ ?_))
  · exact .member [] [] [] [] _ _
      (.retag _ 0x13 (by decide) (by decide))
  · exact .member [] [] [] [] _ _
      (.respell _ _ (by decide) (.front _))

end OpenSsl

end Trustd

------------------------------------------------------------
-- Written Again
------------------------------------------------------------

namespace Trustd

namespace OpenSsl

open Cert General

/- An attribute that is canonical already. -/
def Attribute.canonical (a : Attribute) : Attribute where
  oid := a.oid
  tag := outTag a.tag
  value := codeValue a

/- The members of a canonical RDN, in their order. -/
def canonicalMembers (rdn : Rdn) : Rdn :=
  (rdn.map Attribute.canonical).insertionSort
    (fun a b => bytesLe a.der b.der = true)

def canonicalRdns (name : Name) : Name :=
  name.map canonicalMembers

theorem attributeWith_canonical (a : Attribute) :
    attributeWith a.canonical (codeValue a.canonical) =
      a.canonical.der := by
  have hUtf8 : isStringType 0x0C = true := by decide
  cases hTag : isStringType a.tag with
  | true =>
      simp [Attribute.canonical, attributeWith, codeValue,
        outTag, Attribute.der, hTag, hUtf8, fold_fold]
  | false =>
      simp [Attribute.canonical, attributeWith, codeValue,
        outTag, Attribute.der, hTag]

theorem map_der_canonicalMembers (rdn : Rdn) :
    (canonicalMembers rdn).map Attribute.der =
      sortEncodings
        (rdn.map (fun a => attributeWith a (codeValue a))) := by
  rw [canonicalMembers, sortEncodings]
  rw [List.map_insertionSort (fun a b : Attribute =>
    bytesLe a.der b.der = true)
    (fun a b : Bytes => bytesLe a b = true)
    Attribute.der _ (fun a _ b _ => Iff.rfl), List.map_map]
  rfl

theorem rdnDer_canonicalMembers (rdn : Rdn) :
    rdnDer (canonicalMembers rdn) =
      tlv 0x31 (setBody codeValue rdn) := by
  rw [rdnDer, map_der_canonicalMembers, setBody]

theorem flatten_canonicalRdns (name : Name) :
    ((canonicalRdns name).map rdnDer).flatten =
      nameWith codeValue name := by
  rw [canonicalRdns, List.map_map, nameWith,
    List.flatMap_def, List.map_map]
  congr 2
  funext rdn
  exact rdnDer_canonicalMembers rdn

theorem setBody_canonicalMembers (rdn : Rdn) :
    setBody codeValue (canonicalMembers rdn) =
      setBody codeValue rdn := by
  have hMap : (canonicalMembers rdn).map
      (fun a => attributeWith a (codeValue a)) =
        (canonicalMembers rdn).map Attribute.der := by
    apply List.map_congr_left
    intro a ha
    rcases List.mem_map.mp ((List.mem_insertionSort _).mp ha)
      with ⟨b, -, rfl⟩
    exact attributeWith_canonical b
  rw [setBody, hMap, map_der_canonicalMembers,
    sortEncodings_eq_of_perm (sortEncodings_perm _), setBody]

theorem nameWith_canonicalRdns (name : Name) :
    nameWith codeValue (canonicalRdns name) =
      nameWith codeValue name := by
  rw [nameWith, canonicalRdns, List.map_map, nameWith]
  congr 2
  funext rdn
  exact setBody_canonicalMembers rdn

/- Nothing that is written again takes more bytes. -/
theorem length_canonical_le
    {a : Attribute}
    {ava : Bytes}
    (hSpells : SpellsAttribute a ava) :
    a.canonical.der.length ≤ ava.length := by
  rcases hSpells with
    ⟨content, afterOid, rest, hAva, hOid, hValue⟩
  rcases readTlv_iff.mp hAva with ⟨octets, hForm, rfl⟩
  rcases readTlv_iff.mp hOid with ⟨oidOctets, hOidForm, rfl⟩
  rcases readTlv_iff.mp hValue with
    ⟨valueOctets, hValueForm, rfl⟩
  have hFold : a.canonical.value.length ≤ a.value.length := by
    rw [Attribute.canonical, codeValue]
    split_ifs
    · rw [fold_eq_squeeze, List.length_map]
      exact length_squeeze_le isBlank 0x20 a.value
    · rfl
  have hOidLe : (tlv 0x06 a.canonical.oid).length ≤
      1 + oidOctets.length + a.oid.length :=
    hOidForm.length_tlv_le 0x06 le_rfl
  have hValueLe := hValueForm.length_tlv_le
    a.canonical.tag hFold
  have hBodyLe : (tlv 0x06 a.canonical.oid ++
      tlv a.canonical.tag a.canonical.value).length ≤
        (0x06 :: (oidOctets ++ (a.oid ++ a.tag ::
          (valueOctets ++ (a.value ++ rest))))).length := by
    simp only [List.length_append, List.length_cons]
    omega
  have hWhole := hForm.length_tlv_le 0x30 hBodyLe
  rw [Attribute.der]
  simp only [List.length_append, List.length_cons] at *
  omega

/- Sizes in order add up to sizes in order. -/
theorem length_flatten_le
    {α : Type}
    {Reads : α → Bytes → Prop}
    {f : α → Bytes}
    (hEach : ∀ a e, Reads a e → (f a).length ≤ e.length)
    {as : List α}
    {es : List Bytes}
    (hAll : List.Forall₂ Reads as es) :
    (as.map f).flatten.length ≤ es.flatten.length := by
  induction hAll with
  | nil => rfl
  | cons hHead hTail ih =>
      have hOne := hEach _ _ hHead
      rw [List.map_cons, List.flatten_cons, List.flatten_cons,
        List.length_append, List.length_append]
      omega

theorem length_setBody_le
    {rdn : Rdn}
    {e : Bytes}
    (hSpells : SpellsRdn rdn e) :
    (tlv 0x31 (setBody codeValue rdn)).length ≤
      e.length := by
  rcases hSpells with ⟨avas, hRead, hAvas⟩
  rcases readTlv_iff.mp hRead with ⟨octets, hForm, rfl⟩
  have hFlat := length_flatten_le
    (fun a ava => @length_canonical_le a ava) hAvas
  have hPerm : (setBody codeValue rdn).length =
      (rdn.map (fun a => a.canonical.der)).flatten.length := by
    rw [setBody]
    exact (sortEncodings_perm _).flatten.length_eq
  have hWhole := hForm.length_tlv_le 0x31
    (hPerm.le.trans hFlat)
  simp only [List.length_append, List.length_cons] at *
  omega

theorem length_nameWith_lt
    {name : Name}
    {n : Bytes}
    (hSpells : SpellsName name n) :
    (nameWith codeValue name).length < 2 ^ 32 := by
  rcases hSpells with ⟨rdns, hRead, hRdns⟩
  rcases readTlv_iff.mp hRead with ⟨octets, hForm, -⟩
  have hFlat := length_flatten_le
    (fun rdn e => @length_setBody_le rdn e) hRdns
  have hLen := hForm.lt
  rw [nameWith, List.flatMap_def, List.map_map]
  exact lt_of_le_of_lt hFlat hLen

/- What is canonical is canonical already. -/
theorem canonicalName_idempotent
    {n c : Bytes}
    (hOk : Cert.canonicalName n = .ok c) :
    Cert.canonicalName (tlv 0x30 c) = .ok c := by
  rcases canonicalName_iff.mp hOk with ⟨name, hName, rfl⟩
  have hLen := length_nameWith_lt hName
  rw [← flatten_canonicalRdns] at hLen
  rw [canonicalName_iff]
  refine ⟨canonicalRdns name, ?_, nameWith_canonicalRdns name⟩
  rw [← flatten_canonicalRdns]
  exact spellsName_nameDer hLen

/-
  A Name with a long length, bytes after a value, an RDN of
  nothing, and a value of another type.
-/
def oddName : Bytes :=
  [0x30, 0x81, 0x20,
    0x31, 0x0F, 0x30, 0x0D, 0x06, 0x81, 0x03, 0x55, 0x04, 0x03,
      0x13, 0x04, 0x20, 0x43, 0x20, 0x20, 0x05,
    0x31, 0x00,
    0x31, 0x0B, 0x30, 0x09, 0x06, 0x03, 0x55, 0x04, 0x2D,
      0x03, 0x02, 0x00, 0x43]

theorem canonicalName_idempotent_odd :
    let c := [0x31, 0x0A, 0x30, 0x08, 0x06, 0x03, 0x55, 0x04,
        0x03, 0x0C, 0x01, 0x63,
      0x31, 0x00,
      0x31, 0x0B, 0x30, 0x09, 0x06, 0x03, 0x55, 0x04, 0x2D,
        0x03, 0x02, 0x00, 0x43]
    Cert.canonicalName oddName = .ok c ∧
      Cert.canonicalName (tlv 0x30 c) = .ok c := by
  have hOk : Cert.canonicalName oddName =
      .ok [0x31, 0x0A, 0x30, 0x08, 0x06, 0x03, 0x55, 0x04,
          0x03, 0x0C, 0x01, 0x63,
        0x31, 0x00,
        0x31, 0x0B, 0x30, 0x09, 0x06, 0x03, 0x55, 0x04, 0x2D,
          0x03, 0x02, 0x00, 0x43] := by
    decide +kernel
  exact ⟨hOk, canonicalName_idempotent hOk⟩

end OpenSsl

end Trustd
