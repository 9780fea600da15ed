import Trustd.Core.SubjectHash
import Mathlib.Algebra.BigOperators.Ring.List

/-
  OpenSSL's canonical encoding of a Name, as the subject
  hash has to reproduce it, and exactly which Names
  `canonical_name` reproduces it for.

  OpenSSL transcodes every string value to UTF-8 before it
  folds it, and folds all of ASCII's white space. The code
  folds the bytes as they stand and knows one blank.

  Key definitions include:
    * `Trustd.OpenSsl.Attribute`
    * `Trustd.OpenSsl.nameDer`
    * `Trustd.OpenSsl.decodeString`
    * `Trustd.OpenSsl.canonicalName`
    * `Trustd.OpenSsl.FoldsAlike`

  Key theorems include:
    * `Trustd.OpenSsl.canonicalName_nameDer`
    * `Trustd.OpenSsl.canonicalName_agrees_iff`
-/

------------------------------------------------------------
-- Names
------------------------------------------------------------

namespace Trustd

namespace OpenSsl

open Cert

/- One AttributeTypeAndValue. -/
structure Attribute where
  oid : Bytes
  tag : UInt8
  value : Bytes
deriving DecidableEq, Repr

abbrev Rdn := List Attribute

abbrev Name := List Rdn

/- The DER encoding of a Name. -/
def Attribute.der (a : Attribute) : Bytes :=
  tlv 0x30 (tlv 0x06 a.oid ++ tlv a.tag a.value)

def rdnDer (rdn : Rdn) : Bytes :=
  tlv 0x31 (rdn.map Attribute.der).flatten

def nameDer (name : Name) : Bytes :=
  tlv 0x30 (name.map rdnDer).flatten

end OpenSsl

end Trustd

------------------------------------------------------------
-- The Canonical Encoding
------------------------------------------------------------

namespace Trustd

namespace OpenSsl

open Cert General

/- The string types that are folded. -/
def isStringType (tag : UInt8) : Bool :=
  [0x0C, 0x13, 0x14, 0x16, 0x1A, 0x1C, 0x1E].contains tag

/- A number as a character, where it is one. -/
def scalar (n : Nat) : Option Char :=
  if n.isValidChar then some (Char.ofNat n) else none

/- Bytes as Latin-1. -/
def latin1 (value : Bytes) : Text :=
  value.map (fun b => Char.ofNat b.toNat)

/- Big-endian UCS-2. -/
def ucs2 : Bytes → Option Text
  | [] => some []
  | b1 :: b0 :: rest => do
      let c ← scalar (b1.toNat * 2 ^ 8 + b0.toNat)
      let t ← ucs2 rest
      return c :: t
  | _ => none

/- Big-endian UCS-4. -/
def ucs4 : Bytes → Option Text
  | [] => some []
  | b3 :: b2 :: b1 :: b0 :: rest => do
      let c ← scalar (b3.toNat * 2 ^ 24 +
        b2.toNat * 2 ^ 16 + b1.toNat * 2 ^ 8 + b0.toNat)
      let t ← ucs4 rest
      return c :: t
  | _ => none

/- The characters of a value of a string type. -/
def decodeString (tag : UInt8) (value : Bytes) :
    Option Text :=
  if tag = 0x0C then Text.fromUtf8 value
  else if tag = 0x1E then ucs2 value
  else if tag = 0x1C then ucs4 value
  else some (latin1 value)

/- Space, tab, line feed, and their three companions. -/
def isSpace (b : UInt8) : Bool :=
  b == 0x20 || (9 ≤ b && b ≤ 13)

/- Trim, collapse and lowercase UTF-8. -/
def canonicalString (utf8 : Bytes) : Bytes :=
  (collapse isSpace 0x20 false (trimBy isSpace utf8)).map
    toAsciiLowercase

def canonicalAttribute (a : Attribute) : Option Bytes :=
  if isStringType a.tag then do
    let text ← decodeString a.tag a.value
    return tlv 0x30 (tlv 0x06 a.oid ++
      tlv 0x0C (canonicalString (Text.utf8 text)))
  else some a.der

def canonicalRdn (rdn : Rdn) : Option Bytes := do
  let members ← rdn.mapM canonicalAttribute
  return tlv 0x31 (sortEncodings members).flatten

def canonicalName (name : Name) : Option Bytes := do
  let sets ← name.mapM canonicalRdn
  return sets.flatten

/-
  A well-formed Name: the contents of its strings are what
  their types say, and its encoding is below the limit that
  the decoder it was read with sets, `der`'s `Length::MAX`.
-/
structure WellFormed (name : Name) : Prop where
  strings : ∀ rdn ∈ name, ∀ a ∈ rdn,
    isStringType a.tag = true →
      (decodeString a.tag a.value).isSome = true
  length : (nameDer name).length < 2 ^ 28

/-
  A value whose bytes fold to what its characters fold to:
  UTF-8 without white space other than the blank, a
  single-byte type with nothing but ASCII besides, a wide
  type only when it is empty, and any other type.
-/
def FoldsAlike (a : Attribute) : Prop :=
  isStringType a.tag = true →
    if a.tag = 0x0C then
      ∀ b ∈ a.value, isSpace b = true → b = 0x20
    else if a.tag = 0x1E ∨ a.tag = 0x1C then
      a.value = []
    else
      ∀ b ∈ a.value, b < 0x80 ∧
        (isSpace b = true → b = 0x20)

instance (a : Attribute) : Decidable (FoldsAlike a) :=
  inferInstanceAs (Decidable (_ → ite _ _ _))

end OpenSsl

end Trustd

------------------------------------------------------------
-- Both Encodings As Folded Values
------------------------------------------------------------

namespace Trustd

namespace OpenSsl

open Cert General

/- The value of an attribute as the code folds it. -/
def codeValue (a : Attribute) : Bytes :=
  if isStringType a.tag then fold a.value else a.value

/- The value of an attribute as OpenSSL folds it. -/
def openSslValue (a : Attribute) : Bytes :=
  if isStringType a.tag then
    canonicalString
      (Text.utf8 ((decodeString a.tag a.value).getD []))
  else a.value

def outTag (tag : UInt8) : UInt8 :=
  if isStringType tag then 0x0C else tag

/- An attribute with its value replaced. -/
def attributeWith (a : Attribute) (value : Bytes) : Bytes :=
  tlv 0x30 (tlv 0x06 a.oid ++ tlv (outTag a.tag) value)

/- The concatenated sets, with the values folded by `f`. -/
def setBody (f : Attribute → Bytes) (rdn : Rdn) : Bytes :=
  (sortEncodings
    (rdn.map (fun a => attributeWith a (f a)))).flatten

def nameWith (f : Attribute → Bytes) (name : Name) : Bytes :=
  (name.map (setBody f)).flatMap (tlv 0x31)

theorem isCanonString_eq (tag : UInt8) :
    isCanonString tag = isStringType tag := by
  rw [Bool.eq_iff_iff]
  simp [isCanonString, isStringType, or_assoc]

/- The parts of an attribute are shorter than it is. -/
theorem Attribute.length_lt_der (a : Attribute) :
    a.oid.length + a.value.length + 6 ≤ a.der.length := by
  have hOid := length_lt_tlv 0x06 a.oid
  have hValue := length_lt_tlv a.tag a.value
  have hWhole := length_lt_tlv 0x30
    (tlv 0x06 a.oid ++ tlv a.tag a.value)
  rw [List.length_append] at hWhole
  rw [Attribute.der]
  omega

theorem canonicalAva_der
    (a : Attribute)
    (hLength : a.der.length < 2 ^ 32) :
    canonicalAva a.der =
      .ok (attributeWith a (codeValue a)) := by
  have hParts := a.length_lt_der
  have hWhole := length_lt_tlv 0x30
    (tlv 0x06 a.oid ++ tlv a.tag a.value)
  have hOuter := readTlv_tlv 0x30
    (tlv 0x06 a.oid ++ tlv a.tag a.value)
    (by rw [Attribute.der] at hLength; omega) []
  have hOid := readTlv_tlv 0x06 a.oid (by omega)
    (tlv a.tag a.value)
  have hValue := readTlv_tlv a.tag a.value (by omega) []
  rw [List.append_nil] at hOuter hValue
  rw [canonicalAva, Attribute.der, hOuter]
  simp only [bind, Except.bind, pure, Except.pure, hOid,
    hValue, isCanonString_eq]
  cases hTag : isStringType a.tag with
  | true => simp [attributeWith, codeValue, outTag, hTag]
  | false => simp [attributeWith, codeValue, outTag, hTag]

/- An element of an RDN or a Name is shorter than it. -/
theorem length_lt_tlv_flatten
    (tag : UInt8)
    {e : Bytes}
    {es : List Bytes}
    (hMem : e ∈ es) :
    e.length < (tlv tag es.flatten).length := by
  have hFlat := length_le_length_flatten hMem
  have hTlv := length_lt_tlv tag es.flatten
  omega

theorem canonicalRdn_rdnDer
    (rdn : Rdn)
    (hLength : (rdnDer rdn).length < 2 ^ 32) :
    Cert.canonicalRdn (rdnDer rdn) =
      .ok (tlv 0x31 (setBody codeValue rdn)) := by
  have hAll : ∀ a ∈ rdn, a.der.length < 2 ^ 32 := by
    intro a ha
    have hLt := length_lt_tlv_flatten 0x31
      (List.mem_map_of_mem (f := Attribute.der) ha)
    rw [rdnDer] at hLength
    omega
  have hElements :
      derElements (rdnDer rdn) =
        .ok (rdn.map Attribute.der) := by
    apply derElements_tlv
    · intro e he
      rcases List.mem_map.mp he with ⟨a, ha, rfl⟩
      have hTlv := length_lt_tlv 0x30
        (tlv 0x06 a.oid ++ tlv a.tag a.value)
      have hDer := hAll a ha
      rw [Attribute.der] at hDer
      exact ⟨0x30, _, rfl, by omega⟩
    · have hTlv := length_lt_tlv 0x31
        (rdn.map Attribute.der).flatten
      rw [rdnDer] at hLength
      omega
  have hMembers :
      (rdn.map Attribute.der).mapM canonicalAva =
        Except.ok (rdn.map
          (fun a => attributeWith a (codeValue a))) := by
    rw [List.mapM_map]
    exact mapM_eq_pure (fun a ha =>
      canonicalAva_der a (hAll a ha))
  simp only [Cert.canonicalRdn, hElements, bind, Except.bind,
    hMembers]
  rfl

/- The code's encoding: every value folded as it stands. -/
theorem canonicalName_nameDer
    (name : Name)
    (hLength : (nameDer name).length < 2 ^ 32) :
    Cert.canonicalName (nameDer name) =
      .ok (nameWith codeValue name) := by
  have hAll : ∀ rdn ∈ name,
      (rdnDer rdn).length < 2 ^ 32 := by
    intro rdn hRdn
    have hLt := length_lt_tlv_flatten 0x30
      (List.mem_map_of_mem (f := rdnDer) hRdn)
    rw [nameDer] at hLength
    omega
  have hContents :
      derContents (nameDer name) 0x31 =
        .ok (name.map rdnDer) := by
    apply derContents_tlv
    · intro e he
      rcases List.mem_map.mp he with ⟨rdn, hRdn, rfl⟩
      have hTlv := length_lt_tlv 0x31
        (rdn.map Attribute.der).flatten
      have hDer := hAll rdn hRdn
      rw [rdnDer] at hDer
      exact ⟨_, rfl, by omega⟩
    · have hTlv := length_lt_tlv 0x30
        (name.map rdnDer).flatten
      rw [nameDer] at hLength
      omega
  have hSets :
      (name.map rdnDer).mapM Cert.canonicalRdn =
        Except.ok (name.map
          (fun rdn => tlv 0x31 (setBody codeValue rdn))) := by
    rw [List.mapM_map]
    exact mapM_eq_pure (fun rdn hRdn =>
      canonicalRdn_rdnDer rdn (hAll rdn hRdn))
  simp only [Cert.canonicalName, hContents, bind,
    Except.bind, hSets, nameWith, List.flatMap_def,
    List.map_map]
  rfl

/- OpenSSL's encoding: every value transcoded and folded. -/
theorem canonicalName_eq
    (name : Name)
    (hName : WellFormed name) :
    canonicalName name = some (nameWith openSslValue name) := by
  have hAttribute : ∀ rdn ∈ name, ∀ a ∈ rdn,
      canonicalAttribute a =
        pure (attributeWith a (openSslValue a)) := by
    intro rdn hRdn a ha
    cases hTag : isStringType a.tag with
    | false =>
        simp [canonicalAttribute, attributeWith,
          openSslValue, outTag, hTag, Attribute.der]
    | true =>
        rcases Option.isSome_iff_exists.mp
            (hName.strings rdn hRdn a ha hTag) with
          ⟨text, hText⟩
        simp [canonicalAttribute, attributeWith,
          openSslValue, outTag, hTag, hText]
  have hRdns : ∀ rdn ∈ name, canonicalRdn rdn =
      pure (tlv 0x31 (setBody openSslValue rdn)) := by
    intro rdn hRdn
    rw [canonicalRdn, mapM_eq_pure (hAttribute rdn hRdn)]
    rfl
  rw [canonicalName, mapM_eq_pure hRdns]
  simp [nameWith, List.flatMap_def, List.map_map]
  rfl

end OpenSsl

end Trustd

------------------------------------------------------------
-- Counting The Bytes Of A Folded Value
------------------------------------------------------------

namespace Trustd

namespace OpenSsl

open Cert General

def isHigh (b : UInt8) : Bool :=
  !isAscii b

/- White space that is not the blank. -/
def isOdd (b : UInt8) : Bool :=
  isSpace b && b != 0x20

/- An ASCII byte that is not the blank. -/
def isInk (b : UInt8) : Bool :=
  isAscii b && b != 0x20

theorem countP_lowercase
    (q : UInt8 → Bool)
    (hLower : ∀ b, q (toAsciiLowercase b) = q b)
    (l : Bytes) :
    (l.map toAsciiLowercase).countP q = l.countP q := by
  rw [List.countP_map]
  exact List.countP_congr (fun b _ => by simp [hLower b])

/- What the counts use of each byte, checked in one go. -/
theorem byte_classes :
    ∀ b,
      (isAscii (toAsciiLowercase b) = isAscii b ∧
        isHigh (toAsciiLowercase b) = isHigh b ∧
        isOdd (toAsciiLowercase b) = isOdd b ∧
        isInk (toAsciiLowercase b) = isInk b) ∧
      (isSpace b = true → isAscii b = true) ∧
      (isBlank b = true → isSpace b = true) :=
  forall_byte (by decide +kernel)

theorem isAscii_lowercase
    (b : UInt8) :
    isAscii (toAsciiLowercase b) = isAscii b :=
  (byte_classes b).1.1

theorem isHigh_lowercase
    (b : UInt8) :
    isHigh (toAsciiLowercase b) = isHigh b :=
  (byte_classes b).1.2.1

theorem isOdd_lowercase
    (b : UInt8) :
    isOdd (toAsciiLowercase b) = isOdd b :=
  (byte_classes b).1.2.2.1

theorem isInk_lowercase
    (b : UInt8) :
    isInk (toAsciiLowercase b) = isInk b :=
  (byte_classes b).1.2.2.2

theorem isAscii_of_isSpace
    (b : UInt8)
    (hSpace : isSpace b = true) :
    isAscii b = true :=
  (byte_classes b).2.1 hSpace

theorem isSpace_of_isBlank
    (b : UInt8)
    (hBlank : isBlank b = true) :
    isSpace b = true :=
  (byte_classes b).2.2 hBlank

theorem canonicalString_eq_squeeze (u : Bytes) :
    canonicalString u =
      (squeeze isSpace 0x20 false false u).map
        toAsciiLowercase := by
  rw [canonicalString, collapse_trimBy]

/- The code's folding keeps every byte but blanks. -/
theorem countP_fold
    (q : UInt8 → Bool)
    (hLower : ∀ b, q (toAsciiLowercase b) = q b)
    (hBlank : q 0x20 = false)
    (value : Bytes) :
    (fold value).countP q = value.countP q := by
  rw [fold_eq_squeeze, countP_lowercase q hLower]
  apply countP_squeeze_eq _ _ _ hBlank
  intro b hb
  have hEq : b = 0x20 := by simpa [isBlank] using hb
  rw [hEq, hBlank]

theorem countHigh_canonicalString (u : Bytes) :
    (canonicalString u).countP isHigh = u.countP isHigh := by
  rw [canonicalString_eq_squeeze,
    countP_lowercase _ isHigh_lowercase]
  apply countP_squeeze_eq _ _ _ rfl
  intro b hb
  simp [isHigh, isAscii_of_isSpace b hb]

theorem countOdd_canonicalString (u : Bytes) :
    (canonicalString u).countP isOdd = 0 := by
  rw [canonicalString_eq_squeeze,
    countP_lowercase _ isOdd_lowercase,
    List.countP_eq_zero]
  intro b hb
  rcases mem_squeeze isSpace 0x20 _ _ u hb with
    rfl | ⟨_, hKept⟩
  · decide
  · simp [isOdd, hKept]

theorem countAscii_canonicalString_le (u : Bytes) :
    (canonicalString u).countP isAscii ≤ u.length := by
  rw [canonicalString_eq_squeeze,
    countP_lowercase _ isAscii_lowercase]
  exact le_trans List.countP_le_length
    (length_squeeze_le _ _ u)

/- Folding more as white space keeps less of ASCII. -/
theorem countAscii_canonicalString_le_fold (u : Bytes) :
    (canonicalString u).countP isAscii ≤
      (fold u).countP isAscii := by
  rw [canonicalString_eq_squeeze, fold_eq_squeeze,
    countP_lowercase _ isAscii_lowercase,
    countP_lowercase _ isAscii_lowercase]
  simpa using
    countP_squeeze_le_squeeze isBlank isSpace isAscii 0x20
      rfl isSpace_of_isBlank isAscii_of_isSpace
      false false false false id u

theorem countInk_le_countAscii (l : Bytes) :
    l.countP isInk ≤ l.countP isAscii :=
  List.countP_mono_left (fun b _ hb => by
    simp only [isInk, Bool.and_eq_true] at hb
    exact hb.1)

/- Without ink there is nothing but blanks to fold. -/
theorem canonicalString_eq_nil
    {u : Bytes}
    (hHigh : u.countP isHigh = 0)
    (hInk : u.countP isInk = 0) :
    canonicalString u = [] := by
  rw [canonicalString_eq_squeeze,
    squeeze_eq_nil _ _ u, List.map_nil]
  intro b hb
  have hb1 := List.countP_eq_zero.mp hHigh b hb
  have hb2 := List.countP_eq_zero.mp hInk b hb
  have hAscii : isAscii b = true := by
    simpa [isHigh] using hb1
  have hBlank : b = 0x20 := by
    simpa [isInk, hAscii] using hb2
  subst hBlank
  rfl

end OpenSsl

end Trustd

------------------------------------------------------------
-- Counting The Bytes Of A Transcoded Value
------------------------------------------------------------

namespace Trustd

namespace OpenSsl

open Cert General

theorem isHigh_iff (b : UInt8) :
    isHigh b = true ↔ 0x80 ≤ b.toNat := by
  have hTop : (0x80 : UInt8).toNat = 0x80 := rfl
  rw [isHigh, isAscii, Bool.not_eq_true',
    decide_eq_false_iff_not, UInt8.lt_iff_toNat_lt, hTop]
  omega

/- The bytes of one character, by how many of them are high. -/
theorem countHigh_utf8EncodeChar_ascii
    {c : Char}
    (hc : c.toNat < 0x80) :
    (String.utf8EncodeChar c).countP isHigh = 0 := by
  have hByte : isHigh (UInt8.ofNat c.toNat) = false := by
    rw [Bool.eq_false_iff, ne_eq, isHigh_iff,
      UInt8.toNat_ofNat']
    omega
  rw [Text.utf8EncodeChar_ascii hc]
  simp [hByte]

theorem countHigh_utf8EncodeChar_high
    {c : Char}
    (hc : 0x80 ≤ c.toNat) :
    2 ≤ (String.utf8EncodeChar c).countP isHigh ∧
      (0x800 ≤ c.toNat →
        3 ≤ (String.utf8EncodeChar c).countP isHigh) := by
  rcases Text.utf8EncodeChar_high hc with
    ⟨hAll, hTwo, hThree⟩
  have hCount : (String.utf8EncodeChar c).countP isHigh =
      (String.utf8EncodeChar c).length :=
    List.countP_eq_length.mpr (fun b hb =>
      (isHigh_iff b).mpr (hAll b hb))
  rw [hCount]
  exact ⟨hTwo, hThree⟩

theorem toNat_of_scalar
    {n : Nat}
    {c : Char}
    (hScalar : scalar n = some c) :
    c.toNat = n ∧ n.isValidChar := by
  unfold scalar at hScalar
  split_ifs at hScalar with hValid
  cases hScalar
  refine ⟨?_, hValid⟩
  rw [Char.ofNat, dif_pos hValid]
  rfl

theorem toNat_ofNat_byte (b : UInt8) :
    (Char.ofNat b.toNat).toNat = b.toNat := by
  have hb := b.toNat_lt
  exact (toNat_of_scalar (if_pos (Or.inl (by omega)))).1

theorem isAscii_iff (b : UInt8) :
    isAscii b = true ↔ b.toNat < 0x80 := by
  rw [isAscii, decide_eq_true_eq, UInt8.lt_iff_toNat_lt]
  rfl

theorem utf8_latin1_cons
    (b : UInt8)
    (rest : Bytes) :
    Text.utf8 (latin1 (b :: rest)) =
      String.utf8EncodeChar (Char.ofNat b.toNat) ++
        Text.utf8 (latin1 rest) := rfl

/- ASCII is its own transcoding from Latin-1. -/
theorem utf8_latin1
    {value : Bytes}
    (hAscii : ∀ b ∈ value, isAscii b = true) :
    Text.utf8 (latin1 value) = value := by
  induction value with
  | nil => rfl
  | cons b rest ih =>
      have hb := (isAscii_iff b).mp
        (hAscii b List.mem_cons_self)
      have hRest := ih (fun x hx =>
        hAscii x (List.mem_cons_of_mem b hx))
      rw [utf8_latin1_cons, hRest,
        Text.utf8EncodeChar_ascii (by rwa [toNat_ofNat_byte]),
        toNat_ofNat_byte]
      simp

/- A high byte becomes two high bytes. -/
theorem countHigh_latin1 (value : Bytes) :
    value.countP isHigh ≤
        (Text.utf8 (latin1 value)).countP isHigh ∧
      (value.countP isHigh =
          (Text.utf8 (latin1 value)).countP isHigh →
        ∀ b ∈ value, isAscii b = true) := by
  induction value with
  | nil => simp [latin1]
  | cons b rest ih =>
      rcases ih with ⟨hLe, hEq⟩
      rw [utf8_latin1_cons, List.countP_cons,
        List.countP_append]
      cases hAscii : isAscii b with
      | true =>
          have hLow : (Char.ofNat b.toNat).toNat < 0x80 := by
            rw [toNat_ofNat_byte]
            exact (isAscii_iff b).mp hAscii
          rw [countHigh_utf8EncodeChar_ascii hLow, isHigh,
            hAscii]
          refine ⟨by simpa using hLe, fun hCount => ?_⟩
          intro x hx
          rcases List.mem_cons.mp hx with rfl | hx
          · exact hAscii
          · exact hEq (by simpa using hCount) x hx
      | false =>
          have hb : ¬ b.toNat < 0x80 := by
            rw [← isAscii_iff, hAscii]
            simp
          have hHigh := (countHigh_utf8EncodeChar_high
            (c := Char.ofNat b.toNat)
            (by rw [toNat_ofNat_byte]; omega)).1
          constructor
          · split_ifs <;> omega
          · intro hCount
            split_ifs at hCount <;> omega

/-
  What a wide value and its characters have in common, when
  the value has as many high bytes as they have: they are
  ASCII, and each of them brought a zero byte along.
-/
structure WideCounts (value u : Bytes) : Prop where
  le : value.countP isHigh ≤ u.countP isHigh
  ascii : value.countP isHigh = u.countP isHigh →
    u.countP isHigh = 0 ∧
      u.length + u.countP isInk ≤ value.countP isInk
  nil : u = [] → value = []

/- One more unit in front keeps the counts. -/
theorem WideCounts.cons
    (unit : Bytes)
    {value u : Bytes}
    {c : Char}
    (hRest : WideCounts value u)
    (hLow : c.toNat < 0x80 →
      unit.countP isHigh = 0 ∧
        1 + [UInt8.ofNat c.toNat].countP isInk ≤
          unit.countP isInk)
    (hHigh : 0x80 ≤ c.toNat →
      unit.countP isHigh ≤
        if c.toNat < 0x800 then 1 else 2) :
    WideCounts (unit ++ value)
      (String.utf8EncodeChar c ++ u) := by
  have hLe := hRest.le
  by_cases hc : c.toNat < 0x80
  · have hZero := countHigh_utf8EncodeChar_ascii hc
    have hUnit := hLow hc
    constructor
    · rw [List.countP_append, List.countP_append]
      omega
    · intro hCount
      rw [List.countP_append, List.countP_append] at hCount
      have hAscii := hRest.ascii (by omega)
      rw [List.countP_append, List.countP_append,
        List.length_append, List.countP_append,
        Text.utf8EncodeChar_ascii hc, List.length_singleton]
      rw [Text.utf8EncodeChar_ascii hc] at hZero
      omega
    · intro hNil
      simp at hNil
  · have hMany := countHigh_utf8EncodeChar_high
      (c := c) (by omega)
    have hUnit := hHigh (by omega)
    constructor
    · rw [List.countP_append, List.countP_append]
      split_ifs at hUnit <;> omega
    · intro hCount
      rw [List.countP_append, List.countP_append] at hCount
      split_ifs at hUnit <;> omega
    · intro hNil
      simp at hNil

end OpenSsl

end Trustd

------------------------------------------------------------
-- Wide Values
------------------------------------------------------------

namespace Trustd

namespace OpenSsl

open Cert General

theorem countP_isHigh_cons
    (b : UInt8)
    (rest : Bytes) :
    (b :: rest).countP isHigh =
      rest.countP isHigh +
        if 0x80 ≤ b.toNat then 1 else 0 := by
  rw [List.countP_cons]
  simp only [isHigh_iff]

/- A zero byte is no blank and not high. -/
theorem countP_isInk_zero_cons (rest : Bytes) :
    (0 :: rest).countP isInk = rest.countP isInk + 1 :=
  List.countP_cons_of_pos (by decide)

theorem eq_zero_of_toNat
    {b : UInt8}
    (hb : b.toNat = 0) :
    b = 0 :=
  UInt8.toNat_inj.mp hb

theorem ucs2_wideCounts
    (value : Bytes)
    (text : Text)
    (hText : ucs2 value = some text) :
    WideCounts value (Text.utf8 text) := by
  induction value using ucs2.induct generalizing text with
  | case1 =>
      cases hText
      exact ⟨by simp, by simp, by simp⟩
  | case2 b1 b0 rest ih =>
      simp only [ucs2, Option.bind_eq_bind,
        Option.bind_eq_some_iff, Option.pure_def,
        Option.some.injEq] at hText
      rcases hText with ⟨c, hc, t, ht, rfl⟩
      rcases toNat_of_scalar hc with ⟨hNat, _⟩
      have hb1 := b1.toNat_lt
      have hb0 := b0.toNat_lt
      refine (ih t ht).cons [b1, b0]
        (fun hLow => ?_) (fun hHigh => ?_)
      · have hZero : b1 = 0 := eq_zero_of_toNat (by omega)
        have hByte : UInt8.ofNat c.toNat = b0 := by
          rw [← UInt8.toNat_inj, UInt8.toNat_ofNat']
          omega
        rw [hByte, hZero, countP_isInk_zero_cons]
        simp only [countP_isHigh_cons, List.countP_nil]
        refine ⟨?_, by omega⟩
        rw [if_neg (by omega), if_neg (by decide)]
      · simp only [countP_isHigh_cons, List.countP_nil]
        split_ifs <;> omega
  | case3 value hNil hCons =>
      simp [ucs2] at hText

theorem ucs4_wideCounts
    (value : Bytes)
    (text : Text)
    (hText : ucs4 value = some text) :
    WideCounts value (Text.utf8 text) := by
  induction value using ucs4.induct generalizing text with
  | case1 =>
      cases hText
      exact ⟨by simp, by simp, by simp⟩
  | case2 b3 b2 b1 b0 rest ih =>
      simp only [ucs4, Option.bind_eq_bind,
        Option.bind_eq_some_iff, Option.pure_def,
        Option.some.injEq] at hText
      rcases hText with ⟨c, hc, t, ht, rfl⟩
      rcases toNat_of_scalar hc with ⟨hNat, hValid⟩
      have hb2 := b2.toNat_lt
      have hb1 := b1.toNat_lt
      have hb0 := b0.toNat_lt
      have hTop : c.toNat < 0x110000 := by
        rw [hNat]
        rcases hValid with hLow | ⟨_, hHigh⟩
        · omega
        · exact hHigh
      refine (ih t ht).cons [b3, b2, b1, b0]
        (fun hLow => ?_) (fun hHigh => ?_)
      · have h3 : b3 = 0 := eq_zero_of_toNat (by omega)
        have h2 : b2 = 0 := eq_zero_of_toNat (by omega)
        have h1 : b1 = 0 := eq_zero_of_toNat (by omega)
        have hByte : UInt8.ofNat c.toNat = b0 := by
          rw [← UInt8.toNat_inj, UInt8.toNat_ofNat']
          omega
        rw [hByte, h3, h2, h1]
        simp only [countP_isInk_zero_cons,
          countP_isHigh_cons, List.countP_nil]
        refine ⟨?_, by omega⟩
        rw [if_neg (by omega), if_neg (by decide)]
      · simp only [countP_isHigh_cons, List.countP_nil]
        split_ifs <;> omega
  | case3 value hNil hCons =>
      simp [ucs4] at hText

end OpenSsl

end Trustd

------------------------------------------------------------
-- Values That Fold Alike
------------------------------------------------------------

namespace Trustd

namespace OpenSsl

open Cert General

/- What the string type says about value and characters. -/
theorem decodeString_cases
    (tag : UInt8)
    (value : Bytes)
    (text : Text)
    (hText : decodeString tag value = some text) :
    (tag = 0x0C ∧ Text.utf8 text = value) ∨
      (tag ≠ 0x0C ∧ (tag = 0x1E ∨ tag = 0x1C) ∧
        WideCounts value (Text.utf8 text)) ∨
      (tag ≠ 0x0C ∧ ¬ (tag = 0x1E ∨ tag = 0x1C) ∧
        text = latin1 value) := by
  unfold decodeString at hText
  split_ifs at hText with hUtf8 hBmp hUniversal
  · exact Or.inl ⟨hUtf8, Text.utf8_of_fromUtf8 hText⟩
  · exact Or.inr (Or.inl ⟨hUtf8, Or.inl hBmp,
      ucs2_wideCounts value text hText⟩)
  · exact Or.inr (Or.inl ⟨hUtf8, Or.inr hUniversal,
      ucs4_wideCounts value text hText⟩)
  · cases hText
    exact Or.inr (Or.inr ⟨hUtf8, by simp [hBmp, hUniversal],
      rfl⟩)

/- The code never has more high bytes than OpenSSL. -/
theorem countHigh_le
    {tag : UInt8}
    {value : Bytes}
    {text : Text}
    (hText : decodeString tag value = some text) :
    (fold value).countP isHigh ≤
      (canonicalString (Text.utf8 text)).countP isHigh := by
  rw [countP_fold _ isHigh_lowercase rfl,
    countHigh_canonicalString]
  rcases decodeString_cases tag value text hText with
    ⟨_, hSame⟩ | ⟨_, _, hWide⟩ | ⟨_, _, rfl⟩
  · rw [hSame]
  · exact hWide.le
  · exact (countHigh_latin1 value).1

/- With as many high bytes it has no less of ASCII. -/
theorem countAscii_le
    {tag : UInt8}
    {value : Bytes}
    {text : Text}
    (hText : decodeString tag value = some text)
    (hHigh : (fold value).countP isHigh =
      (canonicalString (Text.utf8 text)).countP isHigh) :
    (canonicalString (Text.utf8 text)).countP isAscii ≤
      (fold value).countP isAscii := by
  rw [countP_fold _ isHigh_lowercase rfl,
    countHigh_canonicalString] at hHigh
  rcases decodeString_cases tag value text hText with
    ⟨_, hSame⟩ | ⟨_, _, hWide⟩ | ⟨_, _, rfl⟩
  · rw [hSame]
    exact countAscii_canonicalString_le_fold value
  · have hAscii := (hWide.ascii hHigh).2
    have hInk := countP_fold isInk isInk_lowercase rfl value
    have hFold := countInk_le_countAscii (fold value)
    have hLe := countAscii_canonicalString_le
      (Text.utf8 text)
    omega
  · rw [utf8_latin1 ((countHigh_latin1 value).2 hHigh)]
    exact countAscii_canonicalString_le_fold value

/- Equal counts leave only the values that fold alike. -/
theorem foldsAlike_of_counts
    (a : Attribute)
    {text : Text}
    (hText : decodeString a.tag a.value = some text)
    (hHigh : (fold a.value).countP isHigh =
      (canonicalString (Text.utf8 text)).countP isHigh)
    (hAscii : (canonicalString (Text.utf8 text)).countP
        isAscii = (fold a.value).countP isAscii)
    (hOdd : (fold a.value).countP isOdd = 0) :
    FoldsAlike a := by
  intro _
  have hInk := countP_fold isInk isInk_lowercase rfl a.value
  have hFold := countInk_le_countAscii (fold a.value)
  rw [countP_fold _ isHigh_lowercase rfl,
    countHigh_canonicalString] at hHigh
  rw [countP_fold _ isOdd_lowercase rfl,
    List.countP_eq_zero] at hOdd
  have hBlank : ∀ b ∈ a.value, isSpace b = true →
      b = 0x20 := by
    intro b hb hSpace
    simpa [isOdd, hSpace] using hOdd b hb
  rcases decodeString_cases a.tag a.value text hText with
    ⟨hTag, _⟩ | ⟨hTag, hKind, hWide⟩ | ⟨hTag, hKind, rfl⟩
  · rw [if_pos hTag]
    exact hBlank
  · rw [if_neg hTag, if_pos hKind]
    rcases hWide.ascii hHigh with ⟨hZero, hCount⟩
    have hLe := countAscii_canonicalString_le
      (Text.utf8 text)
    have hNothing : (Text.utf8 text).countP isInk = 0 := by
      omega
    rw [canonicalString_eq_nil hZero hNothing] at hAscii
    have hLength : (Text.utf8 text).length = 0 := by
      simp only [List.countP_nil] at hAscii
      omega
    exact hWide.nil (List.length_eq_zero_iff.mp hLength)
  · rw [if_neg hTag, if_neg hKind]
    intro b hb
    refine ⟨?_, hBlank b hb⟩
    have hAll := (countHigh_latin1 a.value).2 hHigh b hb
    simpa [isAscii] using hAll

/- A value that folds alike folds to the same bytes. -/
theorem fold_eq_of_foldsAlike
    (a : Attribute)
    {text : Text}
    (hString : isStringType a.tag = true)
    (hText : decodeString a.tag a.value = some text)
    (hAlike : FoldsAlike a) :
    fold a.value = canonicalString (Text.utf8 text) := by
  have hSame : Text.utf8 text = a.value ∧
      ∀ b ∈ a.value, isSpace b = true → b = 0x20 := by
    have hCond := hAlike hString
    rcases decodeString_cases a.tag a.value text hText with
      ⟨hTag, hSame⟩ | ⟨hTag, hKind, hWide⟩ |
        ⟨hTag, hKind, rfl⟩
    · rw [if_pos hTag] at hCond
      exact ⟨hSame, hCond⟩
    · rw [if_neg hTag, if_pos hKind] at hCond
      have hEmpty : text = [] := by
        rcases hKind with hKind | hKind
        · rw [decodeString, if_neg hTag, if_pos hKind,
            hCond] at hText
          cases hText
          rfl
        · rw [decodeString, if_neg hTag,
            if_neg (by rw [hKind]; decide),
            if_pos hKind, hCond] at hText
          cases hText
          rfl
      rw [hEmpty, hCond]
      exact ⟨rfl, by simp⟩
    · rw [if_neg hTag, if_neg hKind] at hCond
      have hAscii : ∀ b ∈ a.value, isAscii b = true :=
        fun b hb => by simpa [isAscii] using (hCond b hb).1
      exact ⟨utf8_latin1 hAscii, fun b hb => (hCond b hb).2⟩
  rcases hSame with ⟨hBytes, hBlank⟩
  rw [hBytes, fold_eq_squeeze, canonicalString_eq_squeeze]
  congr 1
  apply squeeze_congr
  intro b hb
  rw [Bool.eq_iff_iff]
  constructor
  · exact isSpace_of_isBlank b
  · intro hSpace
    rw [hBlank b hb hSpace]
    rfl

end OpenSsl

end Trustd

------------------------------------------------------------
-- Lengths
------------------------------------------------------------

namespace Trustd

namespace OpenSsl

open Cert General

theorem length_utf8EncodeChar_le (c : Char) :
    (String.utf8EncodeChar c).length ≤ 4 := by
  rw [String.length_utf8EncodeChar]
  exact c.utf8Size_le_four

/- Transcoding grows a value at most fourfold. -/
theorem length_utf8_le
    (tag : UInt8)
    (value : Bytes)
    (text : Text)
    (hText : decodeString tag value = some text) :
    (Text.utf8 text).length ≤ 4 * value.length := by
  unfold decodeString at hText
  split_ifs at hText
  · rw [Text.utf8_of_fromUtf8 hText]
    omega
  · induction value using ucs2.induct generalizing text with
    | case1 =>
        cases hText
        simp
    | case2 b1 b0 rest ih =>
        simp only [ucs2, Option.bind_eq_bind,
          Option.bind_eq_some_iff, Option.pure_def,
          Option.some.injEq] at hText
        rcases hText with ⟨c, _, t, ht, rfl⟩
        have hRest := ih t ht
        have hChar := length_utf8EncodeChar_le c
        simp only [Text.utf8_cons, List.length_append,
          List.length_cons]
        omega
    | case3 value hNil hCons => simp [ucs2] at hText
  · induction value using ucs4.induct generalizing text with
    | case1 =>
        cases hText
        simp
    | case2 b3 b2 b1 b0 rest ih =>
        simp only [ucs4, Option.bind_eq_bind,
          Option.bind_eq_some_iff, Option.pure_def,
          Option.some.injEq] at hText
        rcases hText with ⟨c, _, t, ht, rfl⟩
        have hRest := ih t ht
        have hChar := length_utf8EncodeChar_le c
        simp only [Text.utf8_cons, List.length_append,
          List.length_cons]
        omega
    | case3 value hNil hCons => simp [ucs4] at hText
  · cases hText
    induction value with
    | nil => simp [latin1]
    | cons b rest ih =>
        have hChar := length_utf8EncodeChar_le
          (Char.ofNat b.toNat)
        simp only [utf8_latin1_cons, List.length_append,
          List.length_cons]
        omega

theorem length_codeValue_le (a : Attribute) :
    (codeValue a).length ≤ 4 * a.value.length := by
  unfold codeValue
  split_ifs
  · have hFold := length_squeeze_le isBlank 0x20 a.value
    rw [fold_eq_squeeze, List.length_map]
    omega
  · omega

theorem length_openSslValue_le (a : Attribute) :
    (openSslValue a).length ≤ 4 * a.value.length := by
  unfold openSslValue
  split_ifs
  · rw [canonicalString_eq_squeeze, List.length_map]
    apply le_trans (length_squeeze_le _ _ _)
    cases hText : decodeString a.tag a.value with
    | none => simp
    | some text => exact length_utf8_le _ _ _ hText
  · omega

/- Values of such lengths keep an attribute's encoding small. -/
theorem length_attributeWith_le
    (a : Attribute)
    {value : Bytes}
    (hValue : value.length ≤ 4 * a.value.length)
    (hDer : a.der.length < 2 ^ 28) :
    (tlv 0x06 a.oid ++ tlv (outTag a.tag) value).length <
        2 ^ 32 ∧
      value.length < 2 ^ 32 ∧ a.oid.length < 2 ^ 32 ∧
      (attributeWith a value).length ≤ 4 * a.der.length := by
  have hParts := a.length_lt_der
  have hOidShort : a.oid.length < 2 ^ 32 := by omega
  have hShort : value.length < 2 ^ 32 := by omega
  have hOid := length_tlv_le 0x06 hOidShort
  have hInner := length_tlv_le (outTag a.tag) hShort
  have hBody : (tlv 0x06 a.oid ++
      tlv (outTag a.tag) value).length < 2 ^ 32 := by
    rw [List.length_append]
    omega
  have hWhole := length_tlv_le 0x30 hBody
  refine ⟨hBody, by omega, by omega, ?_⟩
  rw [List.length_append] at hWhole
  rw [attributeWith]
  omega

end OpenSsl

end Trustd

------------------------------------------------------------
-- Names That Encode Alike
------------------------------------------------------------

namespace Trustd

namespace OpenSsl

open Cert General

/- The value inside an encoded attribute. -/
def valueOf (ava : Bytes) : Bytes :=
  match readTlv ava with
  | .ok (_, content, _) =>
      match readTlv content with
      | .ok (_, _, afterOid) =>
          match readTlv afterOid with
          | .ok (_, value, _) => value
          | .error _ => []
      | .error _ => []
  | .error _ => []

theorem valueOf_attributeWith
    (a : Attribute)
    {value : Bytes}
    (hValue : value.length ≤ 4 * a.value.length)
    (hDer : a.der.length < 2 ^ 28) :
    valueOf (attributeWith a value) = value := by
  rcases length_attributeWith_le a hValue hDer with
    ⟨hBody, hInner, hOid, _⟩
  have hOuter := readTlv_tlv 0x30 _ hBody []
  have hMiddle := readTlv_tlv 0x06 a.oid hOid
    (tlv (outTag a.tag) value)
  have hLast := readTlv_tlv (outTag a.tag) value hInner []
  rw [List.append_nil] at hOuter hLast
  simp only [valueOf, attributeWith, hOuter, hMiddle, hLast]

section

variable {f g : Attribute → Bytes}
variable (hf : ∀ a, (f a).length ≤ 4 * a.value.length)
variable (hg : ∀ a, (g a).length ≤ 4 * a.value.length)

include hf in
theorem length_setBody_lt
    (rdn : Rdn)
    (hRdn : (rdnDer rdn).length < 2 ^ 28) :
    (setBody f rdn).length < 2 ^ 32 := by
  have hDer : ∀ a ∈ rdn, a.der.length < 2 ^ 28 := by
    intro a ha
    have hLt := length_lt_tlv_flatten 0x31
      (List.mem_map_of_mem (f := Attribute.der) ha)
    rw [rdnDer] at hRdn
    omega
  have hPerm : (setBody f rdn).length =
      (rdn.map (fun a =>
        (attributeWith a (f a)).length)).sum := by
    rw [setBody, List.length_flatten]
    have hSort := (sortEncodings_perm
      (rdn.map (fun a => attributeWith a (f a)))).map
        List.length
    rw [hSort.sum_nat, List.map_map]
    rfl
  have hSum := sum_le_sum_of_forall_le
    (f := fun a => (attributeWith a (f a)).length)
    (g := fun a => 4 * a.der.length) (l := rdn)
    (fun a ha =>
      (length_attributeWith_le a (hf a) (hDer a ha)).2.2.2)
  have hFlat : (rdn.map (fun a => 4 * a.der.length)).sum =
      4 * (rdn.map Attribute.der).flatten.length := by
    rw [List.length_flatten, List.map_map,
      List.sum_map_mul_left]
    rfl
  have hTlv := length_lt_tlv 0x31
    (rdn.map Attribute.der).flatten
  rw [rdnDer] at hRdn
  omega

/- The members of a set are told apart by its body. -/
theorem members_of_setBody
    {h : Attribute → Bytes}
    (hh : ∀ a, (h a).length ≤ 4 * a.value.length)
    (rdn : Rdn)
    (hDer : ∀ a ∈ rdn, a.der.length < 2 ^ 28) :
    derLoop (fun _ => true) (setBody h rdn) =
      .ok (sortEncodings
        (rdn.map (fun a => attributeWith a (h a)))) := by
  apply derLoop_flatten
  intro e he
  have hMem : e ∈ rdn.map
      (fun a => attributeWith a (h a)) :=
    (sortEncodings_perm _).mem_iff.mp he
  rcases List.mem_map.mp hMem with ⟨a, ha, rfl⟩
  exact ⟨0x30, _, rfl,
    (length_attributeWith_le a (hh a) (hDer a ha)).1, rfl⟩

/- Equal sets hold the same values, in some order. -/
include hf hg in
theorem values_perm_of_setBody_eq
    (rdn : Rdn)
    (hDer : ∀ a ∈ rdn, a.der.length < 2 ^ 28)
    (hEq : setBody f rdn = setBody g rdn) :
    (rdn.map f).Perm (rdn.map g) := by
  have hLeft := members_of_setBody hf rdn hDer
  have hRight := members_of_setBody hg rdn hDer
  rw [hEq, hRight, Except.ok.injEq] at hLeft
  have hPerm :
      (rdn.map (fun a => attributeWith a (f a))).Perm
        (rdn.map (fun a => attributeWith a (g a))) := by
    refine (sortEncodings_perm _).symm.trans ?_
    rw [← hLeft]
    exact sortEncodings_perm _
  have hValues : ∀ h : Attribute → Bytes,
      (∀ a, (h a).length ≤ 4 * a.value.length) →
        (rdn.map (fun a => attributeWith a (h a))).map
          valueOf = rdn.map h := by
    intro h hh
    rw [List.map_map]
    exact List.map_congr_left (fun a ha =>
      valueOf_attributeWith a (hh a) (hDer a ha))
  have hMapped := hPerm.map valueOf
  rwa [hValues f hf, hValues g hg] at hMapped

/- So counts agree over the whole set. -/
include hf hg in
theorem sum_countP_eq_of_setBody_eq
    (rdn : Rdn)
    (hDer : ∀ a ∈ rdn, a.der.length < 2 ^ 28)
    (hEq : setBody f rdn = setBody g rdn)
    (q : UInt8 → Bool) :
    (rdn.map (fun a => (f a).countP q)).sum =
      (rdn.map (fun a => (g a).countP q)).sum := by
  have hPerm :=
    (values_perm_of_setBody_eq hf hg rdn hDer hEq).map
      (List.countP q)
  rw [List.map_map, List.map_map] at hPerm
  exact hPerm.sum_nat

end

/- One RDN: equal sets only when every value folds alike. -/
theorem foldsAlike_of_setBody_eq
    (rdn : Rdn)
    (hDer : ∀ a ∈ rdn, a.der.length < 2 ^ 28)
    (hStrings : ∀ a ∈ rdn, isStringType a.tag = true →
      (decodeString a.tag a.value).isSome = true)
    (hEq : setBody codeValue rdn =
      setBody openSslValue rdn) :
    ∀ a ∈ rdn, FoldsAlike a := by
  have hSum := sum_countP_eq_of_setBody_eq
    length_codeValue_le length_openSslValue_le rdn hDer hEq
  have hString : ∀ a ∈ rdn, isStringType a.tag = true →
      ∃ text, decodeString a.tag a.value = some text ∧
        codeValue a = fold a.value ∧
        openSslValue a =
          canonicalString (Text.utf8 text) := by
    intro a ha hTag
    rcases Option.isSome_iff_exists.mp
        (hStrings a ha hTag) with ⟨text, hText⟩
    exact ⟨text, hText, by simp [codeValue, hTag],
      by simp [openSslValue, hTag, hText]⟩
  have hOther : ∀ a, isStringType a.tag = false →
      codeValue a = openSslValue a := by
    intro a hTag
    simp [codeValue, openSslValue, hTag]
  have hHigh : ∀ a ∈ rdn, (codeValue a).countP isHigh =
      (openSslValue a).countP isHigh := by
    refine forall_eq_of_sum_eq (fun a ha => ?_) (hSum isHigh)
    cases hTag : isStringType a.tag with
    | false => rw [hOther a hTag]
    | true =>
        rcases hString a ha hTag with ⟨text, hText, hc, ho⟩
        rw [hc, ho]
        exact countHigh_le hText
  have hAscii : ∀ a ∈ rdn, (openSslValue a).countP isAscii =
      (codeValue a).countP isAscii := by
    refine forall_eq_of_sum_eq (fun a ha => ?_)
      (hSum isAscii).symm
    cases hTag : isStringType a.tag with
    | false => rw [hOther a hTag]
    | true =>
        rcases hString a ha hTag with ⟨text, hText, hc, ho⟩
        have hEqual := hHigh a ha
        rw [hc, ho] at hEqual ⊢
        exact countAscii_le hText hEqual
  have hOdd : ∀ a ∈ rdn, (openSslValue a).countP isOdd =
      (codeValue a).countP isOdd := by
    refine forall_eq_of_sum_eq (fun a ha => ?_)
      (hSum isOdd).symm
    cases hTag : isStringType a.tag with
    | false => rw [hOther a hTag]
    | true =>
        rcases hString a ha hTag with ⟨text, hText, hc, ho⟩
        rw [ho, countOdd_canonicalString]
        omega
  intro a ha hTag
  rcases hString a ha hTag with ⟨text, hText, hc, ho⟩
  have h1 := hHigh a ha
  have h2 := hAscii a ha
  have h3 := hOdd a ha
  rw [hc, ho] at h1 h2 h3
  rw [countOdd_canonicalString] at h3
  exact foldsAlike_of_counts a hText h1 h2 h3.symm hTag

theorem codeValue_eq_of_foldsAlike
    (a : Attribute)
    (hString : isStringType a.tag = true →
      (decodeString a.tag a.value).isSome = true)
    (hAlike : FoldsAlike a) :
    codeValue a = openSslValue a := by
  cases hTag : isStringType a.tag with
  | false => simp [codeValue, openSslValue, hTag]
  | true =>
      rcases Option.isSome_iff_exists.mp (hString hTag) with
        ⟨text, hText⟩
      simpa [codeValue, openSslValue, hTag, hText] using
        fold_eq_of_foldsAlike a hTag hText hAlike

/-
  `canonical_name` gives OpenSSL's encoding of a well-formed
  Name exactly when every value in it folds alike.
-/
theorem canonicalName_agrees_iff
    (name : Name)
    (hName : WellFormed name) :
    (Cert.canonicalName (nameDer name)).toOption =
        canonicalName name ↔
      ∀ rdn ∈ name, ∀ a ∈ rdn, FoldsAlike a := by
  have hLength := hName.length
  have hRdn : ∀ rdn ∈ name,
      (rdnDer rdn).length < 2 ^ 28 := by
    intro rdn hMem
    have hLt := length_lt_tlv_flatten 0x30
      (List.mem_map_of_mem (f := rdnDer) hMem)
    rw [nameDer] at hLength
    omega
  have hDer : ∀ rdn ∈ name, ∀ a ∈ rdn,
      a.der.length < 2 ^ 28 := by
    intro rdn hMem a ha
    have hLt := length_lt_tlv_flatten 0x31
      (List.mem_map_of_mem (f := Attribute.der) ha)
    have hBound := hRdn rdn hMem
    rw [rdnDer] at hBound
    omega
  rw [canonicalName_nameDer name (by omega),
    canonicalName_eq name hName, Except.toOption,
    Option.some.injEq]
  constructor
  · intro hEq rdn hMem
    have hSets : name.map (setBody codeValue) =
        name.map (setBody openSslValue) := by
      have hSelf : SelfDelimiting (tlv 0x31)
          (fun c => c.length < 2 ^ 32) := by
        intro c d hc hd r s hBoth
        exact (tlv_inj hc hd hBoth).2
      apply hSelf.flatMap_injective (tlv_ne_nil 0x31) _ _ hEq
      · intro body hBody
        rcases List.mem_map.mp hBody with ⟨r, hr, rfl⟩
        exact length_setBody_lt length_codeValue_le r
          (hRdn r hr)
      · intro body hBody
        rcases List.mem_map.mp hBody with ⟨r, hr, rfl⟩
        exact length_setBody_lt length_openSslValue_le r
          (hRdn r hr)
    exact foldsAlike_of_setBody_eq rdn (hDer rdn hMem)
      (hName.strings rdn hMem)
      (List.map_inj_left.mp hSets rdn hMem)
  · intro hAlike
    have hSets : name.map (setBody codeValue) =
        name.map (setBody openSslValue) := by
      apply List.map_congr_left
      intro rdn hMem
      rw [setBody, setBody]
      congr 2
      apply List.map_congr_left
      intro a ha
      rw [codeValue_eq_of_foldsAlike a
        (hName.strings rdn hMem a ha) (hAlike rdn hMem a ha)]
    rw [nameWith, hSets, nameWith]

/- A Name of one common name. -/
def commonName (tag : UInt8) (value : Bytes) : Name :=
  [[{ oid := [0x55, 0x04, 0x03], tag, value }]]

/- The common name `Ca`, as a PrintableString. -/
theorem canonicalName_agrees_printable :
    (Cert.canonicalName
        (nameDer (commonName 0x13 [0x43, 0x61]))).toOption =
        canonicalName (commonName 0x13 [0x43, 0x61]) ↔
      ∀ rdn ∈ commonName 0x13 [0x43, 0x61],
        ∀ a ∈ rdn, FoldsAlike a :=
  canonicalName_agrees_iff _
    ⟨by decide +kernel, by decide +kernel⟩

/- The same name as a BMPString. -/
theorem canonicalName_differs_bmp :
    WellFormed (commonName 0x1E [0, 0x43, 0, 0x61]) ∧
      (Cert.canonicalName (nameDer
          (commonName 0x1E [0, 0x43, 0, 0x61]))).toOption ≠
        canonicalName
          (commonName 0x1E [0, 0x43, 0, 0x61]) := by
  have hName :
      WellFormed (commonName 0x1E [0, 0x43, 0, 0x61]) :=
    ⟨by decide +kernel, by decide +kernel⟩
  refine ⟨hName, ?_⟩
  rw [canonicalName_nameDer _ (by decide +kernel),
    canonicalName_eq _ hName]
  decide +kernel

end OpenSsl

end Trustd
