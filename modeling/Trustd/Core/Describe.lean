import Mathlib.Data.Nat.Size
import Mathlib.Tactic.Ring
import Trustd.Core.Cert
import Trustd.Core.Documents
import Trustd.Core.Store
import Trustd.Core.Walker

/-
  What a person is told about a certificate.

  A certificate as the X.509 crate decodes it is a parameter,
  and so are the readers of its string types. Which attribute
  names the certificate, and how its serial number and its
  key are put in words, is the code's.

  Key definitions include:
    * `Trustd.Cert.Details`
    * `Trustd.Cert.attributeText`
    * `Trustd.Cert.describe`

  Key theorems include:
    * `Trustd.Text.fromUtf16_utf16`
    * `Trustd.Cert.attributeText_bmpString`
    * `Trustd.Cert.describe_ok`
-/

------------------------------------------------------------
-- Text In Sixteen Bits
------------------------------------------------------------

namespace Trustd

namespace Text

/- The units of a character, as UTF-16 has it. -/
def utf16Char (c : Char) : List Nat :=
  if c.toNat < 0x10000 then [c.toNat]
  else
    [0xD800 + (c.toNat - 0x10000) / 0x400,
      0xDC00 + (c.toNat - 0x10000) % 0x400]

def utf16 (t : Text) : List Nat :=
  t.flatMap utf16Char

/- `String::from_utf16`: `none` on a lone surrogate. -/
def fromUtf16 : List Nat → Option Text
  | [] => some []
  | u :: rest =>
      if u < 0xD800 ∨ 0xDFFF < u then
        (fromUtf16 rest).map (Char.ofNat u :: ·)
      else if 0xDC00 ≤ u then none
      else
        match rest with
        | [] => none
        | v :: rest =>
            if 0xDC00 ≤ v ∧ v ≤ 0xDFFF then
              (fromUtf16 rest).map
                (Char.ofNat (0x10000 + (u - 0xD800) * 0x400 +
                  (v - 0xDC00)) :: ·)
            else none

/- No character is a surrogate. -/
theorem toNat_apart (c : Char) :
    c.toNat < 0xD800 ∨ 0xDFFF < c.toNat ∧ c.toNat < 0x110000 :=
  c.valid

theorem fromUtf16_narrow
    {u : Nat}
    (hNarrow : u < 0xD800 ∨ 0xDFFF < u)
    (rest : List Nat) :
    fromUtf16 (u :: rest) =
      (fromUtf16 rest).map (Char.ofNat u :: ·) := by
  rw [fromUtf16.eq_def]
  exact if_pos hNarrow

theorem fromUtf16_pair
    {u v : Nat}
    (hLead : 0xD800 ≤ u ∧ u < 0xDC00)
    (hTrail : 0xDC00 ≤ v ∧ v ≤ 0xDFFF)
    (rest : List Nat) :
    fromUtf16 (u :: v :: rest) =
      (fromUtf16 rest).map
        (Char.ofNat (0x10000 + (u - 0xD800) * 0x400 +
          (v - 0xDC00)) :: ·) := by
  rw [fromUtf16.eq_def]
  simp only
  rw [if_neg (by omega), if_neg (by omega), if_pos hTrail]

theorem fromUtf16_utf16Char
    (c : Char)
    (rest : List Nat) :
    fromUtf16 (utf16Char c ++ rest) =
      (fromUtf16 rest).map (c :: ·) := by
  have hApart := toNat_apart c
  unfold utf16Char
  split_ifs with hNarrow
  · rw [List.singleton_append,
      fromUtf16_narrow (by omega), Char.ofNat_toNat]
  · have hValue : 0x10000 +
        (0xD800 + (c.toNat - 0x10000) / 0x400 - 0xD800) *
          0x400 +
        (0xDC00 + (c.toNat - 0x10000) % 0x400 - 0xDC00) =
          c.toNat := by
      omega
    rw [List.cons_append, List.singleton_append,
      fromUtf16_pair (by omega) (by omega), hValue,
      Char.ofNat_toNat]

theorem fromUtf16_utf16 (t : Text) :
    fromUtf16 (utf16 t) = some t := by
  induction t with
  | nil => simp [utf16, fromUtf16]
  | cons c t ih =>
      rw [utf16, List.flatMap_cons, fromUtf16_utf16Char]
      change (fromUtf16 (utf16 t)).map _ = _
      rw [ih, Option.map_some]

/-
  Pairs of bytes as big-endian numbers; one left over is not
  looked at.
-/
def unitsOf : Bytes → List Nat
  | high :: low :: rest =>
      (high.toNat * 256 + low.toNat) :: unitsOf rest
  | _ => []

/- A unit as two bytes. -/
def unitBytes (n : Nat) : Bytes :=
  [UInt8.ofNat (n / 256), UInt8.ofNat n]

theorem unitsOf_unitBytes
    (units : List Nat)
    (hUnits : ∀ u ∈ units, u < 65536) :
    unitsOf (units.flatMap unitBytes) = units := by
  induction units with
  | nil => rfl
  | cons u rest ih =>
      have hHere := hUnits u List.mem_cons_self
      have hRest := ih (fun v hMem =>
        hUnits v (List.mem_cons_of_mem u hMem))
      rw [List.flatMap_cons, unitBytes, List.cons_append,
        List.cons_append, List.nil_append, unitsOf, hRest]
      have hHigh : (UInt8.ofNat (u / 256)).toNat = u / 256 := by
        rw [UInt8.toNat_ofNat']
        omega
      have hLow : (UInt8.ofNat u).toNat = u % 256 :=
        UInt8.toNat_ofNat'
      rw [hHigh, hLow]
      congr 1
      omega

theorem utf16_lt
    (t : Text) :
    ∀ u ∈ utf16 t, u < 65536 := by
  intro u hMem
  rcases List.mem_flatMap.mp hMem with ⟨c, -, hUnit⟩
  have hApart := toNat_apart c
  unfold utf16Char at hUnit
  split_ifs at hUnit with hNarrow
  · rw [List.mem_singleton.mp hUnit]
    omega
  · simp only [List.mem_cons, List.not_mem_nil,
      or_false] at hUnit
    omega

/- A byte as `{:02X}` prints it. -/
def upperHexByte (b : UInt8) : Text :=
  (hexByte b).map Char.toUpper

end Text

end Trustd

------------------------------------------------------------
-- Describing
------------------------------------------------------------

namespace Trustd

namespace Cert

/- The string types that are looked for, of `der::Tag`. -/
inductive StringTag where
  | utf8String
  | printableString
  | ia5String
  | teletexString
  | bmpString
  | other
deriving DecidableEq, Repr

/- `der::Any`, of an attribute's value. -/
structure Any where
  tag : StringTag
  value : Bytes
deriving DecidableEq, Repr

/-
  A decoded certificate with the parts that are described:
  the attributes of its subject with the types they print as,
  and its public key.
-/
structure Described where
  certificate : Certificate
  issuer : Text
  serial : Bytes
  notBefore : Nat
  rdns : List (List (Text × Any))
  keyOid : Text
  curveOid : Option Text
  subjectPublicKey : Option Bytes

/-
  The decoders of the crates: of a certificate, of a string
  of one of the four types it reads itself, and of the
  modulus of an `RSAPublicKey`, without a sign byte.
-/
structure Describers where
  fromDer : Bytes → Except Text Described
  decodeAs : StringTag → Bytes → Option Text
  modulus : Bytes → Option Bytes

/- `Details`. -/
structure Details where
  commonName : Option Text := none
  organisation : Option Text := none
  unit : Option Text := none
  country : Option Text := none
  subject : Text := []
  issuer : Text := []
  serial : Text := []
  notBefore : Int := 0
  notAfter : Int := 0
  key : Text := []
  ca : Bool := false
deriving DecidableEq, Repr

/- `Details::name`. -/
def Details.name (details : Details) : Text :=
  ((details.commonName.or details.organisation).or
    details.unit).getD details.subject

variable (crates : Crates)
variable (describers : Describers)

/- `attribute_text`. -/
def attributeText (value : Any) : Option Text :=
  let text :=
    match value.tag with
    | .bmpString => Text.fromUtf16 (Text.unitsOf value.value)
    | .other => none
    | tag => describers.decodeAs tag value.value
  text.bind (fun text =>
    let text := Text.trim text
    if text = [] then none else some text)

/- The types of attribute that are looked for. -/
def commonNameOid : Text := "2.5.4.3".toList

def organisationOid : Text := "2.5.4.10".toList

def unitOid : Text := "2.5.4.11".toList

def countryOid : Text := "2.5.4.6".toList

/- One turn of the loop of `describe`. -/
def Details.note
    (details : Details)
    (atv : Text × Any) :
    Details :=
  if atv.1 = commonNameOid then
    { details with
      commonName := details.commonName.or
        (attributeText describers atv.2) }
  else if atv.1 = organisationOid then
    { details with
      organisation := details.organisation.or
        (attributeText describers atv.2) }
  else if atv.1 = unitOid then
    { details with
      unit := details.unit.or
        (attributeText describers atv.2) }
  else if atv.1 = countryOid then
    { details with
      country := details.country.or
        (attributeText describers atv.2) }
  else details

/- `u8::leading_zeros`. -/
def leadingZeros (b : UInt8) : Nat :=
  8 - b.toNat.size

/- `rsa_bits`. -/
def rsaBits (key : Bytes) : Option Nat :=
  (describers.modulus key).bind (fun modulus =>
    modulus.head?.map (fun first =>
      modulus.length * 8 - leadingZeros first))

/- `key_words`. -/
def keyWords (described : Described) : Text :=
  if described.keyOid = "1.2.840.113549.1.1.1".toList then
    match described.subjectPublicKey.bind
        (rsaBits describers) with
    | some bits =>
        "RSA ".toList ++ Text.decimal bits ++ "-bit".toList
    | none => "RSA".toList
  else if described.keyOid = "1.2.840.10045.2.1".toList then
    if described.curveOid =
        some "1.2.840.10045.3.1.7".toList then
      "ECDSA P-256".toList
    else if described.curveOid =
        some "1.3.132.0.34".toList then
      "ECDSA P-384".toList
    else if described.curveOid =
        some "1.3.132.0.35".toList then
      "ECDSA P-521".toList
    else "ECDSA".toList
  else if described.keyOid = "1.3.101.112".toList then
    "Ed25519".toList
  else if described.keyOid = "1.3.101.113".toList then
    "Ed448".toList
  else described.keyOid

/- The bytes of a serial number that are printed. -/
def serialDigits : Bytes → Bytes
  | 0 :: b :: rest => b :: rest
  | bytes => bytes

/- How a serial number is printed. -/
def serialText (serial : Bytes) : Text :=
  List.intercalate [':']
    ((serialDigits serial).map Text.upperHexByte)

/- `describe`. -/
def describe (der : Bytes) : Except Error Details := do
  let described ←
    (describers.fromDer der).mapError Error.malformed
  let certificate := described.certificate
  let details : Details :=
    { subject := certificate.subject
      issuer := described.issuer
      serial := serialText described.serial
      notBefore := asI64 described.notBefore
      notAfter := asI64 certificate.notAfter
      key := keyWords describers described
      ca := isCa crates certificate }
  return described.rdns.flatten.foldl
    (Details.note describers) details

end Cert

end Trustd

------------------------------------------------------------
-- What The Names Say
------------------------------------------------------------

namespace Trustd

namespace Cert

variable (crates : Crates)
variable (describers : Describers)

/- What an attribute says for a type. -/
def named
    (oid : Text)
    (atv : Text × Any) :
    Option Text :=
  if atv.1 = oid then attributeText describers atv.2
  else none

/- The text of the first attribute of a type that has any. -/
def firstNamed
    (oid : Text)
    (attributes : List (Text × Any)) :
    Option Text :=
  attributes.findSome? (named describers oid)

theorem firstNamed_cons
    (oid : Text)
    (atv : Text × Any)
    (rest : List (Text × Any)) :
    firstNamed describers oid (atv :: rest) =
      (named describers oid atv).or
        (firstNamed describers oid rest) := by
  rw [firstNamed, List.findSome?_cons]
  cases named describers oid atv with
  | none => rfl
  | some text => rfl

/- No two of the types are one. -/
theorem oids_apart :
    [commonNameOid, organisationOid, unitOid,
      countryOid].Nodup := by
  decide

theorem note_eq
    (details : Details)
    (atv : Text × Any) :
    details.note describers atv =
      { details with
        commonName := details.commonName.or
          (named describers commonNameOid atv)
        organisation := details.organisation.or
          (named describers organisationOid atv)
        unit := details.unit.or
          (named describers unitOid atv)
        country := details.country.or
          (named describers countryOid atv) } := by
  have hApart := oids_apart
  simp only [List.nodup_cons, List.mem_cons, not_or,
    List.not_mem_nil, or_false] at hApart
  rcases hApart with ⟨⟨hCO, hCU, hCC⟩, ⟨hOU, hOC⟩, hUC, -⟩
  unfold Details.note named
  split_ifs with hC hO hU hN
  all_goals simp_all

/- The four names are taken from the first that have text. -/
theorem foldl_note
    (attributes : List (Text × Any))
    (details : Details) :
    attributes.foldl (Details.note describers) details =
      { details with
        commonName := details.commonName.or
          (firstNamed describers commonNameOid attributes)
        organisation := details.organisation.or
          (firstNamed describers organisationOid attributes)
        unit := details.unit.or
          (firstNamed describers unitOid attributes)
        country := details.country.or
          (firstNamed describers countryOid attributes) } := by
  induction attributes generalizing details with
  | nil => simp [firstNamed]
  | cons atv rest ih =>
      rw [List.foldl_cons, ih, note_eq]
      simp only [firstNamed_cons, Option.or_assoc]

/- An attribute's text is trimmed, and is not blank. -/
theorem attributeText_trimmed
    {value : Any}
    {text : Text}
    (hText : attributeText describers value = some text) :
    text ≠ [] ∧ Text.trim text = text := by
  rcases Option.bind_eq_some_iff.mp hText with
    ⟨whole, -, hTrim⟩
  simp only at hTrim
  split_ifs at hTrim with hBlank
  cases hTrim
  exact ⟨hBlank, Text.trim_trim whole⟩

theorem firstNamed_ne_nil
    {oid : Text}
    {attributes : List (Text × Any)}
    {text : Text}
    (hFirst : firstNamed describers oid attributes =
      some text) :
    text ≠ [] := by
  rcases List.exists_of_findSome?_eq_some hFirst with
    ⟨atv, -, hText⟩
  unfold named at hText
  split_ifs at hText
  exact (attributeText_trimmed describers hText).1

/- Text in sixteen bits is read as it was written. -/
theorem attributeText_bmpString
    (text : Text) :
    attributeText describers
        ⟨.bmpString,
          (Text.utf16 text).flatMap Text.unitBytes⟩ =
      if Text.trim text = [] then none
      else some (Text.trim text) := by
  unfold attributeText
  simp only
  rw [Text.unitsOf_unitBytes _ (Text.utf16_lt text),
    Text.fromUtf16_utf16]
  rfl

end Cert

end Trustd

------------------------------------------------------------
-- The Size Of A Key
------------------------------------------------------------

namespace Trustd

namespace Cert

variable (crates : Crates)
variable (describers : Describers)

theorem fromBeBytes_cons
    (b : UInt8)
    (bytes : Bytes) :
    fromBeBytes (b :: bytes) =
      b.toNat * 256 ^ bytes.length + fromBeBytes bytes := by
  induction bytes using List.reverseRecOn with
  | nil => simp [fromBeBytes]
  | append_singleton bytes c ih =>
      rw [← List.cons_append, fromBeBytes_concat, ih,
        fromBeBytes_concat, List.length_append,
        List.length_singleton, Nat.pow_succ]
      ring

/- A number written without needless bytes. -/
def Minimal (modulus : Bytes) : Prop :=
  modulus = [0] ∨ ∃ b rest, modulus = b :: rest ∧ b ≠ 0

/- How many binary digits a number with such bytes has. -/
theorem size_fromBeBytes
    {b : UInt8}
    (hSome : b ≠ 0)
    (bytes : Bytes) :
    (fromBeBytes (b :: bytes)).size =
      b.toNat.size + 8 * bytes.length := by
  have hPos : 0 < b.toNat := by
    rw [Nat.pos_iff_ne_zero]
    intro hZero
    exact hSome (UInt8.toNat_inj.mp hZero)
  have hBytes : fromBeBytes bytes < 2 ^ (8 * bytes.length) := by
    rw [Nat.pow_mul]
    exact fromBeBytes_lt bytes
  have hHead : b.toNat < 2 ^ b.toNat.size := Nat.lt_size_self _
  have hSize : 0 < b.toNat.size := Nat.size_pos.mpr hPos
  have hLow : 2 ^ (b.toNat.size - 1) ≤ b.toNat :=
    Nat.lt_size.mp (by omega)
  have hValue : fromBeBytes (b :: bytes) =
      b.toNat * 2 ^ (8 * bytes.length) + fromBeBytes bytes := by
    rw [fromBeBytes_cons, Nat.pow_mul]
  apply Nat.le_antisymm
  · rw [Nat.size_le, hValue, Nat.pow_add]
    calc b.toNat * 2 ^ (8 * bytes.length) + fromBeBytes bytes
        < b.toNat * 2 ^ (8 * bytes.length) +
            2 ^ (8 * bytes.length) := by omega
      _ = (b.toNat + 1) * 2 ^ (8 * bytes.length) := by ring
      _ ≤ 2 ^ b.toNat.size * 2 ^ (8 * bytes.length) :=
          Nat.mul_le_mul_right _ hHead
  · have hLast : b.toNat.size + 8 * bytes.length - 1 <
        (fromBeBytes (b :: bytes)).size := by
      rw [Nat.lt_size, hValue]
      have hExponent : b.toNat.size + 8 * bytes.length - 1 =
          b.toNat.size - 1 + 8 * bytes.length := by omega
      rw [hExponent, Nat.pow_add]
      exact le_add_right (Nat.mul_le_mul_right _ hLow)
    omega

/- The size that is given is the modulus's own. -/
theorem rsaBits_eq
    {key modulus : Bytes}
    (hModulus : describers.modulus key = some modulus)
    (hMinimal : Minimal modulus) :
    rsaBits describers key =
      some (fromBeBytes modulus).size := by
  rw [rsaBits, hModulus, Option.bind_some]
  rcases hMinimal with rfl | ⟨b, rest, rfl, hSome⟩
  · rfl
  · have hByte : b.toNat.size ≤ 8 := by
      rw [Nat.size_le]
      exact b.toNat_lt
    rw [size_fromBeBytes hSome rest, List.head?_cons,
      Option.map_some, leadingZeros, List.length_cons]
    congr 1
    omega

/-
  What is said of a certificate that decodes: each name is
  the first attribute of its type with any text, an RSA key
  has the size of its modulus, and the name it goes by is empty
  only where its subject is.
-/
theorem describe_ok
    {der : Bytes}
    {described : Described}
    (hDer : describers.fromDer der = .ok described) :
    ∃ details,
      describe crates describers der = .ok details ∧
      details.commonName = firstNamed describers
        commonNameOid described.rdns.flatten ∧
      details.organisation = firstNamed describers
        organisationOid described.rdns.flatten ∧
      details.unit = firstNamed describers
        unitOid described.rdns.flatten ∧
      details.country = firstNamed describers
        countryOid described.rdns.flatten ∧
      (∀ key modulus,
        described.keyOid = "1.2.840.113549.1.1.1".toList →
        described.subjectPublicKey = some key →
        describers.modulus key = some modulus →
        Minimal modulus →
        details.key = "RSA ".toList ++
          Text.decimal (fromBeBytes modulus).size ++
            "-bit".toList) ∧
      (details.name = [] → details.subject = []) := by
  refine ⟨_, by rw [describe, hDer]; rfl, ?_⟩
  simp only [foldl_note, Option.none_or, true_and]
  constructor
  · intro key modulus hRsa hKey hModulus hMinimal
    rw [keyWords, if_pos hRsa, hKey, Option.bind_some,
      rsaBits_eq describers hModulus hMinimal]
  · intro hBlank
    unfold Details.name at hBlank
    cases hName : ((firstNamed describers commonNameOid
        described.rdns.flatten).or
          (firstNamed describers organisationOid
            described.rdns.flatten)).or
        (firstNamed describers unitOid
          described.rdns.flatten) with
    | none => simpa only [hName, Option.getD_none] using hBlank
    | some text =>
        simp only [hName, Option.getD_some] at hBlank
        rcases Option.or_eq_some_iff.mp hName with
          hText | ⟨-, hText⟩
        · rcases Option.or_eq_some_iff.mp hText with
            hText | ⟨-, hText⟩
          · exact absurd hBlank
              (firstNamed_ne_nil describers hText)
          · exact absurd hBlank
              (firstNamed_ne_nil describers hText)
        · exact absurd hBlank
            (firstNamed_ne_nil describers hText)

/- The shipped certificate of the tests, as it decodes. -/
def purposeDescribed : Described where
  certificate := Store.purposeCertificate
  issuer := "CN=trustd synthetic purpose test CA".toList
  serial := [1]
  notBefore := 1577836800
  rdns := [[(commonNameOid,
    ⟨.utf8String, Text.utf8
      "trustd synthetic purpose test CA".toList⟩)]]
  keyOid := "1.2.840.10045.2.1".toList
  curveOid := some "1.2.840.10045.3.1.7".toList
  subjectPublicKey := some (Store.bigEndian [
    (1, 0x04),
    (16, 0x74d17a12f5f651f3dcd4f35f038223c6),
    (16, 0x984deaf28dfa66cad4e2938aed1c041a),
    (16, 0xae8d035342ee0a555a395a7e390ed38e),
    (16, 0xfe077b2764c89fb74d01d45d0cf03be9)])

/- The decoders, as far as that certificate goes. -/
def purposeDescribers : Describers where
  fromDer der :=
    if der = Store.purposeShipped then .ok purposeDescribed
    else .error "not a table entry".toList
  decodeAs tag value :=
    if tag = .utf8String then Text.fromUtf8 value else none
  modulus _ := none

theorem attributeText_utf8String
    {value : Bytes}
    {text : Text}
    (hDecode : describers.decodeAs .utf8String value =
      some text)
    (hTrim : Text.trim text = text)
    (hSome : text ≠ []) :
    attributeText describers ⟨.utf8String, value⟩ =
      some text := by
  simp only [attributeText, hDecode, Option.bind_some, hTrim,
    if_neg hSome]

theorem describe_ok_purpose :
    ∃ details,
      describe Store.purposeCrates purposeDescribers
        Store.purposeShipped = .ok details ∧
      details.commonName =
        some "trustd synthetic purpose test CA".toList := by
  have hNamed : firstNamed purposeDescribers commonNameOid
      purposeDescribed.rdns.flatten =
        some "trustd synthetic purpose test CA".toList := by
    change firstNamed purposeDescribers commonNameOid
      [(commonNameOid, ⟨.utf8String, Text.utf8 _⟩)] = _
    rw [firstNamed_cons, named, if_pos rfl,
      attributeText_utf8String purposeDescribers
        (Text.fromUtf8_utf8 _) (by decide +kernel)
        (by decide +kernel)]
    exact Option.some_or
  have hDer : purposeDescribers.fromDer Store.purposeShipped =
      .ok purposeDescribed := by
    simp only [purposeDescribers, if_true]
  rcases describe_ok Store.purposeCrates purposeDescribers hDer
    with ⟨details, hOk, hName, -⟩
  exact ⟨details, hOk, hName.trans hNamed⟩

end Cert

end Trustd
