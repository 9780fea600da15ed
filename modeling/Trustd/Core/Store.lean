import Trustd.Core.Cert

/-
  Composing the effective root set from the shipped bundle,
  the additions and the distrusts.

  Key definitions include:
    * `Trustd.Store.Addition`
    * `Trustd.Store.Entry`
    * `Trustd.Store.compose`
    * `Trustd.Store.forPurpose`

  Key theorems include:
    * `Trustd.Store.push_sound`
    * `Trustd.Store.compose_sound`
    * `Trustd.Store.compose_roots_ne_nil`
    * `Trustd.Store.compose_distrust`
    * `Trustd.Store.compose_purposed`
-/

------------------------------------------------------------
-- Entries
------------------------------------------------------------

namespace Trustd

/- `Source`: where a root came from. -/
inductive Source where
  | shipped
  | added
deriving DecidableEq, Repr, Inhabited

namespace Store

open Cert

/- `MINIMUM_SHIPPED`. -/
def minimumShipped : Nat := 50

/- `SERVER_AUTH`. -/
def serverAuth : Text := "ServerAuth".toList

structure Addition where
  name : Text
  der : Bytes
  purposes : List Text
deriving DecidableEq, Repr

structure Entry where
  parsed : Parsed
  source : Source
  name : Option Text
  purposes : List Text
deriving DecidableEq, Repr

structure Composed where
  roots : List Entry := []
  shipped : Nat := 0
  added : Nat := 0
  distrusted : Nat := 0
  skipped : Nat := 0
  warnings : List Text := []
deriving DecidableEq, Repr, Inhabited

end Store

end Trustd

------------------------------------------------------------
-- Composition
------------------------------------------------------------

namespace Trustd

namespace Store

open Cert

/- `char::is_ascii_alphanumeric`. -/
def isAsciiAlphanumeric (c : Char) : Bool :=
  ('0' ≤ c && c ≤ '9') || ('a' ≤ c && c ≤ 'z') ||
    ('A' ≤ c && c ≤ 'Z')

/- `normalise_fingerprint`. -/
def normaliseFingerprint (text : Text) : Text :=
  (text.filter isAsciiAlphanumeric).map Char.toLower

/- The result so far and the fingerprints seen so far. -/
structure Composing where
  out : Composed := {}
  seen : List Text := []

def Composed.warn (out : Composed) (warning : Text) :
    Composed :=
  { out with warnings := out.warnings ++ [warning] }

/- `push`. -/
def push
    (distrust : List Text)
    (acc : Composing)
    (entry : Entry) :
    Composing :=
  let fingerprint := entry.parsed.fingerprint
  let seen := acc.seen ++ [fingerprint]
  if distrust.contains fingerprint then
    { out := acc.out.warn (entry.parsed.subject ++
        " is distrusted (".toList ++ fingerprint ++ [')'])
      seen }
  else if acc.out.roots.any
      (fun r => r.parsed.fingerprint == fingerprint) then
    if entry.source = .added then
      { out := acc.out.warn ("Add\\".toList ++
          entry.name.getD [] ++
          (" duplicates a certificate already in the " ++
            "store; the store holds one copy").toList)
        seen }
    else { out := acc.out, seen }
  else
    { out := { acc.out with roots := acc.out.roots ++ [entry] }
      seen }

section

/- What `cert::parse` makes of a certificate at a time. -/
variable (parseCert :
  Bytes → Option Int → Except Cert.Error Parsed)

/- One turn of the loop over the shipped certificates. -/
def pushShipped
    (distrust : List Text)
    (acc : Composing)
    (der : Bytes) :
    Composing :=
  match parseCert der none with
  | .ok parsed =>
      push distrust
        { acc with out.shipped := acc.out.shipped + 1 }
        { parsed
          source := .shipped
          name := none
          purposes := [serverAuth] }
  | .error e =>
      let out := acc.out.warn
        ("the shipped bundle holds an entry that is ".toList
          ++ e.text)
      { acc with
        out := { out with skipped := out.skipped + 1 } }

/- One turn of the loop over the additions. -/
def pushAddition
    (distrust : List Text)
    (now : Option Int)
    (acc : Composing)
    (addition : Addition) :
    Composing :=
  match parseCert addition.der now with
  | .ok parsed =>
      push distrust
        { acc with out.added := acc.out.added + 1 }
        { parsed
          source := .added
          name := some addition.name
          purposes :=
            if addition.purposes = [] then [serverAuth]
            else addition.purposes }
  | .error e =>
      let out := acc.out.warn ("Add\\".toList ++
        addition.name ++ " is ".toList ++ e.text ++
        "; ignored".toList)
      { acc with
        out := { out with skipped := out.skipped + 1 } }

/- The warnings about distrusts that match nothing. -/
def warnUnmatched
    (seen : List Text)
    (out : Composed)
    (fingerprint : Text) :
    Composed :=
  if seen.any (fun f => f == fingerprint) then out
  else
    out.warn ("Distrust\\".toList ++ fingerprint ++
      (" matches no certificate in the store; it stays " ++
        "in force in case one arrives").toList)

/- Roots by fingerprint. -/
def sortRoots (roots : List Entry) : List Entry :=
  roots.insertionSort (fun a b =>
    bytesLe (Text.utf8 a.parsed.fingerprint)
      (Text.utf8 b.parsed.fingerprint) = true)

/-
  `compose`, once the bundle was read, for any function in the
  place of `cert::parse`.
-/
def composeWith
    (shipped : List Bytes)
    (additions : List Addition)
    (distrust : List Text)
    (now : Option Int) :
    Except Text Composed :=
  if shipped.length < minimumShipped then
    .error ("the shipped bundle holds ".toList ++
      Text.decimal shipped.length ++
      " certificate(s), below the floor of ".toList ++
      Text.decimal minimumShipped ++
      (" — treating it as broken rather than as a very " ++
        "small trust store").toList)
  else
    let distrust := distrust.map normaliseFingerprint
    let acc := shipped.foldl
      (pushShipped parseCert distrust) {}
    let acc := additions.foldl
      (pushAddition parseCert distrust now) acc
    let out :=
      { acc.out with distrusted := distrust.length }
    let out := distrust.foldl (warnUnmatched acc.seen) out
    let out := { out with roots := sortRoots out.roots }
    if out.roots.isEmpty then
      .error ("every root was distrusted or unusable; " ++
        "refusing to render an empty store").toList
    else .ok out

end

section

variable (crates : Crates)

/- `compose`, once the bundle was read. -/
def composeFrom
    (shipped : List Bytes)
    (additions : List Addition)
    (distrust : List Text)
    (now : Option Int) :
    Except Text Composed :=
  composeWith (parse crates) shipped additions distrust now

/- `compose`. -/
def compose
    (shippedPem : Text)
    (additions : List Addition)
    (distrust : List Text)
    (now : Option Int) :
    Except Text Composed :=
  composeFrom crates (fromPem shippedPem) additions distrust
    now

end

/- `for_purpose`. -/
def forPurpose (roots : List Entry) (purpose : Text) :
    List Entry :=
  roots.filter (fun r =>
    r.purposes.any (Text.eqIgnoreAsciiCase · purpose))

end Store

end Trustd

------------------------------------------------------------
-- What A Composition Holds
------------------------------------------------------------

namespace Trustd

namespace Store

open Cert

section

variable (crates : Crates)
variable (shipped : List Bytes)
variable (additions : List Addition)
variable (distrust : List Text)
variable (now : Option Int)

/- Where a root of a composition can have come from. -/
inductive Origin (r : Entry) : Prop where
  | shipped
      (der : Bytes)
      (hMem : der ∈ shipped)
      (hParse : parse crates der none = .ok r.parsed)
      (hName : r.name = none)
  | added
      (addition : Addition)
      (hMem : addition ∈ additions)
      (hParse : parse crates addition.der now =
        .ok r.parsed)
      (hName : r.name = some addition.name)

/-
  No root is distrusted, none is held twice, and each came
  from the bundle or from an addition.
-/
structure Sound (roots : List Entry) : Prop where
  trusted : ∀ r ∈ roots,
    r.parsed.fingerprint ∉ distrust
  distinct : (roots.map (·.parsed.fingerprint)).Nodup
  origin : ∀ r ∈ roots,
    Origin crates shipped additions now r

variable {crates shipped additions distrust now}

theorem push_roots
    (distrust : List Text)
    (acc : Composing)
    (entry : Entry) :
    (push distrust acc entry).out.roots = acc.out.roots ∨
      (entry.parsed.fingerprint ∉ distrust ∧
        entry.parsed.fingerprint ∉
          acc.out.roots.map (·.parsed.fingerprint) ∧
        (push distrust acc entry).out.roots =
          acc.out.roots ++ [entry]) := by
  simp only [push]
  split_ifs with hDistrust hSeen hAdded
  · exact Or.inl rfl
  · exact Or.inl rfl
  · exact Or.inl rfl
  · refine Or.inr ⟨by simpa using hDistrust, ?_, rfl⟩
    intro hMem
    rcases List.mem_map.mp hMem with ⟨r, hr, hEq⟩
    exact hSeen (List.any_eq_true.mpr ⟨r, hr, by simp [hEq]⟩)

/- Every entry pushed keeps the roots sound. -/
theorem push_sound
    (acc : Composing)
    {entry : Entry}
    (hSound : Sound crates shipped additions distrust now
      acc.out.roots)
    (hOrigin : Origin crates shipped additions now entry) :
    Sound crates shipped additions distrust now
      (push distrust acc entry).out.roots := by
  rcases push_roots distrust acc entry with
    hSame | ⟨hTrusted, hNew, hRoots⟩
  · rw [hSame]
    exact hSound
  · rw [hRoots]
    constructor
    · intro r hr
      rcases List.mem_append.mp hr with hr | hr
      · exact hSound.trusted r hr
      · rw [List.mem_singleton.mp hr]
        exact hTrusted
    · rw [List.map_append, List.nodup_append]
      refine ⟨hSound.distinct, by simp, ?_⟩
      intro a ha b hb
      rw [List.map_singleton, List.mem_singleton] at hb
      rintro rfl
      rw [hb] at ha
      exact hNew ha
    · intro r hr
      rcases List.mem_append.mp hr with hr | hr
      · exact hSound.origin r hr
      · rw [List.mem_singleton.mp hr]
        exact hOrigin

theorem pushShipped_sound
    {acc : Composing}
    {der : Bytes}
    (hMem : der ∈ shipped)
    (hSound : Sound crates shipped additions distrust now
      acc.out.roots) :
    Sound crates shipped additions distrust now
      (pushShipped (parse crates) distrust acc
        der).out.roots := by
  unfold pushShipped
  cases hParse : parse crates der none with
  | error e => exact hSound
  | ok parsed =>
      exact push_sound { acc with
        out.shipped := acc.out.shipped + 1 } hSound
        (.shipped der hMem hParse rfl)

theorem pushAddition_sound
    {acc : Composing}
    {addition : Addition}
    (hMem : addition ∈ additions)
    (hSound : Sound crates shipped additions distrust now
      acc.out.roots) :
    Sound crates shipped additions distrust now
      (pushAddition (parse crates) distrust now acc
        addition).out.roots := by
  unfold pushAddition
  cases hParse : parse crates addition.der now with
  | error e => exact hSound
  | ok parsed =>
      exact push_sound { acc with
        out.added := acc.out.added + 1 } hSound
        (.added addition hMem hParse rfl)

theorem warnUnmatched_roots
    (seen : List Text)
    (fingerprints : List Text)
    (out : Composed) :
    (fingerprints.foldl (warnUnmatched seen) out).roots =
      out.roots := by
  induction fingerprints generalizing out with
  | nil => rfl
  | cons f rest ih =>
      rw [List.foldl_cons, ih]
      unfold warnUnmatched
      split_ifs
      · rfl
      · rfl

theorem sortRoots_perm (roots : List Entry) :
    (sortRoots roots).Perm roots :=
  List.perm_insertionSort _ _

theorem Sound.of_perm
    {roots roots' : List Entry}
    (hSound : Sound crates shipped additions distrust now
      roots)
    (hPerm : roots'.Perm roots) :
    Sound crates shipped additions distrust now roots' where
  trusted r hr := hSound.trusted r (hPerm.mem_iff.mp hr)
  distinct := (hPerm.map _).nodup_iff.mpr hSound.distinct
  origin r hr := hSound.origin r (hPerm.mem_iff.mp hr)

/- The two loops keep the roots sound to their end. -/
theorem foldl_sound :
    Sound crates shipped additions distrust now
      (additions.foldl
        (pushAddition (parse crates) distrust now)
        (shipped.foldl (pushShipped (parse crates) distrust)
          {})).out.roots := by
  have hEmpty : Sound crates shipped additions distrust now
      ({} : Composing).out.roots :=
    ⟨by simp, by simp, by simp⟩
  have hShipped :=
    List.foldlRecOn (motive := fun acc =>
        Sound crates shipped additions distrust now
          acc.out.roots)
      shipped (pushShipped (parse crates) distrust) hEmpty
      (fun _ hSound _ hMem => pushShipped_sound hMem hSound)
  exact
    List.foldlRecOn (motive := fun acc =>
        Sound crates shipped additions distrust now
          acc.out.roots)
      additions (pushAddition (parse crates) distrust now)
      hShipped
      (fun _ hSound _ hMem => pushAddition_sound hMem hSound)

/- Every composition is sound for what it was made from. -/
theorem compose_sound
    {shippedPem : Text}
    {fingerprints : List Text}
    {composed : Composed}
    (hCompose : compose crates shippedPem additions
      fingerprints now = .ok composed) :
    Sound crates (fromPem shippedPem) additions
        (fingerprints.map normaliseFingerprint) now
        composed.roots ∧
      composed.roots ≠ [] := by
  simp only [compose, composeFrom, composeWith] at hCompose
  split_ifs at hCompose with hFloor hEmpty
  cases hCompose
  refine ⟨foldl_sound.of_perm ?_, by simpa using hEmpty⟩
  refine (sortRoots_perm _).trans ?_
  rw [warnUnmatched_roots]

/- No root of a composition is distrusted by it. -/
theorem compose_distrust
    {shippedPem : Text}
    {fingerprints : List Text}
    {composed : Composed}
    (hCompose : compose crates shippedPem additions
      fingerprints now = .ok composed) :
    ∀ r ∈ composed.roots,
      r.parsed.fingerprint ∉
        fingerprints.map normaliseFingerprint :=
  (compose_sound hCompose).1.trusted

/- No composition is empty. -/
theorem compose_roots_ne_nil
    {shippedPem : Text}
    {fingerprints : List Text}
    {composed : Composed}
    (hCompose : compose crates shippedPem additions
      fingerprints now = .ok composed) :
    composed.roots ≠ [] :=
  (compose_sound hCompose).2

end

end Store

end Trustd

------------------------------------------------------------
-- What The Roots Are Trusted For
------------------------------------------------------------

namespace Trustd

namespace Store

open Cert

variable {crates : Crates}
variable {additions : List Addition}
variable {now : Option Int}

/- What a list of purposes means: the default if it is empty. -/
def purposesMeant (purposes : List Text) : List Text :=
  if purposes = [] then [serverAuth] else purposes

/-
  A root with a name has what the purposes of an addition of
  that name mean.
-/
def Purposed
    (additions : List Addition)
    (r : Entry) :
    Prop :=
  ∀ name, r.name = some name →
    ∃ addition ∈ additions, addition.name = name ∧
      r.purposes = purposesMeant addition.purposes

theorem push_purposed
    {distrust : List Text}
    (acc : Composing)
    {entry : Entry}
    (hAcc : ∀ r ∈ acc.out.roots, Purposed additions r)
    (hEntry : Purposed additions entry) :
    ∀ r ∈ (push distrust acc entry).out.roots,
      Purposed additions r := by
  intro r hr
  rcases push_roots distrust acc entry with
    hSame | ⟨-, -, hRoots⟩
  · rw [hSame] at hr
    exact hAcc r hr
  · rw [hRoots] at hr
    rcases List.mem_append.mp hr with hr | hr
    · exact hAcc r hr
    · rw [List.mem_singleton.mp hr]
      exact hEntry

theorem pushShipped_purposed
    {distrust : List Text}
    {acc : Composing}
    {der : Bytes}
    (hAcc : ∀ r ∈ acc.out.roots, Purposed additions r) :
    ∀ r ∈ (pushShipped (parse crates) distrust acc
        der).out.roots,
      Purposed additions r := by
  unfold pushShipped
  cases parse crates der none with
  | error e => exact hAcc
  | ok parsed =>
      apply push_purposed { acc with
        out.shipped := acc.out.shipped + 1 } hAcc
      intro name hName
      cases hName

theorem pushAddition_purposed
    {distrust : List Text}
    {acc : Composing}
    {addition : Addition}
    (hMem : addition ∈ additions)
    (hAcc : ∀ r ∈ acc.out.roots, Purposed additions r) :
    ∀ r ∈ (pushAddition (parse crates) distrust now acc
        addition).out.roots,
      Purposed additions r := by
  unfold pushAddition
  cases parse crates addition.der now with
  | error e => exact hAcc
  | ok parsed =>
      apply push_purposed { acc with
        out.added := acc.out.added + 1 } hAcc
      intro name hName
      cases hName
      exact ⟨addition, hMem, rfl, rfl⟩

/- The two loops push nothing else. -/
theorem foldl_purposed
    (shipped : List Bytes)
    (distrust : List Text) :
    ∀ r ∈ (additions.foldl
        (pushAddition (parse crates) distrust now)
        (shipped.foldl (pushShipped (parse crates) distrust)
          {})).out.roots,
      Purposed additions r := by
  have hEmpty : ∀ r ∈ ({} : Composing).out.roots,
      Purposed additions r := by
    intro r hr
    cases hr
  have hShipped :=
    List.foldlRecOn (motive := fun (acc : Composing) =>
        ∀ r ∈ acc.out.roots, Purposed additions r)
      shipped (pushShipped (parse crates) distrust) hEmpty
      (fun _ hAcc _ _ => pushShipped_purposed hAcc)
  exact
    List.foldlRecOn (motive := fun (acc : Composing) =>
        ∀ r ∈ acc.out.roots, Purposed additions r)
      additions (pushAddition (parse crates) distrust now)
      hShipped
      (fun _ hAcc _ hMem => pushAddition_purposed hMem hAcc)

/- Every root added has the purposes of its addition. -/
theorem compose_purposed
    {shippedPem : Text}
    {fingerprints : List Text}
    {composed : Composed}
    (hCompose : compose crates shippedPem additions
      fingerprints now = .ok composed) :
    ∀ r ∈ composed.roots, Purposed additions r := by
  simp only [compose, composeFrom, composeWith] at hCompose
  split_ifs at hCompose with hFloor hEmpty
  cases hCompose
  intro r hr
  have hr := (sortRoots_perm _).mem_iff.mp hr
  rw [warnUnmatched_roots] at hr
  exact foldl_purposed _ _ r hr

end Store

end Trustd

------------------------------------------------------------
-- Two Certificates
------------------------------------------------------------

namespace Trustd

namespace Store

open Cert

/- Bytes written as numbers of so many bytes each. -/
def bigEndian (words : List (Nat × Nat)) : Bytes :=
  words.flatMap (fun w =>
    (List.range w.1).map (fun i =>
      UInt8.ofNat (w.2 / 256 ^ (w.1 - 1 - i))))

/- The certificate in `purpose-shipped.pem`. -/
def purposeShipped : Bytes :=
  bigEndian [
    (24, 0x3082015930820100a003020102020101300a06082a8648ce),
    (24, 0x3d040302302b3129302706035504030c2074727573746420),
    (24, 0x73796e74686574696320707572706f736520746573742043),
    (24, 0x413020170d3230303130313030303030305a180f32313230),
    (24, 0x303130313030303030305a302b3129302706035504030c20),
    (24, 0x7472757374642073796e74686574696320707572706f7365),
    (24, 0x20746573742043413059301306072a8648ce3d020106082a),
    (24, 0x8648ce3d0301070342000474d17a12f5f651f3dcd4f35f03),
    (24, 0x8223c6984deaf28dfa66cad4e2938aed1c041aae8d035342),
    (24, 0xee0a555a395a7e390ed38efe077b2764c89fb74d01d45d0c),
    (24, 0xf03be9a3133011300f0603551d130101ff040530030101ff),
    (24, 0x300a06082a8648ce3d040302034700304402206322bd739f),
    (24, 0x2a1eb9cd4fb1e36d73f29f94f14b2bbea204383806a8faf9),
    (24, 0x08fa8002207e27e9462be1fe6c8f0b6c9772b0f94e6c5652),
    (13, 0x58cc3f65c99d901c34deed3410)]

/- The certificate in `purpose-added.pem`. -/
def purposeAdded : Bytes :=
  bigEndian [
    (24, 0x3082016f30820115a003020102020102300a06082a8648ce),
    (24, 0x3d040302302b3129302706035504030c2074727573746420),
    (24, 0x73796e74686574696320707572706f736520746573742043),
    (24, 0x413020170d3230303130313030303030305a180f32313230),
    (24, 0x303130313030303030305a302b3129302706035504030c20),
    (24, 0x7472757374642073796e74686574696320707572706f7365),
    (24, 0x20746573742043413059301306072a8648ce3d020106082a),
    (24, 0x8648ce3d030107034200046efc0e075e0201bf2277ae0d6f),
    (24, 0xb667f6d80bc9d798b3dd604d02e0a1e131da464ce9bfb04c),
    (24, 0x80ef35de249a5eb19984a867617f5978496f300f1120e51b),
    (24, 0x961b50a3283026300f0603551d130101ff040530030101ff),
    (24, 0x30130603551d25040c300a06082b06010505070303300a06),
    (24, 0x082a8648ce3d0403020348003045022100b999f1a15b23d2),
    (24, 0x12a53f40890a49327cd9727d5538fcc7d78c12107addda50),
    (24, 0x56022047d923af98ba85dd9028b39363befc8f048d2fd7c1),
    (11, 0xe708e6e03c89dbcec0fd43)]

/- The subject of both, as it encodes. -/
def purposeSubject : Bytes :=
  bigEndian [
    (24, 0x302b3129302706035504030c207472757374642073796e74),
    (21, 0x686574696320707572706f73652074657374204341)]

/- The canonical encoding of that subject. -/
def purposeCanonical : Bytes :=
  bigEndian [
    (24, 0x3129302706035504030c207472757374642073796e746865),
    (19, 0x74696320707572706f73652074657374206361)]

/- Both as they decode: a CA until 2120. -/
def purposeCertificate : Certificate :=
  { extensions := some [(basicConstraintsOid,
      [0x30, 0x03, 0x01, 0x01, 0xff])]
    notAfter := 4733510400
    subject := "CN=trustd synthetic purpose test CA".toList
    subjectDer := .ok purposeSubject }

/- The crates, as far as these two certificates go. -/
def purposeCrates : Crates where
  fromDer der :=
    if der = purposeShipped ∨ der = purposeAdded then
      .ok purposeCertificate
    else .error "not a table entry".toList
  basicConstraints value :=
    if value = [0x30, 0x03, 0x01, 0x01, 0xff] then some true
    else none
  sha256 data :=
    if data = purposeShipped then
      bigEndian [
        (16, 0x4ad2097a2046ecac1b1dfc7cbb7277d4),
        (16, 0x797505612ae59ecefcf0cccd791556ef)]
    else if data = purposeAdded then
      bigEndian [
        (16, 0xb145e8c1963e620ca63914522d04e63e),
        (16, 0x75095d37b7b4df3453a24c7abe88157f)]
    else []
  sha1 data :=
    if data = purposeCanonical then
      bigEndian [(20,
        0x42a8f4dc76ed5e15f50757b2911e5a128f2a01e7)]
    else []
  derErrorText _ := []

/- As many copies of a certificate as the floor asks for. -/
def purposeBundle : Text :=
  (List.replicate minimumShipped purposeShipped).flatMap toPem

theorem fromPem_purposeBundle :
    fromPem purposeBundle =
      List.replicate minimumShipped purposeShipped :=
  fromPem_flatMap_toPem _

/- What the copies compose to, the text of them does. -/
theorem exists_compose_purposeBundle
    {additions : List Addition}
    {distrust : List Text}
    {now : Option Int}
    {p : Composed → Bool}
    (hAny : (composeFrom purposeCrates
      (List.replicate minimumShipped purposeShipped) additions
        distrust now).toOption.any p = true) :
    ∃ composed, compose purposeCrates purposeBundle additions
        distrust now = .ok composed ∧ p composed = true := by
  rw [← fromPem_purposeBundle] at hAny
  exact General.exists_ok_of_any hAny

example :
    (parse purposeCrates purposeAdded (some 0)).map
        (fun parsed => parsed.subjectHash) =
      .ok "dcf4a842".toList := by
  decide +kernel

end Store

end Trustd
