import Trustd.General.Spacing
import Trustd.Core.Der
import Mathlib.Data.List.Sort

/-
  The subject hash: OpenSSL's canonical encoding of a Name,
  re-implemented over the minimal reader, and the first four
  bytes of its SHA-1.

  Key definitions include:
    * `Trustd.Cert.fold`
    * `Trustd.Cert.canonicalAva`
    * `Trustd.Cert.canonicalName`
    * `Trustd.Cert.subjectHash`

  Key theorems include:
    * `Trustd.Cert.fold_eq_squeeze`
    * `Trustd.Cert.sortEncodings_perm`
-/

------------------------------------------------------------
-- Folding
------------------------------------------------------------

namespace Trustd

namespace Cert

open General

/- `u8::to_ascii_lowercase`. -/
def toAsciiLowercase (b : UInt8) : UInt8 :=
  if 0x41 ≤ b ∧ b ≤ 0x5A then b + 0x20 else b

/- `u8::is_ascii`. -/
def isAscii (b : UInt8) : Bool :=
  b < 0x80

/- The loop of `fold` over what is left of the value. -/
def foldFrom (inSpace : Bool) : Bytes → Bytes
  | [] => []
  | byte :: rest =>
      if byte = 0x20 then
        if inSpace then foldFrom true rest
        else 0x20 :: foldFrom true rest
      else
        (if isAscii byte then toAsciiLowercase byte
          else byte) :: foldFrom false rest

/- `Iterator::rposition`. -/
def rposition (p : UInt8 → Bool) (l : Bytes) : Option Nat :=
  (l.reverse.findIdx? p).map (l.length - 1 - ·)

/- `fold`. -/
def fold (value : Bytes) : Bytes :=
  let start := (value.findIdx? (· != 0x20)).getD value.length
  let stop := match rposition (· != 0x20) value with
    | some i => i + 1
    | none => start
  foldFrom false ((value.take stop).drop start)

end Cert

end Trustd

------------------------------------------------------------
-- Canonical Names
------------------------------------------------------------

namespace Trustd

namespace Cert

open General

/- `is_canon_string`. -/
def isCanonString (tag : UInt8) : Bool :=
  tag == 0x0C || tag == 0x13 || tag == 0x14 ||
    tag == 0x16 || tag == 0x1A || tag == 0x1C ||
    tag == 0x1E

/- `canonical_ava`. -/
def canonicalAva (ava : Bytes) : Except DerError Bytes := do
  let (tag, content, rest) ← readTlv ava
  if tag ≠ 0x30 ∨ rest ≠ [] then
    throw .sequenceValue
  let (oidTag, oid, afterOid) ← readTlv content
  if oidTag ≠ 0x06 then
    throw .sequenceValue
  let (valueTag, value, _) ← readTlv afterOid
  let body := tlv 0x06 oid
  let body :=
    if isCanonString valueTag then
      body ++ tlv 0x0C (fold value)
    else body ++ tlv valueTag value
  return tlv 0x30 body

/- Members sorted by their encodings. -/
def sortEncodings (encoded : List Bytes) : List Bytes :=
  encoded.insertionSort (fun a b => bytesLe a b = true)

theorem sortEncodings_perm (encoded : List Bytes) :
    (sortEncodings encoded).Perm encoded :=
  List.perm_insertionSort _ _

/- One RDN: its members folded, sorted and tagged again. -/
def canonicalRdn (rdn : Bytes) : Except DerError Bytes := do
  let avas ← derElements rdn
  let encoded ← avas.mapM canonicalAva
  return tlv 0x31 (sortEncodings encoded).flatten

/- `canonical_name`. -/
def canonicalName (nameDer : Bytes) :
    Except DerError Bytes := do
  let rdns ← derContents nameDer 0x31
  let sets ← rdns.mapM canonicalRdn
  return sets.flatten

/- `{value:08x}`. -/
def hex8 (value : Nat) : Text :=
  [7, 6, 5, 4, 3, 2, 1, 0].map
    (fun i => Text.hexDigit (value / 16 ^ i % 16))

/- `subject_hash`, under a SHA-1. -/
def subjectHash (sha1 : Bytes → Bytes) (nameDer : Bytes) :
    Except DerError Text := do
  let canonical ← canonicalName nameDer
  let digest := sha1 canonical
  let value :=
    (digest.getD 0 0).toNat +
      (digest.getD 1 0).toNat * 2 ^ 8 +
      (digest.getD 2 0).toNat * 2 ^ 16 +
      (digest.getD 3 0).toNat * 2 ^ 24
  return hex8 value

end Cert

end Trustd

------------------------------------------------------------
-- What Folding Computes
------------------------------------------------------------

namespace Trustd

namespace Cert

open General

def isBlank (b : UInt8) : Bool :=
  b == 0x20

/- `fold` lowercases every byte that is not blank. -/
theorem asciiLower_eq (b : UInt8) :
    (if isAscii b then toAsciiLowercase b else b) =
      toAsciiLowercase b := by
  split_ifs with hAscii
  · rfl
  · rw [toAsciiLowercase, if_neg]
    rintro ⟨_, hHigh⟩
    have hZ : b.toNat ≤ 90 := UInt8.le_iff_toNat_le.mp hHigh
    apply hAscii
    rw [isAscii, decide_eq_true_eq, UInt8.lt_iff_toNat_lt]
    exact Nat.lt_of_le_of_lt hZ (by decide)

/- One pass over a value is collapsing and lowercasing. -/
theorem foldFrom_eq_collapse
    (inSpace : Bool)
    (l : Bytes) :
    foldFrom inSpace l =
      (collapse isBlank 0x20 inSpace l).map
        toAsciiLowercase := by
  induction l generalizing inSpace with
  | nil => rfl
  | cons b rest ih =>
      by_cases hb : b = 0x20
      · subst hb
        have hLower : toAsciiLowercase 0x20 = 0x20 := rfl
        cases inSpace with
        | false =>
            simp [foldFrom, collapse, isBlank, ih, hLower]
        | true => simp [foldFrom, collapse, isBlank, ih]
      · simp [foldFrom, collapse, isBlank, hb, ih,
          asciiLower_eq]

/- The range `fold` takes is the value without its ends. -/
theorem trimmed_eq_trimBy
    (value : Bytes)
    (p : UInt8 → Bool) :
    (value.take (match rposition (!p ·) value with
        | some i => i + 1
        | none => (value.findIdx? (!p ·)).getD
            value.length)).drop
      ((value.findIdx? (!p ·)).getD value.length) =
      trimBy p value := by
  rw [← List.findIdx_eq_getD_findIdx?]
  cases hLast : value.reverse.findIdx? (!p ·) with
  | none =>
      have hAll : ∀ a ∈ value, p a = true := by
        intro a ha
        rw [List.findIdx?_eq_none_iff] at hLast
        simpa using hLast a (List.mem_reverse.mpr ha)
      have hDrop : value.dropWhile p = [] :=
        List.dropWhile_eq_nil_iff.mpr hAll
      simp [rposition, hLast, trimBy, hDrop]
  | some j =>
      have hSplit : value.reverse =
          (value.dropWhile p).reverse ++
            (value.takeWhile p).reverse := by
        rw [← List.reverse_append,
          List.takeWhile_append_dropWhile]
      have hFront : (value.takeWhile p).reverse.findIdx?
          (!p ·) = none := by
        rw [List.findIdx?_eq_none_iff]
        intro a ha
        have hp := List.mem_takeWhile_imp
          (List.mem_reverse.mp ha)
        simp [hp]
      have hBack : (value.dropWhile p).reverse.findIdx?
          (!p ·) = some j := by
        rw [hSplit, List.findIdx?_append, hFront] at hLast
        simpa using hLast
      have hIdx : (value.dropWhile p).reverse.findIdx
          (!p ·) = j := by
        rw [List.findIdx_eq_getD_findIdx?, hBack]
        rfl
      have hLt : j < (value.dropWhile p).length := by
        simpa using
          (List.findIdx?_eq_some_iff_findIdx_eq.mp hBack).1
      have hLength : (value.dropWhile p).length =
          value.length - value.findIdx (!p ·) := by
        rw [List.dropWhile_eq_drop_findIdx_not,
          List.length_drop]
      have hTrim : trimBy p value =
          (value.dropWhile p).take
            ((value.dropWhile p).length - j) := by
        rw [trimBy, @List.dropWhile_eq_drop_findIdx_not _
          (value.dropWhile p).reverse, hIdx,
          List.reverse_drop, List.reverse_reverse,
          List.length_reverse]
      rw [hTrim, rposition, hLast, Option.map_some,
        List.drop_take,
        ← List.dropWhile_eq_drop_findIdx_not]
      congr 1
      change value.length - 1 - j + 1 -
        value.findIdx (!p ·) = _
      omega

/- `fold`: one pass that holds blanks back, lowercased. -/
theorem fold_eq_squeeze (value : Bytes) :
    fold value =
      (squeeze isBlank 0x20 false false value).map
        toAsciiLowercase := by
  have hTrim := trimmed_eq_trimBy value isBlank
  rw [← collapse_trimBy, ← hTrim, ← foldFrom_eq_collapse]
  rfl

end Cert

end Trustd
