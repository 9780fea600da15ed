import Trustd.Core.Documents
import Trustd.Client.Commands

/-
  The one certificate of a file an administrator names.

  A block that does not decode is dropped before the blocks
  are counted, and a file in which none is left is taken for
  DER.

  Key definitions include:
    * `Trustd.ClientCore.certificate`
    * `Trustd.ClientCore.HoldsOne`
    * `Trustd.ClientCore.HoldsTwo`
    * `Trustd.ClientCore.Certain`

  Key theorems include:
    * `Trustd.ClientCore.certificate_certain_iff`
-/

------------------------------------------------------------
-- The Certificate Of A File
------------------------------------------------------------

namespace Trustd

namespace ClientCore

open Cert General

/- `certificate`. -/
def certificate (bytes : Bytes) (what : Text) :
    Except Error Bytes :=
  match Text.fromUtf8 bytes with
  | some text =>
      let certificates := fromPem text
      if certificates.length > 1 then
        .error (.failed (what ++ " holds ".toList ++
          Text.decimal certificates.length ++
          " certificates; add them one at a time".toList))
      else
        match certificates.head? with
        | some der => .ok der
        | none => .ok bytes
  | none => .ok bytes

/- One begin marker, of a block that is closed and decodes. -/
def HoldsOne (lines : List Text) (der : Bytes) : Prop :=
  lines.count pemBegin = 1 ∧ Nonempty (Block der lines)

/- Two blocks, each of them closed, that decode. -/
def HoldsTwo (lines : List Text) : Prop :=
  ∃ der, ∃ block : Block der lines,
    ∃ other, Nonempty (Block other block.after)

/- A block that is closed and does not decode. -/
def HoldsBroken (lines : List Text) : Prop :=
  ∃ before body after,
    lines = before ++ pemBegin :: (body ++ pemEnd :: after) ∧
      (∀ line ∈ body, IsPlain line) ∧
      base64Decode body.flatten = none

/-
  What is given back is the file's one certificate: of the
  only block of a text, or the file where no line is a marker.
  Several blocks are refused, and a block that does not decode
  is not passed through.
-/
structure Certain (bytes : Bytes) (what : Text) : Prop where
  one : ∀ d, certificate bytes what = .ok d →
    (∃ text, Text.fromUtf8 bytes = some text ∧
      HoldsOne (pemLines text) d) ∨
    ¬ HoldsMarker bytes ∧ d = bytes
  several : ∀ text, Text.fromUtf8 bytes = some text →
    2 ≤ (pemLines text).count pemBegin →
      ∃ e, certificate bytes what = .error e
  broken : ∀ text, Text.fromUtf8 bytes = some text →
    HoldsBroken (pemLines text) →
      certificate bytes what ≠ .ok bytes

/- What a text gives, by how many certificates are found. -/
theorem certificate_none
    {bytes : Bytes}
    {text : Text}
    (hText : Text.fromUtf8 bytes = some text)
    (hNone : fromPem text = [])
    (what : Text) :
    certificate bytes what = .ok bytes := by
  simp [certificate, hText, hNone]

theorem certificate_one
    {bytes : Bytes}
    {text : Text}
    {der : Bytes}
    (hText : Text.fromUtf8 bytes = some text)
    (hOne : fromPem text = [der])
    (what : Text) :
    certificate bytes what = .ok der := by
  simp [certificate, hText, hOne]

theorem certificate_several
    {bytes : Bytes}
    {text : Text}
    {a b : Bytes}
    {ders : List Bytes}
    (hText : Text.fromUtf8 bytes = some text)
    (hSeveral : fromPem text = a :: b :: ders)
    (what : Text) :
    ∃ e, certificate bytes what = .error e := by
  simp [certificate, hText, hSeveral]

/- Several certificates are those of several blocks. -/
theorem holdsTwo_iff {text : Text} :
    HoldsTwo (pemLines text) ↔
      ∃ a b ders, fromPem text = a :: b :: ders := by
  rw [fromPem_eq_scan]
  constructor
  · rintro ⟨der, block, other, ⟨next⟩⟩
    have hLength : 2 ≤ (scan none (pemLines text)).length := by
      rw [block.scan, next.scan]
      simp only [List.length_append, List.length_cons]
      omega
    match hScan : scan none (pemLines text) with
    | [] => simp [hScan] at hLength
    | [a] => simp [hScan] at hLength
    | a :: b :: ders => exact ⟨a, b, ders, rfl⟩
  · rintro ⟨a, b, ders, hScan⟩
    rcases exists_block hScan with ⟨block, hAfter⟩
    rcases exists_block hAfter with ⟨next, -⟩
    exact ⟨a, block, b, ⟨next⟩⟩

/- The only begin marker is neither before nor after itself. -/
theorem outside_of_count
    {before body after : List Text}
    (hCount : (before ++ pemBegin ::
      (body ++ pemEnd :: after)).count pemBegin = 1) :
    pemBegin ∉ before ∧ pemBegin ∉ after := by
  simp only [List.count_append, List.count_cons_self,
    List.count_cons] at hCount
  constructor
  · apply List.count_eq_zero.mp
    omega
  · apply List.count_eq_zero.mp
    omega

/- The only block of a text is what is found in it. -/
theorem fromPem_of_holdsOne
    {text : Text}
    {der : Bytes}
    (hOne : HoldsOne (pemLines text) der) :
    fromPem text = [der] := by
  rcases hOne with ⟨hCount, ⟨block⟩⟩
  rw [block.split] at hCount
  rcases outside_of_count hCount with ⟨hBefore, hAfter⟩
  rw [fromPem_eq_scan, block.scan, scan_of_no_begin hBefore,
    scan_of_no_begin hAfter]
  rfl

/- A text whose only block is broken has nothing in it. -/
theorem fromPem_of_holdsBroken
    {text : Text}
    (hCount : (pemLines text).count pemBegin = 1)
    (hBroken : HoldsBroken (pemLines text)) :
    fromPem text = [] := by
  rcases hBroken with
    ⟨before, body, after, hSplit, hPlain, hDecodes⟩
  rw [hSplit] at hCount
  rcases outside_of_count hCount with ⟨hBefore, hAfter⟩
  rw [fromPem_eq_scan, hSplit, scan_append,
    scan_of_no_begin hBefore, scan_closed hPlain, hDecodes,
    scan_of_no_begin hAfter]
  rfl

/- The bytes of a file that is text. -/
theorem holdsMarker_iff
    {bytes : Bytes}
    {text : Text}
    (hText : Text.fromUtf8 bytes = some text) :
    HoldsMarker bytes ↔
      pemBegin ∈ pemLines text ∨ pemEnd ∈ pemLines text := by
  rw [← Text.utf8_of_fromUtf8 hText, holdsMarker_utf8]
  constructor
  · rintro ⟨line, hLine, hMarker⟩
    rw [IsPlain, not_and_or, not_not, not_not] at hMarker
    rcases hMarker with rfl | rfl
    · exact Or.inl hLine
    · exact Or.inr hLine
  · rintro (hLine | hLine)
    · exact ⟨_, hLine, fun hPlain => hPlain.1 rfl⟩
    · exact ⟨_, hLine, fun hPlain => hPlain.2 rfl⟩

/- A file without markers is taken as it is. -/
theorem certain_of_unmarked
    {bytes : Bytes}
    (hNone : ¬ HoldsMarker bytes)
    (what : Text) :
    Certain bytes what := by
  have hBegin : ∀ text, Text.fromUtf8 bytes = some text →
      pemBegin ∉ pemLines text := fun text hText hMem =>
    hNone ((holdsMarker_iff hText).mpr (Or.inl hMem))
  have hPassed : certificate bytes what = .ok bytes := by
    cases hText : Text.fromUtf8 bytes with
    | none => rw [certificate, hText]
    | some text =>
        apply certificate_none hText
        rw [fromPem_eq_scan]
        exact scan_of_no_begin (hBegin text hText)
  constructor
  · intro d hOk
    cases hPassed.symm.trans hOk
    exact Or.inr ⟨hNone, rfl⟩
  · intro text hText hCount
    rw [List.count_eq_zero.mpr (hBegin text hText)] at hCount
    exact absurd hCount (by decide)
  · rintro text hText ⟨before, body, after, hSplit, -⟩
    apply absurd _ (hBegin text hText)
    rw [hSplit]
    exact List.mem_append_right _ List.mem_cons_self

theorem certain_of_holdsOne
    {bytes : Bytes}
    {text : Text}
    {der : Bytes}
    (hText : Text.fromUtf8 bytes = some text)
    (hOne : HoldsOne (pemLines text) der)
    (what : Text) :
    Certain bytes what := by
  have hFound := fromPem_of_holdsOne hOne
  have hPassed := certificate_one hText hFound what
  constructor
  · intro d hOk
    cases hPassed.symm.trans hOk
    exact Or.inl ⟨text, hText, hOne⟩
  · intro other hSame hCount
    cases hText.symm.trans hSame
    rw [hOne.1] at hCount
    exact absurd hCount (by decide)
  · intro other hSame hBroken
    cases hText.symm.trans hSame
    rw [fromPem_of_holdsBroken hOne.1 hBroken] at hFound
    cases hFound

theorem certain_of_holdsTwo
    {bytes : Bytes}
    {text : Text}
    (hText : Text.fromUtf8 bytes = some text)
    (hTwo : HoldsTwo (pemLines text))
    (what : Text) :
    Certain bytes what := by
  rcases holdsTwo_iff.mp hTwo with ⟨a, b, ders, hFound⟩
  rcases certificate_several hText hFound what with
    ⟨e, hRefused⟩
  constructor
  · intro d hOk
    cases hRefused.symm.trans hOk
  · intro other _ _
    exact ⟨e, hRefused⟩
  · intro other _ _ hOk
    cases hRefused.symm.trans hOk

/-
  Exactly the files that are answered rightly: those without a
  marker, and texts in which the only begin marker is that of
  a block that decodes, or two blocks do.
-/
theorem certificate_certain_iff
    (bytes : Bytes)
    (what : Text) :
    Certain bytes what ↔
      (HoldsMarker bytes →
        ∃ text, Text.fromUtf8 bytes = some text ∧
          ((∃ der, HoldsOne (pemLines text) der) ∨
            HoldsTwo (pemLines text))) := by
  constructor
  · intro hCertain hMarker
    have hOne := fun d hOk => (hCertain.one d hOk).resolve_right
      (fun hOther => hOther.1 hMarker)
    cases hText : Text.fromUtf8 bytes with
    | none =>
        have hPassed : certificate bytes what = .ok bytes := by
          rw [certificate, hText]
        rcases hOne bytes hPassed with ⟨text, hSome, -⟩
        rw [hText] at hSome
        cases hSome
    | some text =>
        refine ⟨text, rfl, ?_⟩
        match hFound : fromPem text with
        | a :: b :: ders =>
            exact Or.inr
              (holdsTwo_iff.mpr ⟨a, b, ders, hFound⟩)
        | [] =>
            rcases hOne bytes (certificate_none hText hFound
              what) with ⟨other, hSame, hHolds⟩
            cases hText.symm.trans hSame
            exact Or.inl ⟨bytes, hHolds⟩
        | [der] =>
            rcases hOne der (certificate_one hText hFound
              what) with ⟨other, hSame, hHolds⟩
            cases hText.symm.trans hSame
            exact Or.inl ⟨der, hHolds⟩
  · intro hOnly
    by_cases hMarker : HoldsMarker bytes
    · rcases hOnly hMarker with
        ⟨text, hText, ⟨der, hOne⟩ | hTwo⟩
      · exact certain_of_holdsOne hText hOne what
      · exact certain_of_holdsTwo hText hTwo what
    · exact certain_of_unmarked hMarker what

/- A block that is no base64, and no other. -/
def brokenFile : Text :=
  pemBegin ++ "\nnot base64!\n".toList ++ pemEnd ++ ['\n']

/- It is given back as if it were DER. -/
theorem certificate_broken :
    HoldsBroken (pemLines brokenFile) ∧
      certificate (Text.utf8 brokenFile) "x".toList =
        .ok (Text.utf8 brokenFile) ∧
      ¬ Certain (Text.utf8 brokenFile) "x".toList := by
  have hBroken : HoldsBroken (pemLines brokenFile) :=
    ⟨[], ["not base64!".toList], [], by decide +kernel,
      by unfold IsPlain; decide +kernel, by decide +kernel⟩
  have hPassed : certificate (Text.utf8 brokenFile)
      "x".toList = .ok (Text.utf8 brokenFile) := by
    apply certificate_none (Text.fromUtf8_utf8 brokenFile)
    decide +kernel
  exact ⟨hBroken, hPassed, fun hCertain => hCertain.broken
    brokenFile (Text.fromUtf8_utf8 brokenFile) hBroken hPassed⟩

end ClientCore

end Trustd
