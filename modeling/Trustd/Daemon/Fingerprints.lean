import Trustd.Daemon.Contents

/-
  The fingerprints that names stand for.

  Key theorems include:
    * `Trustd.Store.normaliseFingerprint_idem`
    * `Trustd.Registry.fingerprintOf_eq_some_iff`
    * `Trustd.Registry.fingerprintOf_self`
    * `Trustd.Registry.Naming.stands_for`
    * `Trustd.Registry.mem_sortDistrust`
    * `Trustd.Registry.nodup_sortDistrust`
-/

------------------------------------------------------------
-- Normalised Text
------------------------------------------------------------

namespace Trustd

/- A property of ASCII characters is checked on all of them. -/
theorem forall_ascii
    {P : Char → Prop}
    (hAll : ∀ n < 128, P (Char.ofNat n))
    {c : Char}
    (hc : c.toNat < 0x80) :
    P c := by
  have hRead := hAll c.toNat hc
  rwa [Char.ofNat_toNat] at hRead

namespace Store

theorem isAsciiAlphanumeric_ascii
    {c : Char}
    (hc : isAsciiAlphanumeric c = true) :
    c.toNat < 0x80 := by
  unfold isAsciiAlphanumeric at hc
  simp only [Bool.or_eq_true, Bool.and_eq_true,
    decide_eq_true_eq] at hc
  rcases hc with (⟨-, hc⟩ | ⟨-, hc⟩) | ⟨-, hc⟩
  · exact Nat.lt_of_le_of_lt hc (by decide)
  · exact Nat.lt_of_le_of_lt hc (by decide)
  · exact Nat.lt_of_le_of_lt hc (by decide)

theorem isAsciiAlphanumeric_toLower
    {c : Char}
    (hc : c.toNat < 0x80) :
    isAsciiAlphanumeric c.toLower =
      isAsciiAlphanumeric c :=
  forall_ascii (P := fun c => isAsciiAlphanumeric c.toLower =
    isAsciiAlphanumeric c) (by decide) hc

theorem toLower_toLower
    {c : Char}
    (hc : c.toNat < 0x80) :
    c.toLower.toLower = c.toLower :=
  forall_ascii (P := fun c => c.toLower.toLower = c.toLower)
    (by decide) hc

/- What is left of a text when it is normalised. -/
theorem of_mem_normaliseFingerprint
    {c : Char}
    {t : Text}
    (hMem : c ∈ normaliseFingerprint t) :
    isAsciiAlphanumeric c = true ∧ c.toLower = c := by
  rcases List.mem_map.mp hMem with ⟨d, hd, rfl⟩
  have hKept : isAsciiAlphanumeric d = true :=
    (List.mem_filter.mp hd).2
  have hAscii := isAsciiAlphanumeric_ascii hKept
  exact ⟨by rw [isAsciiAlphanumeric_toLower hAscii, hKept],
    toLower_toLower hAscii⟩

/- Text whose characters all stay. -/
theorem normaliseFingerprint_eq_map
    {t : Text}
    (hKept : ∀ c ∈ t, isAsciiAlphanumeric c = true) :
    normaliseFingerprint t = t.map Char.toLower := by
  unfold normaliseFingerprint
  rw [List.filter_eq_self.mpr hKept]

theorem normaliseFingerprint_idem (t : Text) :
    normaliseFingerprint (normaliseFingerprint t) =
      normaliseFingerprint t := by
  rw [normaliseFingerprint_eq_map (fun c hc =>
    (of_mem_normaliseFingerprint hc).1)]
  exact (List.map_congr_left (fun c hc =>
    (of_mem_normaliseFingerprint hc).2)).trans (List.map_id _)

end Store

end Trustd

------------------------------------------------------------
-- Fingerprints
------------------------------------------------------------

namespace Trustd

namespace Registry

open General Store

theorem fingerprintOf_eq_some_iff
    {name f : Text} :
    fingerprintOf name = some f ↔
      f = normaliseFingerprint name ∧ f.length = 64 ∧
        f.all Text.isAsciiHexdigit = true := by
  unfold fingerprintOf
  dsimp only
  split_ifs with hBad
  · constructor
    · intro hNone
      cases hNone
    · rintro ⟨rfl, hLength, hDigits⟩
      rcases hBad with hBad | hBad
      · exact absurd hLength hBad
      · rw [hDigits] at hBad
        cases hBad
  · rw [not_or, not_not, Bool.not_eq_false] at hBad
    constructor
    · intro hSome
      cases hSome
      exact ⟨rfl, hBad⟩
    · rintro ⟨rfl, -⟩
      rfl

/- A fingerprint stands for itself. -/
theorem fingerprintOf_self
    {name f : Text}
    (hName : fingerprintOf name = some f) :
    normaliseFingerprint f = f ∧ fingerprintOf f = some f := by
  rcases fingerprintOf_eq_some_iff.mp hName with ⟨hEq, hRest⟩
  have hSelf : normaliseFingerprint f = f := by
    rw [hEq, normaliseFingerprint_idem]
  exact ⟨hSelf,
    fingerprintOf_eq_some_iff.mpr ⟨hSelf.symm, hRest⟩⟩

/- Bytes that are no text stand for nothing. -/
theorem legible_of_fingerprintOf
    {n : Bytes}
    {f : Text}
    (hName : fingerprintOf (textOf n) = some f) :
    Legible n := by
  rcases fingerprintOf_eq_some_iff.mp hName with
    ⟨hEq, hLength, -⟩
  unfold Legible
  cases hRead : Text.fromUtf8 n with
  | some t => rfl
  | none =>
      have hText : textOf n = [] := by
        rw [textOf, hRead]
        rfl
      rw [hEq, hText] at hLength
      cases hLength

/- What is one name with a fingerprint stands for it. -/
theorem Naming.stands_for
    (naming : Naming)
    {n : Bytes}
    {f : Text}
    (hSelf : fingerprintOf f = some f)
    (hSame : naming.fold n = naming.fold (Text.utf8 f)) :
    fingerprintOf (textOf n) = some f := by
  rcases fingerprintOf_eq_some_iff.mp hSelf with
    ⟨hNormal, hLength, hDigits⟩
  rcases naming.digits n f hDigits hSame with ⟨t, rfl, hAscii⟩
  have hAsciiF : Ascii f := fun c hc =>
    isAsciiHexdigit_ascii (List.all_eq_true.mp hDigits c hc)
  have hLower : t.map Char.toLower = f.map Char.toLower :=
    eq_of_beq (naming.ascii t f hAscii hAsciiF hSame)
  have hFixed : f.map Char.toLower = f := by
    refine (List.map_congr_left (fun c hc => ?_)).trans
      (List.map_id f)
    rw [hNormal] at hc
    exact (of_mem_normaliseFingerprint hc).2
  have hKept : ∀ c ∈ t, isAsciiAlphanumeric c = true := by
    intro c hc
    have hIn : c.toLower ∈ f := by
      rw [← hFixed, ← hLower]
      exact List.mem_map_of_mem hc
    rw [hNormal] at hIn
    rw [← isAsciiAlphanumeric_toLower (hAscii c hc)]
    exact (of_mem_normaliseFingerprint hIn).1
  rw [textOf_utf8, fingerprintOf_eq_some_iff,
    normaliseFingerprint_eq_map hKept, hLower, hFixed]
  exact ⟨rfl, hLength, hDigits⟩

end Registry

end Trustd

------------------------------------------------------------
-- The Distrust List
------------------------------------------------------------

namespace Trustd

namespace Registry

open General

theorem mem_sortDistrust
    {f : Text}
    {l : List Text} :
    f ∈ sortDistrust l ↔ f ∈ l := by
  unfold sortDistrust
  rw [mem_destutter_ne]
  exact List.mem_insertionSort _

theorem nodup_sortDistrust (l : List Text) :
    (sortDistrust l).Nodup := by
  apply nodup_destutter_ne (r := Text.le)
  · exact fun _ _ hLeft hRight => Text.le_antisymm hLeft hRight
  · exact List.pairwise_insertionSort Text.le l

end Registry

end Trustd
