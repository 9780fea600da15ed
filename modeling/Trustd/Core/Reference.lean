import Trustd.General.Firsts
import Trustd.Core.Store

/-
  What a composition holds, said without its loops: of every
  usable certificate the first of its fingerprint, unless the
  fingerprint is distrusted.

  Key definitions include:
    * `Trustd.Store.candidates`
    * `Trustd.Store.effective`
    * `Trustd.Store.usable`

  Key theorems include:
    * `Trustd.Store.composeWith_cases`
    * `Trustd.Store.composeWith_effective`
    * `Trustd.Store.shipped_plausible_iff`
-/

------------------------------------------------------------
-- Candidates
------------------------------------------------------------

namespace Trustd

namespace Store

open General Cert

def Entry.fingerprint (r : Entry) : Text :=
  r.parsed.fingerprint

/- A certificate of the bundle as an entry. -/
def shippedEntry (parsed : Parsed) : Entry :=
  { parsed
    source := .shipped
    name := none
    purposes := [serverAuth] }

/- An addition as an entry. -/
def addedEntry (addition : Addition) (parsed : Parsed) :
    Entry :=
  { parsed
    source := .added
    name := some addition.name
    purposes := purposesMeant addition.purposes }

section

variable (parseCert :
  Bytes → Option Int → Except Cert.Error Parsed)
variable (shipped : List Bytes)
variable (additions : List Addition)
variable (distrust : List Text)
variable (now : Option Int)

/- The bundle's usable certificates, whatever the time. -/
def shippedEntries : List Entry :=
  shipped.filterMap (fun der =>
    (parseCert der none).toOption.map shippedEntry)

/- The additions that are usable now. -/
def addedEntries : List Entry :=
  additions.filterMap (fun addition =>
    (parseCert addition.der now).toOption.map
      (addedEntry addition))

/- All that is usable, the bundle's certificates first. -/
def candidates : List Entry :=
  shippedEntries parseCert shipped ++
    addedEntries parseCert additions now

/- The first of each fingerprint that is not distrusted. -/
def effective : List Entry :=
  (firsts Entry.fingerprint
    (candidates parseCert shipped additions now)).filter
      (fun r => r.fingerprint ∉
        distrust.map normaliseFingerprint)

/- How many of the bundle's certificates are usable. -/
def usable : Nat :=
  shipped.countP (fun der => (parseCert der none).isOk)

variable {parseCert shipped additions distrust now}

/- An entry, by where it stands among the candidates. -/
theorem mem_effective_iff
    {r : Entry} :
    r ∈ effective parseCert shipped additions distrust now ↔
      (∃ before after,
        candidates parseCert shipped additions now =
          before ++ r :: after ∧
        ∀ b ∈ before, b.fingerprint ≠ r.fingerprint) ∧
      r.fingerprint ∉ distrust.map normaliseFingerprint := by
  unfold effective
  rw [List.mem_filter, mem_firsts_iff, decide_eq_true_eq]

theorem nodup_effective :
    ((effective parseCert shipped additions distrust
      now).map Entry.fingerprint).Nodup :=
  (nodup_firsts _).sublist (List.filter_sublist.map _)

/- Nothing is left where all that is usable is distrusted. -/
theorem effective_eq_nil_iff :
    effective parseCert shipped additions distrust now = [] ↔
      ∀ r ∈ candidates parseCert shipped additions now,
        r.fingerprint ∈ distrust.map normaliseFingerprint := by
  unfold effective
  rw [List.filter_eq_nil_iff]
  simp only [decide_eq_true_eq, not_not]
  constructor
  · intro hFirsts r hr
    rcases exists_mem_firsts Entry.fingerprint hr with
      ⟨b, hb, hKey⟩
    rw [← hKey]
    exact hFirsts b hb
  · intro hAll r hr
    exact hAll r (mem_of_mem_firsts hr)

end

end Store

end Trustd

------------------------------------------------------------
-- The Loops
------------------------------------------------------------

namespace Trustd

namespace Store

open General Cert

section

variable {parseCert :
  Bytes → Option Int → Except Cert.Error Parsed}
variable (distrust : List Text)

/- `push` keeps a root whose fingerprint is new to it. -/
theorem push_roots_eq
    (acc : Composing)
    (entry : Entry) :
    (push distrust acc entry).out.roots =
      keepNew Entry.fingerprint (distrust.contains ·)
        acc.out.roots entry := by
  have hAny : (acc.out.roots.any (fun r =>
      r.parsed.fingerprint == entry.parsed.fingerprint) =
        true) ↔
      entry.fingerprint ∈
        acc.out.roots.map Entry.fingerprint := by
    rw [List.any_eq_true, List.mem_map]
    simp only [beq_iff_eq]
    rfl
  unfold push keepNew
  dsimp only
  by_cases hDistrust :
      distrust.contains entry.fingerprint = true
  · have hPush :
        distrust.contains entry.parsed.fingerprint = true :=
      hDistrust
    rw [if_pos hDistrust, if_pos hPush]
    rfl
  · have hPush :
        ¬ distrust.contains entry.parsed.fingerprint = true :=
      hDistrust
    rw [if_neg hDistrust, if_neg hPush]
    by_cases hSeen : entry.fingerprint ∈
        acc.out.roots.map Entry.fingerprint
    · rw [if_pos hSeen, if_pos (hAny.mpr hSeen)]
      split_ifs
      · rfl
      · rfl
    · rw [if_neg hSeen, if_neg (fun h => hSeen (hAny.mp h))]

/- Nothing else that is counted changes with it. -/
theorem push_shipped
    (acc : Composing)
    (entry : Entry) :
    (push distrust acc entry).out.shipped =
      acc.out.shipped := by
  unfold push
  dsimp only
  split_ifs
  · rfl
  · rfl
  · rfl
  · rfl

theorem pushShipped_roots
    (acc : Composing)
    (der : Bytes) :
    (pushShipped parseCert distrust acc der).out.roots =
      ((parseCert der none).toOption.map
        shippedEntry).toList.foldl
          (keepNew Entry.fingerprint (distrust.contains ·))
          acc.out.roots := by
  unfold pushShipped
  cases parseCert der none with
  | error e => rfl
  | ok parsed => exact push_roots_eq distrust _ _

theorem pushAddition_roots
    (now : Option Int)
    (acc : Composing)
    (addition : Addition) :
    (pushAddition parseCert distrust now acc
        addition).out.roots =
      ((parseCert addition.der now).toOption.map
        (addedEntry addition)).toList.foldl
          (keepNew Entry.fingerprint (distrust.contains ·))
          acc.out.roots := by
  unfold pushAddition
  cases parseCert addition.der now with
  | error e => rfl
  | ok parsed => exact push_roots_eq distrust _ _

/- A loop whose turns each keep one entry at most. -/
theorem foldl_roots
    {β : Type}
    {step : Composing → β → Composing}
    {entryOf : β → Option Entry}
    (hStep : ∀ acc b, (step acc b).out.roots =
      (entryOf b).toList.foldl
        (keepNew Entry.fingerprint (distrust.contains ·))
        acc.out.roots)
    (l : List β)
    (acc : Composing) :
    (l.foldl step acc).out.roots =
      (l.filterMap entryOf).foldl
        (keepNew Entry.fingerprint (distrust.contains ·))
        acc.out.roots := by
  induction l generalizing acc with
  | nil => rfl
  | cons b rest ih =>
      rw [List.foldl_cons, ih, hStep, List.filterMap_cons]
      cases entryOf b with
      | none => rfl
      | some entry => rfl

/- The roots that the two loops leave. -/
theorem foldl_effective
    (shipped : List Bytes)
    (additions : List Addition)
    (fingerprints : List Text)
    (now : Option Int) :
    (additions.foldl (pushAddition parseCert
        (fingerprints.map normaliseFingerprint) now)
      (shipped.foldl (pushShipped parseCert
        (fingerprints.map normaliseFingerprint))
          {})).out.roots =
      effective parseCert shipped additions fingerprints
        now := by
  rw [foldl_roots _ (pushAddition_roots _ now),
    foldl_roots _ (pushShipped_roots _), ← List.foldl_append,
    foldl_keepNew, effective]
  apply List.filter_congr
  intro r _
  simp only [List.map_nil, List.not_mem_nil,
    not_false_eq_true, decide_true, Bool.and_true,
    List.contains_eq_mem, decide_not]

theorem pushShipped_shipped
    (acc : Composing)
    (der : Bytes) :
    (pushShipped parseCert distrust acc der).out.shipped =
      acc.out.shipped +
        if (parseCert der none).isOk then 1 else 0 := by
  unfold pushShipped
  cases parseCert der none with
  | error e => rfl
  | ok parsed => exact push_shipped distrust _ _

theorem pushAddition_shipped
    (now : Option Int)
    (acc : Composing)
    (addition : Addition) :
    (pushAddition parseCert distrust now acc
      addition).out.shipped = acc.out.shipped := by
  unfold pushAddition
  cases parseCert addition.der now with
  | error e => rfl
  | ok parsed => exact push_shipped distrust _ _

/- Every usable certificate of the bundle is counted. -/
theorem foldl_shipped
    (shipped : List Bytes)
    (acc : Composing) :
    (shipped.foldl (pushShipped parseCert distrust)
        acc).out.shipped =
      acc.out.shipped + usable parseCert shipped := by
  induction shipped generalizing acc with
  | nil => rfl
  | cons der rest ih =>
      rw [List.foldl_cons, ih, pushShipped_shipped, usable,
        usable, List.countP_cons]
      omega

theorem foldl_additions_shipped
    (now : Option Int)
    (additions : List Addition)
    (acc : Composing) :
    (additions.foldl (pushAddition parseCert distrust now)
      acc).out.shipped = acc.out.shipped := by
  induction additions generalizing acc with
  | nil => rfl
  | cons addition rest ih =>
      rw [List.foldl_cons, ih, pushAddition_shipped]

theorem warnUnmatched_shipped
    (seen : List Text)
    (fingerprints : List Text)
    (out : Composed) :
    (fingerprints.foldl (warnUnmatched seen) out).shipped =
      out.shipped := by
  induction fingerprints generalizing out with
  | nil => rfl
  | cons f rest ih =>
      rw [List.foldl_cons, ih]
      unfold warnUnmatched
      split_ifs
      · rfl
      · rfl

end

end Store

end Trustd

------------------------------------------------------------
-- The Composition
------------------------------------------------------------

namespace Trustd

namespace Store

open General Cert

section

variable (parseCert :
  Bytes → Option Int → Except Cert.Error Parsed)
variable (shipped : List Bytes)
variable (additions : List Addition)
variable (distrust : List Text)
variable (now : Option Int)

/- The three ways a composition goes. -/
inductive Composition : Except Text Composed → Prop where
  | implausible
      (why : Text)
      (hFew : shipped.length < minimumShipped) :
      Composition (.error why)
  | empty
      (why : Text)
      (hMany : minimumShipped ≤ shipped.length)
      (hNone : effective parseCert shipped additions distrust
        now = []) :
      Composition (.error why)
  | composed
      (composed : Composed)
      (hMany : minimumShipped ≤ shipped.length)
      (hSome : effective parseCert shipped additions distrust
        now ≠ [])
      (hRoots : composed.roots = sortRoots
        (effective parseCert shipped additions distrust now))
      (hShipped : composed.shipped =
        usable parseCert shipped) :
      Composition (.ok composed)

theorem composeWith_cases :
    Composition parseCert shipped additions distrust now
      (composeWith parseCert shipped additions distrust
        now) := by
  unfold composeWith
  by_cases hFew : shipped.length < minimumShipped
  · rw [if_pos hFew]
    exact Composition.implausible _ hFew
  · have hMany := Nat.not_lt.mp hFew
    have hRoots := @foldl_effective parseCert shipped additions
      distrust now
    have hPerm := sortRoots_perm (effective parseCert shipped
      additions distrust now)
    rw [if_neg hFew]
    dsimp only
    rw [warnUnmatched_roots]
    dsimp only
    rw [hRoots]
    by_cases hNone : effective parseCert shipped additions
        distrust now = []
    · rw [hNone, if_pos (by decide)]
      exact Composition.empty _ hMany hNone
    · have hSorted : ¬ ((sortRoots (effective parseCert shipped
          additions distrust now)).isEmpty = true) := by
        rw [List.isEmpty_iff]
        intro hNil
        rw [hNil] at hPerm
        exact hNone hPerm.symm.eq_nil
      rw [if_neg hSorted]
      refine Composition.composed _ hMany hNone rfl ?_
      dsimp only
      rw [warnUnmatched_shipped]
      dsimp only
      rw [foldl_additions_shipped, foldl_shipped]
      exact Nat.zero_add _

variable {parseCert shipped additions distrust now}

theorem ascending_sortRoots
    {roots : List Entry}
    (hNodup : (roots.map Entry.fingerprint).Nodup) :
    Text.Ascending Entry.fingerprint (sortRoots roots) :=
  Text.ascending_insertionSort Entry.fingerprint hNodup

end

/-
  Whatever certificates are parsed to: a composition fails if
  and only if the bundle is implausible or nothing is left,
  and holds otherwise the first usable certificate of each
  fingerprint that is not distrusted, by fingerprint.
-/
theorem composeWith_effective
    (parseCert :
      Bytes → Option Int → Except Cert.Error Parsed)
    (bundle : Text)
    (additions : List Addition)
    (distrust : List Text)
    (now : Option Int) :
    ((∃ why, composeWith parseCert (fromPem bundle) additions
        distrust now = .error why) ↔
      (fromPem bundle).length < minimumShipped ∨
        effective parseCert (fromPem bundle) additions distrust
          now = []) ∧
    ∀ composed, composeWith parseCert (fromPem bundle)
        additions distrust now = .ok composed →
      composed.roots.Perm (effective parseCert
        (fromPem bundle) additions distrust now) ∧
      Text.Ascending Entry.fingerprint composed.roots := by
  have hCases := composeWith_cases parseCert (fromPem bundle)
    additions distrust now
  revert hCases
  generalize composeWith parseCert (fromPem bundle) additions
    distrust now = result
  intro hCases
  cases hCases with
  | implausible why hFew =>
      refine ⟨⟨fun _ => Or.inl hFew, fun _ => ⟨why, rfl⟩⟩, ?_⟩
      intro composed hOk
      cases hOk
  | empty why hMany hNone =>
      refine ⟨⟨fun _ => Or.inr hNone, fun _ => ⟨why, rfl⟩⟩, ?_⟩
      intro composed hOk
      cases hOk
  | composed composed hMany hSome hRoots hShipped =>
      constructor
      · constructor
        · rintro ⟨why, hError⟩
          cases hError
        · rintro (hFew | hNone)
          · exact absurd hFew (Nat.not_lt.mpr hMany)
          · exact absurd hNone hSome
      · intro composed' hOk
        cases hOk
        rw [hRoots]
        exact ⟨sortRoots_perm _,
          ascending_sortRoots nodup_effective⟩

end Store

end Trustd

------------------------------------------------------------
-- The Floor
------------------------------------------------------------

namespace Trustd

namespace Store

open General Cert

/-
  Every composition of these inputs that succeeds counts at
  least as many usable certificates of the bundle as the
  floor asks for, if and only if there are as many, or none
  succeeds: the bundle has too few blocks, or all that is
  usable is distrusted.
-/
theorem shipped_plausible_iff
    (crates : Crates)
    (bundle : Text)
    (additions : List Addition)
    (distrust : List Text)
    (now : Option Int) :
    (∀ composed, compose crates bundle additions distrust
        now = .ok composed →
      composed.shipped = usable (parse crates)
          (fromPem bundle) ∧
        minimumShipped ≤ composed.shipped) ↔
      minimumShipped ≤ usable (parse crates)
          (fromPem bundle) ∨
        (fromPem bundle).length < minimumShipped ∨
        ∀ r ∈ candidates (parse crates) (fromPem bundle)
            additions now,
          r.fingerprint ∈
            distrust.map normaliseFingerprint := by
  have hCases := composeWith_cases (parse crates)
    (fromPem bundle) additions distrust now
  have hUnfold : compose crates bundle additions distrust
      now = composeWith (parse crates) (fromPem bundle)
        additions distrust now := rfl
  rw [hUnfold, ← effective_eq_nil_iff]
  revert hCases
  generalize composeWith (parse crates) (fromPem bundle)
    additions distrust now = result
  intro hCases
  cases hCases with
  | implausible why hFew =>
      refine iff_of_true ?_ (Or.inr (Or.inl hFew))
      intro composed hOk
      cases hOk
  | empty why hMany hNone =>
      refine iff_of_true ?_ (Or.inr (Or.inr hNone))
      intro composed hOk
      cases hOk
  | composed composed hMany hSome hRoots hShipped =>
      constructor
      · intro hAll
        rcases hAll composed rfl with ⟨hCount, hFloor⟩
        rw [hCount] at hFloor
        exact Or.inl hFloor
      · rintro (hFloor | hFew | hNone) composed' hOk
        · cases hOk
          rw [hShipped]
          exact ⟨rfl, hFloor⟩
        · exact absurd hFew (Nat.not_lt.mpr hMany)
        · exact absurd hNone hSome

/- As many blocks as the floor asks for, none a certificate. -/
def garbageBundle : Text :=
  (List.replicate minimumShipped [0x00]).flatMap toPem

/- Such a bundle and one addition make a store. -/
theorem shipped_implausible :
    ∃ composed,
      compose purposeCrates garbageBundle
        [{ name := "corp-ca".toList
           der := purposeAdded
           purposes := [] }] [] none = .ok composed ∧
      composed.shipped < minimumShipped ∧
      composed.roots.length = 1 := by
  have hAny : (composeFrom purposeCrates
      (List.replicate minimumShipped [0x00])
      [{ name := "corp-ca".toList
         der := purposeAdded
         purposes := [] }] [] none).toOption.any
      (fun composed => composed.shipped < minimumShipped ∧
        composed.roots.length = 1) = true := by
    decide +kernel
  rcases exists_ok_of_any hAny with ⟨composed, hOk, hCounts⟩
  refine ⟨composed, ?_, of_decide_eq_true hCounts⟩
  unfold compose
  rw [garbageBundle, fromPem_flatMap_toPem]
  exact hOk

end Store

end Trustd
