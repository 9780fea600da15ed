import Trustd.Core.Reference
import Trustd.Daemon.Install

/-
  Inputs to a composition that differ in order, repetition
  and spelling only.

  Key definitions include:
    * `Trustd.Store.Respelling`
    * `Trustd.Cert.Cut`
    * `Trustd.Cert.SameBlocks`
    * `Trustd.Store.Alike`

  Key theorems include:
    * `Trustd.Store.Respelling.normalise`
    * `Trustd.Cert.SameBlocks.mem_iff`
    * `Trustd.Store.mem_effective_iff_of_same`
    * `Trustd.Render.compose_rearranged`
-/

------------------------------------------------------------
-- The Spelling Of Distrusts
------------------------------------------------------------

namespace Trustd

namespace Store

/-
  One fingerprint in two spellings: letters in either case,
  and anything that is no letter or digit put in or left out.
-/
inductive Respelling : Text → Text → Prop where
  | nil : Respelling [] []
  | letter
      {c d : Char}
      {a b : Text}
      (hLeft : isAsciiAlphanumeric c = true)
      (hRight : isAsciiAlphanumeric d = true)
      (hCase : c.toLower = d.toLower)
      (hRest : Respelling a b) :
      Respelling (c :: a) (d :: b)
  | left
      {c : Char}
      {a b : Text}
      (hSeparator : isAsciiAlphanumeric c = false)
      (hRest : Respelling a b) :
      Respelling (c :: a) b
  | right
      {c : Char}
      {a b : Text}
      (hSeparator : isAsciiAlphanumeric c = false)
      (hRest : Respelling a b) :
      Respelling a (c :: b)

theorem normaliseFingerprint_cons
    (c : Char)
    (rest : Text) :
    normaliseFingerprint (c :: rest) =
      if isAsciiAlphanumeric c then
        c.toLower :: normaliseFingerprint rest
      else normaliseFingerprint rest := by
  unfold normaliseFingerprint
  rw [List.filter_cons]
  split_ifs
  · rfl
  · rfl

/- The spelling does not matter. -/
theorem Respelling.normalise
    {a b : Text}
    (hSame : Respelling a b) :
    normaliseFingerprint a = normaliseFingerprint b := by
  induction hSame with
  | nil => rfl
  | letter hLeft hRight hCase _ ih =>
      rw [normaliseFingerprint_cons, if_pos hLeft,
        normaliseFingerprint_cons, if_pos hRight, hCase, ih]
  | left hSeparator _ ih =>
      rw [normaliseFingerprint_cons, hSeparator,
        if_neg Bool.false_ne_true, ih]
  | right hSeparator _ ih =>
      rw [normaliseFingerprint_cons, hSeparator,
        if_neg Bool.false_ne_true, ih]

/-
  The same distrusts: each of either list has a spelling in
  the other.
-/
def SameDistrusts (distrust distrust' : List Text) : Prop :=
  (∀ t ∈ distrust, ∃ u ∈ distrust', Respelling t u) ∧
    ∀ u ∈ distrust', ∃ t ∈ distrust, Respelling t u

theorem SameDistrusts.mem_iff
    {distrust distrust' : List Text}
    (hSame : SameDistrusts distrust distrust')
    (f : Text) :
    f ∈ distrust.map normaliseFingerprint ↔
      f ∈ distrust'.map normaliseFingerprint := by
  rw [List.mem_map, List.mem_map]
  constructor
  · rintro ⟨t, ht, rfl⟩
    rcases hSame.1 t ht with ⟨u, hu, hSpelt⟩
    exact ⟨u, hu, hSpelt.normalise.symm⟩
  · rintro ⟨u, hu, rfl⟩
    rcases hSame.2 u hu with ⟨t, ht, hSpelt⟩
    exact ⟨t, ht, hSpelt.normalise⟩

end Store

end Trustd

------------------------------------------------------------
-- The Blocks Of A Bundle
------------------------------------------------------------

namespace Trustd

namespace Cert

/-
  Lines cut into pieces, blocks and comments, each of which
  ends outside of a block, up to a rest without a block.
-/
structure Cut
    (lines : List Text)
    (pieces : List (List Text)) :
    Prop where
  whole : ∃ rest, lines = pieces.flatten ++ rest ∧
    fromPemLines none rest = []
  closed : ∀ piece ∈ pieces, bodyAfter none piece = none

/-
  Bundles that can be cut into the same blocks, in any order
  and any number, with any comments among them.
-/
def SameBlocks (bundle bundle' : Text) : Prop :=
  ∃ pieces pieces',
    Cut (Text.lines bundle) pieces ∧
    Cut (Text.lines bundle') pieces' ∧
    ∀ piece, fromPemLines none piece ≠ [] →
      (piece ∈ pieces ↔ piece ∈ pieces')

/- Pieces are read one by one. -/
theorem fromPemLines_flatten
    {pieces : List (List Text)}
    (hClosed : ∀ piece ∈ pieces, bodyAfter none piece = none)
    (rest : List Text) :
    fromPemLines none (pieces.flatten ++ rest) =
      pieces.flatMap (fromPemLines none) ++
        fromPemLines none rest := by
  induction pieces with
  | nil => rfl
  | cons piece pieces ih =>
      rw [List.forall_mem_cons] at hClosed
      rw [List.flatten_cons, List.append_assoc,
        fromPemLines_append, hClosed.1, ih hClosed.2,
        List.flatMap_cons, List.append_assoc]

theorem Cut.fromPemLines_eq
    {lines : List Text}
    {pieces : List (List Text)}
    (hCut : Cut lines pieces) :
    fromPemLines none lines =
      pieces.flatMap (fromPemLines none) := by
  rcases hCut.whole with ⟨rest, rfl, hRest⟩
  rw [fromPemLines_flatten hCut.closed, hRest,
    List.append_nil]

/- Whatever was read before, a closing line ends the block. -/
theorem bodyAfter_snoc_end
    {line : Text}
    (hEnd : Text.trim line = pemEnd)
    (body : Option Text)
    (lines : List Text) :
    bodyAfter body (lines ++ [line]) = none := by
  have hBegin : Text.trim line ≠ pemBegin := by
    rw [hEnd]
    decide
  induction lines generalizing body with
  | nil =>
      rw [List.nil_append, bodyAfter, if_neg hBegin,
        if_pos hEnd]
      rfl
  | cons first rest ih =>
      rw [List.cons_append, bodyAfter]
      split_ifs
      · exact ih (some [])
      · exact ih none
      · exact ih _

/- What is written as blocks is cut into them. -/
theorem cut_flatMap_toPem (ders : List Bytes) :
    Cut (Text.lines (ders.flatMap toPem))
      (ders.map (fun der => Text.lines (toPem der))) := by
  constructor
  · refine ⟨[], ?_, rfl⟩
    rw [List.append_nil]
    induction ders with
    | nil => rfl
    | cons der ders ih =>
        rw [List.flatMap_cons,
          (endsLine_toPem der).lines_append, ih, List.map_cons,
          List.flatten_cons]
  · intro piece hPiece
    rcases List.mem_map.mp hPiece with ⟨der, -, rfl⟩
    have hLines := lines_toPem der []
    have hEnd : Text.trim pemEnd = pemEnd := by
      decide +kernel
    rw [List.append_nil] at hLines
    rw [hLines]
    exact bodyAfter_snoc_end hEnd none _

/- A line that is no marker may come before. -/
theorem Cut.comment
    {lines : List Text}
    {pieces : List (List Text)}
    (hCut : Cut lines pieces)
    {line : Text}
    (hBegin : Text.trim line ≠ pemBegin)
    (hEnd : Text.trim line ≠ pemEnd) :
    Cut (line :: lines) ([line] :: pieces) := by
  constructor
  · rcases hCut.whole with ⟨rest, rfl, hRest⟩
    exact ⟨rest, rfl, hRest⟩
  · rw [List.forall_mem_cons]
    refine ⟨?_, hCut.closed⟩
    rw [bodyAfter, if_neg hBegin, if_neg hEnd]
    rfl

/- The same blocks hold the same certificates. -/
theorem SameBlocks.mem_iff
    {bundle bundle' : Text}
    (hSame : SameBlocks bundle bundle')
    (der : Bytes) :
    der ∈ fromPem bundle ↔ der ∈ fromPem bundle' := by
  rcases hSame with ⟨pieces, pieces', hCut, hCut', hBlocks⟩
  unfold fromPem
  rw [hCut.fromPemLines_eq, hCut'.fromPemLines_eq,
    List.mem_flatMap, List.mem_flatMap]
  constructor
  · rintro ⟨piece, hPiece, hDer⟩
    exact ⟨piece,
      (hBlocks piece (List.ne_nil_of_mem hDer)).mp hPiece,
      hDer⟩
  · rintro ⟨piece, hPiece, hDer⟩
    exact ⟨piece,
      (hBlocks piece (List.ne_nil_of_mem hDer)).mpr hPiece,
      hDer⟩

end Cert

end Trustd

------------------------------------------------------------
-- What Stays The Same
------------------------------------------------------------

namespace Trustd

namespace Store

open General Cert

section

variable {parseCert :
  Bytes → Option Int → Except Cert.Error Parsed}
variable {shipped shipped' : List Bytes}
variable {additions additions' : List Addition}
variable {distrust distrust' : List Text}
variable {now : Option Int}

theorem mem_shippedEntries_iff
    {r : Entry} :
    r ∈ shippedEntries parseCert shipped ↔
      ∃ der ∈ shipped, ∃ parsed,
        parseCert der none = .ok parsed ∧
          r = shippedEntry parsed := by
  unfold shippedEntries
  rw [List.mem_filterMap]
  constructor
  · rintro ⟨der, hDer, hEntry⟩
    cases hParse : parseCert der none with
    | error e =>
        rw [hParse] at hEntry
        cases hEntry
    | ok parsed =>
        rw [hParse] at hEntry
        exact ⟨der, hDer, parsed, hParse,
          (Option.some.inj hEntry).symm⟩
  · rintro ⟨der, hDer, parsed, hParse, rfl⟩
    refine ⟨der, hDer, ?_⟩
    rw [hParse]
    rfl

theorem mem_shippedEntries_congr
    (hShipped : ∀ der, der ∈ shipped ↔ der ∈ shipped')
    (r : Entry) :
    r ∈ shippedEntries parseCert shipped ↔
      r ∈ shippedEntries parseCert shipped' := by
  rw [mem_shippedEntries_iff, mem_shippedEntries_iff]
  simp only [hShipped]

/- Certificates of the bundle are told apart by fingerprint. -/
def Apart
    (parseCert :
      Bytes → Option Int → Except Cert.Error Parsed)
    (shipped : List Bytes) :
    Prop :=
  ∀ a ∈ shipped, ∀ b ∈ shipped, ∀ p q,
    parseCert a none = .ok p → parseCert b none = .ok q →
      p.fingerprint = q.fingerprint → a = b

theorem Apart.injective
    (hApart : Apart parseCert shipped) :
    ∀ r ∈ shippedEntries parseCert shipped,
      ∀ s ∈ shippedEntries parseCert shipped,
        r.fingerprint = s.fingerprint → r = s := by
  intro r hr s hs hSame
  rcases mem_shippedEntries_iff.mp hr with
    ⟨a, ha, p, hp, rfl⟩
  rcases mem_shippedEntries_iff.mp hs with
    ⟨b, hb, q, hq, rfl⟩
  have hDer := hApart a ha b hb p q hp hq hSame
  subst hDer
  rw [hp] at hq
  cases hq
  rfl

/- The roots do not depend on order or on repetition. -/
theorem mem_effective_iff_of_same
    (hShipped : ∀ der, der ∈ shipped ↔ der ∈ shipped')
    (hApart : Apart parseCert shipped)
    (hDistrust : ∀ f,
      f ∈ distrust.map normaliseFingerprint ↔
        f ∈ distrust'.map normaliseFingerprint)
    (r : Entry) :
    r ∈ effective parseCert shipped additions distrust now ↔
      r ∈ effective parseCert shipped' additions distrust'
        now := by
  have hEntries :=
    @mem_shippedEntries_congr parseCert _ _ hShipped
  have hApart' : Apart parseCert shipped' := by
    intro a ha b hb
    exact hApart a ((hShipped a).mpr ha) b
      ((hShipped b).mpr hb)
  have hKeys : (∀ b ∈ shippedEntries parseCert shipped,
      b.fingerprint ≠ r.fingerprint) ↔
      ∀ b ∈ shippedEntries parseCert shipped',
        b.fingerprint ≠ r.fingerprint := by
    simp only [hEntries]
  unfold effective candidates
  rw [List.mem_filter, List.mem_filter, decide_eq_true_eq,
    decide_eq_true_eq, hDistrust,
    mem_firsts_append_of_injective hApart.injective,
    mem_firsts_append_of_injective hApart'.injective,
    hEntries, hKeys]

/- Which fingerprints are left depends on no order at all. -/
theorem mem_fingerprints_iff_of_perm
    (hPerm : additions.Perm additions')
    (f : Text) :
    f ∈ (effective parseCert shipped additions distrust
        now).map Entry.fingerprint ↔
      f ∈ (effective parseCert shipped additions' distrust
        now).map Entry.fingerprint := by
  have hCandidates : ∀ r,
      r ∈ candidates parseCert shipped additions now ↔
        r ∈ candidates parseCert shipped additions' now := by
    intro r
    unfold candidates addedEntries
    rw [List.mem_append, List.mem_append,
      (hPerm.filterMap _).mem_iff]
  have hFilter : ∀ (l : List Entry),
      f ∈ (((firsts Entry.fingerprint l).filter (fun r =>
        r.fingerprint ∉ distrust.map
          normaliseFingerprint)).map Entry.fingerprint) ↔
      (∃ r ∈ l, r.fingerprint = f) ∧
        f ∉ distrust.map normaliseFingerprint := by
    intro l
    rw [List.mem_map]
    constructor
    · rintro ⟨r, hr, rfl⟩
      rcases List.mem_filter.mp hr with ⟨hFirst, hTrusted⟩
      exact ⟨⟨r, mem_of_mem_firsts hFirst, rfl⟩,
        of_decide_eq_true hTrusted⟩
    · rintro ⟨⟨r, hr, rfl⟩, hTrusted⟩
      rcases exists_mem_firsts Entry.fingerprint hr
        with ⟨s, hs, hKey⟩
      refine ⟨s, List.mem_filter.mpr ⟨hs, ?_⟩, hKey⟩
      rw [hKey, decide_eq_true_eq]
      exact hTrusted
  unfold effective
  rw [hFilter, hFilter]
  simp only [hCandidates]

end

/- Two compositions fail, or agree in what is asked of them. -/
def Alike
    {α : Type}
    (f : Composed → α)
    (r r' : Except Text Composed) :
    Prop :=
  match r, r' with
  | .ok composed, .ok composed' => f composed = f composed'
  | .error _, .error _ => True
  | _, _ => False

section

variable {parseCert :
  Bytes → Option Int → Except Cert.Error Parsed}
variable {shipped shipped' : List Bytes}
variable {additions additions' : List Addition}
variable {distrust distrust' : List Text}
variable {now : Option Int}

/-
  Plausible bundles compose alike if what is effective is
  alike, and empty in both cases or in neither.
-/
theorem alike_of_effective
    {α : Type}
    {f : Composed → α}
    (hFloor : minimumShipped ≤ shipped.length)
    (hFloor' : minimumShipped ≤ shipped'.length)
    (hEmpty :
      effective parseCert shipped additions distrust now = [] ↔
        effective parseCert shipped' additions' distrust'
          now = [])
    (hAlike : ∀ composed composed',
      composed.roots = sortRoots (effective parseCert shipped
        additions distrust now) →
      composed'.roots = sortRoots (effective parseCert
        shipped' additions' distrust' now) →
      f composed = f composed') :
    Alike f
      (composeWith parseCert shipped additions distrust now)
      (composeWith parseCert shipped' additions' distrust'
        now) := by
  have hLeft := composeWith_cases parseCert shipped additions
    distrust now
  have hRight := composeWith_cases parseCert shipped'
    additions' distrust' now
  revert hLeft hRight
  generalize composeWith parseCert shipped additions distrust
    now = r
  generalize composeWith parseCert shipped' additions'
    distrust' now = r'
  intro hLeft hRight
  cases hLeft with
  | implausible why hFew => omega
  | empty why _ hNone =>
      cases hRight with
      | implausible why' hFew => omega
      | empty why' _ _ => trivial
      | composed composed' _ hSome' _ _ =>
          exact absurd (hEmpty.mp hNone) hSome'
  | composed composed _ hSome hRoots _ =>
      cases hRight with
      | implausible why' hFew => omega
      | empty why' _ hNone' =>
          exact absurd (hEmpty.mpr hNone') hSome
      | composed composed' _ _ hRoots' _ =>
          exact hAlike composed composed' hRoots hRoots'

theorem eq_nil_iff_of_mem_iff
    {α : Type}
    {l m : List α}
    (hMem : ∀ a, a ∈ l ↔ a ∈ m) :
    l = [] ↔ m = [] := by
  rw [List.eq_nil_iff_forall_not_mem,
    List.eq_nil_iff_forall_not_mem]
  simp only [hMem]

/- The same members are the same list once they are sorted. -/
theorem sortRoots_congr
    {roots roots' : List Entry}
    (hNodup : (roots.map Entry.fingerprint).Nodup)
    (hNodup' : (roots'.map Entry.fingerprint).Nodup)
    (hMem : ∀ r, r ∈ roots ↔ r ∈ roots') :
    sortRoots roots = sortRoots roots' := by
  apply Text.eq_of_ascending (ascending_sortRoots hNodup)
    (ascending_sortRoots hNodup')
  intro r
  rw [(sortRoots_perm roots).mem_iff,
    (sortRoots_perm roots').mem_iff]
  exact hMem r

/- The fingerprints alone, in their order. -/
theorem map_sortRoots_congr
    {roots roots' : List Entry}
    (hNodup : (roots.map Entry.fingerprint).Nodup)
    (hNodup' : (roots'.map Entry.fingerprint).Nodup)
    (hMem : ∀ f, f ∈ roots.map Entry.fingerprint ↔
      f ∈ roots'.map Entry.fingerprint) :
    (sortRoots roots).map Entry.fingerprint =
      (sortRoots roots').map Entry.fingerprint := by
  have hAscending : ∀ {l : List Entry},
      (l.map Entry.fingerprint).Nodup →
        Text.Ascending id
          ((sortRoots l).map Entry.fingerprint) := by
    intro l hl
    exact List.pairwise_map.mpr (ascending_sortRoots hl)
  apply Text.eq_of_ascending (hAscending hNodup)
    (hAscending hNodup')
  intro f
  rw [((sortRoots_perm roots).map _).mem_iff,
    ((sortRoots_perm roots').map _).mem_iff]
  exact hMem f

end

end Store

end Trustd

------------------------------------------------------------
-- Equal Inputs
------------------------------------------------------------

namespace Trustd

namespace Render

open General Cert Store

/-
  Where fingerprints of the bundle's certificates do not
  collide, its order and its repetitions and the spelling of
  the distrusts change neither a root nor a byte rendered,
  and the order of the additions changes no fingerprint.
-/
theorem compose_rearranged
    (crates : Crates)
    {bundle bundle' : Text}
    (hBlocks : SameBlocks bundle bundle')
    (hFloor : minimumShipped ≤ (fromPem bundle).length)
    (hFloor' : minimumShipped ≤ (fromPem bundle').length)
    (hCollide : ∀ a ∈ fromPem bundle, ∀ b ∈ fromPem bundle,
      fingerprint crates a = fingerprint crates b → a = b)
    {distrust distrust' : List Text}
    (hDistrust : SameDistrusts distrust distrust')
    (additions : List Addition)
    (now : Option Int) :
    Alike Composed.roots
        (compose crates bundle additions distrust now)
        (compose crates bundle' additions distrust' now) ∧
      Alike (fun composed =>
          (bundleBytes composed, renderingOf composed))
        (compose crates bundle additions distrust now)
        (compose crates bundle' additions distrust' now) ∧
      ∀ additions', additions.Perm additions' →
        Alike (fun composed =>
            composed.roots.map Entry.fingerprint)
          (compose crates bundle additions distrust now)
          (compose crates bundle additions' distrust now) := by
  have hApart : Apart (parse crates) (fromPem bundle) := by
    intro a ha b hb p q hp hq hSame
    rw [(parse_ok crates hp).2.1, (parse_ok crates hq).2.1]
      at hSame
    exact hCollide a ha b hb hSame
  have hMem := @mem_effective_iff_of_same (parse crates)
    _ _ additions _ _ now hBlocks.mem_iff hApart
    hDistrust.mem_iff
  have hRoots := sortRoots_congr nodup_effective
    nodup_effective hMem
  refine ⟨?_, ?_, ?_⟩
  · apply alike_of_effective hFloor hFloor'
      (eq_nil_iff_of_mem_iff hMem)
    intro composed composed' hLeft hRight
    rw [hLeft, hRight, hRoots]
  · apply alike_of_effective hFloor hFloor'
      (eq_nil_iff_of_mem_iff hMem)
    intro composed composed' hLeft hRight
    have hSame : composed.roots = composed'.roots := by
      rw [hLeft, hRight, hRoots]
    unfold bundleBytes renderingOf
    rw [hSame]
  · intro additions' hPerm
    have hFingerprints := @mem_fingerprints_iff_of_perm
      (parse crates) (fromPem bundle) _ _ distrust now hPerm
    apply alike_of_effective hFloor hFloor
    · rw [← List.map_eq_nil_iff (f := Entry.fingerprint),
        eq_nil_iff_of_mem_iff hFingerprints,
        List.map_eq_nil_iff]
    · intro composed composed' hLeft hRight
      rw [hLeft, hRight]
      exact map_sortRoots_congr nodup_effective
        nodup_effective hFingerprints

/- The sample bundle with a comment and a block more. -/
def commentedBundle : Text :=
  "# once more".toList ++ '\n' ::
    (List.replicate (minimumShipped + 1)
      purposeShipped).flatMap toPem

theorem lines_commentedBundle :
    Text.lines commentedBundle =
      ('#' :: " once more".toList) ::
        Text.lines ((List.replicate (minimumShipped + 1)
          purposeShipped).flatMap toPem) :=
  Text.lines_line _ _ (by decide)

theorem sameBlocks_commentedBundle :
    SameBlocks purposeBundle commentedBundle := by
  have hComment := trim_comment_ne " once more".toList
  have hCut := (cut_flatMap_toPem (List.replicate
    (minimumShipped + 1) purposeShipped)).comment
    hComment.1 hComment.2
  rw [← lines_commentedBundle] at hCut
  refine ⟨_, _, cut_flatMap_toPem _, hCut, ?_⟩
  intro piece hBlock
  have hNot : piece ≠ ['#' :: " once more".toList] := by
    rintro rfl
    apply hBlock
    rw [fromPemLines_skip hComment.1 hComment.2]
    rfl
  rw [List.mem_cons, List.map_replicate, List.map_replicate,
    List.mem_replicate, List.mem_replicate]
  constructor
  · rintro ⟨-, hPiece⟩
    exact Or.inr ⟨by decide, hPiece⟩
  · rintro (hPiece | ⟨-, hPiece⟩)
    · exact absurd hPiece hNot
    · exact ⟨by decide, hPiece⟩

theorem fromPem_commentedBundle :
    fromPem commentedBundle =
      List.replicate (minimumShipped + 1) purposeShipped := by
  have hComment := trim_comment_ne " once more".toList
  unfold fromPem
  rw [lines_commentedBundle,
    fromPemLines_skip hComment.1 hComment.2]
  exact fromPem_flatMap_toPem _

/- A distrust in one spelling, and twice in others. -/
theorem sameDistrusts_sample :
    SameDistrusts ["AB:cd".toList]
      ["ab cd".toList, "ABCD".toList] := by
  have hSpaced :
      Respelling "AB:cd".toList "ab cd".toList :=
    .letter (by decide) (by decide) (by decide)
      (.letter (by decide) (by decide) (by decide)
        (.left (by decide) (.right (by decide)
          (.letter (by decide) (by decide) (by decide)
            (.letter (by decide) (by decide) (by decide)
              .nil)))))
  have hPlain :
      Respelling "AB:cd".toList "ABCD".toList :=
    .letter (by decide) (by decide) (by decide)
      (.letter (by decide) (by decide) (by decide)
        (.left (by decide)
          (.letter (by decide) (by decide) (by decide)
            (.letter (by decide) (by decide) (by decide)
              .nil))))
  constructor
  · intro t ht
    rw [List.mem_singleton.mp ht]
    exact ⟨_, List.mem_cons_self, hSpaced⟩
  · intro u hu
    refine ⟨_, List.mem_singleton_self _, ?_⟩
    rcases List.mem_cons.mp hu with rfl | hu
    · exact hSpaced
    · rw [List.mem_singleton.mp hu]
      exact hPlain

/- Neither the comment and the block nor the spelling matter. -/
theorem compose_rearranged_commented :
    Alike Composed.roots
      (compose purposeCrates purposeBundle
        [] ["AB:cd".toList] none)
      (compose purposeCrates commentedBundle
        [] ["ab cd".toList, "ABCD".toList] none) := by
  refine (compose_rearranged purposeCrates
    sameBlocks_commentedBundle ?_ ?_ ?_
    sameDistrusts_sample [] none).1
  · rw [fromPem_purposeBundle, List.length_replicate]
  · rw [fromPem_commentedBundle, List.length_replicate]
    exact Nat.le_succ _
  · intro a ha b hb _
    rw [fromPem_purposeBundle] at ha hb
    rw [(List.mem_replicate.mp ha).2,
      (List.mem_replicate.mp hb).2]

end Render

end Trustd
