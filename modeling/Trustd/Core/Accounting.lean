import Trustd.Core.Reference

/-
  Where every certificate and every distrust of a composition
  went: the counters and the warnings add up.

  Key definitions include:
    * `Trustd.Store.refused`
    * `Trustd.Store.repeated`
    * `Trustd.Store.Tallies`
    * `Trustd.Store.Told`
    * `Trustd.Store.Accounted`

  Key theorems include:
    * `Trustd.Store.Tallies.push`
    * `Trustd.Store.foldl_tallies`
    * `Trustd.Store.loops_told`
    * `Trustd.Store.compose_accounts`
-/

------------------------------------------------------------
-- Tallies
------------------------------------------------------------

namespace Trustd

namespace Store

open General Cert

/- The candidates that a distrust names. -/
def refused
    (distrust : List Text)
    (candidates : List Entry) :
    List Entry :=
  candidates.filter (fun r => r.fingerprint ∈ distrust)

/- The others whose fingerprint is held already. -/
def repeated
    (distrust : List Text)
    (candidates : List Entry) :
    List Entry :=
  (repeats Entry.fingerprint candidates).filter
    (fun r => r.fingerprint ∉ distrust)

/- The entries among some that are additions. -/
def fromAdditions (entries : List Entry) : List Entry :=
  entries.filter (fun r => r.source = .added)

/-
  The state of the loops when so many certificates did not
  parse, so many did, and these are the ones.
-/
structure Tallies
    (distrust : List Text)
    (acc : Composing)
    (failed parsed : Nat)
    (candidates : List Entry) :
    Prop where
  skipped : acc.out.skipped = failed
  parsed : acc.out.shipped + acc.out.added = parsed
  seen : acc.seen = candidates.map Entry.fingerprint
  held : ∀ f, f ∈ acc.out.roots.map Entry.fingerprint ↔
    f ∉ distrust ∧ f ∈ candidates.map Entry.fingerprint
  roots : acc.out.roots.length +
    (refused distrust candidates).length +
    (repeated distrust candidates).length =
      candidates.length
  warnings : acc.out.warnings.length =
    failed + (refused distrust candidates).length +
      (fromAdditions (repeated distrust candidates)).length

theorem tallies_empty (distrust : List Text) :
    Tallies distrust {} 0 0 [] where
  skipped := rfl
  parsed := rfl
  seen := rfl
  held f := by simp
  roots := rfl
  warnings := rfl

/- What one more candidate adds to each number. -/
theorem length_refused_snoc
    (distrust : List Text)
    (candidates : List Entry)
    (r : Entry) :
    (refused distrust (candidates ++ [r])).length =
      (refused distrust candidates).length +
        if r.fingerprint ∈ distrust then 1 else 0 := by
  rw [refused, List.filter_append, List.length_append,
    refused, List.filter_cons]
  simp only [decide_eq_true_eq, List.filter_nil]
  split_ifs
  · rfl
  · rfl

theorem repeated_snoc
    (distrust : List Text)
    (candidates : List Entry)
    (r : Entry) :
    repeated distrust (candidates ++ [r]) =
      repeated distrust candidates ++
        if r.fingerprint ∉ distrust ∧
          r.fingerprint ∈ candidates.map Entry.fingerprint
        then [r] else [] := by
  rw [repeated, repeats_snoc, List.filter_append, repeated]
  congr 1
  by_cases hSeen :
      r.fingerprint ∈ candidates.map Entry.fingerprint
  · rw [if_pos hSeen, List.filter_cons]
    simp only [decide_eq_true_eq, List.filter_nil, hSeen,
      and_true]
  · rw [if_neg hSeen, if_neg (fun h => hSeen h.2),
      List.filter_nil]

theorem fromAdditions_singleton (r : Entry) :
    (fromAdditions [r]).length =
      if r.source = .added then 1 else 0 := by
  rw [fromAdditions, List.filter_cons]
  simp only [decide_eq_true_eq, List.filter_nil]
  split_ifs
  · rfl
  · rfl

theorem fromAdditions_append (a b : List Entry) :
    fromAdditions (a ++ b) =
      fromAdditions a ++ fromAdditions b :=
  List.filter_append _ _

/- The lines of the log. -/
def refusalLine (r : Entry) : Text :=
  r.parsed.subject ++ " is distrusted (".toList ++
    r.fingerprint ++ [')']

def repeatLine (r : Entry) : Text :=
  "Add\\".toList ++ r.name.getD [] ++
    (" duplicates a certificate already in the " ++
      "store; the store holds one copy").toList

def ignoredLine (addition : Addition) (e : Cert.Error) : Text :=
  "Add\\".toList ++ addition.name ++ " is ".toList ++
    e.text ++ "; ignored".toList

def unmatchedLine (fingerprint : Text) : Text :=
  "Distrust\\".toList ++ fingerprint ++
    (" matches no certificate in the store; it stays " ++
      "in force in case one arrives").toList

/- The state with one more fingerprint seen. -/
def Composing.next
    (acc : Composing)
    (out : Composed)
    (r : Entry) :
    Composing where
  out := out
  seen := acc.seen ++ [r.fingerprint]

/- The exits of `push`. -/
inductive Pushed
    (distrust : List Text)
    (acc : Composing)
    (r : Entry) :
    Composing → Prop where
  | refused
      (hDistrust : r.fingerprint ∈ distrust) :
      Pushed distrust acc r
        (acc.next (acc.out.warn (refusalLine r)) r)
  | repeated
      (hFree : r.fingerprint ∉ distrust)
      (hHeld : r.fingerprint ∈
        acc.out.roots.map Entry.fingerprint)
      (hAdded : r.source = .added) :
      Pushed distrust acc r
        (acc.next (acc.out.warn (repeatLine r)) r)
  | shippedAgain
      (hFree : r.fingerprint ∉ distrust)
      (hHeld : r.fingerprint ∈
        acc.out.roots.map Entry.fingerprint)
      (hShipped : r.source ≠ .added) :
      Pushed distrust acc r (acc.next acc.out r)
  | kept
      (hFree : r.fingerprint ∉ distrust)
      (hNew : r.fingerprint ∉
        acc.out.roots.map Entry.fingerprint) :
      Pushed distrust acc r (acc.next
        { acc.out with roots := acc.out.roots ++ [r] } r)

theorem push_cases
    (distrust : List Text)
    (acc : Composing)
    (r : Entry) :
    Pushed distrust acc r (push distrust acc r) := by
  have hAny : (acc.out.roots.any (fun b =>
      b.parsed.fingerprint == r.parsed.fingerprint) = true) ↔
      r.fingerprint ∈
        acc.out.roots.map Entry.fingerprint := by
    rw [List.any_eq_true, List.mem_map]
    simp only [beq_iff_eq]
    rfl
  have hContains : (distrust.contains
      r.parsed.fingerprint = true) ↔
      r.fingerprint ∈ distrust := by
    rw [List.contains_iff_mem]
    rfl
  unfold push
  dsimp only
  by_cases hDistrust : r.fingerprint ∈ distrust
  · rw [if_pos (hContains.mpr hDistrust)]
    exact .refused hDistrust
  rw [if_neg (fun h => hDistrust (hContains.mp h))]
  by_cases hHeld :
      r.fingerprint ∈ acc.out.roots.map Entry.fingerprint
  · rw [if_pos (hAny.mpr hHeld)]
    split_ifs with hAdded
    · exact .repeated hDistrust hHeld hAdded
    · exact .shippedAgain hDistrust hHeld hAdded
  · rw [if_neg (fun h => hHeld (hAny.mp h))]
    exact .kept hDistrust hHeld

/- A candidate that is not kept changes nothing held. -/
theorem Tallies.held_same
    {distrust : List Text}
    {acc : Composing}
    {failed parsed : Nat}
    {candidates : List Entry}
    (hTallies : Tallies distrust acc failed parsed candidates)
    {r : Entry}
    (hCovered : r.fingerprint ∉ distrust →
      r.fingerprint ∈ acc.out.roots.map Entry.fingerprint)
    (f : Text) :
    f ∈ acc.out.roots.map Entry.fingerprint ↔
      f ∉ distrust ∧
        f ∈ (candidates ++ [r]).map Entry.fingerprint := by
  rw [List.map_append, List.mem_append, List.map_singleton,
    List.mem_singleton, hTallies.held]
  constructor
  · rintro ⟨hFree, hMem⟩
    exact ⟨hFree, Or.inl hMem⟩
  · rintro ⟨hFree, hMem | rfl⟩
    · exact ⟨hFree, hMem⟩
    · exact (hTallies.held _).mp (hCovered hFree)

/- What one more candidate does to the tallies. -/
theorem Tallies.push
    {distrust : List Text}
    {acc : Composing}
    {failed parsed : Nat}
    {candidates : List Entry}
    (hTallies : Tallies distrust acc failed parsed candidates)
    (r : Entry) :
    Tallies distrust (push distrust acc r) failed parsed
      (candidates ++ [r]) := by
  have hHeldIff := hTallies.held r.fingerprint
  have hRoots := hTallies.roots
  have hWarnings := hTallies.warnings
  have hRefused := length_refused_snoc distrust candidates r
  have hRepeated := repeated_snoc distrust candidates r
  have hSeen : acc.seen ++ [r.fingerprint] =
      (candidates ++ [r]).map Entry.fingerprint := by
    rw [hTallies.seen, List.map_append]
    rfl
  generalize hNext : Store.push distrust acc r = next
  have hCases := push_cases distrust acc r
  rw [hNext] at hCases
  cases hCases with
  | refused hDistrust =>
      rw [if_pos hDistrust] at hRefused
      rw [if_neg (fun h => h.1 hDistrust), List.append_nil]
        at hRepeated
      refine ⟨hTallies.skipped, hTallies.parsed, hSeen,
        hTallies.held_same (fun hFree =>
          absurd hDistrust hFree), ?_, ?_⟩
      · rw [hRefused, hRepeated, List.length_append]
        change acc.out.roots.length + _ + _ = _
        simp only [List.length_singleton]
        omega
      · rw [hRefused, hRepeated]
        change (acc.out.warnings ++ [_]).length = _
        rw [List.length_append, List.length_singleton]
        omega
  | repeated hFree hHeld hAdded =>
      have hAgain := hHeldIff.mp hHeld
      rw [if_neg hFree] at hRefused
      rw [if_pos hAgain] at hRepeated
      refine ⟨hTallies.skipped, hTallies.parsed, hSeen,
        hTallies.held_same (fun _ => hHeld), ?_, ?_⟩
      · rw [hRefused, hRepeated, List.length_append,
          List.length_append]
        change acc.out.roots.length + _ + _ = _
        simp only [List.length_singleton]
        omega
      · rw [hRefused, hRepeated, fromAdditions_append,
          List.length_append, fromAdditions_singleton,
          if_pos hAdded]
        change (acc.out.warnings ++ [_]).length = _
        rw [List.length_append, List.length_singleton]
        omega
  | shippedAgain hFree hHeld hShipped =>
      have hAgain := hHeldIff.mp hHeld
      rw [if_neg hFree] at hRefused
      rw [if_pos hAgain] at hRepeated
      refine ⟨hTallies.skipped, hTallies.parsed, hSeen,
        hTallies.held_same (fun _ => hHeld), ?_, ?_⟩
      · rw [hRefused, hRepeated, List.length_append,
          List.length_append]
        change acc.out.roots.length + _ + _ = _
        simp only [List.length_singleton]
        omega
      · rw [hRefused, hRepeated, fromAdditions_append,
          List.length_append, fromAdditions_singleton,
          if_neg hShipped]
        exact hWarnings
  | kept hFree hNew =>
      have hFirst : r.fingerprint ∉
          candidates.map Entry.fingerprint :=
        fun hMem => hNew (hHeldIff.mpr ⟨hFree, hMem⟩)
      rw [if_neg hFree] at hRefused
      rw [if_neg (fun h => hFirst h.2), List.append_nil]
        at hRepeated
      refine ⟨hTallies.skipped, hTallies.parsed, hSeen, ?_, ?_,
        ?_⟩
      · intro f
        change f ∈ (acc.out.roots ++ [r]).map
          Entry.fingerprint ↔ _
        rw [List.map_append, List.mem_append, hTallies.held,
          List.map_append, List.mem_append,
          List.map_singleton, List.mem_singleton]
        constructor
        · rintro (⟨hOther, hMem⟩ | rfl)
          · exact ⟨hOther, Or.inl hMem⟩
          · exact ⟨hFree, Or.inr rfl⟩
        · rintro ⟨hOther, hMem | hSame⟩
          · exact Or.inl ⟨hOther, hMem⟩
          · exact Or.inr hSame
      · rw [hRefused, hRepeated]
        change (acc.out.roots ++ [r]).length + _ + _ = _
        simp only [List.length_append, List.length_singleton]
        omega
      · rw [hRefused, hRepeated]
        exact hWarnings

end Store

end Trustd

------------------------------------------------------------
-- The Loops
------------------------------------------------------------

namespace Trustd

namespace Store

open General Cert

section

variable {distrust : List Text}
variable {acc : Composing}
variable {failed parsed : Nat}
variable {candidates : List Entry}

/- A certificate that does not parse is one more line. -/
theorem Tallies.skip
    (hTallies : Tallies distrust acc failed parsed candidates)
    (line : Text) :
    Tallies distrust
      { acc with out := { acc.out.warn line with
          skipped := (acc.out.warn line).skipped + 1 } }
      (failed + 1) parsed candidates where
  skipped := congrArg (· + 1) hTallies.skipped
  parsed := hTallies.parsed
  seen := hTallies.seen
  held := hTallies.held
  roots := hTallies.roots
  warnings := by
    have hWarnings := hTallies.warnings
    change (acc.out.warnings ++ [line]).length = _
    rw [List.length_append, List.length_singleton]
    omega

theorem Tallies.countShipped
    (hTallies : Tallies distrust acc failed parsed candidates) :
    Tallies distrust
      { acc with out.shipped := acc.out.shipped + 1 }
      failed (parsed + 1) candidates where
  skipped := hTallies.skipped
  parsed := by
    have hParsed := hTallies.parsed
    dsimp only
    omega
  seen := hTallies.seen
  held := hTallies.held
  roots := hTallies.roots
  warnings := hTallies.warnings

theorem Tallies.countAdded
    (hTallies : Tallies distrust acc failed parsed candidates) :
    Tallies distrust
      { acc with out.added := acc.out.added + 1 }
      failed (parsed + 1) candidates where
  skipped := hTallies.skipped
  parsed := by
    have hParsed := hTallies.parsed
    dsimp only
    omega
  seen := hTallies.seen
  held := hTallies.held
  roots := hTallies.roots
  warnings := hTallies.warnings

end

section

variable {parseCert :
  Bytes → Option Int → Except Cert.Error Parsed}
variable (distrust : List Text)

/- A turn that is about a candidate or about none. -/
def Turns
    {β : Type}
    (step : Composing → β → Composing)
    (entryOf : β → Option Entry) :
    Prop :=
  ∀ acc failed parsed candidates b,
    Tallies distrust acc failed parsed candidates →
      match entryOf b with
      | some r => Tallies distrust (step acc b) failed
          (parsed + 1) (candidates ++ [r])
      | none => Tallies distrust (step acc b) (failed + 1)
          parsed candidates

theorem pushShipped_turns :
    Turns distrust (pushShipped parseCert distrust)
      (fun der => (parseCert der none).toOption.map
        shippedEntry) := by
  intro acc failed parsed candidates der hTallies
  dsimp only
  unfold pushShipped
  cases parseCert der none with
  | error e => exact hTallies.skip _
  | ok p => exact hTallies.countShipped.push (shippedEntry p)

theorem pushAddition_turns (now : Option Int) :
    Turns distrust (pushAddition parseCert distrust now)
      (fun addition =>
        (parseCert addition.der now).toOption.map
          (addedEntry addition)) := by
  intro acc failed parsed candidates addition hTallies
  dsimp only
  unfold pushAddition
  cases parseCert addition.der now with
  | error e => exact hTallies.skip _
  | ok p => exact hTallies.countAdded.push (addedEntry addition p)

/- A loop of such turns. -/
theorem foldl_tallies
    {β : Type}
    {step : Composing → β → Composing}
    {entryOf : β → Option Entry}
    (hTurns : Turns distrust step entryOf)
    (l : List β)
    {acc : Composing}
    {failed parsed : Nat}
    {candidates : List Entry}
    (hTallies : Tallies distrust acc failed parsed candidates) :
    ∃ failed',
      failed' + (l.filterMap entryOf).length =
        failed + l.length ∧
      Tallies distrust (l.foldl step acc) failed'
        (parsed + (l.filterMap entryOf).length)
        (candidates ++ l.filterMap entryOf) := by
  induction l generalizing acc failed parsed candidates with
  | nil => exact ⟨failed, rfl, by simpa using hTallies⟩
  | cons b rest ih =>
      have hTurn := hTurns acc failed parsed candidates b
        hTallies
      rw [List.foldl_cons, List.filterMap_cons]
      cases hEntry : entryOf b with
      | none =>
          dsimp only
          rw [hEntry] at hTurn
          rcases ih hTurn with ⟨failed', hCount, hRest⟩
          refine ⟨failed', ?_, hRest⟩
          rw [List.length_cons]
          omega
      | some r =>
          dsimp only
          rw [hEntry] at hTurn
          rcases ih hTurn with ⟨failed', hCount, hRest⟩
          refine ⟨failed', ?_, ?_⟩
          · simp only [List.length_cons]
            omega
          · rw [List.append_assoc] at hRest
            rw [List.length_cons, Nat.add_comm _ 1,
              ← Nat.add_assoc]
            exact hRest

theorem warnUnmatched_eq
    (seen : List Text)
    (out : Composed)
    (f : Text) :
    warnUnmatched seen out f =
      if f ∈ seen then out else out.warn (unmatchedLine f) := by
  have hAny : (seen.any (fun g => g == f) = true) ↔
      f ∈ seen := by
    rw [List.any_eq_true]
    simp only [beq_iff_eq, exists_eq_right]
  unfold warnUnmatched
  by_cases hSeen : f ∈ seen
  · rw [if_pos (hAny.mpr hSeen), if_pos hSeen]
  · rw [if_neg (fun h => hSeen (hAny.mp h)), if_neg hSeen]
    rfl

/- The distrusts that match nothing are a line each. -/
theorem foldl_warnUnmatched
    (seen : List Text)
    (fingerprints : List Text)
    (out : Composed) :
    fingerprints.foldl (warnUnmatched seen) out =
      { out with
        warnings := out.warnings ++ List.map unmatchedLine
          (fingerprints.filter (· ∉ seen)) } := by
  induction fingerprints generalizing out with
  | nil => simp
  | cons f rest ih =>
      rw [List.foldl_cons, ih, List.filter_cons,
        warnUnmatched_eq]
      by_cases hSeen : f ∈ seen
      · rw [if_pos hSeen, if_neg (by simpa using hSeen)]
      · rw [if_neg hSeen, if_pos (by simpa using hSeen),
          List.map_cons, ← List.singleton_append,
          ← List.append_assoc]
        rfl

end

end Store

end Trustd

------------------------------------------------------------
-- Lines Of The Log
------------------------------------------------------------

namespace Trustd

namespace Store

open General Cert

/- A candidate that is held, or that a line is about. -/
def Told
    (distrust : List Text)
    (r : Entry)
    (out : Composed) :
    Prop :=
  if r.fingerprint ∈ distrust then
    refusalLine r ∈ out.warnings
  else
    r ∈ out.roots ∨
      (r.source = .added → repeatLine r ∈ out.warnings)

/- Nothing is taken back. -/
structure Grows (out out' : Composed) : Prop where
  roots : out.roots ⊆ out'.roots
  warnings : out.warnings ⊆ out'.warnings

theorem Told.mono
    {distrust : List Text}
    {r : Entry}
    {out out' : Composed}
    (hTold : Told distrust r out)
    (hGrows : Grows out out') :
    Told distrust r out' := by
  unfold Told at hTold ⊢
  split_ifs at hTold ⊢ with hDistrust
  · exact hGrows.warnings hTold
  · rcases hTold with hRoot | hLine
    · exact Or.inl (hGrows.roots hRoot)
    · exact Or.inr (fun hAdded =>
        hGrows.warnings (hLine hAdded))

theorem grows_warn
    (out : Composed)
    (line : Text) :
    Grows out (out.warn line) where
  roots := List.Subset.refl _
  warnings := List.subset_append_left _ _

theorem push_told
    (distrust : List Text)
    (acc : Composing)
    (r : Entry) :
    Grows acc.out (push distrust acc r).out ∧
      Told distrust r (push distrust acc r).out := by
  generalize hNext : push distrust acc r = next
  have hCases := push_cases distrust acc r
  rw [hNext] at hCases
  have hLast : ∀ line, line ∈ (acc.out.warn line).warnings :=
    fun line => List.mem_append_right _
      (List.mem_singleton_self line)
  unfold Told
  cases hCases with
  | refused hDistrust =>
      rw [if_pos hDistrust]
      exact ⟨grows_warn _ _, hLast _⟩
  | repeated hFree hHeld hAdded =>
      rw [if_neg hFree]
      exact ⟨grows_warn _ _, Or.inr (fun _ => hLast _)⟩
  | shippedAgain hFree hHeld hShipped =>
      rw [if_neg hFree]
      exact ⟨⟨List.Subset.refl _, List.Subset.refl _⟩,
        Or.inr (fun hAdded => absurd hAdded hShipped)⟩
  | kept hFree hNew =>
      rw [if_neg hFree]
      exact ⟨⟨List.subset_append_left _ _,
        List.Subset.refl _⟩, Or.inl (List.mem_append_right _
          (List.mem_singleton_self r))⟩

section

variable (parseCert :
  Bytes → Option Int → Except Cert.Error Parsed)
variable (distrust : List Text)
variable (now : Option Int)

/- A certificate of the bundle, and an addition. -/
def ShippedTold (der : Bytes) (out : Composed) : Prop :=
  match parseCert der none with
  | .ok parsed => Told distrust (shippedEntry parsed) out
  | .error e =>
      ("the shipped bundle holds an entry that is ".toList ++
        e.text) ∈ out.warnings

def AdditionTold
    (addition : Addition)
    (out : Composed) :
    Prop :=
  match parseCert addition.der now with
  | .ok parsed => Told distrust (addedEntry addition parsed) out
  | .error e => ignoredLine addition e ∈ out.warnings

variable {parseCert distrust now}

theorem ShippedTold.mono
    {der : Bytes}
    {out out' : Composed}
    (hTold : ShippedTold parseCert distrust der out)
    (hGrows : Grows out out') :
    ShippedTold parseCert distrust der out' := by
  unfold ShippedTold at hTold ⊢
  cases hParse : parseCert der none with
  | error e =>
      rw [hParse] at hTold
      exact hGrows.warnings hTold
  | ok parsed =>
      rw [hParse] at hTold
      exact hTold.mono hGrows

theorem AdditionTold.mono
    {addition : Addition}
    {out out' : Composed}
    (hTold : AdditionTold parseCert distrust now addition out)
    (hGrows : Grows out out') :
    AdditionTold parseCert distrust now addition out' := by
  unfold AdditionTold at hTold ⊢
  cases hParse : parseCert addition.der now with
  | error e =>
      rw [hParse] at hTold
      exact hGrows.warnings hTold
  | ok parsed =>
      rw [hParse] at hTold
      exact hTold.mono hGrows

/- A turn of either loop says what it is about. -/
theorem pushShipped_told
    (acc : Composing)
    (der : Bytes) :
    Grows acc.out (pushShipped parseCert distrust acc der).out ∧
      ShippedTold parseCert distrust der
        (pushShipped parseCert distrust acc der).out := by
  unfold pushShipped ShippedTold
  cases parseCert der none with
  | error e =>
      exact ⟨⟨List.Subset.refl _, List.subset_append_left _ _⟩,
        List.mem_append_right _ (List.mem_singleton_self _)⟩
  | ok parsed =>
      rcases push_told distrust
          { acc with out.shipped := acc.out.shipped + 1 }
          (shippedEntry parsed) with ⟨hGrows, hTold⟩
      exact ⟨⟨hGrows.roots, hGrows.warnings⟩, hTold⟩

theorem pushAddition_told
    (acc : Composing)
    (addition : Addition) :
    Grows acc.out
        (pushAddition parseCert distrust now acc addition).out ∧
      AdditionTold parseCert distrust now addition
        (pushAddition parseCert distrust now acc
          addition).out := by
  unfold pushAddition AdditionTold
  cases parseCert addition.der now with
  | error e =>
      exact ⟨⟨List.Subset.refl _, List.subset_append_left _ _⟩,
        List.mem_append_right _ (List.mem_singleton_self _)⟩
  | ok parsed =>
      rcases push_told distrust
          { acc with out.added := acc.out.added + 1 }
          (addedEntry addition parsed) with ⟨hGrows, hTold⟩
      exact ⟨⟨hGrows.roots, hGrows.warnings⟩, hTold⟩

/- After both loops everything has been said. -/
theorem loops_told
    (shipped : List Bytes)
    (additions : List Addition) :
    let out := (additions.foldl
      (pushAddition parseCert distrust now)
      (shipped.foldl (pushShipped parseCert distrust) {})).out
    (∀ der ∈ shipped,
      ShippedTold parseCert distrust der out) ∧
    ∀ addition ∈ additions,
      AdditionTold parseCert distrust now addition out := by
  intro out
  have hShipped := (@foldl_forall _ _
    (pushShipped parseCert distrust)
    (fun der acc =>
      ShippedTold parseCert distrust der acc.out)
    (fun acc der => (pushShipped_told acc der).2)
    (fun acc der _ hTold =>
      hTold.mono (pushShipped_told acc der).1) shipped {}).1
  have hAdditions := (@foldl_forall _ _
    (pushAddition parseCert distrust now)
    (fun addition acc =>
      AdditionTold parseCert distrust now addition acc.out)
    (fun acc addition => (pushAddition_told acc addition).2)
    (fun acc addition _ hTold =>
      hTold.mono (pushAddition_told acc addition).1) additions
    (shipped.foldl (pushShipped parseCert distrust) {})).1
  refine ⟨fun der hDer => ?_, hAdditions⟩
  exact List.foldlRecOn additions
    (motive := fun acc : Composing =>
      ShippedTold parseCert distrust der acc.out)
    (pushAddition parseCert distrust now) (hShipped der hDer)
    (fun acc hTold addition _ =>
      hTold.mono (pushAddition_told acc addition).1)

end

end Store

end Trustd

------------------------------------------------------------
-- The Accounts
------------------------------------------------------------

namespace Trustd

namespace Store

open General Cert

section

variable (parseCert :
  Bytes → Option Int → Except Cert.Error Parsed)
variable (shipped : List Bytes)
variable (additions : List Addition)
variable (distrust : List Text)
variable (now : Option Int)

/- Whether a distrust is about nothing, or refused something. -/
def DistrustTold (out : Composed) (f : Text) : Prop :=
  let found := candidates parseCert shipped additions now
  if f ∈ found.map Entry.fingerprint then
    ∃ r ∈ found, r.fingerprint = f ∧
      refusalLine r ∈ out.warnings
  else
    unmatchedLine f ∈ out.warnings

/-
  What the counters and the warnings of a composition say of
  the certificates that were found and of the distrusts.
-/
structure Accounted (composed : Composed) : Prop where
  certificates :
    composed.shipped + composed.added + composed.skipped =
      shipped.length + additions.length
  roots :
    composed.roots.length +
      (refused (distrust.map normaliseFingerprint)
        (candidates parseCert shipped additions now)).length +
      (repeated (distrust.map normaliseFingerprint)
        (candidates parseCert shipped additions now)).length =
    composed.shipped + composed.added
  distrusted : composed.distrusted = distrust.length
  warnings :
    composed.warnings.length =
      composed.skipped +
      (refused (distrust.map normaliseFingerprint)
        (candidates parseCert shipped additions now)).length +
      (fromAdditions (repeated
        (distrust.map normaliseFingerprint)
        (candidates parseCert shipped additions now))).length +
      (distrust.filter (fun d => normaliseFingerprint d ∉
        (candidates parseCert shipped additions now).map
          Entry.fingerprint)).length
  shippedTold : ∀ der ∈ shipped,
    ShippedTold parseCert (distrust.map normaliseFingerprint)
      der composed
  additionsTold : ∀ addition ∈ additions,
    AdditionTold parseCert (distrust.map normaliseFingerprint)
      now addition composed
  distrustsTold : ∀ d ∈ distrust,
    DistrustTold parseCert shipped additions now composed
      (normaliseFingerprint d)

variable {parseCert shipped additions distrust now}

/- The tallies when both loops have ended. -/
theorem loops_tallies :
    ∃ failed,
      failed +
          (candidates parseCert shipped additions now).length =
        shipped.length + additions.length ∧
      Tallies distrust
        (additions.foldl (pushAddition parseCert distrust now)
          (shipped.foldl (pushShipped parseCert distrust) {}))
        failed
        (candidates parseCert shipped additions now).length
        (candidates parseCert shipped additions now) := by
  rcases foldl_tallies distrust
      (@pushShipped_turns parseCert distrust) shipped
      (tallies_empty distrust) with
    ⟨failed, hCount, hTallies⟩
  rcases foldl_tallies distrust
      (@pushAddition_turns parseCert distrust now) additions
      hTallies with
    ⟨failed', hCount', hTallies'⟩
  refine ⟨failed', ?_, ?_⟩
  · rw [candidates, shippedEntries, addedEntries,
      List.length_append]
    omega
  · rw [candidates, shippedEntries, addedEntries,
      List.length_append]
    simpa using hTallies'

/- A candidate is told of, as what it was read from is. -/
theorem told_of_candidate
    {out : Composed}
    (hShipped : ∀ der ∈ shipped,
      ShippedTold parseCert distrust der out)
    (hAdditions : ∀ addition ∈ additions,
      AdditionTold parseCert distrust now addition out)
    {r : Entry}
    (hCandidate :
      r ∈ candidates parseCert shipped additions now) :
    Told distrust r out := by
  rcases List.mem_append.mp hCandidate with hMem | hMem
  · rcases List.mem_filterMap.mp hMem with ⟨der, hDer, hEntry⟩
    have hTold := hShipped der hDer
    unfold ShippedTold at hTold
    cases hParse : parseCert der none with
    | error e =>
        rw [hParse] at hEntry
        cases hEntry
    | ok parsed =>
        rw [hParse] at hEntry hTold
        cases hEntry
        exact hTold
  · rcases List.mem_filterMap.mp hMem with
      ⟨addition, hAddition, hEntry⟩
    have hTold := hAdditions addition hAddition
    unfold AdditionTold at hTold
    cases hParse : parseCert addition.der now with
    | error e =>
        rw [hParse] at hEntry
        cases hEntry
    | ok parsed =>
        rw [hParse] at hEntry hTold
        cases hEntry
        exact hTold

/- Whatever certificates are parsed to, all is accounted. -/
theorem composeWith_accounted
    {composed : Composed}
    (hOk : composeWith parseCert shipped additions distrust
      now = .ok composed) :
    Accounted parseCert shipped additions distrust now
      composed := by
  rcases @loops_tallies parseCert shipped additions
      (distrust.map normaliseFingerprint) now with
    ⟨failed, hFound, hTallies⟩
  rcases @loops_told parseCert
      (distrust.map normaliseFingerprint) now shipped
      additions with ⟨hShipped, hAdditions⟩
  unfold composeWith at hOk
  dsimp only at hOk
  rw [foldl_warnUnmatched] at hOk
  split_ifs at hOk with hFew hNone
  cases hOk
  generalize additions.foldl (pushAddition parseCert
    (distrust.map normaliseFingerprint) now)
    (shipped.foldl (pushShipped parseCert
      (distrust.map normaliseFingerprint)) {}) = acc
    at hTallies hShipped hAdditions
  have hSorted := sortRoots_perm acc.out.roots
  have hGrows : Grows acc.out
      { acc.out with
        distrusted := (distrust.map
          normaliseFingerprint).length
        warnings := acc.out.warnings ++ List.map unmatchedLine
          ((distrust.map normaliseFingerprint).filter
            (· ∉ acc.seen))
        roots := sortRoots acc.out.roots } :=
    ⟨fun r hRoot => hSorted.mem_iff.mpr hRoot,
      List.subset_append_left _ _⟩
  have hShippedTold := fun der hDer =>
    (hShipped der hDer).mono hGrows
  have hAdditionsTold := fun addition hAddition =>
    (hAdditions addition hAddition).mono hGrows
  have hSkipped := hTallies.skipped
  have hParsed := hTallies.parsed
  have hRoots := hTallies.roots
  have hWarnings := hTallies.warnings
  refine ⟨?_, ?_, List.length_map _, ?_, hShippedTold,
    hAdditionsTold, ?_⟩
  · dsimp only
    omega
  · dsimp only
    rw [hSorted.length_eq]
    omega
  · dsimp only
    rw [List.length_append, List.length_map, hWarnings,
      hTallies.seen, hSkipped, List.filter_map,
      List.length_map]
    rfl
  · intro d hGiven
    have hDistrust := List.mem_map_of_mem
      (f := normaliseFingerprint) hGiven
    unfold DistrustTold
    dsimp only
    split_ifs with hMatched
    · rcases List.mem_map.mp hMatched with ⟨r, hr, hSame⟩
      have hTold := told_of_candidate hShippedTold
        hAdditionsTold hr
      unfold Told at hTold
      rw [hSame, if_pos hDistrust] at hTold
      exact ⟨r, hr, hSame, hTold⟩
    · apply List.mem_append_right
      refine List.mem_map_of_mem (List.mem_filter.mpr
        ⟨hDistrust, ?_⟩)
      rw [hTallies.seen]
      exact decide_eq_true hMatched

end

/-
  Every certificate that a composition was given is counted,
  every root is one that nothing refused and nothing repeats,
  and what was refused, repeated, unusable or matched nothing
  has a line of its own.
-/
theorem compose_accounts
    (crates : Crates)
    (bundle : Text)
    (additions : List Addition)
    (distrust : List Text)
    (now : Option Int)
    {composed : Composed}
    (hOk : compose crates bundle additions distrust now =
      .ok composed) :
    Accounted (parse crates) (fromPem bundle) additions
      distrust now composed :=
  composeWith_accounted hOk

def corpTwice : List Addition :=
  [{ name := "corp-ca".toList
     der := purposeAdded
     purposes := [] },
   { name := "again".toList
     der := purposeAdded
     purposes := [] }]

/- Fifty blocks that are none, and an addition given twice. -/
theorem compose_accounts_twice :
    ∃ composed,
      compose purposeCrates garbageBundle
        corpTwice ["ab:cd".toList] none = .ok composed ∧
      composed.added = 2 ∧ composed.roots.length = 1 ∧
      composed.warnings.length = 52 ∧
      Accounted (parse purposeCrates) (fromPem garbageBundle)
        corpTwice ["ab:cd".toList] none composed := by
  have hAny : (composeFrom purposeCrates
      (List.replicate minimumShipped [0x00])
      corpTwice ["ab:cd".toList] none).toOption.any
      (fun composed => composed.added = 2 ∧
        composed.roots.length = 1 ∧
        composed.warnings.length = 52) = true := by
    decide +kernel
  rcases exists_ok_of_any hAny with ⟨composed, hRun, hCounts⟩
  have hOk : compose purposeCrates garbageBundle
      corpTwice ["ab:cd".toList] none = .ok composed := by
    unfold compose
    rw [garbageBundle, fromPem_flatMap_toPem]
    exact hRun
  rcases of_decide_eq_true hCounts with
    ⟨hAdded, hRoots, hWarnings⟩
  exact ⟨composed, hOk, hAdded, hRoots, hWarnings,
    compose_accounts purposeCrates garbageBundle _ _ none
      hOk⟩

end Store

end Trustd
