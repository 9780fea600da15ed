import Trustd.General.Firsts
import Trustd.Core.Wire
import Trustd.Daemon.Fingerprints

/-
  The record of a root: its digest, its name and what it is
  trusted for.

  Key definitions include:
    * `Trustd.Audit.purposeValue`
    * `Trustd.Audit.rootPayload`
    * `Trustd.Audit.Kebab`

  Key theorems include:
    * `Trustd.Audit.purposeValue_eq`
    * `Trustd.Audit.rootPurposes_eq`
    * `Trustd.Audit.purposes_recorded`
-/

------------------------------------------------------------
-- Purposes As Values
------------------------------------------------------------

namespace Trustd

namespace Audit

open Store

/- The three variables of the loop. -/
structure Spelling where
  out : Text := []
  previousLower : Bool := false
  pendingHyphen : Bool := false
deriving DecidableEq, Repr

/- One turn of the loop. -/
def spell (s : Spelling) (c : Char) : Spelling :=
  if isAsciiAlphanumeric c then
    let out :=
      if (s.pendingHyphen || (s.previousLower && c.isUpper)) &&
          !s.out.isEmpty then
        s.out ++ ['-']
      else s.out
    { out := out ++ [c.toLower]
      previousLower := c.isLower || c.isDigit
      pendingHyphen := false }
  else
    { s with
      pendingHyphen := true
      previousLower := false }

/- `purpose_value`. -/
def purposeValue (purpose : Text) : Option Text :=
  let out := (purpose.foldl spell {}).out
  if out.isEmpty then none else some out

example :
    purposeValue "Email Protection".toList =
      some "email-protection".toList := by
  decide

end Audit

end Trustd

------------------------------------------------------------
-- The Payload
------------------------------------------------------------

namespace Trustd

namespace Audit

open Cert Store Wire

/- The two lists of the loop over the purposes. -/
structure Gathering where
  seen : List Text := []
  purposes : List Text := []

/- One turn of the loop. -/
def gather (s : Gathering) (p : Text) : Gathering :=
  let folded := p.map Char.toLower
  if s.seen.contains folded then s
  else
    let seen := s.seen ++ [folded]
    match purposeValue p with
    | some v =>
        if s.purposes.contains v then { s with seen }
        else { seen, purposes := s.purposes ++ [v] }
    | none => { s with seen }

def rootPurposes (purposes : List Text) : List Text :=
  (purposes.foldl gather {}).purposes

/- What is written of a certificate. -/
def rootItems
    (digest : Bytes)
    (subject : Text)
    (purposes : List Text) :
    List Item :=
  [.map 1, .str "object".toList,
    .map 1, .str "certificate".toList,
    .map 3, .str "digest".toList, .bin digest,
    .str "name".toList, .str subject,
    .str "purposes".toList,
    .array (purposes.length % 2 ^ 32)] ++
    purposes.map Item.str

/- `root_payload`. -/
def rootPayload
    (mp : MsgPack)
    (crates : Crates)
    (entry : Entry) :
    Bytes :=
  mp.toBytes (rootItems (crates.sha256 entry.parsed.der)
    entry.parsed.subject (rootPurposes entry.purposes))

end Audit

end Trustd

------------------------------------------------------------
-- Kebab Case
------------------------------------------------------------

namespace Trustd

namespace Audit

open General Store

/- Lowercase words with one hyphen between each two. -/
structure Kebab (t : Text) : Prop where
  chars : ∀ c ∈ t,
    c.isLower = true ∨ c.isDigit = true ∨ c = '-'
  spaced : Spaced (fun c => c == '-') t

/- A hyphen at every change from lower to upper case. -/
def parted : Bool → Text → Text
  | _, [] => []
  | previousLower, c :: rest =>
      (if previousLower && c.isUpper then ['-', c] else [c]) ++
        parted (c.isLower || c.isDigit) rest

/- Neither a letter nor a digit. -/
def isBreak (c : Char) : Bool :=
  !isAsciiAlphanumeric c

/- What lowering does to a character. -/
theorem isUpper_ascii
    {c : Char}
    (hUpper : c.isUpper = true) :
    c.toNat < 0x80 := by
  have hRange : c.val ≥ 'A'.val ∧ c.val ≤ 'Z'.val :=
    of_decide_eq_true hUpper
  exact Nat.lt_of_le_of_lt hRange.2 (by decide)

theorem toLower_of_not_isUpper
    {c : Char}
    (hOther : ¬ c.isUpper = true) :
    c.toLower = c :=
  dif_neg (fun hRange => hOther (decide_eq_true hRange))

theorem isUpper_toLower (c : Char) :
    c.toLower.isUpper = false := by
  by_cases hUpper : c.isUpper = true
  · exact @forall_ascii (fun c => c.toLower.isUpper = false)
      (by decide) c (isUpper_ascii hUpper)
  · rw [toLower_of_not_isUpper hUpper]
    exact Bool.eq_false_of_not_eq_true hUpper

theorem map_toLower_toLower (t : Text) :
    (t.map Char.toLower).map Char.toLower =
      t.map Char.toLower := by
  rw [List.map_map]
  refine List.map_congr_left (fun c _ => ?_)
  apply toLower_of_not_isUpper
  rw [isUpper_toLower]
  exact Bool.false_ne_true

theorem isBreak_toLower (c : Char) :
    isBreak c.toLower = isBreak c := by
  by_cases hUpper : c.isUpper = true
  · rw [isBreak, isBreak,
      isAsciiAlphanumeric_toLower (isUpper_ascii hUpper)]
  · rw [toLower_of_not_isUpper hUpper]

theorem kept_classes
    {c : Char}
    (hKept : isBreak c = false) :
    c.toLower.isLower = true ∨ c.toLower.isDigit = true := by
  have hAscii : isAsciiAlphanumeric c = true := by
    simpa [isBreak] using hKept
  exact @forall_ascii
    (fun c => isAsciiAlphanumeric c = true →
      c.toLower.isLower = true ∨ c.toLower.isDigit = true)
    (by decide) c (isAsciiAlphanumeric_ascii hAscii) hAscii

theorem break_classes
    {c : Char}
    (hBreak : isBreak c = true) :
    c.isUpper = false ∧ (c.isLower || c.isDigit) = false := by
  have hOther : isAsciiAlphanumeric c = false := by
    simpa [isBreak] using hBreak
  unfold isAsciiAlphanumeric at hOther
  rw [Bool.or_eq_false_iff, Bool.or_eq_false_iff] at hOther
  rcases hOther with ⟨⟨hDigit, hLower⟩, hUpper⟩
  rw [← Bool.decide_and] at hUpper
  rw [Bool.or_eq_false_iff]
  exact ⟨hUpper, hLower, hDigit⟩

theorem spell_break
    (s : Spelling)
    {c : Char}
    (hBreak : isBreak c = true) :
    spell s c =
      { s with
        pendingHyphen := true
        previousLower := false } := by
  have hNotKept : isAsciiAlphanumeric c = false := by
    simpa [isBreak] using hBreak
  rw [spell, hNotKept]
  rfl

/- The hyphen that comes before a character, if one does. -/
def hyphen (started edge : Bool) : Text :=
  if started && edge then ['-'] else []

theorem spell_kept
    (s : Spelling)
    {c : Char}
    (hKept : isBreak c = false) :
    spell s c =
      { out := s.out ++ hyphen (!s.out.isEmpty)
          (s.pendingHyphen || (s.previousLower && c.isUpper))
            ++ [c.toLower]
        previousLower := c.isLower || c.isDigit
        pendingHyphen := false } := by
  have hAscii : isAsciiAlphanumeric c = true := by
    simpa [isBreak] using hKept
  rw [spell, hAscii, if_pos rfl, Bool.and_comm, hyphen]
  dsimp only
  split_ifs
  · rfl
  · rw [List.append_nil]

/- A kept character, with or without a hyphen of its own. -/
theorem squeeze_parted
    (started pending edge : Bool)
    {c : Char}
    (hKept : isBreak c = false)
    (rest : Text) :
    squeeze isBreak '-' started pending
        ((if edge then ['-', c] else [c]) ++ rest) =
      hyphen started (pending || edge) ++
        c :: squeeze isBreak '-' true false rest := by
  have hHyphen : isBreak '-' = true := by decide
  cases edge with
  | true =>
      rw [if_pos rfl, List.cons_append,
        squeeze_spacing _ _ _ _ hHyphen,
        List.singleton_append, squeeze_kept _ _ _ _ hKept,
        Bool.or_true]
      rfl
  | false =>
      rw [if_neg (by decide), List.singleton_append,
        squeeze_kept _ _ _ _ hKept, Bool.or_false]
      rfl

theorem map_hyphen (started edge : Bool) :
    (hyphen started edge).map Char.toLower =
      hyphen started edge := by
  unfold hyphen
  split_ifs
  · rfl
  · rfl

/- What the loop adds is the rest of the text, squeezed. -/
theorem foldl_spell
    (s : Spelling)
    (t : Text) :
    (t.foldl spell s).out =
      s.out ++ List.map Char.toLower
        (squeeze isBreak '-' (!s.out.isEmpty)
          s.pendingHyphen (parted s.previousLower t)) := by
  induction t generalizing s with
  | nil => simp [parted]
  | cons c rest ih =>
      rw [List.foldl_cons, ih, parted]
      cases hBreak : isBreak c with
      | true =>
          rcases break_classes hBreak with ⟨hUpper, hLower⟩
          rw [spell_break s hBreak, hUpper, hLower,
            Bool.and_false, if_neg (by decide),
            List.singleton_append,
            squeeze_spacing _ _ _ _ hBreak]
      | false =>
          rw [spell_kept s hBreak, squeeze_parted _ _ _ hBreak,
            List.map_append, map_hyphen]
          have hSome : ∀ gap, (s.out ++ gap ++
              [c.toLower]).isEmpty = false := by
            intro gap
            rw [List.isEmpty_eq_false_iff]
            exact List.append_ne_nil_of_right_ne_nil _
              (List.cons_ne_nil _ _)
          dsimp only
          rw [hSome, List.append_assoc, List.append_assoc]
          rfl

/- The loop lowers the text, parted and squeezed. -/
theorem purposeValue_eq (purpose : Text) :
    purposeValue purpose =
      let value := List.map Char.toLower
        (squeeze isBreak '-' false false (parted false purpose))
      if value.isEmpty then none else some value := by
  unfold purposeValue
  rw [foldl_spell]
  rfl

end Audit

end Trustd

------------------------------------------------------------
-- What A Value Is
------------------------------------------------------------

namespace Trustd

namespace Audit

open General Store

/- The letters and digits are not touched by the parting. -/
theorem filter_parted
    (previousLower : Bool)
    (t : Text) :
    (parted previousLower t).filter isAsciiAlphanumeric =
      t.filter isAsciiAlphanumeric := by
  induction t generalizing previousLower with
  | nil => rfl
  | cons c rest ih =>
      have hHyphen : isAsciiAlphanumeric '-' = false := by
        decide
      have hOne : List.filter isAsciiAlphanumeric ['-', c] =
          List.filter isAsciiAlphanumeric [c] := by
        rw [List.filter_cons_of_neg (by simpa using hHyphen)]
      have hCons : List.filter isAsciiAlphanumeric (c :: rest) =
          List.filter isAsciiAlphanumeric [c] ++
            List.filter isAsciiAlphanumeric rest :=
        List.filter_append [c] rest
      rw [parted, List.filter_append, ih, hCons]
      split_ifs
      · rw [hOne]
      · rfl

/- Text with no capital in it has no such change. -/
theorem parted_of_lower
    (previousLower : Bool)
    {t : Text}
    (hLower : ∀ c ∈ t, c.isUpper = false) :
    parted previousLower t = t := by
  induction t generalizing previousLower with
  | nil => rfl
  | cons c rest ih =>
      rw [List.forall_mem_cons] at hLower
      rw [parted, hLower.1, Bool.and_false,
        if_neg (by decide), ih _ hLower.2]
      rfl

/- A text that may be a value, and whose. -/
structure Stands (purpose value : Text) : Prop where
  kebab : Kebab value
  letters : value.filter isAsciiAlphanumeric =
    (purpose.filter isAsciiAlphanumeric).map Char.toLower
  fixed : purposeValue value = some value

/- The text as the loop reads it, its case kept. -/
def hyphenated (purpose : Text) : Text :=
  squeeze isBreak '-' false false (parted false purpose)

theorem purposeValue_eq_some_iff
    {purpose value : Text} :
    purposeValue purpose = some value ↔
      hyphenated purpose ≠ [] ∧
        value = (hyphenated purpose).map Char.toLower := by
  rw [purposeValue_eq]
  change (if (List.map Char.toLower
    (hyphenated purpose)).isEmpty = true then none
      else some _) = some value ↔ _
  split_ifs with hEmpty
  · rw [List.isEmpty_iff, List.map_eq_nil_iff] at hEmpty
    simp [hEmpty]
  · rw [List.isEmpty_iff, List.map_eq_nil_iff] at hEmpty
    simp only [Option.some.injEq, ne_eq, hEmpty,
      not_false_eq_true, true_and]
    exact eq_comm

theorem filter_hyphenated (purpose : Text) :
    (hyphenated purpose).filter isAsciiAlphanumeric =
      purpose.filter isAsciiAlphanumeric := by
  have hSpacing : ∀ c, isBreak c = true →
      isAsciiAlphanumeric c = false := by
    intro c hBreak
    simpa [isBreak] using hBreak
  rw [hyphenated, filter_squeeze (by decide) hSpacing,
    filter_parted]

/- Nothing is left of a text without letters and digits. -/
theorem hyphenated_eq_nil_iff
    {purpose : Text} :
    hyphenated purpose = [] ↔
      ∀ c ∈ purpose, isAsciiAlphanumeric c = false := by
  have hLetters := filter_hyphenated purpose
  have hSpaced := spaced_squeeze isBreak '-' false
    (parted false purpose)
  change Spaced isBreak (hyphenated purpose) at hSpaced
  constructor
  · intro hNil c hc
    rw [hNil, List.filter_nil] at hLetters
    have hNone := List.filter_eq_nil_iff.mp hLetters.symm c hc
    rwa [Bool.not_eq_true] at hNone
  · intro hNone
    have hNothing :
        purpose.filter isAsciiAlphanumeric = [] := by
      rw [List.filter_eq_nil_iff]
      intro c hc
      rw [hNone c hc]
      exact Bool.false_ne_true
    rw [hNothing, List.filter_eq_nil_iff] at hLetters
    cases hText : hyphenated purpose with
    | nil => rfl
    | cons c rest =>
        rw [hText] at hSpaced hLetters
        have hFirst := hSpaced.first c rfl
        have hOther := hLetters c List.mem_cons_self
        simp [isBreak, hOther] at hFirst

theorem purposeValue_eq_none_iff
    {purpose : Text} :
    purposeValue purpose = none ↔
      ∀ c ∈ purpose, isAsciiAlphanumeric c = false := by
  rw [← hyphenated_eq_nil_iff, Option.eq_none_iff_forall_ne_some]
  simp only [ne_eq, purposeValue_eq_some_iff, not_and]
  constructor
  · intro hNone
    by_contra hSome
    exact hNone _ hSome rfl
  · intro hNil value hSome
    exact absurd hNil hSome

theorem kebab_hyphenated (purpose : Text) :
    Kebab ((hyphenated purpose).map Char.toLower) where
  chars c hc := by
    rcases List.mem_map.mp hc with ⟨d, hd, rfl⟩
    rcases mem_squeeze _ _ _ _ _ hd with rfl | ⟨-, hKept⟩
    · exact Or.inr (Or.inr rfl)
    · rcases kept_classes hKept with hLower | hDigit
      · exact Or.inl hLower
      · exact Or.inr (Or.inl hDigit)
  spaced := by
    refine (spaced_squeeze isBreak '-' false _).map ?_
    intro c hKept
    rw [beq_eq_false_iff_ne]
    intro hHyphen
    rw [← isBreak_toLower, hHyphen] at hKept
    revert hKept
    decide

/- A value is read as itself. -/
theorem hyphenated_value (purpose : Text) :
    hyphenated ((hyphenated purpose).map Char.toLower) =
      (hyphenated purpose).map Char.toLower := by
  have hLower : ∀ c ∈ (hyphenated purpose).map Char.toLower,
      c.isUpper = false := by
    intro c hc
    rcases List.mem_map.mp hc with ⟨d, -, rfl⟩
    exact isUpper_toLower d
  have hAgain : squeeze isBreak '-' false false
      (hyphenated purpose) = hyphenated purpose :=
    squeeze_squeeze (by decide) false false _
  rw [hyphenated, parted_of_lower false hLower,
    squeeze_map isBreak_toLower (by decide), hAgain]

theorem purposeValue_stands
    {purpose value : Text}
    (hValue : purposeValue purpose = some value) :
    Stands purpose value := by
  rcases purposeValue_eq_some_iff.mp hValue with ⟨hNe, rfl⟩
  have hClass : isAsciiAlphanumeric ∘ Char.toLower =
      isAsciiAlphanumeric := by
    funext c
    have hSame := isBreak_toLower c
    unfold isBreak at hSame
    exact Bool.not_inj hSame
  refine ⟨kebab_hyphenated purpose, ?_, ?_⟩
  · rw [List.filter_map, hClass, filter_hyphenated]
  · rw [purposeValue_eq_some_iff, hyphenated_value,
      map_toLower_toLower]
    refine ⟨?_, rfl⟩
    rw [ne_eq, List.map_eq_nil_iff]
    exact hNe

end Audit

end Trustd

------------------------------------------------------------
-- The Purposes Of A Record
------------------------------------------------------------

namespace Trustd

namespace Audit

open Cert General Store Wire

/- The spelling that decides the value of a purpose. -/
def spelling (purposes : List Text) (p : Text) : Option Text :=
  purposes.find? (fun q => Text.eqIgnoreAsciiCase q p)

/- Of one turn, for a purpose met before and for a new one. -/
theorem gather_seen
    {s : Gathering}
    {p : Text}
    (hSeen : p.map Char.toLower ∈ s.seen) :
    gather s p = s := by
  unfold gather
  exact if_pos (List.contains_iff_mem.mpr hSeen)

theorem gather_new
    {s : Gathering}
    {p : Text}
    (hNew : p.map Char.toLower ∉ s.seen) :
    gather s p =
      { seen := s.seen ++ [p.map Char.toLower]
        purposes := (purposeValue p).toList.foldl
          (keepNew id (fun _ => false)) s.purposes } := by
  unfold gather
  dsimp only
  rw [if_neg (fun h => hNew (List.contains_iff_mem.mp h))]
  cases purposeValue p with
  | none => rfl
  | some v =>
      dsimp only
      rw [Option.toList_some, List.foldl_cons, List.foldl_nil,
        keepNew, if_neg Bool.false_ne_true]
      by_cases hHeld : v ∈ s.purposes
      · rw [if_pos (List.contains_iff_mem.mpr hHeld),
          if_pos (by simpa using hHeld)]
      · rw [if_neg (fun h =>
            hHeld (List.contains_iff_mem.mp h)),
          if_neg (by simpa using hHeld)]

/- What the loop adds to what it had met and written. -/
theorem foldl_gather
    (s : Gathering)
    (purposes : List Text) :
    (purposes.foldl gather s).purposes =
      (((firsts (List.map Char.toLower) purposes).filter
        (fun p => p.map Char.toLower ∉ s.seen)).filterMap
          purposeValue).foldl (keepNew id (fun _ => false))
            s.purposes := by
  induction purposes generalizing s with
  | nil => rfl
  | cons p rest ih =>
      rw [List.foldl_cons, ih, firsts, List.filter_cons,
        List.filter_filter]
      by_cases hSeen : p.map Char.toLower ∈ s.seen
      · rw [gather_seen hSeen, if_neg (by simpa using hSeen)]
        congr 2
        refine List.filter_congr (fun q _ => ?_)
        by_cases hSame : q.map Char.toLower = p.map Char.toLower
        · simp [hSame, hSeen]
        · simp [hSame]
      · rw [gather_new hSeen, if_pos (by simpa using hSeen),
          List.filterMap_cons]
        have hRest : ((firsts (List.map Char.toLower)
            rest).filter (fun q => q.map Char.toLower ∉
              s.seen ++ [p.map Char.toLower])) =
            ((firsts (List.map Char.toLower) rest).filter
              (fun q => decide (q.map Char.toLower ∉ s.seen) &&
                decide (q.map Char.toLower ≠
                  p.map Char.toLower))) := by
          refine List.filter_congr (fun q _ => ?_)
          simp
        dsimp only
        rw [hRest]
        cases purposeValue p with
        | none => rfl
        | some v => rfl

/- The values of the first spellings, each once. -/
theorem rootPurposes_eq (purposes : List Text) :
    rootPurposes purposes =
      firsts id ((firsts (List.map Char.toLower)
        purposes).filterMap purposeValue) := by
  unfold rootPurposes
  rw [foldl_gather, foldl_keepNew]
  simp

/- What a record says of the purposes of its root. -/
structure Recorded (purposes values : List Text) : Prop where
  distinct : values.Nodup
  meant : ∀ v ∈ values, ∃ p ∈ purposes,
    purposeValue p = some v ∧ Stands p v
  represented : ∀ p ∈ purposes,
    (∃ c ∈ p, isAsciiAlphanumeric c = true) →
      ∃ q v, spelling purposes p = some q ∧
        purposeValue q = some v ∧ v ∈ values

/- Spellings of one purpose have letters or digits alike. -/
theorem value_of_spelling
    {p q : Text}
    (hSame : Text.eqIgnoreAsciiCase q p = true)
    (hLetters : ∃ c ∈ p, isAsciiAlphanumeric c = true) :
    ∃ v, purposeValue q = some v := by
  rcases hLetters with ⟨c, hc, hLetter⟩
  have hFolded : q.map Char.toLower = p.map Char.toLower :=
    eq_of_beq hSame
  have hMem : c.toLower ∈ q.map Char.toLower :=
    hFolded ▸ List.mem_map_of_mem hc
  rcases List.mem_map.mp hMem with ⟨d, hd, hLower⟩
  rw [← Option.ne_none_iff_exists', ne_eq,
    purposeValue_eq_none_iff]
  intro hNone
  have hBreak : isBreak c = isBreak d := by
    rw [← isBreak_toLower c, ← hLower, isBreak_toLower]
  simp [isBreak, hLetter, hNone d hd] at hBreak

theorem rootPurposes_recorded (purposes : List Text) :
    Recorded purposes (rootPurposes purposes) where
  distinct := by
    have hNodup := @nodup_firsts _ _ _ id
      ((firsts (List.map Char.toLower) purposes).filterMap
        purposeValue)
    rwa [List.map_id, ← rootPurposes_eq] at hNodup
  meant v hv := by
    rw [rootPurposes_eq] at hv
    rcases List.mem_filterMap.mp (mem_of_mem_firsts hv) with
      ⟨p, hp, hValue⟩
    exact ⟨p, mem_of_mem_firsts hp, hValue,
      purposeValue_stands hValue⟩
  represented p hp hLetters := by
    have hFound : (spelling purposes p).isSome = true := by
      rw [spelling, List.find?_isSome]
      exact ⟨p, hp, beq_self_eq_true _⟩
    rcases Option.isSome_iff_exists.mp hFound with ⟨q, hq⟩
    have hSpells : Text.eqIgnoreAsciiCase q p = true :=
      @List.find?_some _ (fun q => Text.eqIgnoreAsciiCase q p)
        q purposes hq
    rcases value_of_spelling hSpells hLetters with ⟨v, hValue⟩
    have hFirst : q ∈ firsts (List.map Char.toLower)
        purposes := by
      refine mem_firsts_of_find? (k := p.map Char.toLower) ?_
      rw [← hq, spelling]
      congr 1
      funext q
      exact (beq_eq_decide _ _).symm
    refine ⟨q, v, hq, hValue, ?_⟩
    rw [rootPurposes_eq]
    rcases exists_mem_firsts id (List.mem_filterMap.mpr
        ⟨q, hFirst, hValue⟩) with ⟨w, hw, rfl⟩
    exact hw

/-
  A purpose has no value if and only if it has no letter and
  no digit, and a value is kebab case, spells the purpose and
  stands for itself. A record carries values that differ, and
  one for every purpose that has one: that of the purpose's
  first spelling.
-/
theorem purposes_recorded
    (mp : MsgPack)
    (crates : Crates) :
    (∀ purpose,
      (purposeValue purpose = none ↔
        ∀ c ∈ purpose, isAsciiAlphanumeric c = false) ∧
      ∀ value, purposeValue purpose = some value →
        Stands purpose value) ∧
    ∀ entry, ∃ values,
      rootPayload mp crates entry =
        mp.toBytes (rootItems
          (crates.sha256 entry.parsed.der)
          entry.parsed.subject values) ∧
      Recorded entry.purposes values :=
  ⟨fun _ => ⟨purposeValue_eq_none_iff,
      fun _ => purposeValue_stands⟩,
    fun entry => ⟨rootPurposes entry.purposes, rfl,
      rootPurposes_recorded entry.purposes⟩⟩

end Audit

end Trustd
