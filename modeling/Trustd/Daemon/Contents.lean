import Trustd.General.Entries
import Trustd.General.Results
import Trustd.Daemon.Config

/-
  What a configuration is in terms of the registry's contents.

  How the registry compares names is a parameter: it folds
  them, and what the folding may do to the names that are
  asked for is assumed. The configuration that is read is a
  function of the contents, and it is read if every text that
  is needed is one.

  Key definitions include:
    * `Trustd.Registry.Naming`
    * `Trustd.Registry.Named`
    * `Trustd.Registry.Legible`
    * `Trustd.Registry.configOf`

  Key theorems include:
    * `Trustd.Registry.loadAdditions_eq_ok_iff`
    * `Trustd.Registry.loadDistrust_eq_ok_iff`
    * `Trustd.Registry.loadFrom_eq_ok_iff`
    * `Trustd.Registry.filter_additions`
-/

------------------------------------------------------------
-- Names
------------------------------------------------------------

namespace Trustd

namespace Registry

open General

/- A text of ASCII characters. -/
def Ascii (t : Text) : Prop :=
  ∀ c ∈ t, c.toNat < 0x80

theorem ascii_of_all
    {t : Text}
    (hAll : t.all (fun c => decide (c.toNat < 0x80)) = true) :
    Ascii t :=
  fun c hc => of_decide_eq_true (List.all_eq_true.mp hAll c hc)

/-
  How the registry compares names: two are one when they fold
  alike. Of ASCII names it can only disregard the case, and
  only an ASCII name can be one of hexadecimal digits.
-/
structure Naming where
  fold : Bytes → Bytes
  ascii : ∀ a b : Text, Ascii a → Ascii b →
    fold (Text.utf8 a) = fold (Text.utf8 b) →
      Text.eqIgnoreAsciiCase a b = true
  digits : ∀ (a : Bytes) (b : Text),
    b.all Text.isAsciiHexdigit = true →
      fold a = fold (Text.utf8 b) →
        ∃ t, a = Text.utf8 t ∧ Ascii t

/- A key of a registry that compares names so. -/
structure Named (naming : Naming) where
  key : Key

variable {naming : Naming}

/- The key, as one of such a registry. -/
def Key.named (naming : Naming) (key : Key) :
    Named naming :=
  ⟨key⟩

/- `Key::query_value`, by name. -/
def Key.value
    (naming : Naming)
    (key : Key)
    (name : Text) :
    Option RegValue :=
  entry naming.fold key.values (Text.utf8 name)

/- `Key::open` on a name of one part. -/
def Key.child
    (naming : Naming)
    (key : Key)
    (name : Text) :
    Option Key :=
  entry naming.fold key.subkeys (Text.utf8 name)

instance : Reader (Except IoError) (Named naming) where
  value named name := pure (named.key.value naming name)
  values named := pure (named.key.values.map Prod.fst)
  names named := pure (named.key.subkeys.map Prod.fst)
  child named name :=
    pure ((named.key.child naming name).map
      (Key.named naming))

theorem isAsciiHexdigit_ascii
    {c : Char}
    (hDigit : Text.isAsciiHexdigit c = true) :
    c.toNat < 0x80 := by
  unfold Text.isAsciiHexdigit at hDigit
  simp only [Bool.or_eq_true, Bool.and_eq_true,
    decide_eq_true_eq] at hDigit
  rcases hDigit with (⟨-, hc⟩ | ⟨-, hc⟩) | ⟨-, hc⟩
  · exact Nat.lt_of_le_of_lt hc (by decide)
  · exact Nat.lt_of_le_of_lt hc (by decide)
  · exact Nat.lt_of_le_of_lt hc (by decide)

/- Names that are compared as they are. -/
def exactNaming : Naming where
  fold := id
  ascii := by
    intro a b _ _ hFold
    rw [Text.utf8_injective hFold]
    unfold Text.eqIgnoreAsciiCase
    rw [beq_self_eq_true]
  digits := by
    intro a b hDigits hFold
    exact ⟨b, hFold, fun c hc =>
      isAsciiHexdigit_ascii (List.all_eq_true.mp hDigits c hc)⟩

end Registry

end Trustd

------------------------------------------------------------
-- Legible Text
------------------------------------------------------------

namespace Trustd

namespace Registry

/- Bytes that are text. -/
def Legible (bytes : Bytes) : Prop :=
  (Text.fromUtf8 bytes).isSome = true

instance (bytes : Bytes) : Decidable (Legible bytes) :=
  inferInstanceAs (Decidable (_ = _))

/- The text that bytes are. -/
def textOf (bytes : Bytes) : Text :=
  (Text.fromUtf8 bytes).getD []

@[simp] theorem textOf_utf8 (t : Text) :
    textOf (Text.utf8 t) = t := by
  rw [textOf, Text.fromUtf8_utf8]
  rfl

theorem legible_utf8 (t : Text) :
    Legible (Text.utf8 t) := by
  rw [Legible, Text.fromUtf8_utf8]
  rfl

theorem Legible.utf8_textOf
    {bytes : Bytes}
    (hLegible : Legible bytes) :
    Text.utf8 (textOf bytes) = bytes := by
  rcases Option.isSome_iff_exists.mp hLegible with ⟨t, ht⟩
  rw [textOf, ht]
  exact Text.utf8_of_fromUtf8 ht

theorem text_eq_ok_iff
    {bytes : Bytes}
    {t : Text} :
    (text bytes : Except IoError Text) = .ok t ↔
      Legible bytes ∧ t = textOf bytes := by
  unfold text Legible textOf
  cases Text.fromUtf8 bytes with
  | none => simp [throw, throwThe, MonadExceptOf.throw]
  | some read => simp [pure, Except.pure, eq_comm]

theorem mapM_text_eq_ok_iff
    {parts : List Bytes}
    {ts : List Text} :
    (parts.mapM text : Except IoError (List Text)) = .ok ts ↔
      (∀ p ∈ parts, Legible p) ∧ ts = parts.map textOf := by
  induction parts generalizing ts with
  | nil =>
      rw [List.mapM_nil, General.pure_eq_ok_iff]
      simp [eq_comm]
  | cons p parts ih =>
      simp only [List.mapM_cons, General.bind_eq_ok_iff,
        text_eq_ok_iff, ih, General.pure_eq_ok_iff,
        List.forall_mem_cons, List.map_cons]
      constructor
      · rintro ⟨t, ⟨hp, rfl⟩, rest, ⟨hParts, rfl⟩, rfl⟩
        exact ⟨⟨hp, hParts⟩, rfl⟩
      · rintro ⟨⟨hp, hParts⟩, rfl⟩
        exact ⟨_, ⟨hp, rfl⟩, _, ⟨hParts, rfl⟩, rfl⟩

/- The texts that a value of strings is made of. -/
def partsOf (value : RegValue) : List Bytes :=
  match value.ty with
  | .multiSz => (splitZero value.data).filter (· ≠ [])
  | .sz => [value.data.takeWhile (· ≠ 0)]
  | .expandSz => [value.data.takeWhile (· ≠ 0)]
  | _ => []

theorem map_eq_ok_iff
    {α β : Type}
    {x : Except IoError α}
    {f : α → β}
    {b : β} :
    f <$> x = .ok b ↔ ∃ a, x = .ok a ∧ b = f a := by
  cases x with
  | error e => simp [Functor.map, Except.map]
  | ok a => simp [Functor.map, Except.map, eq_comm]

/- What is taken from a value that may be of strings. -/
theorem multi_getD_eq_ok_iff
    {value : RegValue}
    {ts : List Text} :
    (∃ r, (multi value : Except IoError _) = .ok r ∧
      ts = r.getD []) ↔
      (∀ p ∈ partsOf value, Legible p) ∧
        ts = (partsOf value).map textOf := by
  unfold multi partsOf
  cases value.ty with
  | multiSz =>
      dsimp only
      simp only [map_eq_ok_iff, mapM_text_eq_ok_iff]
      constructor
      · rintro ⟨_, ⟨_, ⟨hParts, rfl⟩, rfl⟩, rfl⟩
        exact ⟨hParts, rfl⟩
      · rintro ⟨hParts, rfl⟩
        exact ⟨_, ⟨_, ⟨hParts, rfl⟩, rfl⟩, rfl⟩
  | sz =>
      simp [map_eq_ok_iff, text_eq_ok_iff]
  | expandSz =>
      simp [map_eq_ok_iff, text_eq_ok_iff]
  | binary => simp [pure, Except.pure]
  | dword => simp [pure, Except.pure]
  | other code => simp [pure, Except.pure]

end Registry

end Trustd

------------------------------------------------------------
-- Additions
------------------------------------------------------------

namespace Trustd

namespace Registry

open General Store

variable (naming : Naming)

/- The certificate of an entry that is complete. -/
def Key.certificate (key : Key) : Option Bytes :=
  ((key.value naming certificateValue).filter (fun v =>
    v.ty = .binary ∧ v.data ≠ [])).map RegValue.data

/- The texts of an entry's purposes. -/
def Key.purposeParts (key : Key) : List Bytes :=
  ((key.value naming purposesValue).map partsOf).getD []

/- An entry whose purposes can be read, if they are. -/
def Key.LegibleEntry (key : Key) : Prop :=
  ∀ der, key.certificate naming = some der →
    ∀ p ∈ key.purposeParts naming, Legible p

/- The addition that an entry is, if it is complete. -/
def additionOf (name : Bytes) (key : Key) :
    Option Addition :=
  (key.certificate naming).map (fun der =>
    { name := textOf name
      der
      purposes := (key.purposeParts naming).map textOf })

/- The key under a name that is listed. -/
def Key.at (key : Key) (name : Bytes) : Key :=
  (entry naming.fold key.subkeys name).getD (.mk [] [])

/- The additions of `Add`. -/
def Key.additions (add : Key) : List Addition :=
  (add.subkeys.map Prod.fst).flatMap (fun n =>
    (additionOf naming n (add.at naming n)).toList)

/- `Add` whose every entry can be read. -/
def Key.LegibleAdd (add : Key) : Prop :=
  ∀ n ∈ add.subkeys.map Prod.fst,
    Legible n ∧ (add.at naming n).LegibleEntry naming

variable {naming}

/- A key that is at hand is read without fail. -/
theorem strings_named (key : Key) :
    (strings (key.named naming)
      purposesValue : Except IoError _) =
      match key.value naming purposesValue with
      | none => pure none
      | some value => multi value := rfl

theorem strings_getD_eq_ok_iff
    {key : Key}
    {ts : List Text} :
    (∃ r, (strings (key.named naming)
      purposesValue : Except IoError _) = .ok r ∧
      ts = r.getD []) ↔
      (∀ p ∈ key.purposeParts naming, Legible p) ∧
        ts = (key.purposeParts naming).map textOf := by
  rw [strings_named]
  unfold Key.purposeParts
  cases key.value naming purposesValue with
  | none => simp [pure, Except.pure]
  | some value => exact multi_getD_eq_ok_iff

theorem Key.certificate_of_complete
    {key : Key}
    {value : RegValue}
    (hValue : key.value naming certificateValue = some value)
    (hType : value.ty = .binary)
    (hData : value.data ≠ []) :
    key.certificate naming = some value.data := by
  rw [Key.certificate, hValue, Option.filter_some,
    decide_eq_true ⟨hType, hData⟩, if_pos rfl,
    Option.map_some]

theorem Key.certificate_of_incomplete
    {key : Key}
    {value : RegValue}
    (hValue : key.value naming certificateValue = some value)
    (hNot : ¬ (value.ty = .binary ∧ value.data ≠ [])) :
    key.certificate naming = none := by
  rw [Key.certificate, hValue, Option.filter_some,
    decide_eq_false hNot, if_neg Bool.false_ne_true,
    Option.map_none]

theorem Key.certificate_of_absent
    {key : Key}
    (hValue : key.value naming certificateValue = none) :
    key.certificate naming = none := by
  rw [Key.certificate, hValue]
  rfl

/- The loop's turn for a subkey that is listed. -/
theorem loadAddition_eq
    {add : Key}
    {n : Bytes}
    (hListed : n ∈ add.subkeys.map Prod.fst)
    (hLegible : Legible n) :
    (loadAddition (add.named naming) n :
      Except IoError _) =
      match (add.at naming n).certificate naming with
      | none => .ok none
      | some der =>
          strings ((add.at naming n).named naming)
            purposesValue >>=
              fun purposes => .ok (some {
                name := textOf n
                der
                purposes := purposes.getD [] }) := by
  rcases List.mem_map.mp hListed with ⟨e, hMem, rfl⟩
  rcases exists_entry naming.fold hMem with
    ⟨key, hKey⟩
  have hAt : add.at naming e.1 = key := by
    rw [Key.at, hKey]
    rfl
  have hText : (text e.1 : Except IoError Text) =
      .ok (textOf e.1) :=
    text_eq_ok_iff.mpr ⟨hLegible, rfl⟩
  have hChild : (Reader.child (add.named naming)
      (textOf e.1) : Except IoError _) =
      .ok (some (key.named naming)) := by
    have hFound : add.child naming (textOf e.1) = some key := by
      rw [Key.child, hLegible.utf8_textOf, hKey]
    exact congrArg (fun found =>
      Except.ok (Option.map (Key.named naming) found)) hFound
  have hValue :
      (Reader.value (key.named naming)
        certificateValue : Except IoError _) =
        .ok (key.value naming certificateValue) := rfl
  rw [hAt, loadAddition, hText]
  simp only [bind, Except.bind, hChild, hValue]
  cases hCertificate : key.value naming certificateValue with
  | none =>
      rw [Key.certificate_of_absent hCertificate]
      rfl
  | some value =>
      dsimp only
      by_cases hComplete :
          value.ty = .binary ∧ value.data ≠ []
      · have hNot :
            ¬ (value.ty ≠ .binary ∨ value.data = []) := by
          rw [not_or]
          exact ⟨not_not.mpr hComplete.1, hComplete.2⟩
        rw [if_neg hNot, Key.certificate_of_complete
          hCertificate hComplete.1 hComplete.2]
        rfl
      · have hSkip :
            value.ty ≠ .binary ∨ value.data = [] := by
          rw [not_and_or, not_not] at hComplete
          exact hComplete
        rw [if_pos hSkip, Key.certificate_of_incomplete
          hCertificate hComplete]
        rfl

/- One subkey of `Add` that is listed. -/
theorem loadAddition_eq_ok_iff
    {add : Key}
    {n : Bytes}
    (hListed : n ∈ add.subkeys.map Prod.fst)
    {addition : Option Addition} :
    (loadAddition (add.named naming) n :
      Except IoError _) = .ok addition ↔
      (Legible n ∧ (add.at naming n).LegibleEntry naming) ∧
        addition = additionOf naming n (add.at naming n) := by
  by_cases hLegible : Legible n
  · rw [loadAddition_eq hListed hLegible, additionOf,
      Key.LegibleEntry]
    cases (add.at naming n).certificate naming with
    | none => simp [hLegible, eq_comm]
    | some der =>
        rw [General.bind_eq_ok_iff]
        constructor
        · rintro ⟨purposes, hPurposes, hAddition⟩
          rcases strings_getD_eq_ok_iff.mp
            ⟨purposes, hPurposes, rfl⟩ with ⟨hParts, hTexts⟩
          rw [hTexts] at hAddition
          exact ⟨⟨hLegible, fun _ _ => hParts⟩,
            (Except.ok.inj hAddition).symm⟩
        · rintro ⟨⟨-, hParts⟩, rfl⟩
          rcases strings_getD_eq_ok_iff.mpr
            ⟨hParts der rfl, rfl⟩ with
            ⟨purposes, hPurposes, hTexts⟩
          refine ⟨purposes, hPurposes, ?_⟩
          rw [← hTexts]
          rfl
  · constructor
    · intro hLoad
      rw [loadAddition, General.bind_eq_ok_iff] at hLoad
      rcases hLoad with ⟨name, hName, -⟩
      exact absurd (text_eq_ok_iff.mp hName).1 hLegible
    · rintro ⟨⟨hText, -⟩, -⟩
      exact absurd hText hLegible

/- The loop over subkeys of `Add` that are listed. -/
theorem loadAdditions_eq_ok_iff
    {add : Key}
    {names : List Bytes}
    (hListed : ∀ n ∈ names, n ∈ add.subkeys.map Prod.fst)
    {additions : List Addition} :
    (loadAdditions (add.named naming) names :
      Except IoError _) = .ok additions ↔
      (∀ n ∈ names, Legible n ∧
        (add.at naming n).LegibleEntry naming) ∧
        additions = names.flatMap (fun n =>
          (additionOf naming n (add.at naming n)).toList) := by
  induction names generalizing additions with
  | nil =>
      rw [loadAdditions, General.pure_eq_ok_iff]
      simp [eq_comm]
  | cons n names ih =>
      rw [loadAdditions]
      simp only [General.bind_eq_ok_iff,
        General.pure_eq_ok_iff, List.forall_mem_cons,
        List.flatMap_cons,
        loadAddition_eq_ok_iff (hListed n List.mem_cons_self),
        ih (fun x hx => hListed x (List.mem_cons_of_mem n hx))]
      constructor
      · rintro ⟨_, ⟨hHead, rfl⟩, _, ⟨hTail, rfl⟩, rfl⟩
        exact ⟨⟨hHead, hTail⟩, rfl⟩
      · rintro ⟨⟨hHead, hTail⟩, rfl⟩
        exact ⟨_, ⟨hHead, rfl⟩, _, ⟨hTail, rfl⟩, rfl⟩

end Registry

end Trustd

------------------------------------------------------------
-- Additions Of Distinct Names
------------------------------------------------------------

namespace Trustd

namespace Registry

open General Store

variable {naming : Naming}
variable {add : Key}

/- Where names are distinct each key is under its own. -/
theorem Key.at_of_mem
    (hDistinct : Distinct naming.fold add.subkeys)
    {e : Bytes × Key}
    (hMem : e ∈ add.subkeys) :
    add.at naming e.1 = e.2 := by
  rw [Key.at, hDistinct.entry_of_mem hMem]
  rfl

theorem Key.additions_of_distinct
    (hDistinct : Distinct naming.fold add.subkeys) :
    add.additions naming = add.subkeys.flatMap (fun e =>
      (additionOf naming e.1 e.2).toList) := by
  rw [Key.additions, List.flatMap_map]
  apply List.flatMap_congr
  intro e he
  rw [Key.at_of_mem hDistinct he]

theorem Key.legibleAdd_of_distinct
    (hDistinct : Distinct naming.fold add.subkeys) :
    add.LegibleAdd naming ↔
      ∀ e ∈ add.subkeys,
        Legible e.1 ∧ e.2.LegibleEntry naming := by
  unfold Key.LegibleAdd
  rw [List.forall_mem_map]
  constructor
  · intro hAll e he
    have hEntry := hAll e he
    rwa [Key.at_of_mem hDistinct he] at hEntry
  · intro hAll e he
    rw [Key.at_of_mem hDistinct he]
    exact hAll e he

theorem name_of_additionOf
    {n : Bytes}
    {key : Key}
    {addition : Addition}
    (hAddition : additionOf naming n key = some addition) :
    addition.name = textOf n := by
  rcases Option.map_eq_some_iff.mp hAddition with
    ⟨der, -, rfl⟩
  rfl

/- The additions of some names are those of their entries. -/
theorem filter_additions
    (q : Bytes → Bool)
    {entries : List (Bytes × Key)}
    (hLegible : ∀ e ∈ entries, Legible e.1) :
    (entries.flatMap (fun e =>
      (additionOf naming e.1 e.2).toList)).filter
        (fun a => q (Text.utf8 a.name)) =
      (entries.filter (fun e => q e.1)).flatMap (fun e =>
        (additionOf naming e.1 e.2).toList) := by
  induction entries with
  | nil => rfl
  | cons e entries ih =>
      have hTail := ih (fun x hx =>
        hLegible x (List.mem_cons_of_mem e hx))
      rw [List.flatMap_cons, List.filter_append, hTail]
      have hHead :
          (additionOf naming e.1 e.2).toList.filter
            (fun a => q (Text.utf8 a.name)) =
            if q e.1 then (additionOf naming e.1 e.2).toList
            else [] := by
        cases hAddition : additionOf naming e.1 e.2 with
        | none => simp
        | some addition =>
            rw [Option.toList_some, List.filter_singleton,
              name_of_additionOf hAddition,
              (hLegible e List.mem_cons_self).utf8_textOf]
            cases q e.1 with
            | true => rfl
            | false => rfl
      rw [hHead, List.filter_cons]
      cases q e.1 with
      | true => rfl
      | false => rfl

theorem filter_sortAdditions
    {additions : List Addition}
    {q : Addition → Bool}
    {addition : Addition} :
    (sortAdditions additions).filter q = [addition] ↔
      additions.filter q = [addition] := by
  have hPerm : ((sortAdditions additions).filter q).Perm
      (additions.filter q) :=
    (List.perm_insertionSort _ _).filter q
  constructor
  · intro hOne
    rw [hOne] at hPerm
    exact List.perm_singleton.mp hPerm.symm
  · intro hOne
    rw [hOne] at hPerm
    exact List.perm_singleton.mp hPerm

end Registry

end Trustd

------------------------------------------------------------
-- Distrusts
------------------------------------------------------------

namespace Trustd

namespace Registry

/- The fingerprints that the values of `Distrust` stand for. -/
def Key.distrust (distrust : Key) : List Text :=
  (distrust.values.map Prod.fst).filterMap (fun n =>
    fingerprintOf (textOf n))

/- `Distrust` whose every value has text for a name. -/
def Key.LegibleDistrust (distrust : Key) : Prop :=
  ∀ n ∈ distrust.values.map Prod.fst, Legible n

/- The loop over the values of `Distrust`. -/
theorem loadDistrust_eq_ok_iff
    {names : List Bytes}
    {distrust : List Text} :
    (loadDistrust names : Except IoError _) = .ok distrust ↔
      (∀ n ∈ names, Legible n) ∧
        distrust = names.filterMap (fun n =>
          fingerprintOf (textOf n)) := by
  induction names generalizing distrust with
  | nil =>
      rw [loadDistrust, General.pure_eq_ok_iff]
      simp [eq_comm]
  | cons n names ih =>
      rw [loadDistrust]
      simp only [General.bind_eq_ok_iff, text_eq_ok_iff, ih,
        General.pure_eq_ok_iff, List.forall_mem_cons]
      have hCons :
          (n :: names).filterMap (fun n =>
            fingerprintOf (textOf n)) =
            (fingerprintOf (textOf n)).toList ++
              names.filterMap (fun n =>
                fingerprintOf (textOf n)) := by
        rw [List.filterMap_cons]
        cases fingerprintOf (textOf n) with
        | none => rfl
        | some f => rfl
      rw [hCons]
      constructor
      · rintro ⟨_, ⟨hHead, rfl⟩, _, ⟨hTail, rfl⟩, rfl⟩
        exact ⟨⟨hHead, hTail⟩, rfl⟩
      · rintro ⟨⟨hHead, hTail⟩, rfl⟩
        exact ⟨_, ⟨hHead, rfl⟩, _, ⟨hTail, rfl⟩, rfl⟩

end Registry

end Trustd

------------------------------------------------------------
-- The Configuration Read
------------------------------------------------------------

namespace Trustd

namespace Registry

open Store

variable (naming : Naming)

/- `Certificates\Add`, if it is there. -/
def Key.addOf (root : Key) : Option Key :=
  (root.child naming certificatesKey).bind (fun certificates =>
    certificates.child naming addKey)

/- `Certificates\Distrust`, if it is there. -/
def Key.distrustOf (root : Key) : Option Key :=
  (root.child naming certificatesKey).bind (fun certificates =>
    certificates.child naming distrustKey)

/- Everything that is read as text is text. -/
structure Key.LegibleRoot (root : Key) : Prop where
  add : ∀ add, root.addOf naming = some add →
    add.LegibleAdd naming
  distrust : ∀ distrust, root.distrustOf naming = some distrust →
    distrust.LegibleDistrust

/- The configuration that the contents amount to. -/
def configOf (root : Key) : Config where
  additions := sortAdditions
    (((root.addOf naming).map (Key.additions naming)).getD [])
  distrust := sortDistrust
    (((root.distrustOf naming).map Key.distrust).getD [])
  compat := compatOf (root.value naming compatValue)
  controlSecurity :=
    controlSecurityOf (root.value naming controlSecurityValue)

variable {naming}

/- What is read of a key `Add` that may be there. -/
theorem readAdd_eq_ok_iff
    {add : Option Key}
    {additions : List Addition} :
    (match add with
      | none => .ok []
      | some add =>
          loadAdditions (add.named naming)
            (add.subkeys.map Prod.fst) :
        Except IoError (List Addition)) = .ok additions ↔
      (∀ key, add = some key → key.LegibleAdd naming) ∧
        additions =
          (add.map (Key.additions naming)).getD [] := by
  cases add with
  | none => simp [eq_comm]
  | some add =>
      dsimp only
      rw [loadAdditions_eq_ok_iff (fun _ hn => hn)]
      simp only [Option.some.injEq, forall_eq']
      rfl

/- What is read of a key `Distrust` that may be there. -/
theorem readDistrust_eq_ok_iff
    {distrusted : Option Key}
    {distrust : List Text} :
    (match distrusted with
      | none => .ok []
      | some key => loadDistrust (key.values.map Prod.fst) :
        Except IoError (List Text)) = .ok distrust ↔
      (∀ key, distrusted = some key → key.LegibleDistrust) ∧
        distrust =
          (distrusted.map Key.distrust).getD [] := by
  cases distrusted with
  | none => simp [eq_comm]
  | some key =>
      dsimp only
      rw [loadDistrust_eq_ok_iff]
      simp only [Option.some.injEq, forall_eq']
      rfl

/- The reads of a key that is there, in their order. -/
theorem loadFrom_eq (root : Key) :
    (loadFrom (some (root.named naming)) :
      Except IoError Config) =
      match root.child naming certificatesKey with
      | none => .ok
          { compat := compatOf (root.value naming compatValue)
            controlSecurity := controlSecurityOf
              (root.value naming controlSecurityValue) }
      | some certificates =>
          (match certificates.child naming addKey with
            | none => .ok []
            | some add =>
                loadAdditions (add.named naming)
                  (add.subkeys.map Prod.fst)) >>=
            fun additions =>
          (match certificates.child naming distrustKey with
            | none => .ok []
            | some key =>
                loadDistrust (key.values.map Prod.fst)) >>=
            fun distrust => .ok
              { additions := sortAdditions additions
                distrust := sortDistrust distrust
                compat :=
                  compatOf (root.value naming compatValue)
                controlSecurity := controlSecurityOf
                  (root.value naming controlSecurityValue) } := by
  have hChild : ∀ (key : Key) (name : Text),
      (Reader.child (key.named naming) name :
        Except IoError (Option (Named naming))) =
        .ok ((key.child naming name).map (Key.named naming)) :=
    fun _ _ => rfl
  have hValue : ∀ (key : Key) (name : Text),
      (Reader.value (key.named naming) name :
        Except IoError (Option RegValue)) =
        .ok (key.value naming name) :=
    fun _ _ => rfl
  unfold loadFrom
  simp only [bind, Except.bind, hChild, hValue]
  cases root.child naming certificatesKey with
  | none => rfl
  | some certificates =>
      simp only [Option.map_some, hChild]
      cases certificates.child naming addKey with
      | none =>
          cases certificates.child naming distrustKey with
          | none => rfl
          | some distrusted => rfl
      | some add =>
          cases certificates.child naming distrustKey with
          | none => rfl
          | some distrusted => rfl

/-
  The configuration is a function of the contents, and is
  read if and only if what must be text is.
-/
theorem loadFrom_eq_ok_iff
    {root : Key}
    {config : Config} :
    (loadFrom (some (root.named naming)) :
      Except IoError Config) = .ok config ↔
      root.LegibleRoot naming ∧
        config = configOf naming root := by
  rw [loadFrom_eq]
  cases hCertificates : root.child naming certificatesKey with
  | none =>
      have hAdd : root.addOf naming = none := by
        rw [Key.addOf, hCertificates]
        rfl
      have hDistrust : root.distrustOf naming = none := by
        rw [Key.distrustOf, hCertificates]
        rfl
      have hLegible : root.LegibleRoot naming := by
        constructor
        · simp [hAdd]
        · simp [hDistrust]
      rw [configOf, hAdd, hDistrust, eq_comm]
      simp only [Except.ok.injEq, hLegible, true_and]
      rfl
  | some certificates =>
      have hAdd : root.addOf naming =
          certificates.child naming addKey := by
        rw [Key.addOf, hCertificates]
        rfl
      have hDistrust : root.distrustOf naming =
          certificates.child naming distrustKey := by
        rw [Key.distrustOf, hCertificates]
        rfl
      dsimp only
      simp only [General.bind_eq_ok_iff, readAdd_eq_ok_iff,
        readDistrust_eq_ok_iff, ← hAdd, ← hDistrust]
      constructor
      · rintro ⟨_, ⟨hLeft, rfl⟩, _, ⟨hRight, rfl⟩, hConfig⟩
        exact ⟨⟨hLeft, hRight⟩, (Except.ok.inj hConfig).symm⟩
      · rintro ⟨hLegible, rfl⟩
        exact ⟨_, ⟨hLegible.add, rfl⟩, _,
          ⟨hLegible.distrust, rfl⟩, rfl⟩

end Registry

end Trustd
