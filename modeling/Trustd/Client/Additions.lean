import Trustd.Client.Distrusts

/-
  Adding a certificate, and what the daemon then reads.

  Key definitions include:
    * `Trustd.ClientCore.usableName`
    * `Trustd.ClientCore.add`
    * `Trustd.ClientCore.entered`
    * `Trustd.ClientCore.ReadsExactly`

  Key theorems include:
    * `Trustd.ClientCore.add_does`
    * `Trustd.ClientCore.partsOf_purposesWritten`
    * `Trustd.ClientCore.readsExactly_withAddition_iff`
    * `Trustd.ClientCore.add_exact_iff`
-/

------------------------------------------------------------
-- Adding
------------------------------------------------------------

namespace Trustd

namespace ClientCore

open General Registry Store Cert

section

variable (naming : Naming)
variable (missing : Missing)

/- `open_or_create`. -/
def openOrCreate
    (parent : Handle)
    (path shown : Text) :
    Access Error Handle :=
  (Steps.openOrCreate parent path shown).prog
    (serve naming missing)

theorem openOrCreate_eq
    (parent : Handle)
    (path shown : Text) :
    openOrCreate naming missing parent path shown =
      Prog.mapError (registryError shown)
        (createKey naming missing parent path) :=
  Script.prog_mapError _ _ _

/- `certificates`. -/
def certificates (which : Text) : Access Error Handle :=
  (Steps.certificates which).prog (serve naming missing)

theorem certificates_eq (which : Text) :
    certificates naming missing which =
      openOrCreate naming missing [] certificatesPath
          certificatesPath >>= fun certificates =>
      openOrCreate naming missing certificates which
        (certificatesPath ++ "\\".toList ++ which) :=
  Script.prog_bind _ _ _

/- Writing a value, as errors of the addition. -/
def writeValue
    (shown : Text)
    (key : Handle)
    (name : Text)
    (value : RegValue) :
    Access Error Unit :=
  (Steps.writeValue shown key name value).prog
    (serve naming missing)

theorem writeValue_eq
    (shown : Text)
    (key : Handle)
    (name : Text)
    (value : RegValue) :
    writeValue naming missing shown key name value =
      Prog.mapError (registryError shown)
        (setValue naming missing key name value) :=
  Script.prog_mapError _ _ _

variable (debug : Text → Text)
variable (crates : Crates)
variable (now : Option Int)

/- `add`. -/
def add
    (name : Text)
    (der : Bytes)
    (purposes : List Text) :
    Access Error Parsed :=
  (Steps.add debug crates now name der purposes).prog
    (serve naming missing)

theorem add_eq
    (name : Text)
    (der : Bytes)
    (purposes : List Text) :
    add naming missing debug crates now name der purposes =
      if usableName name = false then
        Prog.throw (.failed
          (debug name ++ " is not a usable name".toList))
      else
        match vet crates now der with
        | .error e => Prog.throw (.failed
            ("the certificate is ".toList ++ e.text))
        | .ok parsed =>
            certificates naming missing addKey >>= fun add =>
            openOrCreate naming missing add name
                (shownAddition name) >>= fun entry =>
            (if purposes = [] then pure ()
              else writeValue naming missing
                (shownAddition name) entry purposesValue
                  (purposesWritten purposes)) >>= fun _ =>
            writeValue naming missing (shownAddition name)
              entry certificateValue
                (certificateWritten der) >>= fun _ =>
            pure parsed := by
  unfold add Steps.add
  by_cases hUsable : usableName name = false
  · rw [if_pos hUsable, if_pos hUsable]
    rfl
  rw [if_neg hUsable, if_neg hUsable]
  cases vet crates now der with
  | error e => rfl
  | ok parsed =>
      by_cases hNone : purposes = []
      · simp only [if_pos hNone, Script.prog_bind,
          Script.prog_pure]
        rfl
      · simp only [if_neg hNone, Script.prog_bind,
          Script.prog_pure]
        rfl

end

end ClientCore

end Trustd

------------------------------------------------------------
-- What Is Written
------------------------------------------------------------

namespace Trustd

namespace ClientCore

open General Registry Store Cert

variable {naming : Naming}
variable {missing : Missing}
variable {hive : Key}
variable {G : Option IoError → Prop}

/- The path to `Add`. -/
def addPath : List Text :=
  components trustPath ++ [certificatesKey, addKey]

/- An entry with the purposes, if any, and the certificate. -/
def entered
    (naming : Naming)
    (der : Bytes)
    (purposes : List Text)
    (key : Key) :
    Key :=
  (if purposes = [] then key
    else key.setValue naming purposesValue
      (purposesWritten purposes)).setValue naming
        certificateValue (certificateWritten der)

/- The registry with the addition entered. -/
def withAddition
    (naming : Naming)
    (name : Text)
    (der : Bytes)
    (purposes : List Text)
    (hive : Key) :
    Key :=
  hive.edit naming (entered naming der purposes)
    (addPath ++ [name])

theorem components_of_usableName
    {name : Text}
    (hUsable : usableName name = true) :
    components name = [name] := by
  apply components_name
  intro c hc
  unfold usableName at hUsable
  simp only [Bool.and_eq_true, Bool.not_eq_true',
    List.contains_eq_mem, decide_eq_false_iff_not] at hUsable
  unfold isSeparator
  rw [Bool.or_eq_false_iff, decide_eq_false_iff_not,
    decide_eq_false_iff_not]
  constructor
  · rintro rfl
    exact hUsable.1.2 hc
  · rintro rfl
    exact hUsable.2 hc

theorem components_certificatesPath :
    components certificatesPath =
      components trustPath ++ [certificatesKey] := by
  decide

theorem components_addKey :
    components addKey = [addKey] := by
  decide

/- `Add` is made if it is not there. -/
theorem certificates_does :
    Does G hive (certificates naming missing addKey)
      (fun key s => s = hive.edit naming id addPath ∧
        key = addPath)
      (fun _ _ => True) := by
  rw [certificates_eq, openOrCreate_eq]
  refine Does.andThen (P := fun key =>
    key = components certificatesPath)
    (Ensures.mapError ((createKey_does [] certificatesPath).weaken
      (fun _ h => h) (fun _ _ h => h) (fun _ _ h => h)))
    (fun key hKey => ?_)
  subst hKey
  rw [openOrCreate_eq]
  refine Ensures.mapError ((createKey_does _ addKey).weaken
    (fun _ h => h) ?_ (fun _ _ h => h))
  rintro key s ⟨rfl, rfl⟩
  rw [List.nil_append, components_addKey, Key.edit_made,
    components_certificatesPath, List.append_assoc]
  exact ⟨rfl, rfl⟩

theorem writeValue_does
    {key : Handle}
    (hKey : ∃ k, hive.follow naming key = some k)
    (shown name : Text)
    (value : RegValue) :
    Does G hive (writeValue naming missing shown key name value)
      (fun _ s =>
        s = hive.edit naming
          (Key.setValue naming name value) key ∧ True)
      (fun _ _ => True) := by
  rw [writeValue_eq]
  exact Ensures.mapError (setValue_does hKey name value)

/- The purposes of an entry that is there by now. -/
theorem writePurposes_does
    (path : List Text)
    (shown : Text)
    (purposes : List Text) :
    Does G (hive.edit naming id path)
      (if purposes = [] then pure ()
        else writeValue naming missing shown path
          purposesValue (purposesWritten purposes))
      (fun _ s => s = hive.edit naming (fun key =>
        if purposes = [] then key
        else key.setValue naming purposesValue
          (purposesWritten purposes)) path ∧ True)
      (fun _ _ => True) := by
  by_cases hNone : purposes = []
  · simp only [if_pos hNone]
    exact Ensures.pure () (fun _ hState => ⟨hState, trivial⟩)
  · simp only [if_neg hNone]
    have hThere : ∃ k, (hive.edit naming id path).follow naming
        path = some k :=
      ⟨_, Key.follow_edit id path hive⟩
    have hWrite := @writeValue_does naming missing _ G _
      hThere shown purposesValue (purposesWritten purposes)
    rw [Key.edit_edit] at hWrite
    exact hWrite

variable {debug : Text → Text}
variable {crates : Crates}
variable {now : Option Int}

/- An addition that is made is the entry as it was entered. -/
theorem add_does
    (name : Text)
    (der : Bytes)
    (purposes : List Text) :
    Does G hive (add naming missing debug crates now name der
      purposes)
      (fun parsed s =>
        s = withAddition naming name der purposes hive ∧
          usableName name = true ∧
            vet crates now der = .ok parsed)
      (fun _ _ => True) := by
  rw [add_eq]
  by_cases hUsable : usableName name = false
  · rw [if_pos hUsable]
    exact Ensures.throw _ (fun _ _ => trivial)
  · rw [if_neg hUsable]
    rw [Bool.not_eq_false] at hUsable
    cases hVet : vet crates now der with
    | error e => exact Ensures.throw _ (fun _ _ => trivial)
    | ok parsed =>
        refine Does.andThen certificates_does (fun key hKey => ?_)
        subst hKey
        rw [openOrCreate_eq]
        refine Does.andThen (Ensures.mapError
          (createKey_does addPath name)) (fun entry hEntry => ?_)
        rw [components_of_usableName hUsable] at hEntry ⊢
        rw [Key.edit_made]
        subst hEntry
        refine Does.andThen
          (writePurposes_does _ _ purposes) (fun _ _ => ?_)
        have hThere : ∃ k,
            (hive.edit naming (fun key =>
              if purposes = [] then key
              else key.setValue naming purposesValue
                (purposesWritten purposes))
              (addPath ++ [name])).follow naming
                (addPath ++ [name]) = some k :=
          ⟨_, Key.follow_edit _ _ _⟩
        refine Does.andThen (writeValue_does hThere _ _ _)
          (fun _ _ => ?_)
        refine Ensures.pure parsed (fun s hState => ?_)
        rw [Key.edit_edit] at hState
        exact ⟨hState, hUsable, rfl⟩

end ClientCore

end Trustd

------------------------------------------------------------
-- Purposes Read Back
------------------------------------------------------------

namespace Trustd

namespace ClientCore

open General Registry Store

/- The end of a string in a list of strings. -/
def isZero (b : UInt8) : Bool :=
  b = 0

theorem splitZero_eq (bytes : Bytes) :
    splitZero bytes = splitAt isZero bytes := by
  induction bytes with
  | nil => rfl
  | cons b rest ih =>
      by_cases hb : b = 0
      · have hZero : isZero b = true := decide_eq_true hb
        rw [splitZero, splitAt, ih, if_pos hb, if_pos hZero]
      · have hPlain : isZero b = false := decide_eq_false hb
        rcases List.exists_cons_of_ne_nil
          (splitAt_ne_nil (p := isZero) rest) with
          ⟨part, parts, hRest⟩
        rw [splitZero, if_neg hb, ih, hRest,
          splitAt_cons_of_neg hPlain hRest]

theorem partsOf_multiSz (data : Bytes) :
    partsOf { ty := .multiSz, data } = pieces isZero data := by
  unfold partsOf pieces
  dsimp only
  rw [splitZero_eq]
  apply List.filter_congr
  intro part _
  cases part with
  | nil => rfl
  | cons b rest => rfl

/- A byte that is zero encodes the character that is. -/
theorem zero_mem_utf8
    {t : Text} :
    0 ∈ Text.utf8 t ↔ Char.ofNat 0 ∈ t := by
  unfold Text.utf8
  rw [List.mem_flatMap]
  constructor
  · rintro ⟨c, hc, hZero⟩
    by_cases hAscii : c.toNat < 0x80
    · rw [Text.utf8EncodeChar_ascii hAscii,
        List.mem_singleton] at hZero
      have hNat := congrArg UInt8.toNat hZero
      rw [UInt8.toNat_ofNat_of_lt'
        (hAscii.trans (by decide))] at hNat
      have hNull : c = Char.ofNat 0 := by
        rw [← Char.ofNat_toNat c, ← hNat]
        rfl
      rw [← hNull]
      exact hc
    · have hHigh := (Text.utf8EncodeChar_high
        (Nat.not_lt.mp hAscii)).1 0 hZero
      exact absurd hHigh (by decide)
  · intro hMem
    exact ⟨_, hMem, by decide⟩

theorem isZero_eq_false_iff
    {t : Text} :
    (∀ b ∈ Text.utf8 t, isZero b = false) ↔
      Char.ofNat 0 ∉ t := by
  rw [← zero_mem_utf8]
  unfold isZero
  constructor
  · intro hNone hZero
    exact absurd (hNone 0 hZero) (by decide)
  · intro hNone b hb
    rw [decide_eq_false_iff_not]
    rintro rfl
    exact hNone hb

theorem utf8_eq_nil_iff
    {t : Text} :
    Text.utf8 t = [] ↔ t = [] := by
  constructor
  · intro hNil
    exact Text.utf8_injective hNil
  · rintro rfl
    rfl

/- A purpose that can be written in a list and read back. -/
def Listable (purpose : Text) : Prop :=
  purpose ≠ [] ∧ Char.ofNat 0 ∉ purpose

instance : DecidablePred Listable :=
  fun _ => inferInstanceAs (Decidable (_ ∧ _))

/- Each purpose is closed by a zero, and one more ends all. -/
theorem purposesData_eq (purposes : List Text) :
    purposesData purposes =
      (purposes.map Text.utf8).flatMap (fun l => l ++ [0]) ++
        [0] := by
  unfold purposesData
  rw [List.flatMap_map]

/- The purposes that are read back as they were written. -/
theorem partsOf_purposesWritten
    {purposes : List Text} :
    partsOf (purposesWritten purposes) =
      purposes.map Text.utf8 ↔
      ∀ p ∈ purposes, Listable p := by
  rw [purposesWritten, partsOf_multiSz, purposesData_eq,
    pieces_terminated_eq_iff rfl, List.forall_mem_map]
  simp only [isZero_eq_false_iff, ne_eq, utf8_eq_nil_iff]
  rfl

end ClientCore

end Trustd

------------------------------------------------------------
-- What The Daemon Reads
------------------------------------------------------------

namespace Trustd

namespace ClientCore

open General Registry Store

variable {naming : Naming}
variable {hive : Key}
variable {name : Text}
variable {der : Bytes}
variable {purposes : List Text}

/- `Add`, or an empty key where it is not there. -/
def addBefore (naming : Naming) (hive : Key) : Key :=
  (hive.follow naming addPath).getD Key.empty

/- The entry of a name, or an empty key likewise. -/
def entryBefore
    (naming : Naming)
    (name : Text)
    (hive : Key) :
    Key :=
  ((addBefore naming hive).child naming name).getD Key.empty

/- The clients and the daemon read one key. -/
theorem follow_addPath :
    hive.follow naming addPath =
      (hive.trust naming).bind (Key.addOf naming) := by
  rw [addPath, Key.follow_append, Key.trust]
  cases hive.follow naming (components trustPath) with
  | none => rfl
  | some trust =>
      rw [Option.bind_some, Option.bind_some, Key.follow,
        Key.addOf]
      cases trust.child naming certificatesKey with
      | none => rfl
      | some certificates =>
          rw [Option.bind_some, Option.bind_some, Key.follow]
          cases certificates.child naming addKey with
          | none => rfl
          | some add => rfl

/- The key the daemon reads is there once one is added. -/
theorem exists_trust_withAddition :
    ∃ trust,
      (withAddition naming name der purposes hive).trust
        naming = some trust := by
  rw [withAddition, addPath, List.append_assoc,
    Key.edit_append, Key.trust, Key.follow_edit]
  exact ⟨_, rfl⟩

/- In `Add` the entry of the name is rewritten. -/
theorem addOf_withAddition
    {trust : Key}
    (hTrust :
      (withAddition naming name der purposes hive).trust
        naming = some trust) :
    trust.addOf naming =
      some ((addBefore naming hive).edit naming
        (entered naming der purposes) [name]) := by
  have hFollow : (withAddition naming name der purposes
      hive).follow naming addPath = trust.addOf naming := by
    rw [follow_addPath, hTrust, Option.bind_some]
  rw [← hFollow, withAddition, Key.edit_append,
    Key.follow_edit]
  rfl

/- `Distrust` is as it was. -/
theorem distrustOf_withAddition
    {trust : Key}
    (hTrust :
      (withAddition naming name der purposes hive).trust
        naming = some trust) :
    trust.distrustOf naming = distrustKeyOf naming hive := by
  have hFollow : distrustKeyOf naming (withAddition naming name
      der purposes hive) = trust.distrustOf naming := by
    rw [distrustKeyOf_eq, hTrust, Option.bind_some]
  have hParts : addPath ++ [name] =
      (components trustPath ++ [certificatesKey]) ++
        addKey :: [name] := by
    rw [addPath, List.append_assoc, List.append_assoc]
    rfl
  have hOther : components distrustPath =
      (components trustPath ++ [certificatesKey]) ++
        distrustKey :: [] := by
    rw [components_distrustPath, List.append_assoc]
    rfl
  rw [← hFollow, distrustKeyOf, distrustKeyOf, withAddition,
    hParts, hOther, Key.follow_edit_other _ _
      (add_ne_distrust naming).symm]

theorem subkeys_edit :
    ((addBefore naming hive).edit naming
      (entered naming der purposes) [name]).subkeys =
      put naming.fold (addBefore naming hive).subkeys
        (Text.utf8 name)
        (entered naming der purposes
          (entryBefore naming name hive)) := rfl

theorem purposes_ne_certificate (naming : Naming) :
    naming.fold (Text.utf8 certificateValue) ≠
      naming.fold (Text.utf8 purposesValue) := by
  apply fold_ne
  · exact ascii_of_all (by decide)
  · exact ascii_of_all (by decide)
  · decide

/- The certificate of what was entered. -/
theorem certificate_entered
    (hDer : der ≠ [])
    (key : Key) :
    (entered naming der purposes key).certificate naming =
      some der := by
  have hValue : (entered naming der purposes key).value naming
      certificateValue = some (certificateWritten der) := by
    rw [entered, Key.value, Key.values_setValue, entry_put,
      if_pos rfl]
  exact Key.certificate_of_complete hValue rfl hDer

/- Its purposes, as they are read: the old ones if no new. -/
theorem purposeParts_entered (key : Key) :
    (entered naming der purposes key).purposeParts naming =
      if purposes = [] then key.purposeParts naming
      else partsOf (purposesWritten purposes) := by
  have hValue : (entered naming der purposes key).value naming
      purposesValue =
        if purposes = [] then key.value naming purposesValue
        else some (purposesWritten purposes) := by
    rw [entered, Key.value, Key.values_setValue, entry_put,
      if_neg (purposes_ne_certificate naming)]
    split_ifs with hNone
    · rfl
    · rw [Key.values_setValue, entry_put, if_pos rfl]
  rw [Key.purposeParts, hValue]
  split_ifs with hNone
  · rfl
  · rfl

end ClientCore

end Trustd

------------------------------------------------------------
-- Where An Addition Is Exact
------------------------------------------------------------

namespace Trustd

namespace ClientCore

open General Registry Store Cert

variable {naming : Naming}
variable {hive : Key}
variable {name : Text}
variable {der : Bytes}
variable {purposes : List Text}

/- Whether an addition is of a name, to the registry. -/
def isNamed
    (naming : Naming)
    (name : Text)
    (addition : Addition) :
    Bool :=
  naming.fold (Text.utf8 addition.name) =
    naming.fold (Text.utf8 name)

/-
  All that is read beside the entry of a name can be: names
  in `Add` and `Distrust`, and the other complete entries.
-/
def LegibleBeside
    (naming : Naming)
    (name : Text)
    (hive : Key) :
    Prop :=
  (∀ e ∈ (addBefore naming hive).subkeys,
    Legible e.1 ∧
      (naming.fold e.1 ≠ naming.fold (Text.utf8 name) →
        e.2.LegibleEntry naming)) ∧
    ∀ key, distrustKeyOf naming hive = some key →
      key.LegibleDistrust

/-
  New purposes can be listed; and where there are none, what
  the entry holds already means the default.
-/
def PurposesFit
    (naming : Naming)
    (name : Text)
    (purposes : List Text)
    (hive : Key) :
    Prop :=
  if purposes = [] then
    (∀ p ∈ (entryBefore naming name hive).purposeParts naming,
      Legible p) ∧
      purposesMeant (((entryBefore naming name
        hive).purposeParts naming).map textOf) = [serverAuth]
  else ∀ p ∈ purposes, Listable p

/- What is read of the entry, if its name is text. -/
def additionEntered
    (naming : Naming)
    (name : Text)
    (der : Bytes)
    (purposes : List Text)
    (hive : Key) :
    Addition :=
  { name := textOf (nameIn naming.fold
      (addBefore naming hive).subkeys (Text.utf8 name))
    der
    purposes := ((entered naming der purposes
      (entryBefore naming name hive)).purposeParts
        naming).map textOf }

/- The entry's own name is text if it is where it is listed. -/
theorem legible_nameIn
    (hNames : ∀ e ∈ (addBefore naming hive).subkeys,
      Legible e.1) :
    Legible (nameIn naming.fold (addBefore naming hive).subkeys
      (Text.utf8 name)) := by
  by_cases hThere : ∃ e ∈ (addBefore naming hive).subkeys,
      naming.fold e.1 = naming.fold (Text.utf8 name)
  · unfold nameIn
    cases hFind : (addBefore naming hive).subkeys.find?
        (fun e => naming.fold e.1 =
          naming.fold (Text.utf8 name)) with
    | none => exact legible_utf8 name
    | some e => exact hNames e (List.mem_of_find?_eq_some hFind)
  · push Not at hThere
    rw [nameIn_of_not_mem hThere]
    exact legible_utf8 name

/- When the registry can be read with the entry in it. -/
theorem legibleAdd_entered
    (hDer : der ≠ [])
    (hDistinct : Distinct naming.fold
      (addBefore naming hive).subkeys) :
    ((addBefore naming hive).edit naming
      (entered naming der purposes) [name]).LegibleAdd
        naming ↔
      (∀ e ∈ (addBefore naming hive).subkeys,
        Legible e.1 ∧
          (naming.fold e.1 ≠ naming.fold (Text.utf8 name) →
            e.2.LegibleEntry naming)) ∧
      ∀ p ∈ (entered naming der purposes
        (entryBefore naming name hive)).purposeParts naming,
        Legible p := by
  have hPut := hDistinct.put (Text.utf8 name)
    (entered naming der purposes
      (entryBefore naming name hive))
  rw [← subkeys_edit] at hPut
  rw [Key.legibleAdd_of_distinct hPut, subkeys_edit]
  have hMem : ∀ e,
      e ∈ put naming.fold (addBefore naming hive).subkeys
        (Text.utf8 name) (entered naming der purposes
          (entryBefore naming name hive)) ↔
      e = (nameIn naming.fold (addBefore naming hive).subkeys
        (Text.utf8 name), entered naming der purposes
          (entryBefore naming name hive)) ∨
        (e ∈ (addBefore naming hive).subkeys ∧
          naming.fold e.1 ≠ naming.fold (Text.utf8 name)) :=
    fun _ => mem_put_iff hDistinct
  constructor
  · intro hAll
    have hOwn := hAll _ ((hMem _).mpr (Or.inl rfl))
    constructor
    · intro e he
      by_cases hSame : naming.fold e.1 =
          naming.fold (Text.utf8 name)
      · rw [nameIn_of_mem hDistinct he hSame] at hOwn
        exact ⟨hOwn.1, fun hOther => absurd hSame hOther⟩
      · have hEntry := hAll e ((hMem e).mpr
          (Or.inr ⟨he, hSame⟩))
        exact ⟨hEntry.1, fun _ => hEntry.2⟩
    · exact hOwn.2 der (certificate_entered hDer _)
  · rintro ⟨hBeside, hParts⟩ e he
    rcases (hMem e).mp he with rfl | ⟨he, hOther⟩
    · exact ⟨legible_nameIn (fun x hx => (hBeside x hx).1),
        fun _ _ => hParts⟩
    · exact ⟨(hBeside e he).1, (hBeside e he).2 hOther⟩

/- What of it is of that name: the one entry. -/
theorem filter_additions_entered
    (hDer : der ≠ [])
    (hDistinct : Distinct naming.fold
      (addBefore naming hive).subkeys)
    (hLegible : ((addBefore naming hive).edit naming
      (entered naming der purposes) [name]).LegibleAdd
        naming) :
    (((addBefore naming hive).edit naming
      (entered naming der purposes) [name]).additions
        naming).filter (isNamed naming name) =
      [additionEntered naming name der purposes hive] := by
  have hPut := hDistinct.put (Text.utf8 name)
    (entered naming der purposes
      (entryBefore naming name hive))
  rw [← subkeys_edit] at hPut
  have hNames := (Key.legibleAdd_of_distinct hPut).mp hLegible
  rw [Key.additions_of_distinct hPut]
  have hFilter := @filter_additions naming
    (fun n => naming.fold n = naming.fold (Text.utf8 name)) _
    (fun e he => (hNames e he).1)
  refine hFilter.trans ?_
  rw [subkeys_edit, filter_put hDistinct, List.flatMap_singleton,
    additionOf, certificate_entered hDer]
  rfl

/- What the entry's purposes mean is what was asked for. -/
theorem purposesMeant_entered_iff :
    ((∀ p ∈ (entered naming der purposes
        (entryBefore naming name hive)).purposeParts naming,
        Legible p) ∧
      purposesMeant (additionEntered naming name der purposes
        hive).purposes = purposesMeant purposes) ↔
      PurposesFit naming name purposes hive := by
  unfold additionEntered PurposesFit
  dsimp only
  rw [purposeParts_entered]
  by_cases hNone : purposes = []
  · rw [if_pos hNone, if_pos hNone, hNone]
    rfl
  · rw [if_neg hNone, if_neg hNone, ← partsOf_purposesWritten]
    have hMeant : purposesMeant purposes = purposes :=
      if_neg hNone
    rw [hMeant]
    constructor
    · rintro ⟨hLegible, hRead⟩
      unfold purposesMeant at hRead
      split_ifs at hRead with hEmpty
      · -- nothing is read back of one purpose that can be
        have hListable : ∀ p ∈ purposes, Listable p := by
          rw [← hRead]
          decide
        have hParts := partsOf_purposesWritten.mpr hListable
        rw [hParts, ← hRead] at hEmpty
        cases hEmpty
      · have hBytes := congrArg (List.map Text.utf8) hRead
        rw [List.map_map] at hBytes
        rw [← hBytes]
        symm
        refine (List.map_congr_left (fun p hp => ?_)).trans
          (List.map_id _)
        exact (hLegible p hp).utf8_textOf
    · intro hParts
      rw [hParts]
      constructor
      · intro p hp
        rcases List.mem_map.mp hp with ⟨t, -, rfl⟩
        exact legible_utf8 t
      · rw [List.map_map]
        have hBack : purposes.map (textOf ∘ Text.utf8) =
            purposes :=
          (List.map_congr_left (fun t _ =>
            textOf_utf8 t)).trans (List.map_id _)
        rw [hBack, hMeant]

/-
  The daemon reads the one addition of that name, with the
  certificate and with purposes that mean what was asked for,
  and roots of it are trusted for precisely those.
-/
def ReadsExactly
    (naming : Naming)
    (crates : Crates)
    (name : Text)
    (der : Bytes)
    (purposes : List Text)
    (hive : Key) :
    Prop :=
  ∃ config addition,
    configured naming hive = .ok config ∧
    config.additions.filter (isNamed naming name) =
      [addition] ∧
    addition.der = der ∧
    purposesMeant addition.purposes =
      purposesMeant purposes ∧
    ∀ bundle now composed,
      compose crates bundle config.additions config.distrust
        now = .ok composed →
      ∀ r ∈ composed.roots, r.name = some addition.name →
        r.purposes = purposesMeant purposes

/- The condition, for the registry once it is written. -/
theorem readsExactly_withAddition_iff
    (crates : Crates)
    (hDer : der ≠ [])
    (hDistinct : Distinct naming.fold
      (addBefore naming hive).subkeys) :
    ReadsExactly naming crates name der purposes
      (withAddition naming name der purposes hive) ↔
      LegibleBeside naming name hive ∧
        PurposesFit naming name purposes hive := by
  rcases @exists_trust_withAddition naming hive name der purposes
    with ⟨trust, hTrust⟩
  have hAdd := addOf_withAddition hTrust
  have hDistrust := distrustOf_withAddition hTrust
  have hAdditions : ∀ hLegible : trust.LegibleRoot naming,
      (configOf naming trust).additions.filter
        (isNamed naming name) =
        [additionEntered naming name der purposes hive] := by
    intro hLegible
    rw [configOf, filter_sortAdditions, hAdd]
    exact filter_additions_entered hDer hDistinct
      (hLegible.add _ hAdd)
  constructor
  · rintro ⟨config, addition, hConfig, hOne, -, hMeant, -⟩
    rcases (configured_eq_ok_iff hTrust).mp hConfig with
      ⟨hLegible, rfl⟩
    rcases (legibleAdd_entered hDer hDistinct).mp
      (hLegible.add _ hAdd) with ⟨hBeside, hParts⟩
    rw [hAdditions hLegible] at hOne
    rw [← (List.cons.inj hOne).1] at hMeant
    refine ⟨⟨hBeside, fun key hKey => ?_⟩,
      purposesMeant_entered_iff.mp ⟨hParts, hMeant⟩⟩
    exact hLegible.distrust key (hDistrust.trans hKey)
  · rintro ⟨⟨hBeside, hKeys⟩, hFit⟩
    rcases (@purposesMeant_entered_iff _ _ _ der _).mpr hFit with
      ⟨hParts, hMeant⟩
    have hLegible : trust.LegibleRoot naming := by
      constructor
      · intro add hAdd'
        rw [hAdd] at hAdd'
        cases hAdd'
        exact (legibleAdd_entered hDer hDistinct).mpr
          ⟨hBeside, hParts⟩
      · intro key hKey
        exact hKeys key (hDistrust.symm.trans hKey)
    have hOne := hAdditions hLegible
    refine ⟨_, _, (configured_eq_ok_iff hTrust).mpr
      ⟨hLegible, rfl⟩, hOne, rfl, hMeant, ?_⟩
    intro bundle now composed hCompose r hr hName
    rcases compose_purposed hCompose r hr _ hName with
      ⟨addition, hMem, hSameName, hPurposes⟩
    have hNamed : addition ∈ (configOf naming
        trust).additions.filter (isNamed naming name) := by
      rw [List.mem_filter]
      refine ⟨hMem, ?_⟩
      have hOwn : additionEntered naming name der purposes hive ∈
          (configOf naming trust).additions.filter
            (isNamed naming name) := by
        rw [hOne]
        exact List.mem_singleton_self _
      have hIs := (List.mem_filter.mp hOwn).2
      unfold isNamed at hIs ⊢
      rw [hSameName]
      exact hIs
    rw [hOne] at hNamed
    rw [hPurposes, List.mem_singleton.mp hNamed, hMeant]

/- Whatever is added was vetted and is entered. -/
theorem add_ok
    {missing : Missing}
    {debug : Text → Text}
    {crates : Crates}
    {now : Option Int}
    {faults : Nat → Option IoError}
    {parsed : Parsed}
    (hOk : (add naming missing debug crates now name der
      purposes (Machine.start hive faults)).1 = .ok parsed) :
    (add naming missing debug crates now name der purposes
      (Machine.start hive faults)).2.state =
        withAddition naming name der purposes hive ∧
      vet crates now der = .ok parsed := by
  have hDone := Does.outcome (@add_does naming missing hive
    (fun _ => True) debug crates now name der purposes)
    faults (fun _ => trivial)
  rw [hOk] at hDone
  exact ⟨hDone.1, hDone.2.2⟩

end ClientCore

end Trustd

------------------------------------------------------------
-- Adding Again
------------------------------------------------------------

namespace Trustd

namespace ClientCore

open General Registry Store Cert

/- Names that are distinct are so of an empty key as well. -/
theorem distinct_addBefore
    {naming : Naming}
    {hive : Key}
    (hDistinct : ∀ key, hive.follow naming addPath = some key →
      Distinct naming.fold key.subkeys) :
    Distinct naming.fold (addBefore naming hive).subkeys := by
  unfold addBefore
  cases hAdd : hive.follow naming addPath with
  | none => exact List.nodup_nil
  | some key => exact hDistinct key hAdd

/- What is vetted is not empty, where nothing empty decodes. -/
theorem ne_nil_of_vet
    {der : Bytes}
    {crates : Crates}
    (hEmpty : ∀ certificate,
      crates.fromDer [] ≠ .ok certificate)
    {now : Option Int}
    {parsed : Parsed}
    (hVet : vet crates now der = .ok parsed) :
    der ≠ [] := by
  rintro rfl
  rcases parse_ok crates hVet with
    ⟨-, -, certificate, hRead, -⟩
  exact hEmpty certificate hRead

/-
  After an addition that succeeded the daemon reads exactly
  what was asked for if and only if it can read what is
  beside it, and the purposes can be listed, or, if there are
  none, those of an earlier entry mean the default.
-/
theorem add_exact_iff
    (naming : Naming)
    (missing : Missing)
    (debug : Text → Text)
    (crates : Crates)
    (hEmpty : ∀ certificate,
      crates.fromDer [] ≠ .ok certificate)
    (now : Option Int)
    (hive : Key)
    (hDistinct : ∀ key, hive.follow naming addPath = some key →
      Distinct naming.fold key.subkeys)
    (name : Text)
    (der : Bytes)
    (purposes : List Text)
    (faults : Nat → Option IoError)
    (parsed : Parsed)
    (hOk : (add naming missing debug crates now name der
      purposes (Machine.start hive faults)).1 = .ok parsed) :
    ReadsExactly naming crates name der purposes
      (add naming missing debug crates now name der purposes
        (Machine.start hive faults)).2.state ↔
      LegibleBeside naming name hive ∧
        PurposesFit naming name purposes hive := by
  rcases add_ok hOk with ⟨hState, hVet⟩
  rw [hState]
  exact readsExactly_withAddition_iff crates
    (ne_nil_of_vet hEmpty hVet) (distinct_addBefore hDistinct)

/- The name of an addition. -/
def corpName : Text :=
  "corp-ca".toList

/- A purpose that is not the default. -/
def codeSigning : List Text :=
  ["CodeSigning".toList]

/- A registry with an addition for that purpose. -/
def addedBefore : Key :=
  nest addPath (.mk [] [(Text.utf8 corpName, .mk [
    (Text.utf8 purposesValue, purposesWritten codeSigning),
    (Text.utf8 certificateValue,
      certificateWritten purposeAdded)] [])])

theorem purposeCrates_nonempty
    (certificate : Certificate) :
    purposeCrates.fromDer [] ≠ .ok certificate := by
  have hNone : ¬ (([] : Bytes) = purposeShipped ∨
      [] = purposeAdded) := by
    decide
  intro hSome
  rw [purposeCrates] at hSome
  dsimp only at hSome
  rw [if_neg hNone] at hSome
  cases hSome

/- The first addition of a certificate, for that purpose. -/
theorem add_exact_first :
    ReadsExactly exactNaming purposeCrates corpName
      purposeAdded codeSigning
      (add exactNaming notThere id purposeCrates (some 0)
        corpName purposeAdded codeSigning
        (Machine.start Key.empty (fun _ => none))).2.state := by
  have hAny : ((add exactNaming notThere id purposeCrates
      (some 0) corpName purposeAdded codeSigning
      (Machine.start Key.empty
        (fun _ => none))).1.toOption.any
          (fun parsed => parsed.der = purposeAdded)) = true := by
    decide +kernel
  rcases General.exists_ok_of_any hAny with ⟨parsed, hOk, -⟩
  refine (add_exact_iff exactNaming notThere id purposeCrates
    purposeCrates_nonempty (some 0) Key.empty ?_ corpName
    purposeAdded codeSigning (fun _ => none) parsed hOk).mpr
    ⟨⟨?_, ?_⟩, ?_⟩
  · intro key hKey
    cases hKey
  · intro e he
    cases he
  · intro key hKey
    cases hKey
  · have hSome : codeSigning ≠ [] := List.cons_ne_nil _ _
    rw [PurposesFit, if_neg hSome]
    decide

/- Adding again without purposes keeps those of before. -/
theorem add_keeps_purposes :
    (∃ parsed, (add exactNaming notThere id purposeCrates
      (some 0) corpName purposeAdded []
      (Machine.start addedBefore (fun _ => none))).1 =
        .ok parsed) ∧
    ¬ ReadsExactly exactNaming purposeCrates corpName
      purposeAdded []
      (add exactNaming notThere id purposeCrates (some 0)
        corpName purposeAdded []
        (Machine.start addedBefore
          (fun _ => none))).2.state := by
  have hAny : ((add exactNaming notThere id purposeCrates
      (some 0) corpName purposeAdded []
      (Machine.start addedBefore
        (fun _ => none))).1.toOption.any
          (fun parsed => parsed.der = purposeAdded)) = true := by
    decide +kernel
  rcases General.exists_ok_of_any hAny with ⟨parsed, hOk, -⟩
  refine ⟨⟨parsed, hOk⟩, ?_⟩
  have hDistinct : Distinct exactNaming.fold
      (addBefore exactNaming addedBefore).subkeys := by
    decide
  rw [(add_ok hOk).1, readsExactly_withAddition_iff
    purposeCrates (by decide) hDistinct]
  rintro ⟨-, hFit⟩
  have hParts : (entryBefore exactNaming corpName
      addedBefore).purposeParts exactNaming =
        codeSigning.map Text.utf8 := by
    decide
  rw [PurposesFit, if_pos rfl, hParts] at hFit
  have hMeant := hFit.2
  rw [List.map_map, codeSigning, List.map_singleton,
    Function.comp, textOf_utf8] at hMeant
  revert hMeant
  decide

end ClientCore

end Trustd
