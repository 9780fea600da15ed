import Trustd.Client.Resolvers
import Trustd.Client.Torn

/-
  What the clients decide, apart from where it is kept.

  A policy is the additions as far as they are entered, the
  fingerprints that are distrusted with the reasons why, and
  the mode of the files. A client's command is a few decisions
  in order, and each of them is one call.

  Key definitions include:
    * `Trustd.ClientCore.Policy`
    * `Trustd.ClientCore.Decision`
    * `Trustd.ClientCore.Policy.apply`
    * `Trustd.ClientCore.Policy.config`
    * `Trustd.ClientCore.decisions`
    * `Trustd.ClientCore.Command.Came`

  Key theorems include:
    * `Trustd.ClientCore.Steps.add_decides`
    * `Trustd.ClientCore.Steps.restore_decides`
    * `Trustd.ClientCore.Command.ends`
-/

------------------------------------------------------------
-- Policies
------------------------------------------------------------

namespace Trustd

namespace Registry

/- The name of an entry, as the registry compares it. -/
def Naming.text (naming : Naming) (name : Text) : Bytes :=
  naming.fold (Text.utf8 name)

end Registry

namespace ClientCore

open General Registry Store Render

/- An addition as far as it has been entered. -/
structure Draft where
  purposes : List Text := []
  certificate : Bytes := []
deriving DecidableEq, Repr

/- What the clients have decided. -/
structure Policy where
  entries : List (Text × Draft) := []
  distrusts : List (Text × Text) := []
  compat : Compat := .files
  controlSecurity : Option Bytes := none
deriving DecidableEq, Repr

/- One decision. -/
inductive Decision where
  | enter (name : Text)
  | purposes (name : Text) (purposes : List Text)
  | certify (name : Text) (der : Bytes)
  | drop (path : List Text)
  | note (fingerprint reason : Text)
  | lift (fingerprint : Text)
  | mode (compat : Compat)
deriving DecidableEq, Repr

section

variable (naming : Naming)

/- The entry of a name, or what it begins as. -/
def Policy.entry (policy : Policy) (name : Text) : Draft :=
  (General.entry naming.text policy.entries name).getD {}

/- The policy with an entry rewritten. -/
def Policy.adjust
    (name : Text)
    (f : Draft → Draft)
    (policy : Policy) :
    Policy :=
  { policy with
    entries := put naming.text policy.entries name
      (f (policy.entry naming name)) }

/- What becomes of a policy by a decision. -/
def Policy.apply (policy : Policy) : Decision → Policy
  | .enter name => policy.adjust naming name id
  | .purposes name purposes =>
      policy.adjust naming name (fun e => { e with purposes })
  | .certify name der =>
      policy.adjust naming name
        (fun e => { e with certificate := der })
  | .drop [name] =>
      { policy with
        entries := remove naming.text policy.entries name }
  -- an addition has nothing below it that could be dropped
  | .drop _ => policy
  | .note fingerprint reason =>
      { policy with
        distrusts := put naming.text policy.distrusts
          fingerprint reason }
  | .lift fingerprint =>
      { policy with
        distrusts := remove naming.text policy.distrusts
          fingerprint }
  | .mode compat => { policy with compat }

/- Whether a name is entered, complete or not. -/
def Policy.Entered (policy : Policy) (name : Text) : Prop :=
  General.entry naming.text policy.entries name ≠ none

/- Whether a fingerprint is distrusted. -/
def Policy.Distrusts
    (policy : Policy)
    (fingerprint : Text) :
    Prop :=
  General.entry naming.text policy.distrusts fingerprint ≠ none

/- What is decided of something finds it there. -/
def Policy.Admits (policy : Policy) : Decision → Prop
  | .purposes name _ => policy.Entered naming name
  | .certify name _ => policy.Entered naming name
  | .drop path =>
      ∃ name, path = [name] ∧ policy.Entered naming name
  | .lift fingerprint => policy.Distrusts naming fingerprint
  | _ => True

end

/- The addition that an entry is, once it is complete. -/
def Draft.addition
    (name : Text)
    (entry : Draft) :
    Option Addition :=
  if entry.certificate = [] then none
  else some {
    name
    der := entry.certificate
    purposes := entry.purposes }

/- The configuration that a policy amounts to. -/
def Policy.config (policy : Policy) : Config where
  additions := sortAdditions
    (policy.entries.filterMap (fun e => e.2.addition e.1))
  distrust := sortDistrust (policy.distrusts.map Prod.fst)
  compat := policy.compat
  controlSecurity := policy.controlSecurity

/- What the operators are shown of it. -/
def Policy.listing (policy : Policy) : List Distrusted :=
  sortDistrusted (policy.distrusts.map (fun d =>
    { fingerprint := d.1, reason := d.2 }))

end ClientCore

end Trustd

------------------------------------------------------------
-- Decisions Of Calls
------------------------------------------------------------

namespace Trustd

namespace ClientCore

open General Registry Store Render

/- The reason a value gives. -/
def reasonOf (value : RegValue) : Text :=
  Text.fromUtf8Lossy (value.data.takeWhile (· ≠ 0))

/- What is decided where a call is carried out. -/
def decisionOf : Call → Option Decision
  | .createKey parent path =>
      if parent = addPath then some (.enter path) else none
  | .setValue key name value =>
      if key = components distrustPath then
        some (.note name (reasonOf value))
      else if key = components trustPath then
        some (.mode (compatOf (some value)))
      else key.getLast?.map (fun entry =>
        if name = purposesValue then
          .purposes entry ((partsOf value).map textOf)
        else .certify entry value.data)
  | .deleteValue _ name => some (.lift name)
  | .deleteKey key => some (.drop (key.drop addPath.length))
  | _ => none

/- What is decided by an exchange, if it is carried out. -/
def decisions (e : Script.Exchange Call Answer) :
    List Decision :=
  match e.2 with
  | .ok _ => (decisionOf e.1).toList
  | .error _ => []

/- What the registry can answer: the key that was named. -/
def Fits : Script.Exchange Call Answer → Prop
  | ⟨.openKey parent path, .ok key⟩ =>
      key = parent ++ components path
  | ⟨.createKey parent path, .ok key⟩ =>
      key = parent ++ components path
  | _ => True

/- The calls that the commands are made of. -/
inductive Issued : Call → Prop where
  | openKey (parent : Handle) (path : Text) :
      Issued (.openKey parent path)
  | certificates : Issued (.createKey [] certificatesPath)
  | add :
      Issued (.createKey (components certificatesPath) addKey)
  | distrust :
      Issued (.createKey (components certificatesPath)
        distrustKey)
  | enter (name : Text) (hUsable : usableName name = true) :
      Issued (.createKey addPath name)
  | purposes (name : Text) (purposes : List Text) :
      Issued (.setValue (entryPath name) purposesValue
        (purposesWritten purposes))
  | certify (name : Text) (der : Bytes) :
      Issued (.setValue (entryPath name) certificateValue
        (certificateWritten der))
  | note (fingerprint reason : Text)
      (hSelf : fingerprintOf fingerprint = some fingerprint) :
      Issued (.setValue (components distrustPath) fingerprint
        (Steps.reasonWritten reason))
  | mode (mode : UInt32) :
      Issued (.setValue (components trustPath) compatValue
        { ty := .dword, data := Steps.toLeBytes mode })
  | lift (fingerprint : Text) :
      Issued (.deleteValue (components distrustPath)
        fingerprint)
  | drop (name : Text) :
      Issued (.deleteKey (addPath ++ components name))
  | listValues (key : Handle) : Issued (.listValues key)
  | readValue (value : Bytes × RegValue) :
      Issued (.readValue value)

end ClientCore

end Trustd

------------------------------------------------------------
-- Decisions Of Commands
------------------------------------------------------------

namespace Trustd

namespace ClientCore

open General Registry Store Cert Render

variable {ε α β : Type}

/-
  However its calls are answered, what a program decides has
  `Q` with its value or `E` with its error.
-/
abbrev Steps.Decides
    (x : Steps ε α)
    (Q : List Decision → α → Prop)
    (E : List Decision → ε → Prop) :
    Prop :=
  Script.Ends Issued Fits decisions x Q E

/- What is decided next comes after what was. -/
theorem Steps.Decides.bind
    {x : Steps ε α}
    {f : α → Steps ε β}
    {d : List Decision}
    {P : α → Prop}
    {Q : List Decision → β → Prop}
    {E : List Decision → ε → Prop}
    (hx : x.Decides (fun l a => l = d ∧ P a) E)
    (hf : ∀ a, P a → (f a).Decides
      (fun l b => Q (d ++ l) b) (fun l e => E (d ++ l) e)) :
    Steps.Decides (x >>= f) Q E := by
  refine Script.Ends.bind (hx.mono ?_ (fun _ _ hE => hE))
  rintro l a ⟨rfl, hP⟩
  exact hf a hP

/- The same where nothing is decided yet. -/
theorem Steps.Decides.andThen
    {x : Steps ε α}
    {f : α → Steps ε β}
    {P : α → Prop}
    {Q : List Decision → β → Prop}
    {E : List Decision → ε → Prop}
    (hx : x.Decides (fun l a => l = [] ∧ P a) E)
    (hf : ∀ a, P a → (f a).Decides Q E) :
    Steps.Decides (x >>= f) Q E :=
  Steps.Decides.bind hx hf

/- An attempt of what decides nothing. -/
theorem Steps.Decides.attempt
    {ε' : Type}
    {x : Steps ε α}
    {P : α → Prop}
    {E : List Decision → ε' → Prop}
    (hx : x.Decides (fun l a => l = [] ∧ P a)
      (fun l _ => l = [])) :
    Steps.Decides x.attempt (fun l _ => l = [] ∧ True) E :=
  Script.Ends.attempt (hx.mono
    (fun _ _ hQ => ⟨hQ.1, trivial⟩)
    (fun _ _ hE => ⟨hE, trivial⟩))

/- A call that is answered with an error decides nothing. -/
theorem Steps.call_decides
    {c : Call}
    (hIssued : Issued c) :
    (Steps.call c).Decides
      (fun l a => l = (decisionOf c).toList ∧
        Fits ⟨c, .ok a⟩)
      (fun l _ => l = []) := by
  refine Script.Ends.ask_ofExcept hIssued ?_ ?_
  · rintro r a hFits rfl
    exact ⟨rfl, hFits⟩
  · rintro r e hFits rfl
    rfl

theorem Steps.openKey_decides
    (parent : Handle)
    (path : Text) :
    (Steps.openKey parent path).Decides
      (fun l key => l = [] ∧ key = parent ++ components path)
      (fun l _ => l = []) :=
  Steps.call_decides (Issued.openKey parent path)

theorem Steps.createKey_decides
    {parent : Handle}
    {path : Text}
    (hIssued : Issued (.createKey parent path)) :
    (Steps.createKey parent path).Decides
      (fun l key => l = (decisionOf (.createKey parent
        path)).toList ∧ key = parent ++ components path)
      (fun l _ => l = []) :=
  Steps.call_decides hIssued

theorem Steps.openOrCreate_decides
    {parent : Handle}
    {path : Text}
    (shown : Text)
    (hIssued : Issued (.createKey parent path)) :
    (Steps.openOrCreate parent path shown).Decides
      (fun l key => l = (decisionOf (.createKey parent
        path)).toList ∧ key = parent ++ components path)
      (fun l _ => l = []) :=
  Script.Ends.mapError (Steps.createKey_decides hIssued)

theorem Steps.writeValue_decides
    (shown : Text)
    {key : Handle}
    {name : Text}
    {value : RegValue}
    (hIssued : Issued (.setValue key name value)) :
    (Steps.writeValue shown key name value).Decides
      (fun l _ => l = (decisionOf (.setValue key name
        value)).toList ∧ True)
      (fun l _ => l = []) :=
  Script.Ends.mapError (Steps.call_decides hIssued)

/- Making the keys that hold the lists decides nothing. -/
theorem Steps.certificates_decides
    {which : Text}
    (hIssued : Issued
      (.createKey (components certificatesPath) which)) :
    (Steps.certificates which).Decides
      (fun l key => l = [] ∧
        key = components certificatesPath ++ components which)
      (fun l _ => l = []) := by
  refine Steps.Decides.andThen
    (Steps.openOrCreate_decides _ Issued.certificates)
    (fun certificates hKey => ?_)
  rw [hKey, List.nil_append]
  have hNone : decisionOf (.createKey
      (components certificatesPath) which) = none := by
    rw [decisionOf, if_neg (by decide)]
  refine (Steps.openOrCreate_decides _ hIssued).mono ?_
    (fun _ _ hE => hE)
  rintro l key ⟨rfl, hKey⟩
  rw [hNone]
  exact ⟨rfl, hKey⟩

/- Purposes as they are listed: cut at nulls. -/
def isNull (c : Char) : Bool :=
  c = Char.ofNat 0

def listed (purposes : List Text) : List Text :=
  purposes.flatMap (pieces isNull)

/- What adding decides, in order. -/
def addDecisions
    (name : Text)
    (der : Bytes)
    (purposes : List Text) :
    List Decision :=
  .enter name ::
    ((if purposes = [] then []
      else [.purposes name (listed purposes)]) ++
        [.certify name der])

/- A null in UTF-8 is a null in the text. -/
theorem splitAt_utf8 (t : Text) :
    splitAt isZero (Text.utf8 t) =
      (splitAt isNull t).map Text.utf8 := by
  induction t with
  | nil => rfl
  | cons c t ih =>
      by_cases hNull : c = Char.ofNat 0
      · subst hNull
        have hByte : Text.utf8 (Char.ofNat 0 :: t) =
            0 :: Text.utf8 t := rfl
        rw [hByte, splitAt, splitAt, ih]
        rfl
      · have hPlain : isNull c = false := decide_eq_false hNull
        have hBytes : ∀ b ∈ Text.utf8 [c], isZero b = false := by
          rw [isZero_eq_false_iff]
          intro hMem
          exact hNull (List.mem_singleton.mp hMem).symm
        rcases List.exists_cons_of_ne_nil
          (splitAt_ne_nil (p := isNull) t) with
          ⟨part, parts, hRest⟩
        rw [hRest, List.map_cons] at ih
        have hSplit : Text.utf8 (c :: t) =
            Text.utf8 [c] ++ Text.utf8 t :=
          Text.utf8_append [c] t
        rw [hSplit, splitAt_plain_append hBytes ih,
          splitAt_cons_of_neg hPlain hRest, List.map_cons,
          ← Text.utf8_append]
        rfl

theorem pieces_utf8 (t : Text) :
    pieces isZero (Text.utf8 t) =
      (pieces isNull t).map Text.utf8 := by
  unfold pieces
  rw [splitAt_utf8, List.filter_map]
  congr 1
  apply List.filter_congr
  intro part _
  cases part with
  | nil => rfl
  | cons c part => simp

theorem partsOf_purposesWritten_eq (purposes : List Text) :
    partsOf (purposesWritten purposes) =
      (listed purposes).map Text.utf8 := by
  rw [purposesWritten, partsOf_multiSz, purposesData_eq,
    pieces_terminated rfl, List.flatMap_map, listed,
    List.map_flatMap]
  exact List.flatMap_congr (fun p _ => pieces_utf8 p)

theorem map_textOf_utf8 (ts : List Text) :
    (ts.map Text.utf8).map textOf = ts := by
  rw [List.map_map]
  exact (List.map_congr_left (fun t _ =>
    textOf_utf8 t)).trans (List.map_id _)

end ClientCore

end Trustd

------------------------------------------------------------
-- What Each Call Decides
------------------------------------------------------------

namespace Trustd

namespace ClientCore

open General Registry Store Render

theorem length_entryPath (name : Text) :
    (entryPath name).length = 6 := by
  rw [entryPath, List.length_append, List.length_singleton]
  decide

/- The path to an entry leads to no list and not to the top. -/
theorem entryPath_ne
    {path : List Text}
    (hLength : path.length ≠ 6)
    (name : Text) :
    entryPath name ≠ path := by
  rintro rfl
  exact hLength (length_entryPath name)

theorem decisionOf_enter (name : Text) :
    decisionOf (.createKey addPath name) =
      some (.enter name) := by
  rw [decisionOf, if_pos rfl]

theorem decisionOf_entry
    (name value : Text)
    (written : RegValue) :
    decisionOf (.setValue (entryPath name) value written) =
      some (if value = purposesValue then
        .purposes name ((partsOf written).map textOf)
        else .certify name written.data) := by
  have hLast : (entryPath name).getLast? = some name :=
    List.getLast?_concat
  rw [decisionOf, if_neg (entryPath_ne (by decide) name),
    if_neg (entryPath_ne (by decide) name), hLast]
  rfl

theorem decisionOf_purposes
    (name : Text)
    (purposes : List Text) :
    decisionOf (.setValue (entryPath name) purposesValue
      (purposesWritten purposes)) =
      some (.purposes name (listed purposes)) := by
  rw [decisionOf_entry, if_pos rfl,
    partsOf_purposesWritten_eq, map_textOf_utf8]

theorem decisionOf_certify
    (name : Text)
    (der : Bytes) :
    decisionOf (.setValue (entryPath name) certificateValue
      (certificateWritten der)) =
      some (.certify name der) := by
  rw [decisionOf_entry, if_neg (by decide)]
  rfl

/- A text up to its first null, in bytes. -/
theorem takeWhile_utf8 (t : Text) :
    (Text.utf8 t ++ [0]).takeWhile (· ≠ 0) =
      Text.utf8 (t.takeWhile (fun c => !isNull c)) := by
  induction t with
  | nil => rfl
  | cons c t ih =>
      by_cases hNull : c = Char.ofNat 0
      · subst hNull
        rfl
      · have hPlain : isNull c = false := decide_eq_false hNull
        have hBytes : ∀ b ∈ Text.utf8 [c],
            decide (b ≠ 0) = true := by
          intro b hb
          rw [decide_eq_true_eq]
          rintro rfl
          exact hNull (List.mem_singleton.mp
            (zero_mem_utf8.mp hb)).symm
        have hSplit : Text.utf8 (c :: t) =
            Text.utf8 [c] ++ Text.utf8 t :=
          Text.utf8_append [c] t
        rw [hSplit, List.append_assoc,
          List.takeWhile_append_of_pos hBytes, ih,
          List.takeWhile_cons, hPlain, ← Text.utf8_append]
        rfl

/- What is left of a reason: all that is before a null. -/
theorem reasonOf_reasonWritten (reason : Text) :
    reasonOf (Steps.reasonWritten reason) =
      reason.takeWhile (fun c => !isNull c) := by
  unfold reasonOf Steps.reasonWritten
  dsimp only
  rw [takeWhile_utf8, Text.fromUtf8Lossy_utf8]

theorem decisionOf_note (fingerprint reason : Text) :
    decisionOf (.setValue (components distrustPath) fingerprint
      (Steps.reasonWritten reason)) =
      some (.note fingerprint
        (reason.takeWhile (fun c => !isNull c))) := by
  rw [decisionOf, if_pos rfl, reasonOf_reasonWritten]

theorem fromLeBytes_toLeBytes (value : UInt32) :
    fromLeBytes (Steps.toLeBytes value) = value.toNat := by
  have hBound := value.toNat_lt
  simp only [Steps.toLeBytes, fromLeBytes,
    UInt32.toNat_toUInt8, UInt32.toNat_shiftRight,
    Nat.shiftRight_eq_div_pow]
  have h8 : (8 : UInt32).toNat % 32 = 8 := by decide
  have h16 : (16 : UInt32).toNat % 32 = 16 := by decide
  have h24 : (24 : UInt32).toNat % 32 = 24 := by decide
  rw [h8, h16, h24]
  omega

theorem compatOf_mode (mode : UInt32) :
    compatOf (some { ty := .dword
                     data := Steps.toLeBytes mode }) =
      Compat.fromDword mode.toNat := by
  unfold compatOf
  dsimp only
  rw [if_pos ⟨rfl, rfl⟩, fromLeBytes_toLeBytes]

theorem decisionOf_mode (mode : UInt32) :
    decisionOf (.setValue (components trustPath) compatValue
      { ty := .dword, data := Steps.toLeBytes mode }) =
      some (.mode (Compat.fromDword mode.toNat)) := by
  rw [decisionOf, if_neg (by decide), if_pos rfl, compatOf_mode]

theorem decisionOf_drop (path : List Text) :
    decisionOf (.deleteKey (addPath ++ path)) =
      some (.drop path) := by
  rw [decisionOf, List.drop_left]

end ClientCore

end Trustd

------------------------------------------------------------
-- What Comes Of A Command
------------------------------------------------------------

namespace Trustd

namespace ClientCore

open General Registry Store Cert Render

/- What a command that is carried out decided. -/
def Command.Came
    (crates : Crates) :
    Command → List Decision → Done → Prop
  | .add now name der purposes, l, .added parsed =>
      l = addDecisions name der purposes ∧
        usableName name = true ∧
          vet crates now der = .ok parsed
  | .remove name, l, .removed =>
      l = [.drop (components name)]
  | .distrust _ fingerprint reason, l, .distrusted _ =>
      l = [.note (normaliseFingerprint fingerprint)
        (reason.takeWhile (fun c => !isNull c))] ∧
        (fingerprintOf fingerprint).isSome = true
  | .restore argument, l, .restored fingerprint =>
      l = [.lift fingerprint] ∧
        normaliseFingerprint argument <+: fingerprint
  | .setCompat mode, l, .compatSet =>
      l = [.mode (Compat.fromDword mode.toNat)]
  | .list, l, .listed _ => l = []
  | .mayChange, l, .allowed => l = []
  | .maySetCompat, l, .allowed => l = []
  | _, _, _ => False

/-
  What one that is not did: an addition may have been begun,
  and nothing else is left of it.
-/
def Command.Failed :
    Command → List Decision → Error → Prop
  | .add _ name der purposes, l, _ =>
      ∃ rest, rest ≠ [] ∧
        l ++ rest = addDecisions name der purposes
  | _, l, _ => l = []

variable {debug : Text → Text}
variable {crates : Crates}
variable {now : Option Int}

theorem Steps.add_decides
    (name : Text)
    (der : Bytes)
    (purposes : List Text) :
    (Steps.add debug crates now name der purposes).Decides
      (fun l parsed => l = addDecisions name der purposes ∧
        usableName name = true ∧
          vet crates now der = .ok parsed)
      (fun l _ => ∃ rest, rest ≠ [] ∧
        l ++ rest = addDecisions name der purposes) := by
  have hNone : ∃ rest, rest ≠ [] ∧
      [] ++ rest = addDecisions name der purposes :=
    ⟨_, List.cons_ne_nil _ _, rfl⟩
  unfold Steps.add
  by_cases hUsable : usableName name = false
  · rw [if_pos hUsable]
    exact hNone
  rw [if_neg hUsable]
  rw [Bool.not_eq_false] at hUsable
  cases hVet : vet crates now der with
  | error e => exact hNone
  | ok parsed =>
      refine Steps.Decides.andThen
        ((Steps.certificates_decides Issued.add).mono
          (fun _ _ hQ => hQ)
          (fun l _ hE => by rw [hE]; exact hNone))
        (fun add hAdd => ?_)
      rw [components_addKey, ← addPath_eq] at hAdd
      subst hAdd
      -- from here on every failure leaves the name entered
      refine Steps.Decides.bind (d := [.enter name])
        (P := fun entry => entry = entryPath name)
        ((Steps.openOrCreate_decides _
          (Issued.enter name hUsable)).mono ?_
          (fun l _ hE => by rw [hE]; exact hNone)) ?_
      · rintro l key ⟨rfl, rfl⟩
        rw [decisionOf_enter, components_of_usableName hUsable]
        exact ⟨rfl, rfl⟩
      rintro entry rfl
      have hCertify := (Steps.writeValue_decides
        (shownAddition name) (Issued.certify name der))
      rw [decisionOf_certify] at hCertify
      refine Steps.Decides.bind
        (d := if purposes = [] then []
          else [.purposes name (listed purposes)])
        (P := fun _ => True) ?_ (fun _ _ => ?_)
      · split_ifs with hPurposes
        · exact ⟨rfl, trivial⟩
        · have hWrite := (Steps.writeValue_decides
            (shownAddition name)
            (Issued.purposes name purposes))
          rw [decisionOf_purposes] at hWrite
          refine hWrite.mono (fun _ _ hQ => hQ) ?_
          rintro l e rfl
          refine ⟨_, ?_, rfl⟩
          rw [if_neg hPurposes]
          exact List.cons_ne_nil _ _
      refine Steps.Decides.bind (hCertify.mono
        (fun _ _ hQ => hQ) ?_) (fun _ _ => ?_)
      · rintro l e rfl
        refine ⟨_, List.cons_ne_nil (.certify name der) [], ?_⟩
        rw [List.append_nil]
        rfl
      · exact ⟨rfl, hUsable, rfl⟩

theorem Steps.remove_decides (name : Text) :
    (Steps.remove name).Decides
      (fun l _ => l = [.drop (components name)])
      (fun l _ => l = []) := by
  have hPath : components
      (certificatesPath ++ "\\".toList ++ addKey) = addPath := by
    decide
  unfold Steps.remove
  refine Steps.Decides.andThen (Script.Ends.mapError
    (Steps.openKey_decides [] _)) (fun add hAdd => ?_)
  rw [List.nil_append, hPath] at hAdd
  subst hAdd
  refine Steps.Decides.andThen (Script.Ends.mapError
    (Steps.openKey_decides addPath name)) ?_
  rintro entry rfl
  refine Script.Ends.mapError ((Steps.call_decides
    (Issued.drop name)).mono ?_ (fun _ _ hE => hE))
  rintro l _ ⟨rfl, -⟩
  rw [decisionOf_drop]
  rfl

/- A whole fingerprint, as the clients test for one. -/
theorem fingerprintOf_of_hex
    {text : Text}
    (hWhole : ¬ (hex (normaliseFingerprint text) = false ∨
      (normaliseFingerprint text).length ≠ 64)) :
    fingerprintOf text = some (normaliseFingerprint text) := by
  rw [not_or, not_not, Bool.not_eq_false] at hWhole
  rw [fingerprintOf_eq_some_iff]
  refine ⟨rfl, hWhole.2, ?_⟩
  have hDigits := hWhole.1
  unfold hex at hDigits
  exact (Bool.and_eq_true _ _ ▸ hDigits).2

theorem Steps.distrust_decides
    (served : Option (List Wire.Root))
    (fingerprint reason : Text) :
    (Steps.distrust served fingerprint reason).Decides
      (fun l _ => l = [.note (normaliseFingerprint fingerprint)
        (reason.takeWhile (fun c => !isNull c))] ∧
        (fingerprintOf fingerprint).isSome = true)
      (fun l _ => l = []) := by
  unfold Steps.distrust
  dsimp only
  split_ifs with hWhole
  · exact rfl
  · have hName := fingerprintOf_of_hex hWhole
    have hIssued := Issued.note _ reason
      (fingerprintOf_self hName).2
    refine Steps.Decides.andThen
      (Steps.certificates_decides Issued.distrust) ?_
    rintro key rfl
    have hWrite := Steps.writeValue_decides distrustPath hIssued
    rw [decisionOf_note] at hWrite
    refine Steps.Decides.bind hWrite (fun _ _ => ?_)
    rw [hName]
    exact ⟨rfl, rfl⟩

theorem Steps.readValues_decides
    (records : List (Bytes × RegValue)) :
    (Steps.readValues records : Steps Error _).Decides
      (fun l _ => l = [] ∧ True) (fun l _ => l = []) := by
  induction records with
  | nil => exact ⟨rfl, trivial⟩
  | cons value rest ih =>
      refine Steps.Decides.andThen (Steps.Decides.attempt
        (Steps.call_decides (Issued.readValue value)))
        (fun item _ => ?_)
      exact Steps.Decides.andThen ih
        (fun items _ => ⟨rfl, trivial⟩)

theorem Steps.values_decides (key : Handle) :
    (Steps.values key : Steps Error _).Decides
      (fun l _ => l = [] ∧ True) (fun l _ => l = []) := by
  unfold Steps.values
  refine Steps.Decides.andThen (Steps.Decides.attempt
    (Steps.call_decides (Issued.listValues key)))
    (fun listed _ => ?_)
  cases listed with
  | error e => exact ⟨rfl, trivial⟩
  | ok records => exact Steps.readValues_decides records

/- Listing decides nothing. -/
theorem Steps.distrusted_decides :
    Steps.distrusted.Decides
      (fun l _ => l = [] ∧ True) (fun l _ => l = []) := by
  unfold Steps.distrusted
  refine Steps.Decides.andThen (Steps.Decides.attempt
    (Steps.openKey_decides [] distrustPath))
    (fun opened _ => ?_)
  cases opened with
  | error e =>
      dsimp only
      split_ifs
      · exact ⟨rfl, trivial⟩
      · exact rfl
  | ok key =>
      exact Steps.Decides.andThen (Steps.values_decides key)
        (fun items _ => ⟨rfl, trivial⟩)

/- What is resolved is begun by what was asked for. -/
theorem Steps.resolveDistrusted_decides (normalised : Text) :
    (Steps.resolveDistrusted normalised).Decides
      (fun l f => l = [] ∧ normalised <+: f)
      (fun l _ => l = []) := by
  unfold Steps.resolveDistrusted
  split_ifs
  · exact ⟨rfl, List.prefix_rfl⟩
  · refine Steps.Decides.andThen Steps.distrusted_decides
      (fun entries _ => ?_)
    split
    · rename_i d hMatch
      have hMem := List.mem_filter.mp
        (hMatch ▸ List.mem_singleton_self d)
      exact ⟨rfl, List.isPrefixOf_iff_prefix.mp hMem.2⟩
    · exact rfl
    · exact rfl

theorem Steps.restore_decides (argument : Text) :
    (Steps.restore argument).Decides
      (fun l f => l = [.lift f] ∧
        normaliseFingerprint argument <+: f)
      (fun l _ => l = []) := by
  unfold Steps.restore
  refine Steps.Decides.andThen
    (Steps.resolveDistrusted_decides _) (fun f hBegun => ?_)
  refine Steps.Decides.andThen (Script.Ends.mapError
    (Steps.openKey_decides [] distrustPath)) ?_
  rintro key rfl
  refine Script.Ends.bind (Script.Ends.attempt
    ((Steps.call_decides (Issued.lift f)).mono ?_ ?_))
  · rintro l _ ⟨rfl, -⟩
    exact ⟨rfl, hBegun⟩
  · rintro l e rfl
    dsimp only
    split_ifs
    · exact rfl
    · exact rfl

theorem Steps.setCompat_decides (mode : UInt32) :
    (Steps.setCompat mode).Decides
      (fun l _ => l = [.mode (Compat.fromDword mode.toNat)])
      (fun l _ => l = []) := by
  unfold Steps.setCompat
  refine Steps.Decides.andThen (Script.Ends.mapError
    (Steps.openKey_decides [] trustPath)) ?_
  rintro key rfl
  have hWrite := Steps.writeValue_decides trustPath
    (Issued.mode mode)
  rw [decisionOf_mode] at hWrite
  exact hWrite.mono (fun _ _ hQ => hQ.1) (fun _ _ hE => hE)

theorem Steps.maySetCompat_decides :
    Steps.maySetCompat.Decides
      (fun l _ => l = []) (fun l _ => l = []) :=
  Steps.Decides.andThen (Script.Ends.mapError
    (Steps.openKey_decides [] trustPath)) (fun _ _ => rfl)

theorem Steps.mayChange_decides :
    Steps.mayChange.Decides
      (fun l _ => l = []) (fun l _ => l = []) := by
  unfold Steps.mayChange
  refine Steps.Decides.andThen (Steps.Decides.attempt
    (Steps.openKey_decides [] certificatesPath))
    (fun opened _ => ?_)
  cases opened with
  | ok _ => exact rfl
  | error e =>
      dsimp only
      split_ifs
      · exact Steps.maySetCompat_decides
      · exact rfl

/- However the calls of a command are answered. -/
theorem Command.ends
    (debug : Text → Text)
    (crates : Crates)
    (c : Command) :
    (c.steps debug crates).Decides (c.Came crates)
      c.Failed := by
  cases c with
  | add now name der purposes =>
      exact Script.Ends.map
        (Steps.add_decides name der purposes)
  | remove name =>
      exact Script.Ends.map (Steps.remove_decides name)
  | distrust served fingerprint reason =>
      exact Script.Ends.map
        (Steps.distrust_decides served fingerprint reason)
  | restore argument =>
      exact Script.Ends.map (Steps.restore_decides argument)
  | setCompat mode =>
      exact Script.Ends.map (Steps.setCompat_decides mode)
  | list =>
      exact Steps.Decides.andThen Steps.distrusted_decides
        (fun _ _ => rfl)
  | mayChange => exact Script.Ends.map Steps.mayChange_decides
  | maySetCompat =>
      exact Script.Ends.map Steps.maySetCompat_decides

end ClientCore

end Trustd
