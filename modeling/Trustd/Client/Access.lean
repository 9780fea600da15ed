import Trustd.Client.Commands
import Trustd.General.Fallible

/-
  Programs over the registry.

  An operation of the registry is a call that is served alone,
  and each of its steps may be refused. A command served alone
  is the program that its calls make up.

  Key definitions include:
    * `Trustd.ClientCore.Access`
    * `Trustd.ClientCore.openKey`
    * `Trustd.ClientCore.values`
    * `Trustd.ClientCore.Does`

  Key theorems include:
    * `Trustd.ClientCore.prog_call`
    * `Trustd.ClientCore.access_does`
    * `Trustd.ClientCore.values_does`
-/

------------------------------------------------------------
-- Operations
------------------------------------------------------------

namespace Trustd

namespace ClientCore

open General Registry

/-
  Programs over the registry. A step is refused with the
  error that is its fault, or else done.
-/
abbrev Access (ε α : Type) : Type :=
  Prog Key (Option IoError) ε α

/- One operation on the registry. -/
def access {α : Type}
    (op : Key → Except IoError α × Key) :
    Access IoError α :=
  Prog.step (fun fault hive =>
    match fault with
    | some e => (.error e, hive)
    | none => op hive)

section

variable (naming : Naming)
variable (missing : Missing)

/- A call served alone is one operation. -/
theorem prog_call (call : Call) :
    (Steps.call call).prog (serve naming missing) =
      access (perform naming missing call) := by
  refine Script.prog_ask_ofExcept (serve naming missing)
    (fun answer : Answer call => answer) (fun fault s => ?_)
  cases fault with
  | none => rfl
  | some e => rfl

/- `Key::open`. -/
def openKey (parent : Handle) (path : Text) :
    Access IoError Handle :=
  (Steps.openKey parent path).prog (serve naming missing)

theorem openKey_eq (parent : Handle) (path : Text) :
    openKey naming missing parent path =
      access (perform naming missing
        (.openKey parent path)) :=
  prog_call naming missing _

/- `Key::create`: opened, and made if it is not there. -/
def createKey (parent : Handle) (path : Text) :
    Access IoError Handle :=
  (Steps.createKey parent path).prog (serve naming missing)

theorem createKey_eq (parent : Handle) (path : Text) :
    createKey naming missing parent path =
      access (perform naming missing
        (.createKey parent path)) :=
  prog_call naming missing _

/- `Key::set_value`. -/
def setValue
    (key : Handle)
    (name : Text)
    (value : RegValue) :
    Access IoError Unit :=
  (Steps.setValue key name value).prog (serve naming missing)

theorem setValue_eq
    (key : Handle)
    (name : Text)
    (value : RegValue) :
    setValue naming missing key name value =
      access (perform naming missing
        (.setValue key name value)) :=
  prog_call naming missing _

/- `Key::delete_value`. -/
def deleteValue (key : Handle) (name : Text) :
    Access IoError Unit :=
  (Steps.deleteValue key name).prog (serve naming missing)

theorem deleteValue_eq (key : Handle) (name : Text) :
    deleteValue naming missing key name =
      access (perform naming missing
        (.deleteValue key name)) :=
  prog_call naming missing _

/- The values of an open key, as they are listed first. -/
def listValues (key : Handle) :
    Access IoError (List (Bytes × RegValue)) :=
  (Steps.listValues key).prog (serve naming missing)

theorem listValues_eq (key : Handle) :
    listValues naming missing key =
      access (perform naming missing (.listValues key)) :=
  prog_call naming missing _

/- One of them, read. -/
def readValue (value : Bytes × RegValue) :
    Access IoError (Bytes × RegValue) :=
  (Steps.readValue value).prog (serve naming missing)

theorem readValue_eq (value : Bytes × RegValue) :
    readValue naming missing value =
      access (perform naming missing (.readValue value)) :=
  prog_call naming missing _

/- Each value that is listed, which may fail to be read. -/
def readValues
    {ε : Type}
    (records : List (Bytes × RegValue)) :
    Access ε (List (Except IoError (Bytes × RegValue))) :=
  (Steps.readValues records).prog (serve naming missing)

theorem readValues_cons
    {ε : Type}
    (value : Bytes × RegValue)
    (rest : List (Bytes × RegValue)) :
    (readValues naming missing (value :: rest) :
        Access ε _) =
      Prog.attempt (readValue naming missing value) >>=
        fun item =>
      readValues naming missing rest >>= fun items =>
      pure (item :: items) := by
  simp only [readValues, Steps.readValues, Script.prog_bind,
    Script.prog_attempt, Script.prog_pure]
  rfl

/- `Key::values`. -/
def values {ε : Type} (key : Handle) :
    Access ε (List (Except IoError (Bytes × RegValue))) :=
  (Steps.values key).prog (serve naming missing)

theorem values_eq {ε : Type} (key : Handle) :
    (values naming missing key : Access ε _) =
      Prog.attempt (listValues naming missing key) >>=
        fun listed =>
      match listed with
      | .error e => pure [.error e]
      | .ok records => readValues naming missing records := by
  rw [values, Steps.values, Script.prog_bind,
    Script.prog_attempt]
  refine congrArg (Prog.attempt _ >>= ·) (funext ?_)
  intro listed
  cases listed with
  | error e => rfl
  | ok records => rfl

end

end ClientCore

end Trustd

------------------------------------------------------------
-- What The Operations Do
------------------------------------------------------------

namespace Trustd

namespace ClientCore

open General Registry

variable {ε α : Type}
variable {G : Option IoError → Prop}
variable {hive : Key}
variable {naming : Naming}
variable {missing : Missing}

/- Nothing is refused. -/
def Quiet (fault : Option IoError) : Prop :=
  fault = none

/-
  From the state `hive`, under faults with `G`, a program
  ends with a value and `Q` or with an error and `E`.
-/
abbrev Does
    (G : Option IoError → Prop)
    (hive : Key)
    (x : Access ε α)
    (Q : α → Key → Prop)
    (E : ε → Key → Prop) :
    Prop :=
  Ensures G (fun _ => True) (fun s => s = hive) x Q E

/- The outcome of a program, and what it leaves. -/
theorem Does.outcome
    {x : Access ε α}
    {Q : α → Key → Prop}
    {E : ε → Key → Prop}
    (hDoes : Does G hive x Q E)
    (faults : Nat → Option IoError)
    (hFaults : ∀ k, G (faults k)) :
    Outcome Q E (x (Machine.start hive faults)).1
      (x (Machine.start hive faults)).2.state :=
  (hDoes (Machine.start hive faults) hFaults
    (fun _ _ => trivial) rfl).2.2

/- What goes on from the one state that is left. -/
theorem Does.andThen
    {β : Type}
    {x : Access ε α}
    {f : α → Access ε β}
    {hive' : Key}
    {P : α → Prop}
    {R : β → Key → Prop}
    {E : ε → Key → Prop}
    (hx : Does G hive x (fun a s => s = hive' ∧ P a) E)
    (hf : ∀ a, P a → Does G hive' (f a) R E) :
    Does G hive (x >>= f) R E := by
  refine Ensures.bind hx (fun a => ?_)
  intro m hG hI hP
  exact hf a hP.2 m hG hI hP.1

/- What goes on from a state that is the same. -/
theorem Does.bind
    {β : Type}
    {x : Access ε α}
    {f : α → Access ε β}
    {P : α → Prop}
    {R : β → Key → Prop}
    {E : ε → Key → Prop}
    (hx : Does G hive x (fun a s => s = hive ∧ P a) E)
    (hf : ∀ a, P a → Does G hive (f a) R E) :
    Does G hive (x >>= f) R E :=
  Does.andThen hx hf

/- An operation is done unless it is refused. -/
theorem access_does
    {op : Key → Except IoError α × Key}
    {Q : α → Key → Prop}
    {E : IoError → Key → Prop}
    (hDone : Outcome Q E (op hive).1 (op hive).2)
    (hRefused : ∀ e, G (some e) → E e hive) :
    Does G hive (access op) Q E := by
  refine Ensures.step (fun fault s hG hState => ?_)
  subst hState
  refine ⟨trivial, ?_⟩
  cases fault with
  | none => exact hDone
  | some e => exact hRefused e hG

/- A key that is opened is there, and nothing changes. -/
theorem openKey_does
    (parent : Handle)
    (path : Text) :
    Does G hive (openKey naming missing parent path)
      (fun key s => s = hive ∧
        key = parent ++ components path ∧
          ∃ k, hive.follow naming key = some k)
      (fun e s => s = hive ∧ (G (some e) ∨ e = missing ∧
        hive.follow naming (parent ++ components path) =
          none)) := by
  rw [openKey_eq]
  refine access_does ?_ (fun e hRefused =>
    ⟨rfl, Or.inl hRefused⟩)
  dsimp only [perform]
  cases hFollow :
      hive.follow naming (parent ++ components path) with
  | none => exact ⟨rfl, Or.inr ⟨rfl, rfl⟩⟩
  | some k => exact ⟨rfl, rfl, k, hFollow⟩

/- A key that is created is there. -/
theorem createKey_does
    (parent : Handle)
    (path : Text) :
    Does G hive (createKey naming missing parent path)
      (fun key s =>
        s = hive.edit naming id (parent ++ components path) ∧
          key = parent ++ components path)
      (fun _ _ => True) := by
  rw [createKey_eq]
  exact access_does (And.intro rfl rfl) (fun _ _ => trivial)

/- A value of a key that is there is written. -/
theorem setValue_does
    {key : Handle}
    (hKey : ∃ k, hive.follow naming key = some k)
    (name : Text)
    (value : RegValue) :
    Does G hive (setValue naming missing key name value)
      (fun _ s =>
        s = hive.edit naming
          (Key.setValue naming name value) key ∧ True)
      (fun _ _ => True) := by
  rcases hKey with ⟨k, hFollow⟩
  rw [setValue_eq]
  refine access_does ?_ (fun _ _ => trivial)
  dsimp only [perform]
  rw [hFollow]
  exact ⟨rfl, trivial⟩

/- A value is deleted if it is there. -/
theorem deleteValue_does
    (key : Handle)
    (name : Text) :
    Does G hive (deleteValue naming missing key name)
      (fun _ s =>
        s = hive.edit naming
          (Key.deleteValue naming name) key ∧
          ∃ k, hive.follow naming key = some k)
      (fun e s => s = hive ∧ (G (some e) ∨ e = missing ∧
        (hive.follow naming key).bind (fun k =>
          k.value naming name) = none)) := by
  rw [deleteValue_eq]
  refine access_does ?_ (fun e hRefused =>
    ⟨rfl, Or.inl hRefused⟩)
  dsimp only [perform]
  cases hValue : (hive.follow naming key).bind (fun k =>
      k.value naming name) with
  | none => exact ⟨rfl, Or.inr ⟨rfl, rfl⟩⟩
  | some value =>
      rcases Option.bind_eq_some_iff.mp hValue with
        ⟨k, hFollow, -⟩
      exact ⟨rfl, k, hFollow⟩

/- The values listed first are those of the key. -/
theorem listValues_does (key : Handle) :
    Does G hive (listValues naming missing key)
      (fun records s => s = hive ∧
        ∃ k, hive.follow naming key = some k ∧
          records = k.values)
      (fun e s => s = hive ∧ (G (some e) ∨
        hive.follow naming key = none)) := by
  rw [listValues_eq]
  refine access_does ?_ (fun e hRefused =>
    ⟨rfl, Or.inl hRefused⟩)
  dsimp only [perform]
  cases hFollow : hive.follow naming key with
  | none => exact ⟨rfl, Or.inr rfl⟩
  | some k => exact ⟨rfl, k, rfl, rfl⟩

/- One value is read, unless that is refused. -/
theorem readValue_does (value : Bytes × RegValue) :
    Does (ε := ε) G hive
      (Prog.attempt (readValue naming missing value))
      (fun item s => s = hive ∧ (item = .ok value ∨
        ∃ e, item = .error e ∧ G (some e)))
      (fun _ _ => False) := by
  have hRead : Does G hive (readValue naming missing value)
      (fun v s => s = hive ∧ v = value)
      (fun e s => s = hive ∧ G (some e)) := by
    rw [readValue_eq]
    exact access_does (And.intro rfl rfl)
      (fun e hRefused => ⟨rfl, hRefused⟩)
  refine (Ensures.attempt hRead).weaken
    (fun _ h => h) ?_ (fun _ _ h => h)
  intro item s hItem
  cases item with
  | ok v => exact ⟨hItem.1, Or.inl (by rw [hItem.2])⟩
  | error e => exact ⟨hItem.1, Or.inr ⟨e, rfl, hItem.2⟩⟩

/- The items are the values, where nothing is refused. -/
theorem readValues_does (records : List (Bytes × RegValue)) :
    Does (ε := ε) G hive (readValues naming missing records)
      (fun items s => s = hive ∧
        ((∀ e, ¬ G (some e)) → items = records.map .ok))
      (fun _ _ => False) := by
  induction records with
  | nil =>
      exact Ensures.pure [] (fun s hState =>
        ⟨hState, fun _ => rfl⟩)
  | cons value rest ih =>
      rw [readValues_cons]
      refine Does.bind (readValue_does value)
        (fun item hItem => Does.bind ih (fun items hItems => ?_))
      refine Ensures.pure _ (fun s hState => ⟨hState, ?_⟩)
      intro hQuiet
      rcases hItem with rfl | ⟨e, -, hRefused⟩
      · rw [hItems hQuiet, List.map_cons]
      · exact absurd hRefused (hQuiet e)

theorem values_does
    {key : Handle}
    {k : Key}
    (hFollow : hive.follow naming key = some k) :
    Does (ε := ε) G hive (values naming missing key)
      (fun items s => s = hive ∧
        ((∀ e, ¬ G (some e)) → items = k.values.map .ok))
      (fun _ _ => False) := by
  rw [values_eq]
  refine Ensures.bind (Ensures.attempt (listValues_does key))
    (fun listed => ?_)
  cases listed with
  | error e =>
      refine Ensures.pure _ (fun s hListed =>
        ⟨hListed.1, fun hQuiet => ?_⟩)
      rcases hListed.2 with hRefused | hNone
      · exact absurd hRefused (hQuiet e)
      · rw [hFollow] at hNone
        cases hNone
  | ok records =>
      intro m hG hI hListed
      rcases hListed with ⟨hState, k', hk', rfl⟩
      rw [hFollow] at hk'
      cases hk'
      exact readValues_does _ m hG hI hState

end ClientCore

end Trustd
