import Trustd.Daemon.Contents
import Trustd.General.Splitting

/-
  The registry as the clients change it.

  The state is the registry's root key, and what is changed in
  it is at the end of a path.

  Key definitions include:
    * `Trustd.Registry.Key.follow`
    * `Trustd.Registry.Key.edit`
    * `Trustd.Registry.Missing`

  Key theorems include:
    * `Trustd.Registry.Key.follow_edit`
    * `Trustd.Registry.Key.child_edit`
    * `Trustd.Registry.Key.edit_edit`
-/

------------------------------------------------------------
-- Paths
------------------------------------------------------------

namespace Trustd

namespace Registry

open General

variable (naming : Naming)

/- A key without values and without subkeys. -/
def Key.empty : Key :=
  .mk [] []

/- The key at the end of a path. -/
def Key.follow (key : Key) : List Text → Option Key
  | [] => some key
  | name :: rest =>
      (key.child naming name).bind (fun child =>
        child.follow rest)

/-
  Rewrite the key at the end of a path, in a registry where
  the keys on the way are made if they are not there.
-/
def Key.edit (f : Key → Key) : List Text → Key → Key
  | [], key => f key
  | name :: rest, key =>
      .mk key.values (put naming.fold key.subkeys
        (Text.utf8 name)
        (Key.edit f rest
          ((key.child naming name).getD Key.empty)))

/- `Key::set_value`, on the key. -/
def Key.setValue
    (name : Text)
    (value : RegValue)
    (key : Key) :
    Key :=
  .mk (put naming.fold key.values (Text.utf8 name) value)
    key.subkeys

/- `Key::delete_value`, on the key. -/
def Key.deleteValue (name : Text) (key : Key) : Key :=
  .mk (remove naming.fold key.values (Text.utf8 name))
    key.subkeys

variable {naming}

@[simp] theorem Key.values_edit_cons
    (f : Key → Key)
    (name : Text)
    (rest : List Text)
    (key : Key) :
    (key.edit naming f (name :: rest)).values =
      key.values := rfl

@[simp] theorem Key.values_setValue
    (name : Text)
    (value : RegValue)
    (key : Key) :
    (key.setValue naming name value).values =
      put naming.fold key.values (Text.utf8 name) value := rfl

@[simp] theorem Key.subkeys_setValue
    (name : Text)
    (value : RegValue)
    (key : Key) :
    (key.setValue naming name value).subkeys =
      key.subkeys := rfl

@[simp] theorem Key.values_deleteValue
    (name : Text)
    (key : Key) :
    (key.deleteValue naming name).values =
      remove naming.fold key.values (Text.utf8 name) := rfl

@[simp] theorem Key.subkeys_deleteValue
    (name : Text)
    (key : Key) :
    (key.deleteValue naming name).subkeys =
      key.subkeys := rfl

/- Of a key's children only the one on the path is touched. -/
theorem Key.child_edit
    (f : Key → Key)
    (name other : Text)
    (rest : List Text)
    (key : Key) :
    (key.edit naming f (name :: rest)).child naming other =
      if naming.fold (Text.utf8 name) =
          naming.fold (Text.utf8 other) then
        some (((key.child naming name).getD Key.empty).edit
          naming f rest)
      else key.child naming other :=
  entry_put _ _ _ _

theorem Key.child_edit_self
    (f : Key → Key)
    (name : Text)
    (rest : List Text)
    (key : Key) :
    (key.edit naming f (name :: rest)).child naming name =
      some (((key.child naming name).getD Key.empty).edit
        naming f rest) := by
  rw [Key.child_edit, if_pos rfl]

theorem Key.child_edit_other
    (f : Key → Key)
    {name other : Text}
    (hOther : naming.fold (Text.utf8 name) ≠
      naming.fold (Text.utf8 other))
    (rest : List Text)
    (key : Key) :
    (key.edit naming f (name :: rest)).child naming other =
      key.child naming other := by
  rw [Key.child_edit, if_neg hOther]

theorem Key.follow_append
    (key : Key)
    (path rest : List Text) :
    key.follow naming (path ++ rest) =
      (key.follow naming path).bind (fun inner =>
        inner.follow naming rest) := by
  induction path generalizing key with
  | nil => rfl
  | cons name path ih =>
      rw [List.cons_append, Key.follow, Key.follow,
        Option.bind_assoc]
      cases key.child naming name with
      | none => rfl
      | some child => exact ih child

/- Editing inside the key at the end of a path. -/
theorem Key.edit_append
    (f : Key → Key)
    (path rest : List Text)
    (key : Key) :
    key.edit naming f (path ++ rest) =
      key.edit naming (fun inner => inner.edit naming f rest)
        path := by
  induction path generalizing key with
  | nil => rfl
  | cons name path ih =>
      rw [List.cons_append, Key.edit, Key.edit, ih]

/- Two edits at one place are one. -/
theorem Key.edit_edit
    (f g : Key → Key)
    (path : List Text)
    (key : Key) :
    (key.edit naming f path).edit naming g path =
      key.edit naming (fun inner => g (f inner)) path := by
  induction path generalizing key with
  | nil => rfl
  | cons name path ih =>
      rw [Key.edit, Key.child_edit_self, Option.getD_some, ih,
        Key.edit, Key.edit]
      simp only [Key.subkeys, Key.values, put_put]

/- Where the keys on the way were made first. -/
theorem Key.edit_made
    (f : Key → Key)
    (path rest : List Text)
    (key : Key) :
    (key.edit naming id path).edit naming f (path ++ rest) =
      key.edit naming f (path ++ rest) := by
  rw [Key.edit_append, Key.edit_edit, Key.edit_append]
  rfl

/- Nothing is below a key that is empty. -/
theorem Key.follow_empty
    {path : List Text}
    (hPath : path ≠ []) :
    Key.empty.follow naming path = none := by
  cases path with
  | nil => exact absurd rfl hPath
  | cons name path => rfl

theorem Key.getD_follow_empty (path : List Text) :
    (Key.empty.follow naming path).getD Key.empty =
      Key.empty := by
  cases path with
  | nil => rfl
  | cons name path => rfl

/- The key at the end of the path is the one rewritten. -/
theorem Key.follow_edit
    (f : Key → Key)
    (path : List Text)
    (key : Key) :
    (key.edit naming f path).follow naming path =
      some (f ((key.follow naming path).getD Key.empty)) := by
  induction path generalizing key with
  | nil => rfl
  | cons name path ih =>
      rw [Key.follow, Key.child_edit_self, Option.bind_some,
        ih, Key.follow]
      cases key.child naming name with
      | some child => rfl
      | none =>
          rw [Option.getD_none, Key.getD_follow_empty]
          rfl

/- A path that parts from the one rewritten leads as before. -/
theorem Key.follow_edit_other
    (f : Key → Key)
    (path : List Text)
    {name other : Text}
    (hOther : naming.fold (Text.utf8 name) ≠
      naming.fold (Text.utf8 other))
    (rest rest' : List Text)
    (key : Key) :
    (key.edit naming f (path ++ name :: rest)).follow naming
        (path ++ other :: rest') =
      key.follow naming (path ++ other :: rest') := by
  induction path generalizing key with
  | nil =>
      rw [List.nil_append, List.nil_append, Key.follow,
        Key.child_edit_other f hOther, Key.follow]
  | cons step path ih =>
      rw [List.cons_append, List.cons_append, Key.follow,
        Key.child_edit_self, Option.bind_some, ih, Key.follow]
      cases key.child naming step with
      | some child => rfl
      | none =>
          rw [Option.getD_none, Key.follow_empty (by simp)]
          rfl

end Registry

end Trustd

------------------------------------------------------------
-- Open Keys
------------------------------------------------------------

namespace Trustd

namespace Registry

open General

/- `TRUST_KEY`. -/
def trustPath : Text := "Machine\\System\\Trust".toList

/- `CERTIFICATES_KEY`. -/
def certificatesPath : Text :=
  "Machine\\System\\Trust\\Certificates".toList

/- What separates the names of a path. -/
def isSeparator (c : Char) : Bool :=
  c = '\\' || c = '/'

/- The names that a path is made of. -/
def components (path : Text) : List Text :=
  splitAt isSeparator path

theorem components_name
    {name : Text}
    (hName : ∀ c ∈ name, isSeparator c = false) :
    components name = [name] :=
  splitAt_of_forall hName

/- The key the daemon reads from, if it is there. -/
def Key.trust (naming : Naming) (hive : Key) : Option Key :=
  hive.follow naming (components trustPath)

/- What the daemon reads. -/
def configured (naming : Naming) (hive : Key) :
    Except IoError Config :=
  load (pure ((hive.trust naming).map
    (Key.named naming)))

theorem configured_eq_ok_iff
    {naming : Naming}
    {hive trust : Key}
    (hTrust : hive.trust naming = some trust)
    {config : Config} :
    configured naming hive = .ok config ↔
      trust.LegibleRoot naming ∧
        config = configOf naming trust := by
  rw [configured, hTrust]
  exact loadFrom_eq_ok_iff

theorem configured_of_none
    {naming : Naming}
    {hive : Key}
    (hTrust : hive.trust naming = none) :
    configured naming hive = .ok {} := by
  rw [configured, hTrust]
  rfl

/- What `Key::open` answers where there is no such key. -/
abbrev Missing : Type :=
  { e : IoError // e.kind = .notFound }

/- One such answer. -/
def notThere : Missing :=
  ⟨{ kind := .notFound
     rawOsError := none
     text := "not found".toList }, rfl⟩

end Registry

end Trustd
