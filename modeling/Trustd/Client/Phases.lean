import Trustd.General.Phases
import Trustd.Client.Additions

/-
  The registry from one phase of an addition to the next.

  An addition writes one key or value after the other, and what
  there is to read under its name changes with each of them.

  Key definitions include:
    * `Trustd.ClientCore.phase`
    * `Trustd.ClientCore.entryPath`
    * `Trustd.ClientCore.entryOf`

  Key theorems include:
    * `Trustd.ClientCore.add_climbs`
    * `Trustd.ClientCore.add_stays`
    * `Trustd.ClientCore.follow_phase`
-/

------------------------------------------------------------
-- Phases Of An Addition
------------------------------------------------------------

namespace Trustd

namespace ClientCore

open General Registry Store Cert

/- An entry with its purposes written, if there are any. -/
def purposed
    (naming : Naming)
    (purposes : List Text)
    (key : Key) :
    Key :=
  if purposes = [] then key
  else key.setValue naming purposesValue
    (purposesWritten purposes)

/-
  The registry before an addition, once each of its three
  keys is there, with the purposes and with the certificate.
-/
def phase
    (naming : Naming)
    (name : Text)
    (der : Bytes)
    (purposes : List Text)
    (hive : Key) :
    Nat → Key
  | 0 => hive
  | 1 => hive.edit naming id (components certificatesPath)
  | 2 => hive.edit naming id addPath
  | 3 => hive.edit naming id (addPath ++ [name])
  | 4 => hive.edit naming (purposed naming purposes)
      (addPath ++ [name])
  | _ + 5 => withAddition naming name der purposes hive

variable {naming : Naming}
variable {missing : Missing}
variable {debug : Text → Text}
variable {crates : Crates}
variable {now : Option Int}
variable {name : Text}
variable {der : Bytes}
variable {purposes : List Text}
variable {hive : Key}

theorem addPath_eq :
    addPath = components certificatesPath ++ [addKey] := by
  rw [addPath, components_certificatesPath, List.append_assoc]
  rfl

/- One operation, where it does what leads to a phase. -/
theorem access_climbs
    {α : Type}
    {phase : Nat → Key}
    {i j : Nat}
    (hLe : i ≤ j)
    {op : Key → Except IoError α × Key}
    {P : α → Prop}
    (hOp : ∃ a, op (phase i) = (.ok a, phase j) ∧ P a) :
    Climbs Quiet phase i j (access op) P := by
  rcases hOp with ⟨a, hOp, hP⟩
  refine Climbs.step hLe (fun fault b hOk => ?_)
    (fun fault e hError => ?_)
  · cases fault with
    | some e => cases hOk
    | none =>
        dsimp only at hOk ⊢
        rw [hOp] at hOk ⊢
        cases hOk
        exact ⟨hP, rfl⟩
  · cases fault with
    | some e => exact ⟨rfl, fun hQuiet => by cases hQuiet⟩
    | none =>
        dsimp only at hError
        rw [hOp] at hError
        cases hError

theorem openOrCreate_climbs
    {phase : Nat → Key}
    {i j : Nat}
    (hLe : i ≤ j)
    {parent : Handle}
    {path : Text}
    (shown : Text)
    (hCreate : (phase i).edit naming id
      (parent ++ components path) = phase j) :
    Climbs Quiet phase i j
      (openOrCreate naming missing parent path shown)
      (fun key => key = parent ++ components path) := by
  rw [openOrCreate_eq, createKey_eq]
  refine Climbs.mapError (access_climbs hLe ?_) _
  exact ⟨parent ++ components path, Prod.ext rfl hCreate, rfl⟩

theorem writeValue_climbs
    {phase : Nat → Key}
    {i j : Nat}
    (hLe : i ≤ j)
    {key : Handle}
    {k : Key}
    (hKey : (phase i).follow naming key = some k)
    (shown : Text)
    {name : Text}
    {value : RegValue}
    (hWrite : (phase i).edit naming
      (Key.setValue naming name value) key = phase j) :
    Climbs Quiet phase i j
      (writeValue naming missing shown key name value)
      (fun _ => True) := by
  rw [writeValue_eq, setValue_eq]
  refine Climbs.mapError (access_climbs hLe
    ⟨(), ?_, trivial⟩) _
  rw [perform, hKey, hWrite]
  rfl

/- Every step of an addition leads to its next phase. -/
theorem add_climbs
    (hUsable : usableName name = true)
    {parsed : Parsed}
    (hVet : vet crates now der = .ok parsed) :
    Climbs Quiet (phase naming name der purposes hive) 0 5
      (add naming missing debug crates now name der purposes)
      (fun r => r = parsed) := by
  rw [add_eq, if_neg (by rw [hUsable]; exact Bool.noConfusion),
    hVet]
  dsimp only
  have hAddKey : components certificatesPath ++
      components addKey = addPath := by
    rw [components_addKey, addPath_eq]
  have hEntry := components_of_usableName hUsable
  have hWritten : phase naming name der purposes hive 5 =
      withAddition naming name der purposes hive := rfl
  have hThere : ∀ f : Key → Key, ∃ k, (hive.edit naming f
      (addPath ++ [name])).follow naming (addPath ++ [name]) =
        some k := fun f => ⟨_, Key.follow_edit _ _ _⟩
  -- the keys, from `Certificates` to the entry
  refine Climbs.bind (j := 2) (P := fun key => key = addPath) ?_
    (by decide) (fun key hKey => ?_)
  · rw [certificates_eq]
    refine Climbs.bind (j := 1) (openOrCreate_climbs
      (Nat.zero_le 1) _ rfl) (by decide) (fun key hKey => ?_)
    subst hKey
    rw [List.nil_append, ← hAddKey]
    refine openOrCreate_climbs (by decide) _ ?_
    rw [phase, phase, ← hAddKey, Key.edit_made]
  subst hKey
  refine Climbs.bind (j := 3) (openOrCreate_climbs (by decide)
    _ ?_) (by decide) (fun key hKey => ?_)
  · rw [hEntry, phase, phase, Key.edit_made]
  subst hKey
  rw [hEntry]
  by_cases hNone : purposes = []
  -- without purposes the third phase is the fourth one
  · rw [if_pos hNone]
    refine Climbs.bind (Climbs.pure (P := fun _ => True)
      trivial) (by decide) (fun _ _ => ?_)
    rcases hThere id with ⟨k, hk⟩
    refine Climbs.bind (writeValue_climbs (by decide) hk _ ?_)
      (by decide) (fun _ _ => Climbs.pure rfl)
    rw [hWritten, phase, withAddition, Key.edit_edit]
    congr 1
    funext key
    rw [entered, if_pos hNone]
    rfl
  · rw [if_neg hNone]
    rcases hThere id with ⟨k, hk⟩
    rcases hThere (purposed naming purposes) with ⟨k', hk'⟩
    refine Climbs.bind (j := 4) (writeValue_climbs (by decide)
      hk _ ?_) (by decide) (fun _ _ => ?_)
    · rw [phase, phase, Key.edit_edit]
      congr 1
      funext key
      rw [purposed, if_neg hNone]
      rfl
    · refine Climbs.bind (writeValue_climbs (by decide) hk' _
        ?_) (by decide) (fun _ _ => Climbs.pure rfl)
      rw [hWritten, phase, withAddition, Key.edit_edit]
      rfl

/- An addition that is refused at once writes nothing. -/
theorem add_stays
    (hRefused : usableName name = true →
      ∀ parsed, vet crates now der ≠ .ok parsed)
    (m : Machine Key (Option IoError)) :
    (add naming missing debug crates now name der purposes
      m).2 = m := by
  rw [add_eq]
  by_cases hUsable : usableName name = false
  · rw [if_pos hUsable]
    rfl
  · rw [if_neg hUsable]
    rw [Bool.not_eq_false] at hUsable
    cases hVet : vet crates now der with
    | error e => rfl
    | ok parsed => exact absurd hVet (hRefused hUsable parsed)

end ClientCore

end Trustd

------------------------------------------------------------
-- What The Phases Show
------------------------------------------------------------

namespace Trustd

namespace Registry

open General

variable {naming : Naming}

/- Names that fold alike are one child. -/
theorem Key.child_congr
    {n name : Text}
    (hSame : naming.fold (Text.utf8 n) =
      naming.fold (Text.utf8 name))
    (key : Key) :
    key.child naming n = key.child naming name :=
  entry_congr hSame _

/- Keys made on the way do not show at the end of a path. -/
theorem Key.follow_edit_id
    (path : List Text)
    {rest : List Text}
    (hRest : rest ≠ [])
    (key : Key) :
    (key.edit naming id path).follow naming (path ++ rest) =
      key.follow naming (path ++ rest) := by
  rw [Key.follow_append, Key.follow_edit, Key.follow_append]
  cases key.follow naming path with
  | some inner => rfl
  | none => exact Key.follow_empty hRest

end Registry

namespace ClientCore

open General Registry Store

variable {naming : Naming}
variable {name : Text}
variable {der : Bytes}
variable {purposes : List Text}
variable {hive : Key}

/- The path to the entry of a name. -/
def entryPath (name : Text) : List Text :=
  addPath ++ [name]

theorem entryPath_eq (n : Text) :
    entryPath n =
      components certificatesPath ++ [addKey, n] := by
  rw [entryPath, addPath_eq, List.append_assoc]
  rfl

theorem follow_entryPath (n : Text) (key : Key) :
    key.follow naming (entryPath n) =
      (key.follow naming addPath).bind (fun add =>
        add.child naming n) := by
  rw [entryPath, Key.follow_append]
  congr 1
  funext add
  rw [Key.follow]
  cases add.child naming n with
  | none => rfl
  | some entry => rfl

theorem follow_entryPath_congr
    {n : Text}
    (hSame : naming.fold (Text.utf8 n) =
      naming.fold (Text.utf8 name))
    (key : Key) :
    key.follow naming (entryPath n) =
      key.follow naming (entryPath name) := by
  rw [follow_entryPath, follow_entryPath]
  congr 1
  funext add
  exact Key.child_congr hSame add

theorem entryBefore_eq :
    entryBefore naming name hive =
      (hive.follow naming (entryPath name)).getD
        Key.empty := by
  rw [entryBefore, addBefore, follow_entryPath]
  cases hive.follow naming addPath with
  | none => rfl
  | some add => rfl

/- What no phase touches: the entries of the other names. -/
theorem follow_other
    {n : Text}
    (hOther : naming.fold (Text.utf8 n) ≠
      naming.fold (Text.utf8 name))
    (k : Nat) :
    (phase naming name der purposes hive k).follow naming
        (entryPath n) =
      hive.follow naming (entryPath n) := by
  match k with
  | 0 => rfl
  | 1 =>
      rw [entryPath_eq]
      exact Key.follow_edit_id _ (List.cons_ne_nil _ _) _
  | 2 => exact Key.follow_edit_id _ (List.cons_ne_nil _ _) _
  | 3 => exact Key.follow_edit_other _ _ hOther.symm _ _ _
  | 4 => exact Key.follow_edit_other _ _ hOther.symm _ _ _
  | k + 5 => exact Key.follow_edit_other _ _ hOther.symm _ _ _

theorem components_distrustPath_eq :
    components distrustPath =
      components certificatesPath ++ [distrustKey] := by
  rw [components_distrustPath, components_certificatesPath,
    List.append_assoc]
  rfl

/- And `Distrust`. -/
theorem distrustKeyOf_phase (k : Nat) :
    distrustKeyOf naming
        (phase naming name der purposes hive k) =
      distrustKeyOf naming hive := by
  have hEntry : addPath ++ [name] =
      components certificatesPath ++ addKey :: [name] := by
    exact entryPath_eq name
  have hOther := (add_ne_distrust naming).symm
  unfold distrustKeyOf
  rw [components_distrustPath_eq]
  match k with
  | 0 => rfl
  | 1 => exact Key.follow_edit_id _ (List.cons_ne_nil _ _) _
  | 2 =>
      rw [phase, addPath_eq]
      exact Key.follow_edit_other _ _ hOther _ _ _
  | 3 =>
      rw [phase, hEntry]
      exact Key.follow_edit_other _ _ hOther _ _ _
  | 4 =>
      rw [phase, hEntry]
      exact Key.follow_edit_other _ _ hOther _ _ _
  | k + 5 =>
      rw [phase, withAddition, hEntry]
      exact Key.follow_edit_other _ _ hOther _ _ _

/- What the phases make of the entry before. -/
def entryOf
    (naming : Naming)
    (der : Bytes)
    (purposes : List Text)
    (key : Key) :
    Nat → Key
  | 0 | 1 | 2 | 3 => key
  | 4 => purposed naming purposes key
  | _ + 5 => entered naming der purposes key

/- The entry in a phase, if it is there. -/
theorem follow_phase
    {k : Nat}
    {key : Key}
    (hKey : (phase naming name der purposes hive k).follow
      naming (entryPath name) = some key) :
    key = entryOf naming der purposes
      (entryBefore naming name hive) k := by
  have hBefore : hive.follow naming (entryPath name) =
      some key → key = entryBefore naming name hive := by
    intro hThere
    rw [entryBefore_eq, hThere]
    rfl
  match k with
  | 0 => exact hBefore hKey
  | 1 =>
      refine hBefore ?_
      rw [phase, entryPath_eq, Key.follow_edit_id _
        (List.cons_ne_nil _ _), ← entryPath_eq] at hKey
      exact hKey
  | 2 =>
      refine hBefore ?_
      rw [phase, entryPath, Key.follow_edit_id _
        (List.cons_ne_nil _ _)] at hKey
      exact hKey
  | 3 =>
      rw [phase, entryPath, Key.follow_edit, ← entryPath,
        ← entryBefore_eq] at hKey
      exact (Option.some.inj hKey).symm
  | 4 =>
      rw [phase, entryPath, Key.follow_edit, ← entryPath,
        ← entryBefore_eq] at hKey
      exact (Option.some.inj hKey).symm
  | k + 5 =>
      rw [phase, withAddition, entryPath, Key.follow_edit,
        ← entryPath, ← entryBefore_eq] at hKey
      exact (Option.some.inj hKey).symm

/- The certificate is the new one from the last write on. -/
theorem certificate_entryOf
    (hDer : der ≠ [])
    (key : Key)
    (k : Nat) :
    (entryOf naming der purposes key k).certificate naming =
      if k ≤ 4 then key.certificate naming else some der := by
  match k with
  | 0 => rfl
  | 1 => rfl
  | 2 => rfl
  | 3 => rfl
  | 4 =>
      have hValue : (purposed naming purposes key).value naming
          certificateValue =
            key.value naming certificateValue := by
        unfold purposed
        split_ifs with hNone
        · rfl
        · rw [Key.value, Key.values_setValue, entry_put,
            if_neg (purposes_ne_certificate naming).symm,
            Key.value]
      rw [entryOf, Key.certificate, hValue]
      rfl
  | k + 5 =>
      rw [if_neg (by omega)]
      exact certificate_entered hDer key

/- The purposes are the new ones from one write before. -/
theorem purposeParts_entryOf
    (key : Key)
    (k : Nat) :
    (entryOf naming der purposes key k).purposeParts naming =
      if k ≤ 3 then key.purposeParts naming
      else (purposed naming purposes key).purposeParts
        naming := by
  match k with
  | 0 => rfl
  | 1 => rfl
  | 2 => rfl
  | 3 => rfl
  | 4 => rfl
  | k + 5 =>
      have hValue : (entered naming der purposes key).value
          naming purposesValue =
            (purposed naming purposes key).value naming
              purposesValue := by
        rw [entered, Key.value, Key.values_setValue, entry_put,
          if_neg (purposes_ne_certificate naming)]
        rfl
      rw [if_neg (by omega), entryOf, Key.purposeParts, hValue,
        Key.purposeParts]

end ClientCore

end Trustd
