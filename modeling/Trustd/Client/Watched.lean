import Trustd.Client.Phases

/-
  A configuration that is read while the registry changes.

  Each read of a load is shown a phase of the registry, and
  none is shown an earlier one than the read before it.

  Key definitions include:
    * `Trustd.Registry.Watch`
    * `Trustd.Registry.Watched`
    * `Trustd.ClientCore.MadeOf`

  Key theorems include:
    * `Trustd.ClientCore.loadAddition_watches`
    * `Trustd.ClientCore.load_watches`
    * `Trustd.ClientCore.load_jumps`
-/

------------------------------------------------------------
-- Watched Keys
------------------------------------------------------------

namespace Trustd

namespace Registry

open General Store

/- Reads of a registry that may change between them. -/
abbrev Watch : Type → Type :=
  Watching Key IoError

/- An open key of such a registry. -/
structure Watched (naming : Naming) where
  path : List Text

variable {naming : Naming}

/- A read of the key as it is by then. -/
def Watched.read
    {α : Type}
    (key : Watched naming)
    (f : Key → α) :
    Watch α :=
  look (fun hive =>
    match hive.follow naming key.path with
    | some k => .ok (f k)
    | none => .error notThere)

instance : Reader (Watch) (Watched naming) where
  value key name := key.read (fun k => k.value naming name)
  values key := key.read (fun k => k.values.map Prod.fst)
  names key := key.read (fun k => k.subkeys.map Prod.fst)
  child key name := key.read (fun k =>
    (k.child naming name).map (fun _ => ⟨key.path ++ [name]⟩))

/- `open`, on `TRUST_KEY`. -/
def openTrust (naming : Naming) :
    Watch (Option (Watched naming)) :=
  look (fun hive => .ok ((hive.trust naming).map
    (fun _ => ⟨components trustPath⟩)))

/- What is read while the registry may change. -/
def loadWatched (naming : Naming) :
    Watch Config :=
  load (openTrust naming)

/- What is read of `Add`, if it is there. -/
def watchAdd :
    Option (Watched naming) → Watch (List Addition)
  | none => pure []
  | some add => do
      let names : List Bytes ← Reader.names add
      loadAdditions add names

/- What is read of `Distrust` likewise. -/
def watchDistrust :
    Option (Watched naming) → Watch (List Text)
  | none => pure []
  | some distrusted => do
      let values : List Bytes ← Reader.values distrusted
      loadDistrust values

/- The reads of a key that is there, in their order. -/
theorem loadFrom_watched (root : Watched naming) :
    (loadFrom (some root) : Watch Config) =
      Reader.value root compatValue >>= fun compat =>
      Reader.value root controlSecurityValue >>= fun security =>
      Reader.child root certificatesKey >>=
        fun certificates : Option (Watched naming) =>
      match certificates with
      | none => pure {
          compat := compatOf compat
          controlSecurity := controlSecurityOf security }
      | some certificates =>
          Reader.child certificates addKey >>= fun add =>
          watchAdd add >>= fun additions =>
          Reader.child certificates distrustKey >>=
            fun distrusted =>
          watchDistrust distrusted >>= fun distrust =>
          pure {
            additions := sortAdditions additions
            distrust := sortDistrust distrust
            compat := compatOf compat
            controlSecurity := controlSecurityOf security } := by
  unfold loadFrom
  refine bind_congr fun compat => bind_congr fun security =>
    bind_congr fun certificates => ?_
  cases certificates with
  | none => rfl
  | some certificates =>
      refine bind_congr fun add => ?_
      cases add with
      | none =>
          simp only [watchAdd, pure_bind]
          refine bind_congr fun distrusted => ?_
          cases distrusted with
          | none => rfl
          | some distrusted =>
              simp only [watchDistrust, bind_assoc]
      | some add =>
          simp only [watchAdd, bind_assoc]
          refine bind_congr fun names =>
            bind_congr fun additions =>
              bind_congr fun distrusted => ?_
          cases distrusted with
          | none => rfl
          | some distrusted =>
              simp only [watchDistrust, bind_assoc]

theorem text_lift (bytes : Bytes) :
    (text bytes : Watch Text) =
      StateT.lift (text bytes : Except IoError Text) := by
  unfold text
  cases Text.fromUtf8 bytes with
  | none => rfl
  | some t => rfl

theorem lift_map
    {α β : Type}
    (f : α → β)
    (r : Except IoError α) :
    f <$> (StateT.lift r : Watch α) =
      StateT.lift (f <$> r) := by
  cases r with
  | error e => rfl
  | ok a => rfl

theorem lift_bind
    {α β : Type}
    (r : Except IoError α)
    (f : α → Except IoError β) :
    (StateT.lift r >>= fun a => StateT.lift (f a) :
      Watch β) = StateT.lift (r >>= f) := by
  cases r with
  | error e => rfl
  | ok a => rfl

theorem mapM_text_lift (parts : List Bytes) :
    (parts.mapM text : Watch (List Text)) =
      StateT.lift (parts.mapM text) := by
  induction parts with
  | nil => rfl
  | cons p parts ih =>
      rw [List.mapM_cons, List.mapM_cons, text_lift, ih,
        ← lift_bind]
      congr 1
      funext t
      rw [← lift_bind]
      rfl

theorem multi_lift (value : RegValue) :
    (multi value : Watch _) =
      StateT.lift (multi value : Except IoError _) := by
  unfold multi
  cases value.ty with
  | multiSz =>
      dsimp only
      rw [mapM_text_lift, lift_map]
  | sz =>
      dsimp only
      rw [text_lift, lift_map]
  | expandSz =>
      dsimp only
      rw [text_lift, lift_map]
  | binary => rfl
  | dword => rfl
  | other code => rfl

theorem loadDistrust_lift (names : List Bytes) :
    (loadDistrust names : Watch _) =
      StateT.lift (loadDistrust names : Except IoError _) := by
  induction names with
  | nil => rfl
  | cons n names ih =>
      rw [loadDistrust, loadDistrust, text_lift, ih, ← lift_bind]
      congr 1
      funext t
      rw [← lift_bind]
      rfl

/- A read in some phase. -/
theorem Watched.read_watches
    {phase : Nat → Key}
    {i j : Nat}
    {α : Type}
    {w : Watched naming}
    {f : Key → α}
    {P : α → Nat → Prop}
    (hP : ∀ k key, i ≤ k → k ≤ j →
      (phase k).follow naming w.path = some key →
        P (f key) k) :
    Watches phase i j (w.read f) P := by
  refine Watches.look (fun a k hik hkj hRead => ?_)
  cases hKey : (phase k).follow naming w.path with
  | none =>
      rw [hKey] at hRead
      cases hRead
  | some key =>
      rw [hKey] at hRead
      cases hRead
      exact hP k key hik hkj hKey

/- Purposes that are read are those of one phase. -/
theorem strings_watches
    {phase : Nat → Key}
    {i j : Nat}
    (w : Watched naming) :
    Watches phase i j
      (strings w purposesValue :
        Watch (Option (List Text)))
      (fun r k => i ≤ k ∧ k ≤ j ∧ ∃ key,
        (phase k).follow naming w.path = some key ∧
          (∀ p ∈ key.purposeParts naming, Legible p) ∧
            r.getD [] =
              (key.purposeParts naming).map textOf) := by
  unfold strings
  refine Watches.bind (P := fun value k => i ≤ k ∧ k ≤ j ∧
    ∃ key, (phase k).follow naming w.path = some key ∧
      value = key.value naming purposesValue)
    (Watched.read_watches (fun k key hik hkj hKey =>
      ⟨hik, hkj, key, hKey, rfl⟩)) ?_
  rintro value k - ⟨hik, hkj, key, hKey, rfl⟩
  cases hValue : key.value naming purposesValue with
  | none =>
      refine Watches.pure ⟨hik, hkj, key, hKey, ?_⟩
      rw [Key.purposeParts, hValue]
      exact ⟨by simp, rfl⟩
  | some value =>
      dsimp only
      rw [multi_lift]
      refine Watches.lift (fun r hRead =>
        ⟨hik, hkj, key, hKey, ?_⟩)
      rw [Key.purposeParts, hValue]
      exact multi_getD_eq_ok_iff.mp ⟨r, hRead, rfl⟩

end Registry

end Trustd

------------------------------------------------------------
-- What Is Put Together
------------------------------------------------------------

namespace Trustd

namespace ClientCore

open General Registry Store

/-
  An addition made of the certificate its entry had in one
  phase and of the purposes it had in a phase not before it.
-/
def MadeOf
    (naming : Naming)
    (phase : Nat → Key)
    (j : Nat)
    (a : Addition) :
    Prop :=
  ∃ k l key key', k ≤ l ∧ l ≤ j ∧
    (phase k).follow naming (entryPath a.name) = some key ∧
    key.certificate naming = some a.der ∧
    (phase l).follow naming (entryPath a.name) = some key' ∧
    (∀ p ∈ key'.purposeParts naming, Legible p) ∧
    a.purposes = (key'.purposeParts naming).map textOf

/- A name that is listed and what is made of its entry. -/
def TurnOf
    (naming : Naming)
    (phase : Nat → Key)
    (j : Nat)
    (n : Bytes) :
    Option Addition → Prop
  | some a => Legible n ∧ a.name = textOf n ∧
      MadeOf naming phase j a
  | none => Legible n ∧ ∃ k key,
      (phase k).follow naming (entryPath (textOf n)) =
        some key ∧ key.certificate naming = none

variable {naming : Naming}
variable {phase : Nat → Key}
variable {i j : Nat}

/- One turn of the loop over the subkeys of `Add`. -/
theorem loadAddition_watches (n : Bytes) :
    Watches phase i j
      (loadAddition (⟨addPath⟩ : Watched naming) n :
        Watch (Option Addition))
      (fun r _ => TurnOf naming phase j n r) := by
  unfold loadAddition
  rw [text_lift]
  refine Watches.bind (P := fun t _ => Legible n ∧
    t = textOf n) (Watches.lift (fun t hText =>
      text_eq_ok_iff.mp hText)) ?_
  rintro _ k₀ - ⟨hLegible, rfl⟩
  refine Watches.bind (P := fun found _ =>
    ∀ entry, found = some entry →
      entry.path = entryPath (textOf n))
    (Watched.read_watches ?_) ?_
  · rintro k key - - - entry hEntry
    rcases Option.map_eq_some_iff.mp hEntry with
      ⟨inner, -, rfl⟩
    rfl
  rintro found k₁ - hFound
  cases found with
  | none =>
      intro views a rest hSees hOk
      cases hOk
  | some entry =>
      have hPath := hFound entry rfl
      dsimp only
      refine Watches.bind (P := fun value k => ∃ key,
        (phase k).follow naming (entryPath (textOf n)) =
          some key ∧
            value = key.value naming certificateValue)
        (Watched.read_watches ?_) ?_
      · intro k key hik hkj hKey
        rw [hPath] at hKey
        exact ⟨key, hKey, rfl⟩
      rintro value k₂ - ⟨key, hKey, rfl⟩
      cases hValue : key.value naming certificateValue with
      | none =>
          exact Watches.pure ⟨hLegible, k₂, key, hKey,
            Key.certificate_of_absent hValue⟩
      | some value =>
          dsimp only
          by_cases hSkip : value.ty ≠ .binary ∨ value.data = []
          · rw [if_pos hSkip]
            refine Watches.pure ⟨hLegible, k₂, key, hKey,
              Key.certificate_of_incomplete hValue ?_⟩
            rintro ⟨hType, hData⟩
            exact hSkip.elim (fun h => h hType)
              (fun h => hData h)
          · rw [if_neg hSkip]
            rw [not_or, not_not] at hSkip
            refine Watches.bind (strings_watches entry) ?_
            rintro purposes k₃ - ⟨hLe, hkj, key', hKey',
              hParts, hPurposes⟩
            rw [hPath] at hKey'
            exact Watches.pure ⟨hLegible, rfl, k₂, k₃, key,
              key', hLe, hkj, hKey,
              Key.certificate_of_complete hValue hSkip.1
                hSkip.2, hKey', hParts, hPurposes⟩

/- The loop makes additions of the names it goes over. -/
theorem loadAdditions_watches (names : List Bytes) :
    Watches phase i j
      (loadAdditions (⟨addPath⟩ : Watched naming) names :
        Watch (List Addition))
      (fun additions _ =>
        (∀ n ∈ names, ∃ r, TurnOf naming phase j n r) ∧
          ∀ a ∈ additions, MadeOf naming phase j a) := by
  induction names generalizing i with
  | nil => exact Watches.pure ⟨by simp, by simp⟩
  | cons n names ih =>
      unfold loadAdditions
      refine Watches.bind (loadAddition_watches n)
        (fun r k hik hTurn => ?_)
      refine Watches.bind ih (fun additions l hkl hRest => ?_)
      refine Watches.pure ⟨?_, fun a ha => ?_⟩
      · rw [List.forall_mem_cons]
        exact ⟨⟨r, hTurn⟩, hRest.1⟩
      · rcases List.mem_append.mp ha with ha | ha
        · rw [Option.mem_toList] at ha
          cases ha
          exact hTurn.2.2
        · exact hRest.2 a ha

/- What a configuration that is read is made of. -/
structure ReadOf
    (naming : Naming)
    (phase : Nat → Key)
    (j : Nat)
    (config : Config) :
    Prop where
  names : ∃ k add, (phase k).follow naming addPath = some add ∧
    ∀ n ∈ add.subkeys.map Prod.fst,
      ∃ r, TurnOf naming phase j n r
  additions : ∀ a ∈ config.additions, MadeOf naming phase j a
  distrust : ∃ k, ∀ key,
    distrustKeyOf naming (phase k) = some key →
      key.LegibleDistrust

/- Of `Add` every name is gone over. -/
theorem watchAdd_watches
    {add : Option (Watched naming)}
    (hAdd : ∀ key, add = some key → key.path = addPath) :
    Watches phase i j
      (watchAdd add)
      (fun additions _ => additions ≠ [] →
        (∃ k add, (phase k).follow naming addPath = some add ∧
          ∀ n ∈ add.subkeys.map Prod.fst,
            ∃ r, TurnOf naming phase j n r) ∧
        ∀ a ∈ additions, MadeOf naming phase j a) := by
  cases add with
  | none => exact Watches.pure (fun hSome => absurd rfl hSome)
  | some add =>
      have hPath := hAdd add rfl
      refine Watches.bind (P := fun names k => ∃ add,
        (phase k).follow naming addPath = some add ∧
          names = add.subkeys.map Prod.fst)
        (Watched.read_watches ?_) ?_
      · rintro k key - - hKey
        rw [hPath] at hKey
        exact ⟨key, hKey, rfl⟩
      rintro names k - ⟨key, hKey, rfl⟩
      cases add with
      | mk path =>
          cases hPath
          exact (loadAdditions_watches _).mono
            (fun additions _ hAll _ =>
              ⟨⟨k, key, hKey, hAll.1⟩, hAll.2⟩)

/- And of `Distrust`, as it is in some phase. -/
theorem watchDistrust_watches
    {distrusted : Option (Watched naming)}
    (hNone : distrusted = none →
      ∃ k, distrustKeyOf naming (phase k) = none)
    (hSome : ∀ key, distrusted = some key →
      key.path = components distrustPath) :
    Watches phase i j
      (watchDistrust distrusted)
      (fun _ _ => ∃ k, ∀ key,
        distrustKeyOf naming (phase k) = some key →
          key.LegibleDistrust) := by
  cases distrusted with
  | none =>
      rcases hNone rfl with ⟨k, hk⟩
      refine Watches.pure ⟨k, fun key hKey => ?_⟩
      rw [hk] at hKey
      cases hKey
  | some distrusted =>
      have hPath := hSome distrusted rfl
      refine Watches.bind (P := fun values k => ∃ key,
        distrustKeyOf naming (phase k) = some key ∧
          values = key.values.map Prod.fst)
        (Watched.read_watches ?_) ?_
      · rintro k key - - hKey
        rw [hPath] at hKey
        exact ⟨key, hKey, rfl⟩
      rintro values k - ⟨key, hKey, rfl⟩
      rw [loadDistrust_lift]
      refine Watches.lift (fun distrust hRead =>
        ⟨k, fun key' hKey' => ?_⟩)
      rw [hKey] at hKey'
      cases hKey'
      exact (loadDistrust_eq_ok_iff.mp hRead).1

/- The additions that are read, if any are. -/
theorem load_watches :
    Watches phase i j (loadWatched naming)
      (fun config _ => config.additions ≠ [] →
        ReadOf naming phase j config) := by
  unfold loadWatched load
  refine Watches.bind (P := fun root _ => ∀ key,
    root = some key → key.path = components trustPath)
    (Watches.look ?_) ?_
  · rintro root k - - hRead key rfl
    have hRoot := Except.ok.inj hRead
    rcases Option.map_eq_some_iff.mp hRoot with ⟨-, -, rfl⟩
    rfl
  rintro root k - hRoot
  cases root with
  | none => exact Watches.pure (fun hSome => absurd rfl hSome)
  | some root =>
      have hPath := hRoot root rfl
      rw [loadFrom_watched]
      refine Watches.bind (P := fun _ _ => True)
        (Watched.read_watches (fun _ _ _ _ _ => trivial))
        (fun _ _ _ _ => ?_)
      refine Watches.bind (P := fun _ _ => True)
        (Watched.read_watches (fun _ _ _ _ _ => trivial))
        (fun _ _ _ _ => ?_)
      refine Watches.bind (P := fun found _ => ∀ key,
        found = some key →
          key.path = components certificatesPath)
        (Watched.read_watches ?_) ?_
      · rintro k key - - - entry hEntry
        rcases Option.map_eq_some_iff.mp hEntry with
          ⟨-, -, rfl⟩
        rw [hPath, components_certificatesPath]
      rintro certificates k₁ - hCertificates
      cases certificates with
      | none =>
          exact Watches.pure (fun hSome => absurd rfl hSome)
      | some certificates =>
          have hPath := hCertificates certificates rfl
          refine Watches.bind (P := fun found _ => ∀ key,
            found = some key → key.path = addPath)
            (Watched.read_watches ?_) ?_
          · rintro k key - - - entry hEntry
            rcases Option.map_eq_some_iff.mp hEntry with
              ⟨-, -, rfl⟩
            rw [hPath, addPath_eq]
          rintro add k₂ - hAdd
          refine Watches.bind (watchAdd_watches hAdd)
            (fun additions k₃ _ hAdditions => ?_)
          refine Watches.bind (P := fun found _ =>
            (found = none →
              ∃ k, distrustKeyOf naming (phase k) = none) ∧
            ∀ key, found = some key →
              key.path = components distrustPath)
            (Watched.read_watches ?_) ?_
          · rintro k key - - hKey
            rw [hPath] at hKey
            refine ⟨fun hNone => ⟨k, ?_⟩,
              fun entry hEntry => ?_⟩
            · rw [distrustKeyOf, components_distrustPath_eq,
                Key.follow_append, hKey, Option.bind_some,
                Key.follow, Option.map_eq_none_iff.mp hNone]
              rfl
            · rcases Option.map_eq_some_iff.mp hEntry with
                ⟨-, -, rfl⟩
              rw [hPath, components_distrustPath_eq]
          rintro distrusted k₄ - ⟨hNone, hSome⟩
          refine Watches.bind (watchDistrust_watches hNone hSome)
            (fun distrust k₅ _ hDistrust => ?_)
          refine Watches.pure (fun hSorted => ?_)
          have hAny : additions ≠ [] := by
            rintro rfl
            exact hSorted rfl
          rcases hAdditions hAny with ⟨hNames, hMade⟩
          refine ⟨hNames, fun a ha => hMade a ?_, hDistrust⟩
          exact (List.mem_insertionSort _).mp ha

end ClientCore

end Trustd

------------------------------------------------------------
-- Reads Of A Registry That Stays
------------------------------------------------------------

namespace Trustd

namespace Registry

open General Store

variable {naming : Naming}
variable {s : Key}

theorem Watched.read_steady
    {α : Type}
    {w : Watched naming}
    {key : Key}
    (hKey : s.follow naming w.path = some key)
    (f : Key → α) :
    Steady s (w.read f) (f key) := by
  refine Steady.look ?_
  rw [hKey]

theorem strings_steady
    {w : Watched naming}
    {key : Key}
    (hKey : s.follow naming w.path = some key)
    (hParts : ∀ p ∈ key.purposeParts naming, Legible p) :
    ∃ r, Steady s
      (strings w purposesValue : Watch (Option (List Text))) r ∧
      r.getD [] = (key.purposeParts naming).map textOf := by
  rcases strings_getD_eq_ok_iff.mpr ⟨hParts, rfl⟩ with
    ⟨r, hRead, hTexts⟩
  refine ⟨r, ?_, hTexts.symm⟩
  unfold strings
  refine Steady.bind (Watched.read_steady hKey _) ?_
  rw [strings_named] at hRead
  cases hValue : key.value naming purposesValue with
  | none =>
      rw [hValue] at hRead
      cases hRead
      exact Steady.pure none
  | some value =>
      rw [hValue] at hRead
      dsimp only
      rw [multi_lift]
      exact Steady.lift hRead

end Registry

namespace ClientCore

open General Registry Store

variable {naming : Naming}
variable {s s' : Key}

/- The first reads of a turn, up to the certificate. -/
theorem entry_steady
    {n : Bytes}
    {add key : Key}
    (hAdd : s.follow naming addPath = some add)
    (hKey : s.follow naming (entryPath (textOf n)) =
      some key) :
    Steady s
      (Reader.child (⟨addPath⟩ : Watched naming) (textOf n) :
        Watch (Option (Watched naming)))
      (some ⟨entryPath (textOf n)⟩) := by
  rw [follow_entryPath, hAdd, Option.bind_some] at hKey
  have hRead := Watched.read_steady (w := ⟨addPath⟩) hAdd
    (fun k => (k.child naming (textOf n)).map (fun _ =>
      (⟨addPath ++ [textOf n]⟩ : Watched naming)))
  rw [hKey] at hRead
  exact hRead

/- A turn of the loop, for an entry that can be read. -/
theorem loadAddition_steady
    {n : Bytes}
    {add key : Key}
    (hLegible : Legible n)
    (hAdd : s.follow naming addPath = some add)
    (hKey : s.follow naming (entryPath (textOf n)) =
      some key)
    (hEntry : key.LegibleEntry naming) :
    ∃ r, Steady s
      (loadAddition (⟨addPath⟩ : Watched naming) n :
        Watch (Option Addition)) r := by
  unfold loadAddition
  rw [text_lift]
  refine Steady.exists_bind (Steady.lift
    (text_eq_ok_iff.mpr ⟨hLegible, rfl⟩)) ?_
  refine Steady.exists_bind (entry_steady hAdd hKey) ?_
  refine Steady.exists_bind
    (Watched.read_steady (w := ⟨_⟩) hKey _) ?_
  cases hValue : key.value naming certificateValue with
  | none => exact ⟨none, Steady.pure none⟩
  | some value =>
      dsimp only
      by_cases hSkip : value.ty ≠ .binary ∨ value.data = []
      · rw [if_pos hSkip]
        exact ⟨none, Steady.pure none⟩
      · rw [if_neg hSkip]
        rw [not_or, not_not] at hSkip
        have hParts := hEntry _ (Key.certificate_of_complete
          hValue hSkip.1 hSkip.2)
        rcases strings_steady (w := ⟨_⟩) hKey hParts with
          ⟨r, hStrings, -⟩
        exact ⟨_, hStrings.bind (Steady.pure _)⟩

theorem exists_value_of_certificate
    {key : Key}
    {der : Bytes}
    (hCertificate : key.certificate naming = some der) :
    ∃ value, key.value naming certificateValue = some value ∧
      ¬ (value.ty ≠ .binary ∨ value.data = []) ∧
        value.data = der := by
  rcases Option.map_eq_some_iff.mp hCertificate with
    ⟨value, hValue, hData⟩
  rcases Option.filter_eq_some_iff.mp hValue with
    ⟨hValue, hComplete⟩
  have hComplete := of_decide_eq_true hComplete
  refine ⟨value, hValue, ?_, hData⟩
  rw [not_or, not_not]
  exact hComplete

/- A turn in the middle of which the registry changes. -/
theorem loadAddition_jumps
    {n : Bytes}
    {add key key' : Key}
    {der : Bytes}
    (hLegible : Legible n)
    (hAdd : s.follow naming addPath = some add)
    (hKey : s.follow naming (entryPath (textOf n)) =
      some key)
    (hCertificate : key.certificate naming = some der)
    (hKey' : s'.follow naming (entryPath (textOf n)) =
      some key')
    (hParts : ∀ p ∈ key'.purposeParts naming, Legible p) :
    Jumps s s'
      (loadAddition (⟨addPath⟩ : Watched naming) n :
        Watch (Option Addition))
      (some {
        name := textOf n
        der
        purposes := (key'.purposeParts naming).map
          textOf }) := by
  rcases exists_value_of_certificate hCertificate with
    ⟨value, hValue, hComplete, hData⟩
  unfold loadAddition
  rw [text_lift]
  refine Jumps.after (Steady.lift
    (text_eq_ok_iff.mpr ⟨hLegible, rfl⟩)) ?_
  refine Jumps.after (entry_steady hAdd hKey) ?_
  refine Steady.jump
    (Watched.read_steady (w := ⟨_⟩) hKey _) ?_
  rw [hValue]
  dsimp only
  rw [if_neg hComplete]
  rcases strings_steady (w := ⟨_⟩) hKey' hParts with
    ⟨r, hStrings, hTexts⟩
  rw [← hTexts, ← hData]
  exact hStrings.bind (Steady.pure _)

/- A name that is listed and whose entry can be read. -/
def Readable
    (naming : Naming)
    (s : Key)
    (n : Bytes) :
    Prop :=
  Legible n ∧ ∃ key,
    s.follow naming (entryPath (textOf n)) = some key ∧
      key.LegibleEntry naming

theorem loadAdditions_steady
    {add : Key}
    (hAdd : s.follow naming addPath = some add)
    {names : List Bytes}
    (hNames : ∀ n ∈ names, Readable naming s n) :
    ∃ additions, Steady s
      (loadAdditions (⟨addPath⟩ : Watched naming) names :
        Watch (List Addition)) additions := by
  induction names with
  | nil => exact ⟨[], Steady.pure []⟩
  | cons n names ih =>
      rw [List.forall_mem_cons] at hNames
      rcases hNames.1 with ⟨hLegible, key, hKey, hEntry⟩
      rcases loadAddition_steady hLegible hAdd hKey hEntry with
        ⟨r, hTurn⟩
      unfold loadAdditions
      refine Steady.exists_bind hTurn ?_
      rcases ih hNames.2 with ⟨additions, hRest⟩
      exact ⟨_, hRest.bind (Steady.pure _)⟩

/- The loop, where the registry changes in one turn of it. -/
theorem loadAdditions_jumps
    {add add' : Key}
    (hAdd : s.follow naming addPath = some add)
    (hAdd' : s'.follow naming addPath = some add')
    {n : Bytes}
    {addition : Addition}
    (hTurn : Jumps s s'
      (loadAddition (⟨addPath⟩ : Watched naming) n :
        Watch (Option Addition)) (some addition))
    {names later : List Bytes}
    (hNames : ∀ x ∈ names, Readable naming s x)
    (hLater : ∀ x ∈ later, Readable naming s' x) :
    ∃ additions, addition ∈ additions ∧ Jumps s s'
      (loadAdditions (⟨addPath⟩ : Watched naming)
        (names ++ n :: later) : Watch (List Addition))
        additions := by
  induction names with
  | nil =>
      rcases loadAdditions_steady hAdd' hLater with
        ⟨additions, hRest⟩
      refine ⟨_, ?_, Jumps.bind hTurn
        (hRest.bind (Steady.pure _))⟩
      exact List.mem_append_left _ (Option.mem_toList.mpr rfl)
  | cons x names ih =>
      rw [List.forall_mem_cons] at hNames
      rcases hNames.1 with ⟨hLegible, key, hKey, hEntry⟩
      rcases loadAddition_steady hLegible hAdd hKey hEntry with
        ⟨r, hFirst⟩
      rcases ih hNames.2 with ⟨additions, hMem, hRest⟩
      refine ⟨_, ?_, Jumps.after hFirst
        (hRest.bind (Steady.pure _))⟩
      exact List.mem_append_right _ hMem

/- The keys on the way to `Add` are there if it is. -/
theorem exists_parents
    {add : Key}
    (hAdd : s.follow naming addPath = some add) :
    ∃ root certificates,
      s.follow naming (components trustPath) = some root ∧
      root.child naming certificatesKey = some certificates ∧
      s.follow naming (components certificatesPath) =
        some certificates ∧
      certificates.child naming addKey = some add := by
  rw [addPath, Key.follow_append] at hAdd
  rcases Option.bind_eq_some_iff.mp hAdd with
    ⟨root, hRoot, hInner⟩
  rw [Key.follow] at hInner
  rcases Option.bind_eq_some_iff.mp hInner with
    ⟨certificates, hCertificates, hLast⟩
  rw [Key.follow] at hLast
  rcases Option.bind_eq_some_iff.mp hLast with
    ⟨add', hAdd', hEnd⟩
  cases hEnd
  refine ⟨root, certificates, hRoot, hCertificates, ?_, hAdd'⟩
  rw [components_certificatesPath, Key.follow_append, hRoot,
    Option.bind_some, Key.follow, hCertificates]
  rfl

/- `Distrust` is read where its names are text. -/
theorem watchDistrust_steady
    {certificates : Key}
    (hKey : s.follow naming (components certificatesPath) =
      some certificates)
    (hLegible : ∀ key, distrustKeyOf naming s = some key →
      key.LegibleDistrust) :
    ∃ found distrust,
      Steady s
        (Reader.child
          (⟨components certificatesPath⟩ : Watched naming)
          distrustKey : Watch (Option (Watched naming)))
        found ∧
      Steady s (watchDistrust found) distrust := by
  have hFollow : distrustKeyOf naming s =
      certificates.child naming distrustKey := by
    rw [distrustKeyOf, components_distrustPath_eq,
      Key.follow_append, hKey, Option.bind_some, Key.follow]
    cases certificates.child naming distrustKey with
    | none => rfl
    | some key => rfl
  have hChild := Watched.read_steady
    (w := ⟨components certificatesPath⟩) hKey
    (fun k => (k.child naming distrustKey).map (fun _ =>
      (⟨components certificatesPath ++ [distrustKey]⟩ :
        Watched naming)))
  cases hThere : certificates.child naming distrustKey with
  | none =>
      rw [hThere] at hChild
      exact ⟨none, [], hChild, Steady.pure []⟩
  | some key =>
      rw [hThere] at hChild hFollow
      have hRead := loadDistrust_eq_ok_iff.mpr
        ⟨hLegible key hFollow, rfl⟩
      rw [distrustKeyOf, components_distrustPath_eq] at hFollow
      have hLift := Steady.lift (s := s) hRead
      rw [← loadDistrust_lift] at hLift
      exact ⟨_, _, hChild, Steady.bind
        (Watched.read_steady (w := ⟨_⟩) hFollow _) hLift⟩

/- The whole load, where the registry changes in one turn. -/
theorem load_jumps
    {add add' : Key}
    (hAdd : s.follow naming addPath = some add)
    (hAdd' : s'.follow naming addPath = some add')
    {n : Bytes}
    {addition : Addition}
    (hTurn : Jumps s s'
      (loadAddition (⟨addPath⟩ : Watched naming) n :
        Watch (Option Addition)) (some addition))
    {names later : List Bytes}
    (hListed : add.subkeys.map Prod.fst = names ++ n :: later)
    (hNames : ∀ x ∈ names, Readable naming s x)
    (hLater : ∀ x ∈ later, Readable naming s' x)
    (hDistrust : ∀ key, distrustKeyOf naming s' = some key →
      key.LegibleDistrust) :
    ∃ config, addition ∈ config.additions ∧
      Jumps s s' (loadWatched naming) config := by
  rcases exists_parents hAdd with
    ⟨root, certificates, hRoot, hChild, hKey, hAddChild⟩
  rcases exists_parents hAdd' with
    ⟨-, certificates', -, -, hKey', -⟩
  rcases watchDistrust_steady hKey' hDistrust with
    ⟨found, distrust, hFound, hRead⟩
  rcases loadAdditions_jumps hAdd hAdd' hTurn hNames hLater with
    ⟨additions, hMem, hLoop⟩
  rw [← hListed] at hLoop
  have hOpen : Steady s (openTrust naming)
      (some ⟨components trustPath⟩) := by
    refine Steady.look ?_
    rw [Key.trust, hRoot]
    rfl
  have hCertificates := Watched.read_steady
    (w := ⟨components trustPath⟩) hRoot
    (fun k => (k.child naming certificatesKey).map (fun _ =>
      (⟨components trustPath ++ [certificatesKey]⟩ :
        Watched naming)))
  rw [hChild, ← components_certificatesPath] at hCertificates
  have hAddKey := Watched.read_steady
    (w := ⟨components certificatesPath⟩) hKey
    (fun k => (k.child naming addKey).map (fun _ =>
      (⟨components certificatesPath ++ [addKey]⟩ :
        Watched naming)))
  rw [hAddChild, ← addPath_eq] at hAddKey
  refine ⟨{
    additions := sortAdditions additions
    distrust := sortDistrust distrust
    compat := compatOf (root.value naming compatValue)
    controlSecurity := controlSecurityOf
      (root.value naming controlSecurityValue) }, ?_, ?_⟩
  · exact (List.mem_insertionSort _).mpr hMem
  · unfold loadWatched load
    refine Jumps.after hOpen ?_
    rw [loadFrom_watched]
    refine Jumps.after
      (Watched.read_steady (w := ⟨_⟩) hRoot _) ?_
    refine Jumps.after
      (Watched.read_steady (w := ⟨_⟩) hRoot _) ?_
    refine Jumps.after hCertificates ?_
    refine Jumps.after hAddKey ?_
    refine Jumps.bind (a := additions) ?_ (hFound.bind
      (hRead.bind (Steady.pure _)))
    exact Jumps.after
      (Watched.read_steady (w := ⟨_⟩) hAdd _) hLoop

end ClientCore

end Trustd
