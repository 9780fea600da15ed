import Trustd.Client.Distrusts

/-
  Where the operator's view of the distrusts and the daemon's
  enforcement of them agree.

  Key theorems include:
    * `Trustd.ClientCore.restore_exact_iff`
    * `Trustd.ClientCore.listing_agrees_iff`
-/

------------------------------------------------------------
-- Restoring
------------------------------------------------------------

namespace Trustd

namespace ClientCore

open General Registry Store

section

variable {naming : Naming}
variable {missing : Missing}
variable {hive key : Key}

/- Whatever is taken back is the value under its name. -/
theorem restore_ok
    {argument f : Text}
    {faults : Nat → Option IoError}
    (hOk : (restore naming missing argument
      (Machine.start hive faults)).1 = .ok f) :
    (restore naming missing argument
      (Machine.start hive faults)).2.state =
        withoutDistrust naming f hive ∧
      ∃ k, distrustKeyOf naming hive = some k := by
  have hDone := Does.outcome
    (@restore_does naming missing hive (fun _ => True) argument)
    faults (fun _ => trivial)
  rw [hOk] at hDone
  exact ⟨hDone.1, hDone.2.1⟩

/- A fingerprint with a value under it is taken back. -/
theorem restore_canonical
    {f : Text}
    (hSelf : fingerprintOf f = some f)
    (hKey : distrustKeyOf naming hive = some key)
    {value : RegValue}
    (hValue : key.value naming f = some value) :
    (restore naming missing f
      (Machine.start hive (fun _ => none))).1 = .ok f := by
  rcases fingerprintOf_eq_some_iff.mp hSelf with
    ⟨hNormal, hLength, -⟩
  have hDone := Does.outcome
    (@restore_does naming missing hive Quiet f)
    (fun _ => none) (fun _ => rfl)
  rw [← hNormal] at hDone
  cases hResult : (restore naming missing f
      (Machine.start hive (fun _ => none))).1 with
  | ok g =>
      rw [hResult] at hDone
      rw [hDone.2.2 hLength]
  | error e =>
      rw [hResult] at hDone
      rcases hDone.2 hLength with ⟨e', hRefused⟩ | hNone
      · cases hRefused
      · rw [hKey, Option.bind_some, hValue] at hNone
        cases hNone

end

variable (naming : Naming)
variable (missing : Missing)
variable (hive : Key)

/-
  Restoring takes back what is enforced, and that alone, if
  and only if the names in `Distrust` that stand for what is
  enforced are canonical. A restoration that is refused part
  of the way is no exception to the second half.
-/
theorem restore_exact_iff :
    ((∀ f, Enforced naming hive f →
        (restore naming missing f
          (Machine.start hive (fun _ => none))).1 = .ok f ∧
        ∃ config,
          configured naming (restore naming missing f
            (Machine.start hive (fun _ => none))).2.state =
            .ok config ∧
          ∀ g, g ∈ config.distrust ↔
            Enforced naming hive g ∧ g ≠ f) ∧
      (∀ (argument : Text) (faults : Nat → Option IoError)
          (f : Text),
        (restore naming missing argument
          (Machine.start hive faults)).1 = .ok f →
        ¬ Enforced naming (restore naming missing argument
          (Machine.start hive faults)).2.state f)) ↔
      Canonical naming hive := by
  constructor
  · rintro ⟨hRestored, -⟩ config hConfig key hKey v hv f hName
    by_contra hOther
    rcases exists_trust hKey with ⟨trust, hTrust, hRead⟩
    have hLegible : trust.LegibleRoot naming :=
      ((configured_eq_ok_iff hTrust).mp hConfig).1
    have hEnforced : Enforced naming hive f :=
      (enforced_iff hTrust hRead).mpr
        ⟨hLegible, v, hv, hName⟩
    rcases hRestored f hEnforced with
      ⟨hOk, config', hConfig', hExactly⟩
    rw [(restore_ok hOk).1] at hConfig'
    -- the value that stands for it under another name stays
    rcases configured_withoutDistrust hTrust hRead hLegible f
      with ⟨config'', hConfig'', hStands⟩
    rw [hConfig''] at hConfig'
    rw [Except.ok.inj hConfig'] at hStands
    have hStill : f ∈ config'.distrust :=
      (hStands f).mpr (stands_deleteValue.mpr
        ⟨v, hv, hName, hOther⟩)
    exact ((hExactly f).mp hStill).2 rfl
  · intro hCanonical
    constructor
    · intro f hEnforced
      rcases hEnforced.exists_key with
        ⟨trust, key, hTrust, hRead, hLegible, v, hv, hName⟩
      have hKey : distrustKeyOf naming hive = some key := by
        rw [distrustKeyOf_eq, hTrust]
        exact hRead
      have hConfig : configured naming hive =
          .ok (configOf naming trust) :=
        (configured_eq_ok_iff hTrust).mpr ⟨hLegible, rfl⟩
      have hNames := hCanonical _ hConfig key hKey
      have hSelf := (fingerprintOf_self hName).2
      have hOk : (restore naming missing f
          (Machine.start hive (fun _ => none))).1 = .ok f := by
        rcases exists_entry naming.fold hv with
          ⟨value, hValue⟩
        rw [entry_congr (hNames v hv f hName)] at hValue
        exact restore_canonical hSelf hKey hValue
      rcases configured_withoutDistrust hTrust hRead hLegible f
        with ⟨config, hConfig', hStands⟩
      refine ⟨hOk, config, ?_, fun g => ?_⟩
      · rw [(restore_ok hOk).1, hConfig']
      · rw [hStands, stands_deleteValue_canonical hNames hSelf,
          enforced_iff hTrust hRead]
        simp only [hLegible, true_and]
    · intro argument faults f hOk
      rcases restore_ok hOk with ⟨hState, key, hKey⟩
      rw [hState]
      exact not_enforced_withoutDistrust hCanonical hKey f

/- The first of all fingerprints in the alphabet's letters. -/
def lettersOnly : Text :=
  List.replicate 64 'a'

/- A fingerprint that is there in two spellings. -/
def spelledTwice : List Text :=
  [lettersOnly, ':' :: lettersOnly]

/- Taking it back succeeds, and leaves it in force. -/
theorem restore_leaves :
    ¬ ∀ (argument : Text) (faults : Nat → Option IoError)
        (f : Text),
      (restore exactNaming notThere argument
        (Machine.start (distrustHive spelledTwice)
          faults)).1 = .ok f →
      ¬ Enforced exactNaming
        (restore exactNaming notThere argument
          (Machine.start (distrustHive spelledTwice)
            faults)).2.state f := by
  intro hNever
  have hSelf : fingerprintOf lettersOnly = some lettersOnly := by
    decide
  have hSpelled : fingerprintOf (':' :: lettersOnly) =
      some lettersOnly := by
    decide
  have hKey : distrustKeyOf exactNaming
      (distrustHive spelledTwice) =
        some (namedDistrusts spelledTwice) := by
    rw [distrustKeyOf_eq, trust_distrustHive,
      Option.bind_some, distrustOf_distrustHive]
  have hOk : (restore exactNaming notThere lettersOnly
      (Machine.start (distrustHive spelledTwice)
        (fun _ => none))).1 = .ok lettersOnly :=
    restore_canonical hSelf hKey rfl
  apply hNever _ _ _ hOk
  rw [(restore_ok hOk).1]
  rcases configured_withoutDistrust trust_distrustHive
    distrustOf_distrustHive legible_distrustHive lettersOnly
    with ⟨config, hConfig, hStands⟩
  refine ⟨config, hConfig, (hStands _).mpr ?_⟩
  rw [stands_deleteValue]
  refine ⟨_, List.mem_map_of_mem
    (List.mem_cons_of_mem _ List.mem_cons_self), ?_, ?_⟩
  · rw [textOf_utf8]
    exact hSpelled
  · decide

end ClientCore

end Trustd

------------------------------------------------------------
-- Listing
------------------------------------------------------------

namespace Trustd

namespace ClientCore

open General Registry Store

section

variable {naming : Naming}
variable {missing : Missing}
variable {hive trust key : Key}

/- What the operator is shown, where nothing is refused. -/
theorem distrusted_ok :
    (distrusted naming missing
      (Machine.start hive (fun _ => none))).1 =
      .ok (listing (distrustKeyOf naming hive)) := by
  have hDone := Does.outcome
    (@distrusted_quiet naming missing hive)
    (fun _ => none) (fun _ => rfl)
  cases hResult : (distrusted naming missing
      (Machine.start hive (fun _ => none))).1 with
  | ok listed =>
      rw [hResult] at hDone
      rw [hDone.2]
  | error e =>
      rw [hResult] at hDone
      exact hDone.elim

/- The fingerprints shown are those of names that are text. -/
theorem listing_fingerprints_perm
    (hLegible : key.LegibleDistrust) :
    ((listing (some key)).map Distrusted.fingerprint).Perm
      (key.values.map (fun v =>
        normaliseFingerprint (textOf v.1))) := by
  have hShown : ∀ values : List (Bytes × RegValue),
      (∀ v ∈ values, Legible v.1) →
      (values.filterMap (fun v =>
        distrustedOf (.ok v))).map Distrusted.fingerprint =
        values.map (fun v =>
          normaliseFingerprint (textOf v.1)) := by
    intro values hValues
    induction values with
    | nil => rfl
    | cons v values ih =>
        rcases Option.isSome_iff_exists.mp
          (hValues v List.mem_cons_self) with ⟨name, hName⟩
        have hText : textOf v.1 = name := by
          rw [textOf, hName]
          rfl
        have hItem : distrustedOf (.ok v) = some {
            fingerprint := normaliseFingerprint name
            reason := Text.fromUtf8Lossy
              (v.2.data.takeWhile (· ≠ 0)) } := by
          rw [distrustedOf, hName]
        rw [List.filterMap_cons, hItem, List.map_cons,
          List.map_cons, hText,
          ih (fun x hx => hValues x
            (List.mem_cons_of_mem v hx))]
  rw [← hShown key.values (fun v hv => hLegible v.1
    (List.mem_map_of_mem hv))]
  exact (List.perm_insertionSort _ _).map _

/- What is enforced where every name is a fingerprint's. -/
theorem distrust_eq_map
    (hNames : ∀ v ∈ key.values,
      (fingerprintOf (textOf v.1)).isSome = true) :
    key.distrust = key.values.map (fun v =>
      normaliseFingerprint (textOf v.1)) := by
  have hEnforced : ∀ values : List (Bytes × RegValue),
      (∀ v ∈ values,
        (fingerprintOf (textOf v.1)).isSome = true) →
      values.filterMap (fun v => fingerprintOf (textOf v.1)) =
        values.map (fun v =>
          normaliseFingerprint (textOf v.1)) := by
    intro values hValues
    induction values with
    | nil => rfl
    | cons v values ih =>
        rcases Option.isSome_iff_exists.mp
          (hValues v List.mem_cons_self) with ⟨f, hName⟩
        rw [List.filterMap_cons, hName, List.map_cons,
          (fingerprintOf_eq_some_iff.mp hName).1,
          ih (fun x hx => hValues x
            (List.mem_cons_of_mem v hx))]
  rw [Key.distrust, List.filterMap_map]
  exact hEnforced key.values hNames

end

variable (naming : Naming)
variable (missing : Missing)
variable (hive : Key)

/-
  The fingerprints that are shown, each of them once, are
  those that are enforced if and only if the daemon can read
  the additions, and every name in `Distrust` stands for a
  fingerprint that no other does.
-/
theorem listing_agrees_iff :
    (∃ listed config,
      (distrusted naming missing
        (Machine.start hive (fun _ => none))).1 = .ok listed ∧
      configured naming hive = .ok config ∧
      (listed.map Distrusted.fingerprint).Perm
        config.distrust) ↔
      (∀ trust, hive.trust naming = some trust →
        ∀ add, trust.addOf naming = some add →
          add.LegibleAdd naming) ∧
      ∀ key, distrustKeyOf naming hive = some key →
        (∀ v ∈ key.values,
          (fingerprintOf (textOf v.1)).isSome = true) ∧
        (key.values.map (fun v =>
          normaliseFingerprint (textOf v.1))).Nodup := by
  rw [distrusted_ok]
  constructor
  · rintro ⟨_, config, hListed, hConfig, hPerm⟩
    cases hListed
    constructor
    · intro trust hTrust
      exact ((configured_eq_ok_iff hTrust).mp hConfig).1.add
    · intro key hKey
      rcases exists_trust hKey with ⟨trust, hTrust, hRead⟩
      rcases (configured_eq_ok_iff hTrust).mp hConfig with
        ⟨hLegible, rfl⟩
      rw [hKey] at hPerm
      have hNames := (listing_fingerprints_perm
        (hLegible.distrust key hRead)).symm.trans hPerm
      constructor
      · intro v hv
        have hMem : normaliseFingerprint (textOf v.1) ∈
            (configOf naming trust).distrust :=
          hNames.subset (List.mem_map.mpr ⟨v, hv, rfl⟩)
        rcases mem_configOf_distrust.mp hMem with
          ⟨_, -, w, -, hName⟩
        rw [fingerprintOf_eq_some_iff.mpr ⟨rfl,
          (fingerprintOf_eq_some_iff.mp hName).2⟩]
        rfl
      · exact hNames.nodup_iff.mpr (nodup_sortDistrust _)
  · rintro ⟨hAdd, hNames⟩
    cases hTrust : hive.trust naming with
    | none =>
        have hKey : distrustKeyOf naming hive = none := by
          rw [distrustKeyOf_eq, hTrust]
          rfl
        refine ⟨_, {}, rfl, configured_of_none hTrust, ?_⟩
        rw [hKey]
        exact List.Perm.refl _
    | some trust =>
        have hKeyOf : distrustKeyOf naming hive =
            trust.distrustOf naming := by
          rw [distrustKeyOf_eq, hTrust, Option.bind_some]
        rw [hKeyOf] at hNames ⊢
        have hLegible : trust.LegibleRoot naming := by
          refine ⟨hAdd trust hTrust, ?_⟩
          intro key hKey n hn
          rcases List.mem_map.mp hn with ⟨v, hv, rfl⟩
          rcases Option.isSome_iff_exists.mp
            ((hNames key hKey).1 v hv) with ⟨f, hName⟩
          exact legible_of_fingerprintOf hName
        refine ⟨_, _, rfl, (configured_eq_ok_iff hTrust).mpr
          ⟨hLegible, rfl⟩, ?_⟩
        unfold configOf
        cases hKey : trust.distrustOf naming with
        | none => exact List.Perm.refl _
        | some key =>
            rcases hNames key hKey with ⟨hSome, hNodup⟩
            rw [Option.map_some, Option.getD_some,
              distrust_eq_map hSome]
            refine (listing_fingerprints_perm
              (hLegible.distrust key hKey)).trans ?_
            rw [List.perm_ext_iff_of_nodup hNodup
              (nodup_sortDistrust _)]
            exact fun f => mem_sortDistrust.symm

/- A name that is no fingerprint is shown, not enforced. -/
theorem listing_disagrees :
    ¬ ∃ listed config,
      (distrusted exactNaming notThere
        (Machine.start (distrustHive ["Corp CA".toList])
          (fun _ => none))).1 = .ok listed ∧
      configured exactNaming
        (distrustHive ["Corp CA".toList]) = .ok config ∧
      (listed.map Distrusted.fingerprint).Perm
        config.distrust := by
  rintro ⟨_, config, hListed, hConfig, hPerm⟩
  rw [distrusted_ok] at hListed
  cases hListed
  rw [distrustKeyOf_eq, trust_distrustHive, Option.bind_some,
    distrustOf_distrustHive] at hPerm
  rcases (configured_eq_ok_iff trust_distrustHive).mp hConfig
    with ⟨hLegible, rfl⟩
  have hNames := (listing_fingerprints_perm
    (hLegible.distrust _ distrustOf_distrustHive)).symm.trans
      hPerm
  have hMem := hNames.subset List.mem_cons_self
  rcases mem_configOf_distrust.mp hMem with
    ⟨key, hKey, hStands⟩
  rw [distrustOf_distrustHive] at hKey
  cases hKey
  rcases stands_namedDistrusts.mp hStands with
    ⟨name, hName, hStandsFor⟩
  rw [List.mem_singleton.mp hName] at hStandsFor
  revert hStandsFor
  decide

end ClientCore

end Trustd
