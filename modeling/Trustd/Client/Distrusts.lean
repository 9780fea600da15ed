import Trustd.Client.Access
import Trustd.Daemon.Fingerprints

/-
  The distrusts as the clients list them and take them back.

  Key definitions include:
    * `Trustd.ClientCore.distrusted`
    * `Trustd.ClientCore.restore`
    * `Trustd.ClientCore.listing`
    * `Trustd.ClientCore.Enforced`
    * `Trustd.ClientCore.Canonical`

  Key theorems include:
    * `Trustd.ClientCore.distrusted_quiet`
    * `Trustd.ClientCore.restore_does`
    * `Trustd.ClientCore.enforced_iff`
    * `Trustd.ClientCore.configured_withoutDistrust`
    * `Trustd.ClientCore.not_enforced_withoutDistrust`
-/

------------------------------------------------------------
-- Listing And Restoring
------------------------------------------------------------

namespace Trustd

namespace ClientCore

open General Registry Store

section

variable (naming : Naming)
variable (missing : Missing)

/- `distrusted`. -/
def distrusted : Access Error (List Distrusted) :=
  Steps.distrusted.prog (serve naming missing)

theorem distrusted_eq :
    distrusted naming missing =
      Prog.attempt (openKey naming missing [] distrustPath) >>=
        fun opened =>
      match opened with
      | .error e =>
          if e.kind = .notFound then pure []
          else Prog.throw (.failed
            (distrustPath ++ ": ".toList ++ e.text))
      | .ok key =>
          values naming missing key >>= fun items =>
          pure (sortDistrusted
            (items.filterMap distrustedOf)) := by
  rw [distrusted, Steps.distrusted, Script.prog_bind,
    Script.prog_attempt]
  refine congrArg (Prog.attempt _ >>= ·) (funext ?_)
  intro opened
  cases opened with
  | error e =>
      dsimp only
      split_ifs
      · rfl
      · rfl
  | ok key =>
      dsimp only
      rw [Script.prog_bind]
      rfl

/- What there is to take back, by a fingerprint or a prefix. -/
def resolveDistrusted (normalised : Text) :
    Access Error Text :=
  (Steps.resolveDistrusted normalised).prog
    (serve naming missing)

theorem resolveDistrusted_eq (normalised : Text) :
    resolveDistrusted naming missing normalised =
      if normalised.length = 64 then pure normalised
      else
        distrusted naming missing >>= fun entries =>
        match entries.filter (fun d =>
            normalised.isPrefixOf d.fingerprint) with
        | [d] => pure d.fingerprint
        | [] => Prog.throw (.notFound
            ("nothing distrusted starts with ".toList ++
              normalised))
        | many => Prog.throw (.failed
            (normalised ++ " matches ".toList ++
              Text.decimal many.length ++
              " distrust entries; be more specific".toList)) :=
    by
  unfold resolveDistrusted Steps.resolveDistrusted
  split_ifs
  · rfl
  · rw [Script.prog_bind]
    refine congrArg (distrusted naming missing >>= ·)
      (funext ?_)
    intro entries
    generalize entries.filter _ = matched
    rcases matched with _ | ⟨d, _ | ⟨d', rest⟩⟩
    · rfl
    · rfl
    · rfl

/- `restore`. -/
def restore (argument : Text) : Access Error Text :=
  (Steps.restore argument).prog (serve naming missing)

theorem restore_eq (argument : Text) :
    restore naming missing argument =
      resolveDistrusted naming missing
        (normaliseFingerprint argument) >>= fun fingerprint =>
      Prog.mapError (fun e =>
        if e.kind = .notFound then
          Steps.notDistrusted fingerprint
        else registryError distrustPath e)
          (openKey naming missing [] distrustPath) >>=
        fun key =>
      Prog.attempt
        (deleteValue naming missing key fingerprint) >>=
        fun deleted =>
      match deleted with
      | .ok _ => pure fingerprint
      | .error e =>
          if e.kind = .notFound then
            Prog.throw (Steps.notDistrusted fingerprint)
          else Prog.throw (registryError distrustPath e) := by
  rw [restore, Steps.restore, Script.prog_bind]
  refine congrArg (resolveDistrusted naming missing _ >>= ·)
    (funext ?_)
  intro fingerprint
  rw [Script.prog_bind, Script.prog_mapError]
  refine congrArg (Prog.mapError _ _ >>= ·) (funext ?_)
  intro key
  rw [Script.prog_bind, Script.prog_attempt]
  refine congrArg (Prog.attempt _ >>= ·) (funext ?_)
  intro deleted
  cases deleted with
  | ok _ => rfl
  | error e =>
      dsimp only
      split_ifs
      · rfl
      · rfl

end

end ClientCore

end Trustd

------------------------------------------------------------
-- What The Programs Do
------------------------------------------------------------

namespace Trustd

namespace ClientCore

open General Registry Store

variable {naming : Naming}
variable {missing : Missing}
variable {hive : Key}
variable {G : Option IoError → Prop}

/- `Distrust`, if it is there. -/
def distrustKeyOf (naming : Naming) (hive : Key) :
    Option Key :=
  hive.follow naming (components distrustPath)

/- What is listed of `Distrust`. -/
def listing (distrust : Option Key) : List Distrusted :=
  match distrust with
  | none => []
  | some key =>
      sortDistrusted (key.values.filterMap (fun v =>
        distrustedOf (.ok v)))

/- The registry without a value of `Distrust`. -/
def withoutDistrust
    (naming : Naming)
    (fingerprint : Text)
    (hive : Key) :
    Key :=
  hive.edit naming (Key.deleteValue naming fingerprint)
    (components distrustPath)

/- The listing changes nothing. -/
theorem distrusted_keeps :
    Does G hive (distrusted naming missing)
      (fun _ s => s = hive)
      (fun _ s => s = hive ∧ ∃ e, G (some e)) := by
  rw [distrusted_eq]
  refine Ensures.bind (Ensures.attempt
    (openKey_does [] distrustPath)) (fun opened => ?_)
  cases opened with
  | error e =>
      dsimp only
      split_ifs with hKind
      · exact Ensures.pure [] (fun s hOpened => hOpened.1)
      · refine Ensures.throw _ (fun s hOpened =>
          ⟨hOpened.1, ?_⟩)
        rcases hOpened.2 with hRefused | ⟨rfl, -⟩
        · exact ⟨e, hRefused⟩
        · exact absurd missing.2 hKind
  | ok key =>
      intro m hG hI hOpened
      rcases hOpened with ⟨hState, rfl, k, hFollow⟩
      refine Does.bind (E := fun _ s =>
        s = hive ∧ ∃ e, G (some e))
        ((values_does hFollow).weaken (fun _ h => h)
          (fun _ _ h => h) (fun _ _ h => h.elim))
        (fun items _ => ?_) m hG hI hState
      exact Ensures.pure _ (fun s hState => hState)

/- Where nothing is refused it is of all that is there. -/
theorem distrusted_quiet :
    Does Quiet hive (distrusted naming missing)
      (fun entries s => s = hive ∧
        entries = listing (distrustKeyOf naming hive))
      (fun _ _ => False) := by
  have hNever : ∀ e, ¬ Quiet (some e) := fun e hQuiet => by
    cases hQuiet
  rw [distrusted_eq]
  refine Ensures.bind (Ensures.attempt
    (openKey_does [] distrustPath)) (fun opened => ?_)
  cases opened with
  | error e =>
      intro m hG hI hOpened
      rcases hOpened with ⟨hState, hRefused | ⟨rfl, hNone⟩⟩
      · exact absurd hRefused (hNever e)
      · dsimp only
        rw [if_pos missing.2]
        refine Ensures.pure [] (fun s hState =>
          ⟨hState, ?_⟩) m hG hI hState
        have hNone : distrustKeyOf naming hive = none := hNone
        rw [hNone]
        rfl
  | ok key =>
      intro m hG hI hOpened
      rcases hOpened with ⟨hState, rfl, k, hFollow⟩
      have hKey : distrustKeyOf naming hive = some k := hFollow
      refine Does.bind (values_does hFollow)
        (fun items hItems => ?_) m hG hI hState
      refine Ensures.pure _ (fun s hState => ⟨hState, ?_⟩)
      rw [hItems hNever, hKey, listing, List.filterMap_map]
      rfl

/- A whole fingerprint is not looked up. -/
theorem resolveDistrusted_does (normalised : Text) :
    Does G hive (resolveDistrusted naming missing normalised)
      (fun f s => s = hive ∧
        (normalised.length = 64 → f = normalised))
      (fun _ s => s = hive ∧ normalised.length ≠ 64) := by
  rw [resolveDistrusted_eq]
  split_ifs with hWhole
  · exact Ensures.pure _ (fun s hState =>
      ⟨hState, fun _ => rfl⟩)
  · refine Ensures.bind (distrusted_keeps.weaken (fun _ h => h)
      (fun _ _ h => h) (fun _ _ h => ⟨h.1, hWhole⟩))
      (fun entries => ?_)
    split
    · exact Ensures.pure _ (fun s hState =>
        ⟨hState, fun hLength => absurd hLength hWhole⟩)
    · exact Ensures.throw _ (fun s hState => ⟨hState, hWhole⟩)
    · exact Ensures.throw _ (fun s hState => ⟨hState, hWhole⟩)

/- Why a whole fingerprint may not be taken back. -/
def Untaken
    (G : Option IoError → Prop)
    (naming : Naming)
    (hive : Key)
    (normalised : Text) :
    Prop :=
  normalised.length = 64 →
    (∃ e, G (some e)) ∨
      (distrustKeyOf naming hive).bind (fun k =>
        k.value naming normalised) = none

/-
  The value that is deleted is the one under the fingerprint
  that is returned. A whole fingerprint is taken back unless
  that is refused or no value is under it.
-/
theorem restore_does (argument : Text) :
    Does G hive (restore naming missing argument)
      (fun f s => s = withoutDistrust naming f hive ∧
        (∃ k, distrustKeyOf naming hive = some k) ∧
        ((normaliseFingerprint argument).length = 64 →
          f = normaliseFingerprint argument))
      (fun _ s => s = hive ∧ Untaken G naming hive
        (normaliseFingerprint argument)) := by
  rw [restore_eq]
  refine Does.bind (E := fun _ s => s = hive ∧
    Untaken G naming hive (normaliseFingerprint argument))
    ((resolveDistrusted_does _).weaken (fun _ h => h)
      (fun _ _ h => h) (fun _ _ h =>
        ⟨h.1, fun hWhole => absurd hWhole h.2⟩))
    (fun f hWhole => ?_)
  refine Does.bind (P := fun key =>
    key = components distrustPath ∧
      ∃ k, distrustKeyOf naming hive = some k)
    (Ensures.mapError ((openKey_does [] distrustPath).weaken
      (fun _ h => h) (fun _ _ h => ?_) (fun e s h => ?_)))
    (fun key hKey => ?_)
  · rcases h with ⟨hState, rfl, hThere⟩
    exact ⟨hState, rfl, hThere⟩
  · refine ⟨h.1, fun _ => ?_⟩
    rcases h.2 with hRefused | ⟨-, hNone⟩
    · exact Or.inl ⟨e, hRefused⟩
    · right
      have hNone : distrustKeyOf naming hive = none := hNone
      rw [hNone]
      rfl
  rcases hKey with ⟨rfl, hThere⟩
  refine Ensures.bind (Ensures.attempt
    (deleteValue_does (components distrustPath) f))
    (fun deleted => ?_)
  cases deleted with
  | ok _ =>
      exact Ensures.pure f (fun s hDeleted =>
        ⟨hDeleted.1, hThere, hWhole⟩)
  | error e =>
      have hUntaken : ∀ s, (s = hive ∧ (G (some e) ∨
          e = missing ∧ (hive.follow naming
            (components distrustPath)).bind (fun k =>
              k.value naming f) = none)) →
          s = hive ∧ Untaken G naming hive
            (normaliseFingerprint argument) := by
        rintro s ⟨hState, hWhy⟩
        refine ⟨hState, fun hLength => ?_⟩
        rcases hWhy with hRefused | ⟨-, hNone⟩
        · exact Or.inl ⟨e, hRefused⟩
        · rw [← hWhole hLength]
          exact Or.inr hNone
      dsimp only
      split_ifs with hKind
      · exact Ensures.throw _ hUntaken
      · exact Ensures.throw _ hUntaken

end ClientCore

end Trustd

------------------------------------------------------------
-- What Is Enforced
------------------------------------------------------------

namespace Trustd

namespace ClientCore

open General Registry Store

variable {naming : Naming}
variable {missing : Missing}
variable {hive trust : Key}

/- The daemon reads a configuration that distrusts it. -/
def Enforced
    (naming : Naming)
    (hive : Key)
    (fingerprint : Text) :
    Prop :=
  ∃ config, configured naming hive = .ok config ∧
    fingerprint ∈ config.distrust

/- A key has a value whose name stands for it. -/
def Stands (key : Key) (fingerprint : Text) : Prop :=
  ∃ v ∈ key.values,
    fingerprintOf (textOf v.1) = some fingerprint

/- Names that differ in more than case are two. -/
theorem fold_ne
    (naming : Naming)
    {a b : Text}
    (hLeft : Ascii a)
    (hRight : Ascii b)
    (hDiffer : Text.eqIgnoreAsciiCase a b = false) :
    naming.fold (Text.utf8 a) ≠ naming.fold (Text.utf8 b) := by
  intro hSame
  rw [naming.ascii a b hLeft hRight hSame] at hDiffer
  cases hDiffer

theorem components_distrustPath :
    components distrustPath =
      components trustPath ++ [certificatesKey, distrustKey] := by
  decide

/- The clients and the daemon read one key. -/
theorem distrustKeyOf_eq :
    distrustKeyOf naming hive =
      (hive.trust naming).bind (Key.distrustOf naming) := by
  rw [distrustKeyOf, components_distrustPath,
    Key.follow_append, Key.trust]
  cases hive.follow naming (components trustPath) with
  | none => rfl
  | some trust =>
      rw [Option.bind_some, Option.bind_some, Key.follow,
        Key.distrustOf]
      cases trust.child naming certificatesKey with
      | none => rfl
      | some certificates =>
          rw [Option.bind_some, Option.bind_some, Key.follow]
          cases certificates.child naming distrustKey with
          | none => rfl
          | some distrust => rfl

theorem mem_distrust
    {key : Key}
    {f : Text} :
    f ∈ key.distrust ↔ Stands key f := by
  unfold Key.distrust Stands
  simp only [List.mem_filterMap, List.mem_map]
  constructor
  · rintro ⟨_, ⟨v, hv, rfl⟩, hName⟩
    exact ⟨v, hv, hName⟩
  · rintro ⟨v, hv, hName⟩
    exact ⟨v.1, ⟨v, hv, rfl⟩, hName⟩

/- What the configuration read distrusts. -/
theorem mem_configOf_distrust
    {f : Text} :
    f ∈ (configOf naming trust).distrust ↔
      ∃ key, trust.distrustOf naming = some key ∧
        Stands key f := by
  rw [configOf, mem_sortDistrust]
  cases trust.distrustOf naming with
  | none => simp
  | some key =>
      rw [Option.map_some, Option.getD_some, mem_distrust]
      simp

end ClientCore

end Trustd

------------------------------------------------------------
-- Taking A Distrust Back
------------------------------------------------------------

namespace Trustd

namespace ClientCore

open General Registry Store

variable {naming : Naming}
variable {missing : Missing}
variable {hive trust key : Key}

theorem add_ne_distrust (naming : Naming) :
    naming.fold (Text.utf8 distrustKey) ≠
      naming.fold (Text.utf8 addKey) := by
  apply fold_ne
  · exact ascii_of_all (by decide)
  · exact ascii_of_all (by decide)
  · decide

/- The key the daemon reads, without a value of `Distrust`. -/
theorem trust_withoutDistrust
    (hTrust : hive.trust naming = some trust)
    (f : Text) :
    (withoutDistrust naming f hive).trust naming =
      some (trust.edit naming (Key.deleteValue naming f)
        [certificatesKey, distrustKey]) := by
  have hFollow : hive.follow naming (components trustPath) =
      some trust := hTrust
  rw [withoutDistrust, components_distrustPath,
    Key.edit_append, Key.trust, Key.follow_edit, hFollow]
  rfl

/- Inside it only `Distrust` is another. -/
theorem reads_withoutDistrust
    (hKey : trust.distrustOf naming = some key)
    (f : Text)
    {trust' : Key}
    (hTrust' : trust' =
      trust.edit naming (Key.deleteValue naming f)
        [certificatesKey, distrustKey]) :
    trust'.distrustOf naming =
        some (key.deleteValue naming f) ∧
      trust'.addOf naming = trust.addOf naming := by
  rcases Option.bind_eq_some_iff.mp hKey with
    ⟨certificates, hCertificates, hDistrust⟩
  have hChild : trust'.child naming certificatesKey =
      some (certificates.edit naming
        (Key.deleteValue naming f) [distrustKey]) := by
    rw [hTrust', Key.child_edit_self, hCertificates]
    rfl
  constructor
  · rw [Key.distrustOf, hChild, Option.bind_some,
      Key.child_edit_self, hDistrust]
    rfl
  · rw [Key.addOf, hChild, Option.bind_some,
      Key.child_edit_other _ (add_ne_distrust naming),
      Key.addOf, hCertificates]
    rfl

/- Where the key can be read it still can be. -/
theorem legible_withoutDistrust
    (hKey : trust.distrustOf naming = some key)
    (hLegible : trust.LegibleRoot naming)
    (f : Text) :
    (trust.edit naming (Key.deleteValue naming f)
      [certificatesKey, distrustKey]).LegibleRoot naming := by
  rcases reads_withoutDistrust hKey f rfl with
    ⟨hDistrust', hAdd'⟩
  constructor
  · rw [hAdd']
    exact hLegible.add
  · intro key' hKey' n hn
    rw [hDistrust'] at hKey'
    cases hKey'
    rcases List.mem_map.mp hn with ⟨v, hv, rfl⟩
    exact hLegible.distrust key hKey v.1
      (List.mem_map_of_mem (mem_remove.mp hv).1)

/- What no value stands for is what only those deleted did. -/
theorem stands_deleteValue
    {f g : Text} :
    Stands (key.deleteValue naming f) g ↔
      ∃ v ∈ key.values,
        fingerprintOf (textOf v.1) = some g ∧
          naming.fold v.1 ≠ naming.fold (Text.utf8 f) := by
  unfold Stands
  constructor
  · rintro ⟨v, hv, hName⟩
    rcases mem_remove.mp hv with ⟨hMem, hOther⟩
    exact ⟨v, hMem, hName, hOther⟩
  · rintro ⟨v, hMem, hName, hOther⟩
    exact ⟨v, mem_remove.mpr ⟨hMem, hOther⟩, hName⟩

/-
  Where the daemon can read the registry, every name that
  stands for a fingerprint is, to the registry, its canonical
  spelling.
-/
def Canonical (naming : Naming) (hive : Key) : Prop :=
  ∀ config, configured naming hive = .ok config →
    ∀ key, distrustKeyOf naming hive = some key →
      ∀ v ∈ key.values, ∀ f,
        fingerprintOf (textOf v.1) = some f →
          naming.fold v.1 = naming.fold (Text.utf8 f)

/- Where `Distrust` is there to be read. -/
theorem enforced_iff
    (hTrust : hive.trust naming = some trust)
    (hKey : trust.distrustOf naming = some key)
    {f : Text} :
    Enforced naming hive f ↔
      trust.LegibleRoot naming ∧ Stands key f := by
  unfold Enforced
  simp only [configured_eq_ok_iff hTrust]
  constructor
  · rintro ⟨_, ⟨hLegible, rfl⟩, hMem⟩
    rcases mem_configOf_distrust.mp hMem with
      ⟨key', hKey', hStands⟩
    rw [hKey] at hKey'
    cases hKey'
    exact ⟨hLegible, hStands⟩
  · rintro ⟨hLegible, hStands⟩
    exact ⟨_, ⟨hLegible, rfl⟩,
      mem_configOf_distrust.mpr ⟨key, hKey, hStands⟩⟩

/- What is enforced is a value of a key that is there. -/
theorem Enforced.exists_key
    {f : Text}
    (hEnforced : Enforced naming hive f) :
    ∃ trust key, hive.trust naming = some trust ∧
      trust.distrustOf naming = some key ∧
        trust.LegibleRoot naming ∧ Stands key f := by
  rcases hEnforced with ⟨config, hConfig, hMem⟩
  cases hTrust : hive.trust naming with
  | none =>
      rw [configured_of_none hTrust] at hConfig
      cases hConfig
      cases hMem
  | some trust =>
      rcases (configured_eq_ok_iff hTrust).mp hConfig with
        ⟨hLegible, rfl⟩
      rcases mem_configOf_distrust.mp hMem with
        ⟨key, hKey, hStands⟩
      exact ⟨trust, key, rfl, hKey, hLegible, hStands⟩

/- A key that the clients open is one the daemon reads. -/
theorem exists_trust
    (hKey : distrustKeyOf naming hive = some key) :
    ∃ trust, hive.trust naming = some trust ∧
      trust.distrustOf naming = some key := by
  rw [distrustKeyOf_eq] at hKey
  exact Option.bind_eq_some_iff.mp hKey

/- What the daemon reads once a value is deleted. -/
theorem configured_withoutDistrust
    (hTrust : hive.trust naming = some trust)
    (hKey : trust.distrustOf naming = some key)
    (hLegible : trust.LegibleRoot naming)
    (f : Text) :
    ∃ config,
      configured naming (withoutDistrust naming f hive) =
        .ok config ∧
      ∀ g, g ∈ config.distrust ↔
        Stands (key.deleteValue naming f) g := by
  have hTrust' := trust_withoutDistrust hTrust f
  refine ⟨_, (configured_eq_ok_iff hTrust').mpr
    ⟨legible_withoutDistrust hKey hLegible f, rfl⟩,
    fun g => ?_⟩
  rw [mem_configOf_distrust,
    (reads_withoutDistrust hKey f rfl).1]
  simp

/- Deleting a fingerprint's name hides no name's error. -/
theorem legible_of_withoutDistrust
    {f : Text}
    (hSelf : fingerprintOf f = some f)
    (hKey : trust.distrustOf naming = some key)
    (hLegible :
      (trust.edit naming (Key.deleteValue naming f)
        [certificatesKey, distrustKey]).LegibleRoot naming) :
    trust.LegibleRoot naming := by
  rcases reads_withoutDistrust hKey f rfl with
    ⟨hDistrust', hAdd'⟩
  constructor
  · rw [← hAdd']
    exact hLegible.add
  · intro key' hKey' n hn
    rw [hKey] at hKey'
    cases hKey'
    rcases List.mem_map.mp hn with ⟨v, hv, rfl⟩
    by_cases hSame :
        naming.fold v.1 = naming.fold (Text.utf8 f)
    · exact legible_of_fingerprintOf
        (naming.stands_for hSelf hSame)
    · exact hLegible.distrust _ hDistrust' v.1
        (List.mem_map_of_mem (mem_remove.mpr ⟨hv, hSame⟩))

/- What was taken back is enforced by no canonical name. -/
theorem not_enforced_withoutDistrust
    (hCanonical : Canonical naming hive)
    (hKey : distrustKeyOf naming hive = some key)
    (f : Text) :
    ¬ Enforced naming (withoutDistrust naming f hive) f := by
  intro hEnforced
  rcases exists_trust hKey with ⟨trust, hTrust, hRead⟩
  have hTrust' := trust_withoutDistrust hTrust f
  rcases (enforced_iff hTrust'
    (reads_withoutDistrust hRead f rfl).1).mp hEnforced with
    ⟨hLegible', hStands⟩
  rcases stands_deleteValue.mp hStands with
    ⟨v, hv, hName, hOther⟩
  have hLegible := legible_of_withoutDistrust
    (fingerprintOf_self hName).2 hRead hLegible'
  exact hOther (hCanonical _
    ((configured_eq_ok_iff hTrust).mpr ⟨hLegible, rfl⟩) key
      hKey v hv f hName)

/- Canonical names of other fingerprints stay. -/
theorem stands_deleteValue_canonical
    (hCanonical : ∀ v ∈ key.values, ∀ f,
      fingerprintOf (textOf v.1) = some f →
        naming.fold v.1 = naming.fold (Text.utf8 f))
    {f g : Text}
    (hSelf : fingerprintOf f = some f) :
    Stands (key.deleteValue naming f) g ↔
      Stands key g ∧ g ≠ f := by
  rw [stands_deleteValue]
  constructor
  · rintro ⟨v, hv, hName, hOther⟩
    refine ⟨⟨v, hv, hName⟩, ?_⟩
    rintro rfl
    exact hOther (hCanonical v hv g hName)
  · rintro ⟨⟨v, hv, hName⟩, hNe⟩
    refine ⟨v, hv, hName, fun hSame => hNe ?_⟩
    have hStandsFor := naming.stands_for hSelf hSame
    rw [hName] at hStandsFor
    exact Option.some.inj hStandsFor

end ClientCore

end Trustd

------------------------------------------------------------
-- A Registry Of Distrusts
------------------------------------------------------------

namespace Trustd

namespace ClientCore

open General Registry Store

variable {naming : Naming}
variable {names : List Text}
variable {f : Text}

/- Keys on the way to one key. -/
def nest : List Text → Key → Key
  | [], key => key
  | name :: rest, key =>
      .mk [] [(Text.utf8 name, nest rest key)]

/- A key `Distrust` with values of these names. -/
def namedDistrusts (names : List Text) : Key :=
  .mk (names.map (fun name =>
    (Text.utf8 name, { ty := .sz, data := [0] }))) []

/- A registry that holds these distrusts and nothing else. -/
def distrustHive (names : List Text) : Key :=
  nest (components distrustPath) (namedDistrusts names)

theorem child_nest
    (name : Text)
    (rest : List Text)
    (key : Key) :
    (nest (name :: rest) key).child naming name =
      some (nest rest key) := by
  rw [nest, Key.child, Key.subkeys, entry_cons, if_pos rfl]

theorem follow_nest
    (path rest : List Text)
    (key : Key) :
    (nest (path ++ rest) key).follow naming path =
      some (nest rest key) := by
  induction path with
  | nil => rfl
  | cons name path ih =>
      rw [List.cons_append, Key.follow, child_nest,
        Option.bind_some, ih]

theorem trust_distrustHive :
    (distrustHive names).trust naming =
      some (nest [certificatesKey, distrustKey]
        (namedDistrusts names)) := by
  rw [distrustHive, components_distrustPath]
  exact follow_nest _ _ _

theorem distrustOf_distrustHive :
    (nest [certificatesKey, distrustKey]
      (namedDistrusts names)).distrustOf naming =
      some (namedDistrusts names) := by
  rw [Key.distrustOf, child_nest, Option.bind_some, child_nest]
  rfl

theorem legible_distrustHive :
    (nest [certificatesKey, distrustKey]
      (namedDistrusts names)).LegibleRoot naming := by
  constructor
  · intro add hAdd
    rw [Key.addOf, child_nest, Option.bind_some, nest,
      Key.child, Key.subkeys, entry_cons,
      if_neg (add_ne_distrust naming)] at hAdd
    cases hAdd
  · intro key hKey n hn
    rw [distrustOf_distrustHive] at hKey
    cases hKey
    rcases List.mem_map.mp hn with ⟨v, hv, rfl⟩
    rcases List.mem_map.mp hv with ⟨name, -, rfl⟩
    exact legible_utf8 name

theorem stands_namedDistrusts :
    Stands (namedDistrusts names) f ↔
      ∃ name ∈ names, fingerprintOf name = some f := by
  unfold Stands namedDistrusts
  constructor
  · rintro ⟨v, hv, hName⟩
    rcases List.mem_map.mp hv with ⟨name, hMem, rfl⟩
    rw [textOf_utf8] at hName
    exact ⟨name, hMem, hName⟩
  · rintro ⟨name, hMem, hName⟩
    refine ⟨_, List.mem_map_of_mem hMem, ?_⟩
    rw [textOf_utf8]
    exact hName

end ClientCore

end Trustd
