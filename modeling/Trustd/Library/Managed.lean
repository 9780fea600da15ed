import Trustd.Client.Additions
import Trustd.Library.Transparent

/-
  The safe client at the registry, end to end.

  The core's commands are served over the registry, call by
  call. Where the client says that a certificate was added, or
  that a fingerprint was restored, the registry holds just
  that.

  Key definitions include:
    * `Trustd.LibTrust.registryCore`

  Key theorems include:
    * `Trustd.TrustClient.add_enters`
    * `Trustd.TrustClient.restore_lifts`
-/

------------------------------------------------------------
-- The Core Over The Registry
------------------------------------------------------------

namespace Trustd

namespace LibTrust

open ClientCore General Registry

/-
  The core over the registry: commands whose calls are served
  in order, each of which may be refused. `served` is what the
  daemon answers `distrust` when it looks, and the rest of the
  outside is as it is given.
-/
def registryCore
    (outside : Core (Machine Key (Option IoError)))
    (naming : Naming)
    (missing : Missing)
    (debug : Text → Text)
    (crates : Cert.Crates)
    (now : Option Int)
    (served : Option (List Wire.Root)) :
    Core (Machine Key (Option IoError)) :=
  { outside with
    vet := fun der w => (ClientCore.vet crates now der, w)
    mayChange := Steps.mayChange.prog (serve naming missing)
    maySetCompat :=
      Steps.maySetCompat.prog (serve naming missing)
    setCompat := fun mode =>
      (Steps.setCompat mode).prog (serve naming missing)
    add := ClientCore.add naming missing debug crates now
    remove := fun name =>
      (Steps.remove name).prog (serve naming missing)
    distrusted := ClientCore.distrusted naming missing
    distrust := fun fingerprint reason =>
      (Steps.distrust served fingerprint reason).prog
        (serve naming missing)
    restore := ClientCore.restore naming missing }

end LibTrust

end Trustd

------------------------------------------------------------
-- What The Registry Then Holds
------------------------------------------------------------

namespace Trustd

namespace TrustClient

open ClientCore General LibTrust Registry Results

section

variable {σ α β : Type}

/- What came of it came of arguments that pass the checks. -/
theorem checked_ok
    {checked : Except IoError α}
    {work : α → Work σ ClientCore.Error β}
    {w : σ}
    {b : β}
    (hOk : ((Work.checked checked (fun args =>
      (work args).failing managementError) w).1.mapError
        Failure.crossed) = .ok b) :
    ∃ args, checked = .ok args ∧ (work args w).1 = .ok b ∧
      (Work.checked checked (fun args =>
        (work args).failing managementError) w).2 =
          (work args w).2 := by
  rcases checked with e | args
  · cases hOk
  · refine ⟨args, rfl, ?_, rfl⟩
    change (((work args w).1.mapError managementError).mapError
      Failure.crossed) = _ at hOk
    cases hWork : (work args w).1 with
    | error e =>
        rw [hWork] at hOk
        cases hOk
    | ok a =>
        rw [hWork] at hOk
        cases hOk
        rfl

end

theorem textOf_ok
    {text text' : Text}
    (hText : Inputs.textOf text = .ok text') :
    text' = text := by
  unfold Inputs.textOf at hText
  cases hBytes : Inputs.bytesOf (Text.utf8 text) with
  | error e =>
      rw [hBytes] at hText
      cases hText
  | ok bytes =>
      rw [hBytes] at hText
      cases hText
      rfl

theorem bytesOf_ok
    {value value' : Bytes}
    (hValue : Inputs.bytesOf value = .ok value') :
    value' = value := by
  unfold Inputs.bytesOf at hValue
  split_ifs at hValue
  cases hValue
  rfl

theorem stringsOf_ok
    {texts texts' : List Text}
    (hTexts : Inputs.stringsOf texts = .ok texts') :
    texts' = texts := by
  unfold Inputs.stringsOf at hTexts
  split_ifs at hTexts
  cases hTexts
  rfl

section

variable (A : Allocator)
variable (outside : Core (Machine Key (Option IoError)))
variable (naming : Naming)
variable (missing : Missing)
variable (debug : Text → Text)
variable (crates : Cert.Crates)
variable (now : Option Int)
variable (served : Option (List Wire.Root))
variable (hive : Key)
variable (faults : Nat → Option IoError)

/-
  Where the client says that a certificate was added, it is
  entered as it was given, with the purposes given, and nothing
  else is changed; the memory is as it was.
-/
theorem add_enters
    (name der : Ref)
    (purposes : List Ref)
    (text : Text)
    (value : Bytes)
    (texts : List Text)
    {heap : Heap Abi.Block}
    (hName : BorrowedText heap name text)
    (hDer : Borrowed heap der value)
    (hPurposes : BorrowedTexts heap purposes texts) :
    ∃ outcome m,
      add A (registryCore outside naming missing debug crates
          now served) name der purposes heap
          (Machine.start hive faults) =
        some (outcome, heap, m) ∧
      ∀ parsed, outcome = .ok parsed →
        m.state = withAddition naming text value texts hive ∧
          ClientCore.usableName text = true ∧
            ClientCore.vet crates now value = .ok parsed := by
  have hCarries := carries_add A (registryCore outside naming
    missing debug crates now served) name der purposes text
    value texts heap (Machine.start hive faults)
    ⟨hName, hDer, hPurposes⟩
  refine ⟨_, _, hCarries, ?_⟩
  intro parsed hOk
  rcases checked_ok hOk with ⟨args, hArgs, hAdded, hState⟩
  simp only [bind_eq_ok_iff] at hArgs
  rcases hArgs with ⟨text', hText, value', hValue, texts',
    hTexts, hPure⟩
  cases textOf_ok hText
  cases bytesOf_ok hValue
  cases stringsOf_ok hTexts
  cases hPure
  have hDoes : Does (fun _ => True) hive (ClientCore.add naming
      missing debug crates now text value texts) _ _ :=
    add_does text value texts
  have hOutcome := hDoes.outcome faults (fun _ => trivial)
  rw [hState]
  change (ClientCore.add naming missing debug crates now text
    value texts (Machine.start hive faults)).1 = _ at hAdded
  rw [hAdded] at hOutcome
  exact hOutcome

/-
  Where the client says that a fingerprint was restored, the
  value under it is gone and nothing else is changed; a whole
  fingerprint is the one that was asked for.
-/
theorem restore_lifts
    (fingerprint : Ref)
    (text : Text)
    {heap : Heap Abi.Block}
    (hText : BorrowedText heap fingerprint text) :
    ∃ outcome m,
      restore A (registryCore outside naming missing debug
          crates now served) fingerprint heap
          (Machine.start hive faults) =
        some (outcome, heap, m) ∧
      ∀ f, outcome = .ok f →
        m.state = withoutDistrust naming f hive ∧
          (∃ key, distrustKeyOf naming hive = some key) ∧
          ((Store.normaliseFingerprint text).length = 64 →
            f = Store.normaliseFingerprint text) := by
  have hCarries := carries_restore A (registryCore outside
    naming missing debug crates now served) fingerprint text
    heap (Machine.start hive faults) hText
  refine ⟨_, _, hCarries, ?_⟩
  intro f hOk
  rcases checked_ok hOk with ⟨text', hArgs, hRestored, hState⟩
  cases textOf_ok hArgs
  have hDoes : Does (fun _ => True) hive (ClientCore.restore
      naming missing text) _ _ := restore_does text
  have hOutcome := hDoes.outcome faults (fun _ => trivial)
  rw [hState]
  change (ClientCore.restore naming missing text
    (Machine.start hive faults)).1 = _ at hRestored
  rw [hRestored] at hOutcome
  exact hOutcome

end

end TrustClient

end Trustd
