import Trustd.Client.Agreement
import Trustd.Core.Wire

/-
  The fingerprints that an operator's argument stands for.

  There are three resolvers: of a store's list, of what is
  distrusted, and of what is shown.

  Key definitions include:
    * `Trustd.ClientCore.fingerprintAmong`
    * `Trustd.ClientCore.resolveIn`
    * `Trustd.Command.showRoots`
    * `Trustd.ClientCore.Rule`
    * `Trustd.ClientCore.Uniform`

  Key theorems include:
    * `Trustd.ClientCore.fingerprintAmong_iff`
    * `Trustd.ClientCore.restore_quiet`
    * `Trustd.ClientCore.restore_lifts_iff`
    * `Trustd.ClientCore.uniform_iff`
-/

------------------------------------------------------------
-- Resolvers
------------------------------------------------------------

namespace Trustd

namespace ClientCore

open General Registry Store Wire

/- `fingerprint_among`. -/
def fingerprintAmong
    (text : Text)
    (fingerprints : List Text) :
    Except Error Text :=
  let normalised := normaliseFingerprint text
  if hex normalised = false ∨ normalised.length > 64 then
    .error (.failed
      (text ++ " is not a SHA-256 fingerprint".toList))
  else if normalised.length = 64 then .ok normalised
  else if normalised.length < 8 then
    .error (.failed (normalised ++
      " is too short; give at least eight digits".toList))
  else
    match fingerprints.filter (fun fingerprint =>
        normalised.isPrefixOf fingerprint) with
    | [fingerprint] => .ok fingerprint
    | [] => .error (.notFound
        ("no certificate in the store starts with ".toList ++
          normalised ++ (" — give the whole fingerprint " ++
          "if you mean one the store does not have").toList))
    | many => .error (.failed
        (normalised ++ " matches ".toList ++
          Text.decimal many.length ++
          " certificates; be more specific".toList))

/- `fingerprint_in`. -/
def fingerprintIn
    (text : Text)
    (roots : List Root) :
    Except Error Text :=
  fingerprintAmong text (roots.map Root.fingerprint)

/- The resolution in `restore`, once the list is there. -/
def resolveIn
    (normalised : Text)
    (entries : List Distrusted) :
    Except Error Text :=
  if normalised.length = 64 then .ok normalised
  else
    match entries.filter (fun d =>
        normalised.isPrefixOf d.fingerprint) with
    | [d] => .ok d.fingerprint
    | [] => .error (.notFound
        ("nothing distrusted starts with ".toList ++
          normalised))
    | many => .error (.failed
        (normalised ++ " matches ".toList ++
          Text.decimal many.length ++
          " distrust entries; be more specific".toList))

end ClientCore

namespace Command

open Store Wire

/- What a command prints and what it exits with. -/
structure Output where
  out : Text
  err : Text
  code : Nat
deriving DecidableEq, Repr

/- `Error`, of which a code and a text are printed. -/
structure ClientError where
  code : Int
  message : Text
deriving DecidableEq, Repr

/- `ENOENT`. -/
def noEntry : Int := 2

/- `failed`. -/
def failed (error : ClientError) : Output where
  out := []
  err := "trust: ".toList ++ error.message ++ ['\n']
  code := if error.code = noEntry then 2 else 1

/- The roots that `show` finds. -/
def showMatches
    (given : Text)
    (list : List Root) :
    List Root :=
  list.filter (fun r =>
    (normaliseFingerprint given).isPrefixOf r.fingerprint)

/- What is printed of the one root that is found. -/
def rootPage (root : Root) : Text :=
  "subject      ".toList ++ root.subject ++ ['\n'] ++
  "fingerprint  ".toList ++ root.fingerprint ++ ['\n'] ++
  "source       ".toList ++ sourceAsStr root.source ++ ['\n'] ++
  (match root.name with
    | some name =>
        "added as     ".toList ++ name ++ ['\n']
    | none => []) ++
  "purposes     ".toList ++
    List.intercalate ", ".toList root.purposes ++ ['\n'] ++
  "expires      ".toList ++ (toString root.notAfter).toList ++
    ['\n'] ++
  ['\n'] ++ Cert.toPem root.der

/- `show`, with what the service answers. -/
def showRoots
    (given : Text)
    (pemOnly : Bool)
    (answer : Except ClientError (List Root)) :
    Output :=
  match answer with
  | .error e => failed e
  | .ok list =>
      match showMatches given list with
      | [] => {
          out := []
          err := "trust: no root in the store matches ".toList
            ++ given ++ ['\n']
          code := 2 }
      | [root] => {
          out :=
            if pemOnly then Cert.toPem root.der
            else rootPage root
          err := []
          code := 0 }
      | many => {
          out := []
          err := "trust: ".toList ++ given ++
            " matches ".toList ++ Text.decimal many.length ++
            " roots; be more specific\n".toList ++
            many.flatMap (fun root =>
              "  ".toList ++ root.fingerprint.take 16 ++
                "  ".toList ++ root.subject ++ ['\n'])
          code := 1 }

end Command

end Trustd

------------------------------------------------------------
-- The One That Matches
------------------------------------------------------------

namespace Trustd

namespace ClientCore

open General Registry Store Wire

/- A fingerprint as the store prints it. -/
structure IsFingerprint (f : Text) : Prop where
  length : f.length = 64
  digits : ∀ c ∈ f, c ∈ "0123456789abcdef".toList

/- Distinct fingerprints. -/
structure Fingerprints (l : List Text) : Prop where
  nodup : l.Nodup
  each : ∀ f ∈ l, IsFingerprint f

/- The only one of a list that a text begins. -/
def Found
    (n : Text)
    (l : List Text)
    (f : Text) :
    Prop :=
  f ∈ l ∧ ∀ g ∈ l, n <+: g ↔ g = f

/-
  What an argument stands for: the fingerprint that it spells,
  or the only one that it begins with eight digits or more.
-/
def Rule
    (argument : Text)
    (l : List Text)
    (f : Text) :
    Prop :=
  f ∈ l ∧
    (normaliseFingerprint argument = f ∨
      (hex (normaliseFingerprint argument) = true ∧
        8 ≤ (normaliseFingerprint argument).length ∧
        ∀ g ∈ l, normaliseFingerprint argument <+: g ↔
          g = f))

variable {l : List Text}
variable {n f : Text}

theorem IsFingerprint.fingerprintOf_self
    (hFingerprint : IsFingerprint f) :
    fingerprintOf f = some f := by
  have hEach : ∀ c ∈ f, isAsciiAlphanumeric c = true ∧
      c.toLower = c ∧ Text.isAsciiHexdigit c = true := by
    intro c hc
    have hAll : "0123456789abcdef".toList.all (fun d =>
        isAsciiAlphanumeric d = true ∧ d.toLower = d ∧
          Text.isAsciiHexdigit d = true) = true := by
      decide
    exact of_decide_eq_true (List.all_eq_true.mp hAll c
      (hFingerprint.digits c hc))
  rw [fingerprintOf_eq_some_iff,
    normaliseFingerprint_eq_map (fun c hc => (hEach c hc).1)]
  refine ⟨?_, hFingerprint.length, ?_⟩
  · exact ((List.map_congr_left (fun c hc =>
      (hEach c hc).2.1)).trans (List.map_id _)).symm
  · rw [List.all_eq_true]
    exact fun c hc => (hEach c hc).2.2

theorem IsFingerprint.normalised
    (hFingerprint : IsFingerprint f) :
    normaliseFingerprint f = f :=
  (fingerprintOf_eq_some_iff.mp
    hFingerprint.fingerprintOf_self).1.symm

/- What begins a fingerprint has its digits. -/
theorem hex_of_head
    (hFingerprint : IsFingerprint f)
    (hLength : n ≠ [])
    (hBegins : n <+: f) :
    hex n = true := by
  unfold hex
  rw [decide_eq_true hLength, Bool.true_and, List.all_eq_true]
  intro c hc
  exact List.all_eq_true.mp (fingerprintOf_eq_some_iff.mp
    hFingerprint.fingerprintOf_self).2.2 c (hBegins.subset hc)

theorem eq_of_whole_head
    (hFingerprint : IsFingerprint f)
    (hLength : n.length = 64)
    (hBegins : n <+: f) :
    n = f :=
  hBegins.eq_of_length (hLength.trans hFingerprint.length.symm)

/- A whole text is found if and only if it is there. -/
theorem found_whole
    (hList : Fingerprints l)
    (hLength : n.length = 64) :
    Found n l f ↔ n = f ∧ f ∈ l := by
  constructor
  · rintro ⟨hMem, hOnly⟩
    exact ⟨eq_of_whole_head (hList.each f hMem) hLength
      ((hOnly f hMem).mpr rfl), hMem⟩
  · rintro ⟨rfl, hMem⟩
    refine ⟨hMem, fun g hg => ⟨fun hBegins => ?_, ?_⟩⟩
    · exact (eq_of_whole_head (hList.each g hg) hLength
        hBegins).symm
    · rintro rfl
      exact List.prefix_rfl

theorem Found.length_le
    (hList : Fingerprints l)
    (hFound : Found n l f) :
    n.length ≤ 64 := by
  rw [← (hList.each f hFound.1).length]
  exact ((hFound.2 f hFound.1).mpr rfl).length_le

/- Only what there is of a list that a text begins. -/
theorem filter_eq_singleton_iff
    (hNodup : l.Nodup) :
    l.filter (fun g => n.isPrefixOf g) = [f] ↔
      Found n l f := by
  rw [← List.perm_singleton,
    List.perm_ext_iff_of_nodup (hNodup.filter _)
      (List.nodup_singleton f)]
  simp only [List.mem_filter, List.isPrefixOf_iff_prefix,
    List.mem_singleton]
  constructor
  · intro hOnly
    have hSelf := (hOnly f).mpr rfl
    refine ⟨hSelf.1, fun g hg => ⟨fun hBegins => ?_, ?_⟩⟩
    · exact (hOnly g).mp ⟨hg, hBegins⟩
    · rintro rfl
      exact hSelf.2
  · rintro ⟨hMem, hOnly⟩ g
    constructor
    · rintro ⟨hg, hBegins⟩
      exact (hOnly g hg).mp hBegins
    · rintro rfl
      exact ⟨hMem, (hOnly g hMem).mpr rfl⟩

/- The same of a list of what has a fingerprint. -/
theorem filter_eq_singleton_of_map
    {α : Type}
    {key : α → Text}
    {items : List α}
    (hNodup : (items.map key).Nodup) :
    (∃ a, items.filter (fun a => n.isPrefixOf (key a)) = [a] ∧
        key a = f) ↔
      Found n (items.map key) f := by
  rw [← filter_eq_singleton_iff hNodup, List.filter_map,
    List.map_eq_singleton_iff]
  rfl

/- The rule is that what is found is begun with eight digits. -/
theorem rule_iff
    (hList : Fingerprints l)
    {argument : Text} :
    Rule argument l f ↔
      Found (normaliseFingerprint argument) l f ∧
        8 ≤ (normaliseFingerprint argument).length := by
  constructor
  · rintro ⟨hMem, rfl | ⟨-, hLength, hOnly⟩⟩
    · have hLength := (hList.each _ hMem).length
      refine ⟨(found_whole hList hLength).mpr ⟨rfl, hMem⟩, ?_⟩
      rw [hLength]
      decide
    · exact ⟨⟨hMem, hOnly⟩, hLength⟩
  · rintro ⟨⟨hMem, hOnly⟩, hLength⟩
    refine ⟨hMem, Or.inr ⟨?_, hLength, hOnly⟩⟩
    apply hex_of_head (hList.each f hMem) _
      ((hOnly f hMem).mpr rfl)
    rintro hNil
    rw [hNil] at hLength
    cases hLength

/- The first resolver keeps to the rule. -/
theorem fingerprintAmong_iff
    (hList : Fingerprints l)
    {argument : Text} :
    (fingerprintAmong argument l = .ok f ∧ f ∈ l) ↔
      Rule argument l f := by
  rw [rule_iff hList]
  unfold fingerprintAmong
  dsimp only
  split_ifs with hBad hWhole hShort
  · refine iff_of_false (fun hOk => by cases hOk.1) ?_
    rintro ⟨hFound, hLength⟩
    rcases hBad with hHex | hLong
    · rw [hex_of_head (hList.each f hFound.1) (by
        intro hNil
        rw [hNil] at hLength
        cases hLength) ((hFound.2 f hFound.1).mpr rfl)] at hHex
      cases hHex
    · exact absurd (hFound.length_le hList) (by omega)
  · rw [found_whole hList hWhole, Except.ok.injEq, hWhole]
    exact ⟨fun h => ⟨h, by decide⟩, fun h => h.1⟩
  · exact iff_of_false (fun hOk => by cases hOk.1)
      (fun hRule => absurd hRule.2 (by omega))
  · have hSingle := filter_eq_singleton_iff (n :=
      normaliseFingerprint argument) (f := f) hList.nodup
    have hEnough : 8 ≤
        (normaliseFingerprint argument).length := by
      omega
    rw [← hSingle]
    split
    · rename_i g hFilter
      rw [hFilter, List.cons.injEq, Except.ok.injEq]
      constructor
      · rintro ⟨rfl, -⟩
        exact ⟨⟨rfl, rfl⟩, hEnough⟩
      · rintro ⟨⟨rfl, -⟩, -⟩
        exact ⟨rfl, (filter_eq_singleton_iff
          hList.nodup).mp hFilter |>.1⟩
    · rename_i hFilter
      rw [hFilter]
      exact iff_of_false (fun hOk => by cases hOk.1)
        (fun hRule => by cases hRule.1)
    · rename_i hOther _
      refine iff_of_false (fun hOk => by cases hOk.1) ?_
      rintro ⟨hFilter, -⟩
      exact hOther f hFilter

/- The second, but for the length. -/
theorem resolveIn_iff
    {entries : List Distrusted}
    (hList : Fingerprints
      (entries.map Distrusted.fingerprint)) :
    (resolveIn n entries = .ok f ∧
        f ∈ entries.map Distrusted.fingerprint) ↔
      Found n (entries.map Distrusted.fingerprint) f := by
  unfold resolveIn
  split_ifs with hWhole
  · rw [found_whole hList hWhole, Except.ok.injEq]
  · rw [← filter_eq_singleton_of_map hList.nodup]
    split
    · rename_i d hFilter
      rw [hFilter, Except.ok.injEq]
      constructor
      · rintro ⟨rfl, -⟩
        exact ⟨d, rfl, rfl⟩
      · rintro ⟨a, hSame, rfl⟩
        rw [List.cons.injEq] at hSame
        rcases hSame with ⟨rfl, -⟩
        refine ⟨rfl, List.mem_map_of_mem ?_⟩
        have hMem : d ∈ entries.filter (fun d =>
            n.isPrefixOf d.fingerprint) := by
          rw [hFilter]
          exact List.mem_singleton_self d
        exact (List.mem_filter.mp hMem).1
    · rename_i hFilter
      rw [hFilter]
      refine iff_of_false (fun hOk => by cases hOk.1) ?_
      rintro ⟨a, hSame, -⟩
      cases hSame
    · rename_i hOther _
      refine iff_of_false (fun hOk => by cases hOk.1) ?_
      rintro ⟨a, hFilter, -⟩
      exact hOther a hFilter

/- Whatever is resolved is as it was given, or listed. -/
theorem mem_of_resolveIn
    {entries : List Distrusted}
    (hResolved : resolveIn n entries = .ok f) :
    f = n ∨ f ∈ entries.map Distrusted.fingerprint := by
  unfold resolveIn at hResolved
  split_ifs at hResolved with hWhole
  · exact Or.inl (Except.ok.inj hResolved).symm
  · split at hResolved
    · rename_i d hFilter
      have hMem : d ∈ entries.filter (fun d =>
          n.isPrefixOf d.fingerprint) := by
        rw [hFilter]
        exact List.mem_singleton_self d
      rw [← Except.ok.inj hResolved]
      exact Or.inr (List.mem_map_of_mem
        (List.mem_filter.mp hMem).1)
    · cases hResolved
    · cases hResolved

/- And the third. -/
theorem showMatches_iff
    {argument : Text}
    {roots : List Root}
    (hList : Fingerprints (roots.map Root.fingerprint)) :
    (∃ r, Command.showMatches argument roots = [r] ∧
        r.fingerprint = f) ↔
      Found (normaliseFingerprint argument)
        (roots.map Root.fingerprint) f :=
  filter_eq_singleton_of_map hList.nodup

end ClientCore

end Trustd

------------------------------------------------------------
-- What Is Taken Back
------------------------------------------------------------

namespace Trustd

namespace ClientCore

open General Registry Store Wire

variable {naming : Naming}
variable {missing : Missing}
variable {hive : Key}
variable {l : List Text}
variable {f g : Text}

/- The resolution is of what is listed. -/
theorem resolveDistrusted_quiet (normalised : Text) :
    Does Quiet hive
      (resolveDistrusted naming missing normalised)
      (fun f s => s = hive ∧
        resolveIn normalised
          (listing (distrustKeyOf naming hive)) = .ok f)
      (fun e s => s = hive ∧
        resolveIn normalised
          (listing (distrustKeyOf naming hive)) = .error e) := by
  rw [resolveDistrusted_eq]
  unfold resolveIn
  split_ifs with hWhole
  · exact Ensures.pure _ (fun s hState => ⟨hState, rfl⟩)
  · refine Does.bind (distrusted_quiet.weaken (fun _ h => h)
      (fun _ _ h => h) (fun _ _ h => h.elim)) ?_
    rintro entries rfl
    cases (listing (distrustKeyOf naming hive)).filter
        (fun d => normalised.isPrefixOf d.fingerprint) with
    | nil =>
        exact Ensures.throw _ (fun s hState => ⟨hState, rfl⟩)
    | cons d rest =>
        cases rest with
        | nil =>
            exact Ensures.pure _ (fun s hState =>
              ⟨hState, rfl⟩)
        | cons d' rest =>
            exact Ensures.throw _ (fun s hState =>
              ⟨hState, rfl⟩)

/- The value of `Distrust` under a name. -/
def distrustValue
    (naming : Naming)
    (hive : Key)
    (name : Text) :
    Option RegValue :=
  (distrustKeyOf naming hive).bind (fun k =>
    k.value naming name)

/-
  Where nothing is refused, what is resolved is taken back if
  a value is under it, and nothing else is.
-/
theorem restore_quiet (argument : Text) :
    Does Quiet hive (restore naming missing argument)
      (fun f s => s = withoutDistrust naming f hive ∧
        resolveIn (normaliseFingerprint argument)
          (listing (distrustKeyOf naming hive)) = .ok f)
      (fun _ s => s = hive ∧ ∀ f,
        resolveIn (normaliseFingerprint argument)
          (listing (distrustKeyOf naming hive)) = .ok f →
        distrustValue naming hive f = none) := by
  have hNever : ∀ e, ¬ Quiet (some e) := fun e hQuiet => by
    cases hQuiet
  rw [restore_eq]
  refine Does.bind (P := fun f =>
    resolveIn (normaliseFingerprint argument)
      (listing (distrustKeyOf naming hive)) = .ok f)
    ((resolveDistrusted_quiet _).weaken (fun _ h => h)
      (fun _ _ h => h) (fun _ _ h => ⟨h.1, ?_⟩))
    (fun f hResolved => ?_)
  · intro f hResolved
    rw [h.2] at hResolved
    cases hResolved
  have hOnly : ∀ s, s = hive ∧ distrustValue naming hive f =
        none →
      s = hive ∧ ∀ g, resolveIn (normaliseFingerprint argument)
          (listing (distrustKeyOf naming hive)) = .ok g →
        distrustValue naming hive g = none := by
    rintro s ⟨hState, hNone⟩
    refine ⟨hState, fun g hAlso => ?_⟩
    rw [hResolved] at hAlso
    rw [← Except.ok.inj hAlso]
    exact hNone
  refine Does.bind (P := fun key =>
    key = components distrustPath)
    (Ensures.mapError ((openKey_does [] distrustPath).weaken
      (fun _ h => h) (fun _ _ h => ⟨h.1, h.2.1⟩)
      (fun e s h => hOnly s ⟨h.1, ?_⟩)))
    (fun key hKey => ?_)
  · rcases h.2 with hRefused | ⟨-, hNone⟩
    · exact absurd hRefused (hNever e)
    · have hNone : distrustKeyOf naming hive = none := hNone
      rw [distrustValue, hNone]
      rfl
  subst hKey
  refine Ensures.bind (Ensures.attempt
    (deleteValue_does (components distrustPath) f))
    (fun deleted => ?_)
  cases deleted with
  | ok _ =>
      exact Ensures.pure f (fun s hDeleted =>
        ⟨hDeleted.1, hResolved⟩)
  | error e =>
      have hUntaken : ∀ s, (s = hive ∧ (Quiet (some e) ∨
          e = missing ∧ (hive.follow naming
            (components distrustPath)).bind (fun k =>
              k.value naming f) = none)) →
          s = hive ∧ ∀ g,
            resolveIn (normaliseFingerprint argument)
              (listing (distrustKeyOf naming hive)) = .ok g →
            distrustValue naming hive g = none := by
        rintro s ⟨hState, hWhy⟩
        rcases hWhy with hRefused | ⟨-, hNone⟩
        · exact absurd hRefused (hNever e)
        · exact hOnly s ⟨hState, hNone⟩
      dsimp only
      split_ifs with hKind
      · exact Ensures.throw _ hUntaken
      · exact Ensures.throw _ hUntaken

/- Normalised names are one if and only if they are equal. -/
theorem fold_normalised
    (naming : Naming)
    (hLeft : normaliseFingerprint f = f)
    (hRight : normaliseFingerprint g = g) :
    naming.fold (Text.utf8 f) = naming.fold (Text.utf8 g) ↔
      f = g := by
  have hEach : ∀ {t : Text}, normaliseFingerprint t = t →
      Ascii t ∧ t.map Char.toLower = t := by
    intro t hNormal
    have hc : ∀ c ∈ t, isAsciiAlphanumeric c = true ∧
        c.toLower = c := by
      intro c hc
      rw [← hNormal] at hc
      exact of_mem_normaliseFingerprint hc
    exact ⟨fun c h => isAsciiAlphanumeric_ascii (hc c h).1,
      (List.map_congr_left (fun c h => (hc c h).2)).trans
        (List.map_id t)⟩
  constructor
  · intro hSame
    have hLower := eq_of_beq (naming.ascii f g
      (hEach hLeft).1 (hEach hRight).1 hSame)
    rwa [(hEach hLeft).2, (hEach hRight).2] at hLower
  · rintro rfl
    rfl

/- The names in `Distrust`. -/
def distrustNames
    (naming : Naming)
    (hive : Key) :
    List Bytes :=
  ((distrustKeyOf naming hive).map (fun k =>
    k.values.map Prod.fst)).getD []

/- A fingerprint has a value if and only if it is a name. -/
theorem distrustValue_eq_none_iff
    (hList : Fingerprints l)
    (hNames : distrustNames naming hive = l.map Text.utf8)
    (hNormal : normaliseFingerprint f = f) :
    distrustValue naming hive f = none ↔ f ∉ l := by
  have hInjective : Function.Injective Text.utf8 :=
    fun _ _ hSame => Text.utf8_injective hSame
  have hFold : ∀ v ∈ l.map Text.utf8,
      naming.fold v ≠ naming.fold (Text.utf8 f) ↔
        v ≠ Text.utf8 f := by
    intro v hv
    rcases List.mem_map.mp hv with ⟨t, ht, rfl⟩
    rw [Ne, fold_normalised naming
      (hList.each t ht).normalised hNormal, Ne,
      hInjective.eq_iff]
  have hMem : f ∉ l ↔ Text.utf8 f ∉ l.map Text.utf8 := by
    rw [List.mem_map_of_injective hInjective]
  rw [hMem, distrustValue]
  cases hKey : distrustKeyOf naming hive with
  | none =>
      rw [distrustNames, hKey, Option.map_none,
        Option.getD_none] at hNames
      rw [← hNames]
      simp
  | some key =>
      rw [distrustNames, hKey, Option.map_some,
        Option.getD_some] at hNames
      rw [Option.bind_some, Key.value, entry_eq_none_iff,
        ← hNames]
      constructor
      · intro hAll hIn
        rcases List.mem_map.mp hIn with ⟨v, hv, hName⟩
        exact hAll v hv (by rw [hName])
      · intro hNot v hv hSame
        have hIn := List.mem_map_of_mem (f := Prod.fst) hv
        refine (hFold v.1 (hNames ▸ hIn)).mpr ?_ hSame
        rintro hName
        exact hNot (hName ▸ hIn)

/- What is left of the values without one of them. -/
theorem distrustValue_withoutDistrust
    (hKey : ∃ key, distrustKeyOf naming hive = some key)
    (hLeft : normaliseFingerprint f = f)
    (hRight : normaliseFingerprint g = g) :
    distrustValue naming (withoutDistrust naming g hive) f =
        none ↔
      g = f ∨ distrustValue naming hive f = none := by
  rcases hKey with ⟨key, hKey⟩
  have hFollow : hive.follow naming (components distrustPath) =
      some key := hKey
  rw [distrustValue, distrustValue, hKey, distrustKeyOf,
    withoutDistrust, Key.follow_edit, hFollow,
    Option.getD_some, Option.bind_some, Option.bind_some,
    Key.value, Key.values_deleteValue, entry_remove]
  have hFold := fold_normalised naming hRight hLeft
  split_ifs with hSame
  · exact iff_of_true rfl (Or.inl (hFold.mp hSame))
  · have hOther : g ≠ f := fun hEq => hSame (hFold.mpr hEq)
    rw [or_iff_right hOther]
    exact Iff.rfl

/- What is listed of fingerprints by their names. -/
theorem listing_perm
    (hList : Fingerprints l)
    (hNames : distrustNames naming hive = l.map Text.utf8) :
    ((listing (distrustKeyOf naming hive)).map
      Distrusted.fingerprint).Perm l := by
  rw [distrustNames] at hNames
  cases hKey : distrustKeyOf naming hive with
  | none =>
      rw [hKey, Option.map_none, Option.getD_none,
        List.nil_eq, List.map_eq_nil_iff] at hNames
      rw [hNames]
      exact List.Perm.refl _
  | some key =>
      rw [hKey, Option.map_some, Option.getD_some] at hNames
      have hLegible : key.LegibleDistrust := by
        intro n hn
        rw [hNames] at hn
        rcases List.mem_map.mp hn with ⟨t, -, rfl⟩
        exact legible_utf8 t
      refine (listing_fingerprints_perm hLegible).trans ?_
      have hMap : key.values.map (fun v =>
            normaliseFingerprint (textOf v.1)) =
          (key.values.map Prod.fst).map (fun n =>
            normaliseFingerprint (textOf n)) := by
        rw [List.map_map]
        rfl
      rw [hMap, hNames, List.map_map]
      refine List.Perm.of_eq ((List.map_congr_left
        (fun t ht => ?_)).trans (List.map_id l))
      rw [Function.comp_apply, textOf_utf8]
      exact (hList.each t ht).normalised

theorem Fingerprints.perm
    {l' : List Text}
    (hList : Fingerprints l)
    (hPerm : l'.Perm l) :
    Fingerprints l' where
  nodup := hPerm.nodup_iff.mpr hList.nodup
  each f hf := hList.each f (hPerm.subset hf)

theorem found_perm
    {l' : List Text}
    {n : Text}
    (hPerm : l'.Perm l) :
    Found n l' f ↔ Found n l f := by
  unfold Found
  simp only [hPerm.mem_iff]

/- The distrusts that are lifted are those that are found. -/
theorem restore_lifts_iff
    {argument : Text}
    (hList : Fingerprints l)
    (hNames : distrustNames naming hive = l.map Text.utf8)
    (hMem : f ∈ l) :
    distrustValue naming (restore naming missing argument
        (Machine.start hive (fun _ => none))).2.state f =
          none ↔
      Found (normaliseFingerprint argument) l f := by
  have hPerm := listing_perm hList hNames
  have hResolve : ∀ g,
      (resolveIn (normaliseFingerprint argument)
          (listing (distrustKeyOf naming hive)) = .ok g ∧
        g ∈ l) ↔
        Found (normaliseFingerprint argument) l g := by
    intro g
    rw [← found_perm hPerm, ← resolveIn_iff
      (hList.perm hPerm), hPerm.mem_iff]
  have hNormal := (hList.each f hMem).normalised
  have hHeld : distrustValue naming hive f ≠ none :=
    fun hNone => (distrustValue_eq_none_iff hList hNames
      hNormal).mp hNone hMem
  have hDone := Does.outcome
    (@restore_quiet naming missing hive argument)
    (fun _ => none) (fun _ => rfl)
  have hOpened := Does.outcome
    (@restore_does naming missing hive Quiet argument)
    (fun _ => none) (fun _ => rfl)
  cases hResult : (restore naming missing argument
      (Machine.start hive (fun _ => none))).1 with
  | error e =>
      rw [hResult] at hDone
      rw [hDone.1, ← hResolve f]
      refine iff_of_false hHeld ?_
      rintro ⟨hOk, -⟩
      exact hHeld (hDone.2 f hOk)
  | ok g =>
      rw [hResult] at hDone hOpened
      have hOther : normaliseFingerprint g = g := by
        rcases mem_of_resolveIn hDone.2 with rfl | hIn
        · exact normaliseFingerprint_idem argument
        · exact (hList.each g (hPerm.subset hIn)).normalised
      rw [hDone.1, distrustValue_withoutDistrust hOpened.2.1
        hNormal hOther, ← hResolve f, hDone.2]
      simp [hHeld, hMem]

end ClientCore

end Trustd

------------------------------------------------------------
-- One Rule
------------------------------------------------------------

namespace Trustd

namespace ClientCore

open General Registry Store Wire Trustd.Command

/-
  Each resolver selects by the rule, whatever the registry
  and the store are that list the fingerprints. A distrust is
  lifted if and only if the rule selects it.
-/
structure Uniform
    (argument : Text)
    (l : List Text) :
    Prop where
  among : ∀ f,
    (fingerprintAmong argument l = .ok f ∧ f ∈ l) ↔
      Rule argument l f
  resolved : ∀ (naming : Naming) (missing : Missing)
      (hive : Key),
    ((listing (distrustKeyOf naming hive)).map
        Distrusted.fingerprint).Perm l →
      ∀ f, ((resolveDistrusted naming missing
          (normaliseFingerprint argument)
          (Machine.start hive (fun _ => none))).1 = .ok f ∧
            f ∈ l) ↔
        Rule argument l f
  lifted : ∀ (naming : Naming) (missing : Missing)
      (hive : Key),
    distrustNames naming hive = l.map Text.utf8 →
      ∀ f ∈ l,
        distrustValue naming (restore naming missing argument
          (Machine.start hive (fun _ => none))).2.state f =
            none ↔
          Rule argument l f
  matched : ∀ roots : List Root,
    roots.map Root.fingerprint = l →
      ∀ f, (∃ r, showMatches argument roots = [r] ∧
          r.fingerprint = f) ↔
        Rule argument l f
  shown : ∀ (roots : List Root) (pemOnly : Bool),
    roots.map Root.fingerprint = l →
      ((showRoots argument pemOnly (.ok roots)).code = 0 ↔
        ∃ f, Rule argument l f)

variable {argument : Text}
variable {l : List Text}

theorem showRoots_code_iff
    {roots : List Root}
    {pemOnly : Bool} :
    (showRoots argument pemOnly (.ok roots)).code = 0 ↔
      ∃ r, showMatches argument roots = [r] := by
  unfold showRoots
  dsimp only
  generalize showMatches argument roots = found
  cases found with
  | nil =>
      refine iff_of_false ?_ (by simp)
      intro hCode
      cases hCode
  | cons r rest =>
      cases rest with
      | nil => exact iff_of_true rfl ⟨r, rfl⟩
      | cons r' rest =>
          refine iff_of_false ?_ (by simp)
          intro hCode
          cases hCode

/- Where the fingerprints are what `restore` resolves among. -/
theorem resolveDistrusted_iff
    {naming : Naming}
    {missing : Missing}
    {hive : Key}
    (hList : Fingerprints l)
    (hPerm : ((listing (distrustKeyOf naming hive)).map
      Distrusted.fingerprint).Perm l)
    {n f : Text} :
    ((resolveDistrusted naming missing n
        (Machine.start hive (fun _ => none))).1 = .ok f ∧
          f ∈ l) ↔
      Found n l f := by
  rw [← found_perm hPerm, ← resolveIn_iff (hList.perm hPerm),
    hPerm.mem_iff]
  have hDone := Does.outcome
    (@resolveDistrusted_quiet naming missing hive n)
    (fun _ => none) (fun _ => rfl)
  cases hResult : (resolveDistrusted naming missing n
      (Machine.start hive (fun _ => none))).1 with
  | ok g =>
      rw [hResult] at hDone
      rw [hDone.2]
  | error e =>
      rw [hResult] at hDone
      rw [hDone.2]

/-
  The resolvers agree with the rule if and only if the
  argument is not one of fewer than eight digits, or of none,
  that begins exactly one of the fingerprints.
-/
theorem uniform_iff
    (argument : Text)
    (hList : Fingerprints l) :
    Uniform argument l ↔
      ¬ ((normaliseFingerprint argument).length < 8 ∧
        ∃ f ∈ l, ∀ g ∈ l,
          normaliseFingerprint argument <+: g ↔ g = f) := by
  constructor
  · rintro hUniform ⟨hShort, f, hMem, hOnly⟩
    have hRoots : (l.map (fun t => ({ fingerprint := t } :
        Root))).map Root.fingerprint = l := by
      rw [List.map_map]
      exact List.map_id l
    have hFound : Found (normaliseFingerprint argument)
        ((l.map (fun t => ({ fingerprint := t } :
          Root))).map Root.fingerprint) f := by
      rw [hRoots]
      exact ⟨hMem, hOnly⟩
    have hStored : Fingerprints ((l.map (fun t =>
        ({ fingerprint := t } : Root))).map
          Root.fingerprint) := by
      rw [hRoots]
      exact hList
    have hRule := (hUniform.matched _ hRoots f).mp
      ((showMatches_iff hStored).mpr hFound)
    exact absurd ((rule_iff hList).mp hRule).2 (by omega)
  · intro hLong
    have hRule : ∀ f,
        Found (normaliseFingerprint argument) l f ↔
          Rule argument l f := by
      intro f
      rw [rule_iff hList]
      refine ⟨fun hFound => ⟨hFound, ?_⟩, fun h => h.1⟩
      by_contra hShort
      exact hLong ⟨by omega, f, hFound⟩
    constructor
    · exact fun f => fingerprintAmong_iff hList
    · intro naming missing hive hPerm f
      rw [← hRule, resolveDistrusted_iff hList hPerm]
    · intro naming missing hive hNames f hMem
      rw [← hRule, restore_lifts_iff hList hNames hMem]
    · rintro roots rfl f
      rw [← hRule, showMatches_iff hList]
    · rintro roots pemOnly rfl
      rw [showRoots_code_iff]
      simp only [← hRule, ← showMatches_iff hList]
      constructor
      · rintro ⟨r, hMatch⟩
        exact ⟨r.fingerprint, r, hMatch, rfl⟩
      · rintro ⟨f, r, hMatch, -⟩
        exact ⟨r, hMatch⟩

theorem fingerprints_lettersOnly :
    Fingerprints [lettersOnly] := by
  constructor
  · exact List.nodup_singleton _
  · intro f hf
    rw [List.mem_singleton.mp hf]
    refine ⟨List.length_replicate, fun c hc => ?_⟩
    rw [List.eq_of_mem_replicate hc]
    decide

/- A fingerprint with seven digits of it, and other ones. -/
def lettersAlike : Text :=
  List.replicate 7 'a' ++ List.replicate 57 'b'

/- Eight digits select one of the two, in every resolver. -/
theorem uniform_eight :
    Uniform (List.replicate 8 'a')
        [lettersOnly, lettersAlike] ∧
      Rule (List.replicate 8 'a') [lettersOnly, lettersAlike]
        lettersOnly := by
  have hBoth : Fingerprints [lettersOnly, lettersAlike] := by
    constructor
    · decide +kernel
    · intro f hf
      rcases List.mem_cons.mp hf with rfl | hf
      · exact fingerprints_lettersOnly.2 _ List.mem_cons_self
      · rw [List.mem_singleton.mp hf]
        refine ⟨by decide, fun c hc => ?_⟩
        rcases List.mem_append.mp hc with hSeven | hOthers
        · rw [List.eq_of_mem_replicate hSeven]
          decide
        · rw [List.eq_of_mem_replicate hOthers]
          decide
  refine ⟨(uniform_iff (List.replicate 8 'a') hBoth).mpr
    (fun hShort => absurd hShort.1 (by decide)), ?_⟩
  unfold Rule
  decide

/- Punctuation alone lifts the only distrust there is. -/
theorem restore_punctuation :
    ¬ ∀ (argument : Text) (l : List Text), Fingerprints l →
      Uniform argument l := by
  intro hAll
  have hList := fingerprints_lettersOnly
  have hNames : distrustNames exactNaming
      (distrustHive [lettersOnly]) =
        [lettersOnly].map Text.utf8 := by
    rw [distrustNames, distrustKeyOf_eq, trust_distrustHive,
      Option.bind_some, distrustOf_distrustHive]
    rfl
  have hLifted : distrustValue exactNaming
      (restore exactNaming notThere [':']
        (Machine.start (distrustHive [lettersOnly])
          (fun _ => none))).2.state lettersOnly = none :=
    (restore_lifts_iff hList hNames List.mem_cons_self).mpr
      ⟨List.mem_cons_self, fun g hg => iff_of_true
        List.nil_prefix (List.mem_singleton.mp hg)⟩
  have hRule := ((hAll [':'] _ hList).lifted exactNaming
    notThere _ hNames _ List.mem_cons_self).mp hLifted
  exact absurd ((rule_iff hList).mp hRule).2 (by decide)

end ClientCore

end Trustd
