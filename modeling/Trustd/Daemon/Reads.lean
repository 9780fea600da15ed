import Trustd.Daemon.Fingerprints

/-
  What is loaded, whatever reads the registry and in whatever
  order it lists names.

  Key definitions include:
    * `Trustd.Registry.ReadsEntry`
    * `Trustd.Registry.Loads`
    * `Trustd.Registry.SameContents`

  Key theorems include:
    * `Trustd.Registry.loadAddition_iff`
    * `Trustd.Registry.loadFrom_iff`
    * `Trustd.Registry.Loads.congr`
    * `Trustd.Registry.loadFrom_exact`
-/

------------------------------------------------------------
-- Entries
------------------------------------------------------------

namespace Trustd

namespace Registry

open General Store

/- The certificate that a value is, if it is one. -/
def certificateOf (value : Option RegValue) : Option Bytes :=
  (value.filter (fun v =>
    v.ty = .binary ∧ v.data ≠ [])).map RegValue.data

/- The texts that a value of purposes is made of. -/
def purposePartsOf (value : Option RegValue) : List Bytes :=
  (value.map partsOf).getD []

section

variable {κ : Type}
variable [Reader (Except IoError) κ]

/-
  What the entry listed under a name is: nothing where it has
  no certificate, and else the addition of its values. A read
  that fails, and a text that is none, leave it undefined.
-/
inductive ReadsEntry (add : κ) (name : Bytes) :
    Option Addition → Prop where
  | incomplete
      {entry : κ}
      {certificate : Option RegValue}
      (hName : Legible name)
      (hChild : (Reader.child add (textOf name) :
        Except IoError (Option κ)) = .ok (some entry))
      (hValue : (Reader.value entry certificateValue :
        Except IoError _) = .ok certificate)
      (hNone : certificateOf certificate = none) :
      ReadsEntry add name none
  | complete
      {entry : κ}
      {certificate purposes : Option RegValue}
      {der : Bytes}
      (hName : Legible name)
      (hChild : (Reader.child add (textOf name) :
        Except IoError (Option κ)) = .ok (some entry))
      (hValue : (Reader.value entry certificateValue :
        Except IoError _) = .ok certificate)
      (hSome : certificateOf certificate = some der)
      (hPurposes : (Reader.value entry purposesValue :
        Except IoError _) = .ok purposes)
      (hParts : ∀ p ∈ purposePartsOf purposes, Legible p) :
      ReadsEntry add name (some {
        name := textOf name
        der
        purposes := (purposePartsOf purposes).map textOf })

/- Purposes that are read are those of the value that is. -/
theorem strings_iff
    {entry : κ}
    {ts : List Text} :
    (∃ r, (strings entry purposesValue :
        Except IoError _) = .ok r ∧ ts = r.getD []) ↔
      ∃ value, (Reader.value entry purposesValue :
          Except IoError _) = .ok value ∧
        (∀ p ∈ purposePartsOf value, Legible p) ∧
        ts = (purposePartsOf value).map textOf := by
  unfold strings
  simp only [bind_eq_ok_iff]
  constructor
  · rintro ⟨r, ⟨value, hValue, hRead⟩, rfl⟩
    refine ⟨value, hValue, ?_⟩
    cases value with
    | none =>
        rw [pure_eq_ok_iff] at hRead
        subst hRead
        exact ⟨by simp [purposePartsOf], rfl⟩
    | some v => exact multi_getD_eq_ok_iff.mp ⟨r, hRead, rfl⟩
  · rintro ⟨value, hValue, hParts, hTexts⟩
    cases value with
    | none => exact ⟨none, ⟨none, hValue, rfl⟩, hTexts⟩
    | some v =>
        rcases multi_getD_eq_ok_iff.mpr ⟨hParts, hTexts⟩ with
          ⟨r, hRead, hGet⟩
        exact ⟨r, ⟨some v, hValue, hRead⟩, hGet⟩

theorem certificateOf_some_iff
    {v : RegValue}
    {der : Bytes} :
    certificateOf (some v) = some der ↔
      ¬ (v.ty ≠ .binary ∨ v.data = []) ∧ der = v.data := by
  unfold certificateOf
  rw [Option.filter_some]
  by_cases hComplete : v.ty = .binary ∧ v.data ≠ []
  · rw [decide_eq_true hComplete, if_pos rfl,
      Option.map_some, Option.some.injEq]
    simp [hComplete.1, hComplete.2, eq_comm]
  · rw [decide_eq_false hComplete, if_neg Bool.false_ne_true]
    have hNot : v.ty ≠ .binary ∨ v.data = [] := by
      rw [not_and_or, not_not] at hComplete
      exact hComplete
    simp [hNot]

/- The loop's turn for a name that is listed. -/
theorem loadAddition_iff
    {add : κ}
    {name : Bytes}
    {addition : Option Addition} :
    (loadAddition add name : Except IoError _) =
        .ok addition ↔
      ReadsEntry add name addition := by
  unfold loadAddition
  simp only [bind_eq_ok_iff, text_eq_ok_iff]
  constructor
  · rintro ⟨_, ⟨hName, rfl⟩, found, hChild, hLoad⟩
    cases found with
    | none => cases hLoad
    | some entry =>
        rcases bind_eq_ok_iff.mp hLoad with
          ⟨certificate, hValue, hLoad⟩
        cases certificate with
        | none =>
            rw [pure_eq_ok_iff] at hLoad
            subst hLoad
            exact .incomplete hName hChild hValue rfl
        | some v =>
            dsimp only at hLoad
            split_ifs at hLoad with hSkip
            · rw [pure_eq_ok_iff] at hLoad
              subst hLoad
              refine .incomplete hName hChild hValue ?_
              rw [Option.eq_none_iff_forall_ne_some]
              intro der hSome
              exact (certificateOf_some_iff.mp hSome).1 hSkip
            · rcases bind_eq_ok_iff.mp hLoad with
                ⟨r, hStrings, hPure⟩
              rw [pure_eq_ok_iff] at hPure
              subst hPure
              rcases strings_iff.mp ⟨r, hStrings, rfl⟩ with
                ⟨value, hPurposes, hParts, hTexts⟩
              rw [hTexts]
              exact .complete hName hChild hValue
                (certificateOf_some_iff.mpr ⟨hSkip, rfl⟩)
                hPurposes hParts
  · intro hReads
    cases hReads with
    | @incomplete entry certificate hName hChild hValue
        hNone =>
        refine ⟨_, ⟨hName, rfl⟩, _, hChild, ?_⟩
        refine bind_eq_ok_iff.mpr ⟨_, hValue, ?_⟩
        cases certificate with
        | none => rfl
        | some v =>
            dsimp only
            split_ifs with hSkip
            · rfl
            · cases hNone.symm.trans
                (certificateOf_some_iff.mpr ⟨hSkip, rfl⟩)
    | @complete entry certificate purposes der hName hChild
        hValue hSome hPurposes hParts =>
        refine ⟨_, ⟨hName, rfl⟩, _, hChild, ?_⟩
        refine bind_eq_ok_iff.mpr ⟨_, hValue, ?_⟩
        cases certificate with
        | none => cases hSome
        | some v =>
            rcases certificateOf_some_iff.mp hSome with
              ⟨hSkip, rfl⟩
            rcases strings_iff.mpr
              ⟨purposes, hPurposes, hParts, rfl⟩ with
              ⟨r, hStrings, hTexts⟩
            dsimp only
            rw [if_neg hSkip]
            refine bind_eq_ok_iff.mpr ⟨r, hStrings, ?_⟩
            rw [hTexts]
            rfl

/- The loop over names that are listed. -/
theorem loadAdditions_iff
    {add : κ}
    {names : List Bytes}
    {additions : List Addition} :
    (loadAdditions add names : Except IoError _) =
        .ok additions ↔
      ∃ read : List (Option Addition),
        List.Forall₂ (ReadsEntry add) names read ∧
          additions = read.flatMap Option.toList := by
  induction names generalizing additions with
  | nil =>
      rw [loadAdditions, pure_eq_ok_iff]
      simp [eq_comm]
  | cons name names ih =>
      rw [loadAdditions]
      simp only [bind_eq_ok_iff, loadAddition_iff, ih,
        pure_eq_ok_iff]
      constructor
      · rintro ⟨a, hHead, _, ⟨read, hTail, rfl⟩, rfl⟩
        exact ⟨a :: read, .cons hHead hTail, rfl⟩
      · rintro ⟨_, hReads, rfl⟩
        cases hReads with
        | @cons _ a _ read hHead hTail =>
            exact ⟨a, hHead, _, ⟨read, hTail, rfl⟩, rfl⟩

end

end Registry

end Trustd

------------------------------------------------------------
-- Lists In Order
------------------------------------------------------------

namespace Trustd

namespace Registry

open General Store

theorem ascending_sortDistrust (l : List Text) :
    Text.Ascending id (sortDistrust l) := by
  have hOrdered : (sortDistrust l).Pairwise Text.le :=
    (List.pairwise_insertionSort Text.le l).sublist
      (List.destutter_sublist _ _)
  exact hOrdered.and (nodup_sortDistrust l)

section

variable {κ : Type}
variable [Reader (Except IoError) κ]
variable {add : κ}

theorem ReadsEntry.unique
    {name : Bytes}
    {a b : Option Addition}
    (hLeft : ReadsEntry add name a)
    (hRight : ReadsEntry add name b) :
    a = b := by
  rw [← loadAddition_iff] at hLeft hRight
  rw [hLeft] at hRight
  exact Except.ok.inj hRight

theorem ReadsEntry.legible
    {name : Bytes}
    {a : Option Addition}
    (hReads : ReadsEntry add name a) :
    Legible name := by
  cases hReads with
  | incomplete hName _ _ _ => exact hName
  | complete hName _ _ _ _ _ => exact hName

theorem ReadsEntry.name
    {name : Bytes}
    {a : Addition}
    (hReads : ReadsEntry add name (some a)) :
    a.name = textOf name := by
  cases hReads with
  | complete _ _ _ _ _ _ => rfl

/- What is read of some names is read of one of them. -/
theorem mem_read_iff
    {names : List Bytes}
    {read : List (Option Addition)}
    (hReads : List.Forall₂ (ReadsEntry add) names read)
    {a : Addition} :
    a ∈ read.flatMap Option.toList ↔
      ∃ n ∈ names, ReadsEntry add n (some a) := by
  induction hReads with
  | nil => simp
  | @cons name b names read hHead hTail ih =>
      rw [List.flatMap_cons, List.mem_append, ih,
        Option.mem_toList]
      constructor
      · rintro (hOwn | ⟨n, hn, hLater⟩)
        · rw [Option.mem_def.mp hOwn] at hHead
          exact ⟨name, List.mem_cons_self, hHead⟩
        · exact ⟨n, List.mem_cons_of_mem name hn, hLater⟩
      · rintro ⟨n, hn, hReads⟩
        rcases List.mem_cons.mp hn with rfl | hn
        · exact Or.inl (Option.mem_def.mpr
            (hHead.unique hReads))
        · exact Or.inr ⟨n, hn, hReads⟩

/- Each in the order of the names, none of them twice. -/
theorem names_read_sublist
    {names : List Bytes}
    {read : List (Option Addition)}
    (hReads : List.Forall₂ (ReadsEntry add) names read) :
    ((read.flatMap Option.toList).map Addition.name).Sublist
      (names.map textOf) := by
  induction hReads with
  | nil => exact List.Sublist.refl _
  | @cons name b names read hHead hTail ih =>
      rw [List.flatMap_cons, List.map_append, List.map_cons]
      cases b with
      | none => exact ih.cons _
      | some a =>
          rw [Option.toList_some, List.map_singleton,
            hHead.name]
          exact ih.cons_cons _

theorem legible_of_reads
    {names : List Bytes}
    {read : List (Option Addition)}
    (hReads : List.Forall₂ (ReadsEntry add) names read) :
    ∀ n ∈ names, Legible n := by
  induction hReads with
  | nil => simp
  | cons hHead _ ih =>
      rw [List.forall_mem_cons]
      exact ⟨hHead.legible, ih⟩

theorem nodup_map_textOf
    {names : List Bytes}
    (hNodup : names.Nodup)
    (hLegible : ∀ n ∈ names, Legible n) :
    (names.map textOf).Nodup := by
  apply List.Nodup.map_on _ hNodup
  intro a ha b hb hText
  rw [← (hLegible a ha).utf8_textOf, hText,
    (hLegible b hb).utf8_textOf]

theorem exists_read
    {names : List Bytes}
    (hReads : ∀ n ∈ names, ∃ a, ReadsEntry add n a) :
    ∃ read, List.Forall₂ (ReadsEntry add) names read := by
  induction names with
  | nil => exact ⟨[], .nil⟩
  | cons name names ih =>
      rw [List.forall_mem_cons] at hReads
      rcases hReads.1 with ⟨a, hHead⟩
      rcases ih hReads.2 with ⟨read, hTail⟩
      exact ⟨a :: read, .cons hHead hTail⟩

/-
  The additions that are loaded, in their order: one of each
  name listed whose entry is complete.
-/
theorem sortAdditions_iff
    {names : List Bytes}
    (hNodup : names.Nodup)
    {additions : List Addition} :
    (∃ l, (loadAdditions add names : Except IoError _) =
        .ok l ∧ additions = sortAdditions l) ↔
      (∀ n ∈ names, ∃ a, ReadsEntry add n a) ∧
        Text.Ascending Addition.name additions ∧
        ∀ a, a ∈ additions ↔
          ∃ n ∈ names, ReadsEntry add n (some a) := by
  have hSorted : ∀ read,
      List.Forall₂ (ReadsEntry add) names read →
      Text.Ascending Addition.name
        (sortAdditions (read.flatMap Option.toList)) ∧
      ∀ a, a ∈ sortAdditions (read.flatMap Option.toList) ↔
        ∃ n ∈ names, ReadsEntry add n (some a) := by
    intro read hReads
    have hNames := nodup_map_textOf hNodup
      (legible_of_reads hReads)
    constructor
    · exact Text.ascending_insertionSort Addition.name
        (hNames.sublist (names_read_sublist hReads))
    · intro a
      rw [← mem_read_iff hReads]
      exact List.mem_insertionSort _
  constructor
  · rintro ⟨l, hLoad, rfl⟩
    rcases loadAdditions_iff.mp hLoad with ⟨read, hReads, rfl⟩
    refine ⟨?_, hSorted read hReads⟩
    intro n hn
    rcases List.forall₂_iff_zip.mp hReads with ⟨hLength, hZip⟩
    rcases List.mem_iff_getElem.mp hn with ⟨i, hi, rfl⟩
    have hi' : i < read.length := hLength ▸ hi
    refine ⟨read[i], hZip ?_⟩
    rw [List.mem_iff_getElem]
    refine ⟨i, ?_, List.getElem_zip⟩
    rw [List.length_zip]
    exact Nat.lt_min.mpr ⟨hi, hi'⟩
  · rintro ⟨hAll, hAscending, hMem⟩
    rcases exists_read hAll with ⟨read, hReads⟩
    refine ⟨_, loadAdditions_iff.mpr ⟨read, hReads, rfl⟩, ?_⟩
    have hRead := hSorted read hReads
    apply Text.eq_of_ascending hAscending hRead.1
    intro a
    rw [hMem, hRead.2]

end

/- The distrusts that are loaded, in their order. -/
theorem sortDistrust_iff
    {names : List Bytes}
    {distrust : List Text} :
    (∃ l, (loadDistrust names : Except IoError _) = .ok l ∧
        distrust = sortDistrust l) ↔
      (∀ n ∈ names, Legible n) ∧
        Text.Ascending id distrust ∧
        ∀ f, f ∈ distrust ↔
          ∃ n ∈ names, fingerprintOf (textOf n) = some f := by
  simp only [loadDistrust_eq_ok_iff]
  constructor
  · rintro ⟨_, ⟨hLegible, rfl⟩, rfl⟩
    refine ⟨hLegible, ascending_sortDistrust _, fun f => ?_⟩
    rw [mem_sortDistrust, List.mem_filterMap]
  · rintro ⟨hLegible, hAscending, hMem⟩
    refine ⟨_, ⟨hLegible, rfl⟩, ?_⟩
    apply Text.eq_of_ascending hAscending
      (ascending_sortDistrust _)
    intro f
    rw [hMem, mem_sortDistrust, List.mem_filterMap]

end Registry

end Trustd

------------------------------------------------------------
-- The Configuration
------------------------------------------------------------

namespace Trustd

namespace Registry

open General Store

section

variable {κ : Type}
variable [Reader (Except IoError) κ]

/- The additions of a key that may be there. -/
inductive ReadsAdd : Option κ → List Addition → Prop where
  | absent :
      ReadsAdd none []
  | present
      {add : κ}
      {names : List Bytes}
      {additions : List Addition}
      (hNames : (Reader.names add : Except IoError _) =
        .ok names)
      (hAll : ∀ n ∈ names, ∃ a, ReadsEntry add n a)
      (hAscending :
        Text.Ascending Addition.name additions)
      (hMem : ∀ a, a ∈ additions ↔
        ∃ n ∈ names, ReadsEntry add n (some a)) :
      ReadsAdd (some add) additions

/- The distrusts of a key that may be there. -/
inductive ReadsDistrust : Option κ → List Text → Prop where
  | absent :
      ReadsDistrust none []
  | present
      {key : κ}
      {names : List Bytes}
      {distrust : List Text}
      (hNames : (Reader.values key : Except IoError _) =
        .ok names)
      (hAll : ∀ n ∈ names, Legible n)
      (hAscending : Text.Ascending id distrust)
      (hMem : ∀ f, f ∈ distrust ↔
        ∃ n ∈ names, fingerprintOf (textOf n) = some f) :
      ReadsDistrust (some key) distrust

/- The additions and distrusts below a key. -/
inductive ReadsCertificates :
    Option κ → List Addition → List Text → Prop where
  | absent :
      ReadsCertificates none [] []
  | present
      {certificates : κ}
      {add distrusted : Option κ}
      {additions : List Addition}
      {distrust : List Text}
      (hAdd : (Reader.child certificates addKey :
        Except IoError _) = .ok add)
      (hAdditions : ReadsAdd add additions)
      (hDistrusted : (Reader.child certificates distrustKey :
        Except IoError _) = .ok distrusted)
      (hDistrust : ReadsDistrust distrusted distrust) :
      ReadsCertificates (some certificates) additions distrust

/-
  What a configuration has of the root it is loaded from.
  Every read it names succeeds.
-/
inductive Loads (root : κ) : Config → Prop where
  | mk
      {compat security : Option RegValue}
      {certificates : Option κ}
      {additions : List Addition}
      {distrust : List Text}
      (hCompat : (Reader.value root compatValue :
        Except IoError _) = .ok compat)
      (hSecurity : (Reader.value root controlSecurityValue :
        Except IoError _) = .ok security)
      (hCertificates : (Reader.child root certificatesKey :
        Except IoError _) = .ok certificates)
      (hLists :
        ReadsCertificates certificates additions distrust) :
      Loads root {
        additions
        distrust
        compat := compatOf compat
        controlSecurity := controlSecurityOf security }

/- The names of the subkeys of a key are distinct. -/
def DistinctNames (κ : Type)
    [Reader (Except IoError) κ] : Prop :=
  ∀ (key : κ) (names : List Bytes),
    (Reader.names key : Except IoError _) = .ok names →
      names.Nodup

/- The step of the load over a key `Add`. -/
def readAdd : Option κ → Except IoError (List Addition)
  | none => pure []
  | some add => do
      let names : List Bytes ← Reader.names add
      loadAdditions add names

/- The step of the load over a key `Distrust`. -/
def readDistrust : Option κ → Except IoError (List Text)
  | none => pure []
  | some distrusted => do
      let values : List Bytes ← Reader.values distrusted
      loadDistrust values

theorem readAdd_iff
    (hDistinct : DistinctNames κ)
    {add : Option κ}
    {additions : List Addition} :
    (∃ l, readAdd add = .ok l ∧
        additions = sortAdditions l) ↔
      ReadsAdd add additions := by
  cases add with
  | none =>
      constructor
      · rintro ⟨l, hLoad, rfl⟩
        cases hLoad
        exact .absent
      · rintro ⟨⟩
        exact ⟨[], rfl, rfl⟩
  | some add =>
      unfold readAdd
      simp only [bind_eq_ok_iff]
      constructor
      · rintro ⟨l, ⟨names, hNames, hLoad⟩, hSort⟩
        rcases (sortAdditions_iff
          (hDistinct add names hNames)).mp
          ⟨l, hLoad, hSort⟩ with ⟨hAll, hAscending, hMem⟩
        exact .present hNames hAll hAscending hMem
      · intro hReads
        cases hReads with
        | @present _ names _ hNames hAll hAscending hMem =>
            rcases (sortAdditions_iff
              (hDistinct add names hNames)).mpr
              ⟨hAll, hAscending, hMem⟩ with ⟨l, hLoad, hSort⟩
            exact ⟨l, ⟨names, hNames, hLoad⟩, hSort⟩

theorem readDistrust_iff
    {distrusted : Option κ}
    {distrust : List Text} :
    (∃ l, readDistrust distrusted = .ok l ∧
        distrust = sortDistrust l) ↔
      ReadsDistrust distrusted distrust := by
  cases distrusted with
  | none =>
      constructor
      · rintro ⟨l, hLoad, rfl⟩
        cases hLoad
        exact .absent
      · rintro ⟨⟩
        exact ⟨[], rfl, rfl⟩
  | some key =>
      unfold readDistrust
      simp only [bind_eq_ok_iff]
      constructor
      · rintro ⟨l, ⟨names, hNames, hLoad⟩, hSort⟩
        rcases sortDistrust_iff.mp ⟨l, hLoad, hSort⟩ with
          ⟨hAll, hAscending, hMem⟩
        exact .present hNames hAll hAscending hMem
      · intro hReads
        cases hReads with
        | @present _ names _ hNames hAll hAscending hMem =>
            rcases sortDistrust_iff.mpr
              ⟨hAll, hAscending, hMem⟩ with ⟨l, hLoad, hSort⟩
            exact ⟨l, ⟨names, hNames, hLoad⟩, hSort⟩

/- The reads of a load, one after the other. -/
theorem loadFrom_some
    (root : κ) :
    (loadFrom (some root) : Except IoError Config) =
      Reader.value root compatValue >>= fun compat =>
      Reader.value root controlSecurityValue >>=
        fun security =>
      Reader.child root certificatesKey >>=
        fun (certificates : Option κ) =>
      match certificates with
      | none => pure {
          compat := compatOf compat
          controlSecurity := controlSecurityOf security }
      | some certificates =>
          Reader.child certificates addKey >>= fun add =>
          readAdd add >>= fun additions =>
          Reader.child certificates distrustKey >>=
            fun distrusted =>
          readDistrust distrusted >>= fun distrust =>
          pure {
            additions := sortAdditions additions
            distrust := sortDistrust distrust
            compat := compatOf compat
            controlSecurity :=
              controlSecurityOf security } := by
  unfold loadFrom
  refine bind_congr fun compat => ?_
  refine bind_congr fun security => ?_
  refine bind_congr fun certificates => ?_
  cases certificates with
  | none => rfl
  | some certificates =>
      refine bind_congr fun add => ?_
      cases add with
      | none =>
          refine bind_congr fun additions => ?_
          refine bind_congr fun distrusted => ?_
          cases distrusted with
          | none => rfl
          | some key =>
              simp only [readDistrust, bind_assoc]
      | some add =>
          simp only [readAdd, bind_assoc]
          refine bind_congr fun names => ?_
          refine bind_congr fun additions => ?_
          refine bind_congr fun distrusted => ?_
          cases distrusted with
          | none => rfl
          | some key =>
              simp only [readDistrust, bind_assoc]

theorem loadFrom_iff
    (hDistinct : DistinctNames κ)
    {root : κ}
    {config : Config} :
    (loadFrom (some root) : Except IoError _) = .ok config ↔
      Loads root config := by
  rw [loadFrom_some]
  simp only [bind_eq_ok_iff]
  constructor
  · rintro ⟨compat, hCompat, security, hSecurity,
      certificates, hCertificates, hLoad⟩
    cases certificates with
    | none =>
        rw [pure_eq_ok_iff] at hLoad
        subst hLoad
        exact .mk hCompat hSecurity hCertificates .absent
    | some certificates =>
        simp only [bind_eq_ok_iff] at hLoad
        rcases hLoad with ⟨add, hAdd, l, hAdditions,
          distrusted, hDistrusted, d, hDistrust, hPure⟩
        rw [pure_eq_ok_iff] at hPure
        subst hPure
        exact .mk hCompat hSecurity hCertificates
          (.present hAdd
            ((readAdd_iff hDistinct).mp
              ⟨l, hAdditions, rfl⟩)
            hDistrusted
            (readDistrust_iff.mp ⟨d, hDistrust, rfl⟩))
  · rintro ⟨hCompat, hSecurity, hCertificates, hLists⟩
    refine ⟨_, hCompat, _, hSecurity, _, hCertificates, ?_⟩
    cases hLists with
    | absent => rfl
    | present hAdd hAdditions hDistrusted hDistrust =>
        rcases (readAdd_iff hDistinct).mpr hAdditions with
          ⟨l, hLoad, rfl⟩
        rcases readDistrust_iff.mpr hDistrust with
          ⟨d, hLoadDistrust, rfl⟩
        simp only [bind_eq_ok_iff]
        exact ⟨_, hAdd, l, hLoad, _, hDistrusted, d,
          hLoadDistrust, rfl⟩

end

end Registry

end Trustd

------------------------------------------------------------
-- The Order Of Names
------------------------------------------------------------

namespace Trustd

namespace Registry

open General Store

/- Names listed in another order, or both lists refused. -/
inductive Relisted :
    Except IoError (List Bytes) →
    Except IoError (List Bytes) → Prop where
  | listed
      {names others : List Bytes}
      (hPerm : names.Perm others) :
      Relisted (.ok names) (.ok others)
  | refused
      (e d : IoError) :
      Relisted (.error e) (.error d)

theorem Relisted.symm
    {a b : Except IoError (List Bytes)}
    (hSame : Relisted a b) :
    Relisted b a := by
  cases hSame with
  | listed hPerm => exact .listed hPerm.symm
  | refused e d => exact .refused d e

theorem Relisted.ok
    {a b : Except IoError (List Bytes)}
    (hSame : Relisted a b)
    {names : List Bytes}
    (hNames : a = .ok names) :
    ∃ others, b = .ok others ∧
      ∀ n, n ∈ others ↔ n ∈ names := by
  cases hSame with
  | listed hPerm =>
      cases hNames
      exact ⟨_, rfl, fun _ => hPerm.mem_iff.symm⟩
  | refused e d => cases hNames

/- Two enumerations of the same contents. -/
structure SameContents
    {κ : Type}
    (first second : Reader (Except IoError) κ) : Prop where
  value : ∀ key name,
    first.value key name = second.value key name
  child : ∀ key name,
    first.child key name = second.child key name
  names : ∀ key,
    Relisted (first.names key) (second.names key)
  values : ∀ key,
    Relisted (first.values key) (second.values key)

section

variable {κ : Type}
variable {first second : Reader (Except IoError) κ}

theorem SameContents.symm
    (hSame : SameContents first second) :
    SameContents second first where
  value key name := (hSame.value key name).symm
  child key name := (hSame.child key name).symm
  names key := (hSame.names key).symm
  values key := (hSame.values key).symm

theorem DistinctNames.congr
    (hSame : SameContents first second)
    (hDistinct : @DistinctNames κ first) :
    @DistinctNames κ second := by
  intro key names hNames
  have hOther := hSame.names key
  rw [hNames] at hOther
  cases hFirst : first.names key with
  | error e =>
      rw [hFirst] at hOther
      cases hOther
  | ok others =>
      rw [hFirst] at hOther
      cases hOther with
      | listed hPerm =>
          exact hPerm.nodup_iff.mp
            (hDistinct key others hFirst)

theorem ReadsEntry.congr
    (hSame : SameContents first second)
    {add : κ}
    {name : Bytes}
    {a : Option Addition}
    (hReads : @ReadsEntry κ first add name a) :
    @ReadsEntry κ second add name a := by
  cases hReads with
  | incomplete hName hChild hValue hNone =>
      exact @ReadsEntry.incomplete κ second _ _ _ _ hName
        ((hSame.child _ _).symm.trans hChild)
        ((hSame.value _ _).symm.trans hValue) hNone
  | complete hName hChild hValue hSome hPurposes hParts =>
      exact @ReadsEntry.complete κ second _ _ _ _ _ _ hName
        ((hSame.child _ _).symm.trans hChild)
        ((hSame.value _ _).symm.trans hValue) hSome
        ((hSame.value _ _).symm.trans hPurposes) hParts

theorem ReadsAdd.congr
    (hSame : SameContents first second)
    {add : Option κ}
    {additions : List Addition}
    (hReads : @ReadsAdd κ first add additions) :
    @ReadsAdd κ second add additions := by
  cases hReads with
  | absent => exact @ReadsAdd.absent κ second
  | @present add names _ hNames hAll hAscending hMem =>
      rcases (hSame.names add).ok hNames with
        ⟨others, hOthers, hEach⟩
      refine @ReadsAdd.present κ second _ _ _ hOthers ?_
        hAscending ?_
      · intro n hn
        rcases hAll n ((hEach n).mp hn) with ⟨a, hReads⟩
        exact ⟨a, hReads.congr hSame⟩
      · intro a
        rw [hMem]
        constructor
        · rintro ⟨n, hn, hReads⟩
          exact ⟨n, (hEach n).mpr hn, hReads.congr hSame⟩
        · rintro ⟨n, hn, hReads⟩
          exact ⟨n, (hEach n).mp hn,
            ReadsEntry.congr hSame.symm hReads⟩

theorem ReadsDistrust.congr
    (hSame : SameContents first second)
    {distrusted : Option κ}
    {distrust : List Text}
    (hReads : @ReadsDistrust κ first distrusted distrust) :
    @ReadsDistrust κ second distrusted distrust := by
  cases hReads with
  | absent => exact @ReadsDistrust.absent κ second
  | @present key names _ hNames hAll hAscending hMem =>
      rcases (hSame.values key).ok hNames with
        ⟨others, hOthers, hEach⟩
      refine @ReadsDistrust.present κ second _ _ _ hOthers
        ?_ hAscending ?_
      · intro n hn
        exact hAll n ((hEach n).mp hn)
      · intro f
        simp only [hMem, hEach]

theorem Loads.congr
    (hSame : SameContents first second)
    {root : κ}
    {config : Config}
    (hLoads : @Loads κ first root config) :
    @Loads κ second root config := by
  cases hLoads with
  | mk hCompat hSecurity hCertificates hLists =>
      refine @Loads.mk κ second _ _ _ _ _ _
        ((hSame.value _ _).symm.trans hCompat)
        ((hSame.value _ _).symm.trans hSecurity)
        ((hSame.child _ _).symm.trans hCertificates) ?_
      cases hLists with
      | absent => exact @ReadsCertificates.absent κ second
      | present hAdd hAdditions hDistrusted hDistrust =>
          exact @ReadsCertificates.present κ second _ _ _ _ _
            ((hSame.child _ _).symm.trans hAdd)
            (hAdditions.congr hSame)
            ((hSame.child _ _).symm.trans hDistrusted)
            (hDistrust.congr hSame)

/-
  What is loaded is what the contents are, and nothing where
  a read fails or a text is none. The order in which names
  are listed does not change it.
-/
theorem loadFrom_exact
    (hDistinct : @DistinctNames κ first)
    (hSame : SameContents first second) :
    (@loadFrom (Except IoError) _ _ κ first none = .ok {}) ∧
    (∀ root config,
      @loadFrom (Except IoError) _ _ κ first (some root) =
          .ok config ↔
        @Loads κ first root config) ∧
    ∀ root config,
      @loadFrom (Except IoError) _ _ κ first root =
          .ok config ↔
        @loadFrom (Except IoError) _ _ κ second root =
          .ok config := by
  refine ⟨rfl, fun root config =>
    @loadFrom_iff κ first hDistinct root config, ?_⟩
  intro root config
  cases root with
  | none => exact Iff.rfl
  | some root =>
      rw [@loadFrom_iff κ first hDistinct,
        @loadFrom_iff κ second (hDistinct.congr hSame)]
      exact ⟨Loads.congr hSame, Loads.congr hSame.symm⟩

end

/- The keys below a root with two entries and a distrust. -/
inductive Place where
  | root
  | certificates
  | add
  | distrust
  | entry
deriving DecidableEq

/- Their values, with the names in an order. -/
@[reducible]
def placeReader
    (order : List Bytes → List Bytes) :
    Reader (Except IoError) Place where
  value place name := pure
    (if place = .entry ∧ name = certificateValue then
      some { ty := .binary, data := [1] }
    else none)
  values place := pure (order
    (if place = .distrust then
      [Text.utf8 (List.replicate 64 'b'),
        Text.utf8 (List.replicate 64 'A')]
    else []))
  names place := pure (order
    (if place = .add then
      [Text.utf8 ['x'], Text.utf8 ['y']]
    else []))
  child place name := pure
    (match place with
      | .root => some .certificates
      | .certificates =>
          if name = addKey then some .add
          else some .distrust
      | _ => some .entry)

theorem loadFrom_exact_reversed :
    @loadFrom (Except IoError) _ _ Place
        (placeReader List.reverse) (some .root) = .ok {
      additions := [
        { name := ['x'], der := [1], purposes := [] },
        { name := ['y'], der := [1], purposes := [] }]
      distrust := [List.replicate 64 'a',
        List.replicate 64 'b'] } := by
  have hDistinct : @DistinctNames Place (placeReader id) := by
    intro place names hNames
    cases hNames
    cases place <;> decide
  have hSame : SameContents
      (placeReader id) (placeReader List.reverse) := by
    constructor
    · exact fun _ _ => rfl
    · exact fun _ _ => rfl
    · exact fun _ => .listed (List.reverse_perm _).symm
    · exact fun _ => .listed (List.reverse_perm _).symm
  exact ((loadFrom_exact hDistinct hSame).2.2 (some .root) _).mp
    rfl

end Registry

end Trustd
