import Trustd.Client.Decisions

/-
  The registry refines the policy, in every interleaving of
  the clients' calls.

  Key definitions include:
    * `Trustd.Registry.Key.reach`
    * `Trustd.ClientCore.Represents`
    * `Trustd.ClientCore.clients`
    * `Trustd.ClientCore.history`
    * `Trustd.ClientCore.Accounted`

  Key theorems include:
    * `Trustd.ClientCore.Represents.configured`
    * `Trustd.ClientCore.serve_refines`
    * `Trustd.ClientCore.clients_refine`
-/

------------------------------------------------------------
-- Reading At A Path
------------------------------------------------------------

namespace Trustd

namespace Registry

open General

/- The key at the end of a path, or an empty one. -/
def Key.reach
    (naming : Naming)
    (key : Key)
    (path : List Text) :
    Key :=
  (key.follow naming path).getD Key.empty

variable {naming : Naming}

theorem Key.reach_append
    (key : Key)
    (path rest : List Text) :
    key.reach naming (path ++ rest) =
      (key.reach naming path).reach naming rest := by
  unfold Key.reach
  rw [Key.follow_append]
  cases key.follow naming path with
  | none => exact (Key.getD_follow_empty rest).symm
  | some inner => rfl

theorem Key.reach_edit
    (f : Key → Key)
    (path : List Text)
    (key : Key) :
    (key.edit naming f path).reach naming path =
      f (key.reach naming path) := by
  rw [Key.reach, Key.follow_edit]
  rfl

/- What is rewritten below a path, and above it. -/
theorem Key.reach_edit_below
    (f : Key → Key)
    (path rest : List Text)
    (key : Key) :
    (key.edit naming f (path ++ rest)).reach naming path =
      (key.reach naming path).edit naming f rest := by
  rw [Key.edit_append, Key.reach_edit]

theorem Key.reach_edit_above
    (f : Key → Key)
    (path rest : List Text)
    (key : Key) :
    (key.edit naming f path).reach naming (path ++ rest) =
      (f (key.reach naming path)).reach naming rest := by
  rw [Key.reach_append, Key.reach_edit]

theorem Key.reach_edit_other
    (f : Key → Key)
    (path : List Text)
    {name other : Text}
    (hOther : naming.fold (Text.utf8 name) ≠
      naming.fold (Text.utf8 other))
    (rest rest' : List Text)
    (key : Key) :
    (key.edit naming f (path ++ name :: rest)).reach naming
        (path ++ other :: rest') =
      key.reach naming (path ++ other :: rest') := by
  unfold Key.reach
  rw [Key.follow_edit_other f path hOther]

/- Below a key only its subkeys matter. -/
theorem Key.reach_congr
    {key key' : Key}
    (hSubkeys : key.subkeys = key'.subkeys)
    {path : List Text}
    (hPath : path ≠ []) :
    key.reach naming path = key'.reach naming path := by
  cases path with
  | nil => exact absurd rfl hPath
  | cons name path =>
      unfold Key.reach
      rw [Key.follow, Key.follow, Key.child, Key.child, hSubkeys]

theorem Key.reach_of_follow
    {key inner : Key}
    {path : List Text}
    (hFollow : key.follow naming path = some inner) :
    key.reach naming path = inner := by
  rw [Key.reach, hFollow]
  rfl

end Registry

end Trustd

------------------------------------------------------------
-- Representing A Policy
------------------------------------------------------------

namespace Trustd

namespace ClientCore

open General Registry Store Render

/- The key of an addition as far as it is entered. -/
structure IsEntry
    (naming : Naming)
    (entry : Draft)
    (key : Key) : Prop where
  subkeys : key.subkeys = []
  certificate :
    (key.certificate naming).getD [] = entry.certificate
  legible : ∀ p ∈ key.purposeParts naming, Legible p
  purposes :
    (key.purposeParts naming).map textOf = entry.purposes

/- A registry that holds what the policy says. -/
structure Represents
    (naming : Naming)
    (policy : Policy)
    (hive : Key) : Prop where
  entries : Alike Text.utf8 (IsEntry naming) policy.entries
    (hive.reach naming addPath).subkeys
  distinct : Distinct naming.text policy.entries
  distrusts : Alike Text.utf8
    (fun reason value => reasonOf value = reason)
    policy.distrusts
    (hive.reach naming (components distrustPath)).values
  fingerprints : ∀ d ∈ policy.distrusts,
    fingerprintOf d.1 = some d.1
  compat : compatOf ((hive.reach naming
    (components trustPath)).value naming compatValue) =
      policy.compat
  controlSecurity : controlSecurityOf ((hive.reach naming
    (components trustPath)).value naming controlSecurityValue) =
      policy.controlSecurity

variable {naming : Naming}
variable {policy : Policy}
variable {hive hive' : Key}

/- A registry where nothing has been decided. -/
theorem represents_empty (naming : Naming) :
    Represents naming {} Key.empty where
  entries := List.Forall₂.nil
  distinct := List.nodup_nil
  distrusts := List.Forall₂.nil
  fingerprints := fun d hd => by cases hd
  compat := rfl
  controlSecurity := rfl

/- Where all that is read is the same. -/
theorem Represents.congr
    (hRep : Represents naming policy hive)
    (hAdd : hive'.reach naming addPath =
      hive.reach naming addPath)
    (hDistrust : hive'.reach naming (components distrustPath) =
      hive.reach naming (components distrustPath))
    (hTrust :
      (hive'.reach naming (components trustPath)).values =
        (hive.reach naming (components trustPath)).values) :
    Represents naming policy hive' where
  entries := by
    rw [hAdd]
    exact hRep.entries
  distinct := hRep.distinct
  distrusts := by
    rw [hDistrust]
    exact hRep.distrusts
  fingerprints := hRep.fingerprints
  compat := by
    rw [Key.value, hTrust]
    exact hRep.compat
  controlSecurity := by
    rw [Key.value, hTrust]
    exact hRep.controlSecurity

/- An entry's addition is the policy's. -/
theorem IsEntry.additionOf
    {entry : Draft}
    {key : Key}
    (hEntry : IsEntry naming entry key)
    (name : Text) :
    additionOf naming (Text.utf8 name) key =
      entry.addition name := by
  unfold Registry.additionOf Draft.addition
  rw [hEntry.purposes, textOf_utf8, ← hEntry.certificate]
  cases hDer : key.certificate naming with
  | none => rfl
  | some der =>
      have hSome : der ≠ [] := by
        unfold Key.certificate at hDer
        rcases Option.map_eq_some_iff.mp hDer with
          ⟨value, hValue, rfl⟩
        rcases Option.filter_eq_some_iff.mp hValue with
          ⟨-, hComplete⟩
        exact (of_decide_eq_true hComplete).2
      rw [Option.getD_some, if_neg hSome]
      rfl

theorem additions_alike
    {entries : List (Text × Draft)}
    {subkeys : List (Bytes × Key)}
    (hAlike : Alike Text.utf8 (IsEntry naming) entries
      subkeys) :
    subkeys.flatMap (fun e =>
      (additionOf naming e.1 e.2).toList) =
      entries.filterMap (fun e => e.2.addition e.1) := by
  induction hAlike with
  | nil => rfl
  | cons hHead hTail ih =>
      rw [List.flatMap_cons, List.filterMap_cons, ih,
        hHead.1, hHead.2.additionOf]
      split
      · rename_i hNone
        rw [hNone]
        rfl
      · rename_i addition hSome
        rw [hSome]
        rfl

theorem alike_mem
    {α α' β β' : Type}
    {g : α → α'}
    {S : β → β' → Prop}
    {l : List (α × β)}
    {l' : List (α' × β')}
    (hAlike : Alike g S l l')
    {e' : α' × β'}
    (hMem : e' ∈ l') :
    ∃ e ∈ l, e'.1 = g e.1 ∧ S e.2 e'.2 := by
  induction hAlike with
  | nil => cases hMem
  | cons hHead hTail ih =>
      rcases List.mem_cons.mp hMem with rfl | hMem
      · exact ⟨_, List.mem_cons_self, hHead⟩
      · rcases ih hMem with ⟨e, he, hBoth⟩
        exact ⟨e, List.mem_cons_of_mem _ he, hBoth⟩

theorem distrust_alike
    {distrusts : List (Text × Text)}
    {values : List (Bytes × RegValue)}
    (hAlike : Alike Text.utf8
      (fun reason value => reasonOf value = reason) distrusts
      values)
    (hFingerprints : ∀ d ∈ distrusts,
      fingerprintOf d.1 = some d.1) :
    (values.map Prod.fst).filterMap
        (fun n => fingerprintOf (textOf n)) =
      distrusts.map Prod.fst := by
  induction hAlike with
  | nil => rfl
  | cons hHead hTail ih =>
      rcases List.forall_mem_cons.mp hFingerprints with
        ⟨hSelf, hRest⟩
      rw [List.map_cons, List.filterMap_cons, hHead.1,
        textOf_utf8, hSelf, ih hRest, List.map_cons]

/- The additions that are read of `Add`, if it is there. -/
theorem Represents.additions
    (hRep : Represents naming policy hive) :
    ((hive.follow naming addPath).map
      (Key.additions naming)).getD [] =
      policy.entries.filterMap (fun e => e.2.addition e.1) := by
  have hEntries := hRep.entries
  have hDistinct := hRep.entries.distinct hRep.distinct
  rw [Key.reach] at hEntries hDistinct
  cases hAdd : hive.follow naming addPath with
  | none =>
      rw [hAdd] at hEntries
      rw [List.forall₂_nil_right_iff.mp hEntries]
      rfl
  | some add =>
      rw [hAdd, Option.getD_some] at hEntries hDistinct
      rw [Option.map_some, Option.getD_some,
        Key.additions_of_distinct hDistinct,
        additions_alike hEntries]

theorem Represents.legibleAdd
    (hRep : Represents naming policy hive)
    {add : Key}
    (hAdd : hive.follow naming addPath = some add) :
    add.LegibleAdd naming := by
  have hEntries := hRep.entries
  have hDistinct := hRep.entries.distinct hRep.distinct
  rw [Key.reach_of_follow hAdd] at hEntries hDistinct
  rw [Key.legibleAdd_of_distinct hDistinct]
  intro e he
  rcases alike_mem hEntries he with ⟨e', -, hName, hEntry⟩
  rw [hName]
  exact ⟨legible_utf8 _, fun _ _ => hEntry.legible⟩

/- And the fingerprints of `Distrust`. -/
theorem Represents.distrust
    (hRep : Represents naming policy hive) :
    ((distrustKeyOf naming hive).map Key.distrust).getD [] =
      policy.distrusts.map Prod.fst := by
  have hDistrusts := hRep.distrusts
  rw [Key.reach] at hDistrusts
  unfold distrustKeyOf
  cases hKey : hive.follow naming (components distrustPath) with
  | none =>
      rw [hKey] at hDistrusts
      rw [List.forall₂_nil_right_iff.mp hDistrusts]
      rfl
  | some key =>
      rw [hKey, Option.getD_some] at hDistrusts
      rw [Option.map_some, Option.getD_some, Key.distrust,
        distrust_alike hDistrusts hRep.fingerprints]

theorem Represents.legibleDistrust
    (hRep : Represents naming policy hive)
    {key : Key}
    (hKey : distrustKeyOf naming hive = some key) :
    key.LegibleDistrust := by
  have hDistrusts := hRep.distrusts
  rw [Key.reach_of_follow hKey] at hDistrusts
  intro n hn
  rcases List.mem_map.mp hn with ⟨v, hv, rfl⟩
  rcases alike_mem hDistrusts hv with ⟨d, -, hName, -⟩
  rw [hName]
  exact legible_utf8 _

/- What the daemon loads is what the policy amounts to. -/
theorem Represents.configured
    (hRep : Represents naming policy hive) :
    configured naming hive = .ok policy.config := by
  have hAdditions := hRep.additions
  have hDistrust := hRep.distrust
  have hCompat := hRep.compat
  have hSecurity := hRep.controlSecurity
  rw [follow_addPath] at hAdditions
  rw [distrustKeyOf_eq] at hDistrust
  cases hTrust : hive.trust naming with
  | none =>
      have hReach : hive.reach naming (components trustPath) =
          Key.empty := by
        have hNone : hive.follow naming (components trustPath) =
            none := hTrust
        rw [Key.reach, hNone]
        rfl
      rw [hTrust] at hAdditions hDistrust
      rw [hReach] at hCompat hSecurity
      rw [configured_of_none hTrust, Policy.config,
        ← hAdditions, ← hDistrust, ← hCompat, ← hSecurity]
      rfl
  | some trust =>
      have hReach : hive.reach naming (components trustPath) =
          trust :=
        Key.reach_of_follow hTrust
      rw [hTrust, Option.bind_some] at hAdditions hDistrust
      rw [hReach] at hCompat hSecurity
      refine (configured_eq_ok_iff hTrust).mpr ⟨⟨?_, ?_⟩, ?_⟩
      · intro add hAdd
        apply hRep.legibleAdd
        rw [follow_addPath, hTrust]
        exact hAdd
      · intro key hKey
        apply hRep.legibleDistrust
        rw [distrustKeyOf_eq, hTrust]
        exact hKey
      · rw [Policy.config, configOf, hAdditions, hDistrust,
          hCompat, hSecurity]

/- What the operators are shown is what it amounts to. -/
theorem Represents.listing
    (hRep : Represents naming policy hive) :
    listing (distrustKeyOf naming hive) = policy.listing := by
  have hDistrusts := hRep.distrusts
  have hShown : ∀ {distrusts : List (Text × Text)}
      {values : List (Bytes × RegValue)},
      Alike Text.utf8 (fun reason value =>
        reasonOf value = reason) distrusts values →
      (∀ d ∈ distrusts, fingerprintOf d.1 = some d.1) →
      values.filterMap (fun v => distrustedOf (.ok v)) =
        distrusts.map (fun d =>
          { fingerprint := d.1, reason := d.2 }) := by
    intro distrusts values hAlike hFingerprints
    induction hAlike with
    | nil => rfl
    | cons hHead hTail ih =>
        rcases List.forall_mem_cons.mp hFingerprints with
          ⟨hSelf, hRest⟩
        rw [List.filterMap_cons, ih hRest, List.map_cons,
          distrustedOf, hHead.1, Text.fromUtf8_utf8]
        dsimp only
        rw [(fingerprintOf_self hSelf).1, ← hHead.2]
        rfl
  rw [Key.reach] at hDistrusts
  unfold distrustKeyOf Policy.listing
  cases hKey : hive.follow naming (components distrustPath) with
  | none =>
      rw [hKey] at hDistrusts
      rw [List.forall₂_nil_right_iff.mp hDistrusts]
      rfl
  | some key =>
      rw [hKey, Option.getD_some] at hDistrusts
      rw [ClientCore.listing, hShown hDistrusts
        hRep.fingerprints]

end ClientCore

end Trustd

------------------------------------------------------------
-- Decisions In The Registry
------------------------------------------------------------

namespace Trustd

namespace ClientCore

open General Registry Store Render

variable {naming : Naming}
variable {policy : Policy}
variable {hive : Key}

/- What is rewritten in `Add` or below it leaves the rest. -/
theorem reach_edit_add
    (f : Key → Key)
    (rest : List Text) :
    (hive.edit naming f (addPath ++ rest)).reach naming
        (components distrustPath) =
      hive.reach naming (components distrustPath) ∧
    ((hive.edit naming f (addPath ++ rest)).reach naming
        (components trustPath)).values =
      (hive.reach naming (components trustPath)).values := by
  constructor
  · rw [addPath_eq, components_distrustPath_eq,
      List.append_assoc]
    exact Key.reach_edit_other f _
      (add_ne_distrust naming).symm _ _ _
  · rw [addPath, List.append_assoc, Key.reach_edit_below]
    rfl

/- And what is rewritten in `Distrust`. -/
theorem reach_edit_distrust
    (f : Key → Key) :
    (hive.edit naming f (components distrustPath)).reach naming
        addPath =
      hive.reach naming addPath ∧
    ((hive.edit naming f (components distrustPath)).reach naming
        (components trustPath)).values =
      (hive.reach naming (components trustPath)).values := by
  constructor
  · rw [addPath_eq, components_distrustPath_eq]
    exact Key.reach_edit_other f _ (add_ne_distrust naming)
      _ _ _
  · rw [components_distrustPath, Key.reach_edit_below]
    rfl

/- Keys that are made hold nothing that is read. -/
theorem Represents.made_certificates
    (hRep : Represents naming policy hive) :
    Represents naming policy
      (hive.edit naming id (components certificatesPath)) := by
  refine hRep.congr ?_ ?_ ?_
  · rw [addPath_eq, Key.reach_edit_above, id, Key.reach_append]
  · rw [components_distrustPath_eq, Key.reach_edit_above, id,
      Key.reach_append]
  · rw [components_certificatesPath, Key.reach_edit_below]
    rfl

theorem Represents.made_add
    (hRep : Represents naming policy hive) :
    Represents naming policy (hive.edit naming id addPath) := by
  have hOthers := @reach_edit_add naming hive id []
  rw [List.append_nil] at hOthers
  exact hRep.congr (Key.reach_edit id addPath hive) hOthers.1
    hOthers.2

theorem Represents.made_distrust
    (hRep : Represents naming policy hive) :
    Represents naming policy
      (hive.edit naming id (components distrustPath)) :=
  hRep.congr (reach_edit_distrust id).1
    (Key.reach_edit id _ hive) (reach_edit_distrust id).2

theorem isEntry_empty (naming : Naming) :
    IsEntry naming {} Key.empty where
  subkeys := rfl
  certificate := rfl
  legible := fun p hp => by cases hp
  purposes := rfl

/- What is read of an entry whose purposes are written. -/
theorem IsEntry.setPurposes
    {entry : Draft}
    {key : Key}
    (hEntry : IsEntry naming entry key)
    (purposes : List Text) :
    IsEntry naming { entry with purposes := listed purposes }
      (key.setValue naming purposesValue
        (purposesWritten purposes)) := by
  have hCertificate : (key.setValue naming purposesValue
      (purposesWritten purposes)).certificate naming =
        key.certificate naming := by
    unfold Key.certificate Key.value
    rw [Key.values_setValue, entry_put,
      if_neg (purposes_ne_certificate naming).symm]
  have hParts : (key.setValue naming purposesValue
      (purposesWritten purposes)).purposeParts naming =
        (listed purposes).map Text.utf8 := by
    unfold Key.purposeParts Key.value
    rw [Key.values_setValue, entry_put, if_pos rfl,
      Option.map_some, Option.getD_some,
      partsOf_purposesWritten_eq]
  refine ⟨hEntry.subkeys, ?_, ?_, ?_⟩
  · rw [hCertificate]
    exact hEntry.certificate
  · rw [hParts]
    intro p hp
    rcases List.mem_map.mp hp with ⟨t, -, rfl⟩
    exact legible_utf8 t
  · rw [hParts]
    exact map_textOf_utf8 _

theorem IsEntry.setCertificate
    {entry : Draft}
    {key : Key}
    (hEntry : IsEntry naming entry key)
    (der : Bytes) :
    IsEntry naming { entry with certificate := der }
      (key.setValue naming certificateValue
        (certificateWritten der)) := by
  have hCertificate : ((key.setValue naming certificateValue
      (certificateWritten der)).certificate naming).getD [] =
        der := by
    have hValue : (key.setValue naming certificateValue
        (certificateWritten der)).value naming
          certificateValue = some (certificateWritten der) := by
      rw [Key.value, Key.values_setValue, entry_put, if_pos rfl]
    by_cases hDer : der = []
    · rw [Key.certificate_of_incomplete hValue
        (fun hComplete => hComplete.2 hDer), hDer]
      rfl
    · rw [Key.certificate_of_complete hValue rfl hDer]
      rfl
  have hParts : (key.setValue naming certificateValue
      (certificateWritten der)).purposeParts naming =
        key.purposeParts naming := by
    unfold Key.purposeParts Key.value
    rw [Key.values_setValue, entry_put,
      if_neg (purposes_ne_certificate naming)]
  refine ⟨hEntry.subkeys, hCertificate, ?_, ?_⟩
  · rw [hParts]
    exact hEntry.legible
  · rw [hParts]
    exact hEntry.purposes

/- The child of a name is the entry of it. -/
theorem Represents.child
    (hRep : Represents naming policy hive)
    (name : Text) :
    Option.Rel (IsEntry naming)
      (General.entry naming.text policy.entries name)
      ((hive.reach naming addPath).child naming name) :=
  hRep.entries.entry name

/- An entry rewritten in the registry and in the policy. -/
theorem Represents.adjust
    (hRep : Represents naming policy hive)
    (name : Text)
    {f : Key → Key}
    {g : Draft → Draft}
    (hRewrite : ∀ entry key, IsEntry naming entry key →
      IsEntry naming (g entry) (f key)) :
    Represents naming (policy.adjust naming name g)
      (hive.edit naming f (entryPath name)) := by
  have hOthers := @reach_edit_add naming hive f [name]
  have hHere : (hive.edit naming f (entryPath name)).reach
      naming addPath =
        (hive.reach naming addPath).edit naming f [name] :=
    Key.reach_edit_below f addPath [name] hive
  have hEntry := hRewrite _ _
    (rel_getD (hRep.child name) (isEntry_empty naming))
  refine ⟨?_, hRep.distinct.put name _, ?_, hRep.fingerprints,
    ?_, ?_⟩
  · rw [hHere]
    exact hRep.entries.put name hEntry
  · rw [entryPath, hOthers.1]
    exact hRep.distrusts
  · rw [Key.value, entryPath, hOthers.2]
    exact hRep.compat
  · rw [Key.value, entryPath, hOthers.2]
    exact hRep.controlSecurity

/- An entry that is found is one that was entered. -/
theorem Represents.found
    (hRep : Represents naming policy hive)
    {name : Text}
    {key : Key}
    (hFollow : hive.follow naming (entryPath name) =
      some key) :
    ∃ entry,
      General.entry naming.text policy.entries name =
        some entry ∧ IsEntry naming entry key := by
  rw [follow_entryPath] at hFollow
  rcases Option.bind_eq_some_iff.mp hFollow with
    ⟨add, hAdd, hChild⟩
  have hRel := hRep.child name
  rw [Key.reach_of_follow hAdd, hChild] at hRel
  exact exists_of_rel hRel

theorem Represents.entered
    (hRep : Represents naming policy hive)
    {name : Text}
    {key : Key}
    (hFollow : hive.follow naming (entryPath name) =
      some key) :
    policy.Entered naming name := by
  rcases hRep.found hFollow with ⟨entry, hEntry, -⟩
  unfold Policy.Entered
  rw [hEntry]
  exact Option.some_ne_none entry

/- Below an entry there is nothing. -/
theorem Represents.follow_below
    (hRep : Represents naming policy hive)
    (name other : Text)
    (rest : List Text) :
    hive.follow naming (addPath ++ name :: other :: rest) =
      none := by
  have hSplit : addPath ++ name :: other :: rest =
      entryPath name ++ other :: rest := by
    rw [entryPath, List.append_assoc]
    rfl
  rw [hSplit, Key.follow_append]
  cases hEntry : hive.follow naming (entryPath name) with
  | none => rfl
  | some key =>
      rcases hRep.found hEntry with ⟨entry, -, hIs⟩
      rw [Option.bind_some, Key.follow, Key.child, hIs.subkeys]
      rfl

theorem Represents.drop
    (hRep : Represents naming policy hive)
    (name : Text) :
    Represents naming (policy.apply naming (.drop [name]))
      (hive.edit naming (Key.deleteChild naming name)
        addPath) := by
  have hOthers := @reach_edit_add naming hive
    (Key.deleteChild naming name) []
  rw [List.append_nil] at hOthers
  refine ⟨?_, hRep.distinct.remove name, ?_,
    hRep.fingerprints, ?_, ?_⟩
  · rw [Key.reach_edit]
    exact hRep.entries.remove name
  · rw [hOthers.1]
    exact hRep.distrusts
  · rw [Key.value, hOthers.2]
    exact hRep.compat
  · rw [Key.value, hOthers.2]
    exact hRep.controlSecurity

/- The values of `Distrust` rewritten, and the policy's. -/
theorem Represents.distrusting
    (hRep : Represents naming policy hive)
    {f : Key → Key}
    {distrusts : List (Text × Text)}
    (hAlike : Alike Text.utf8
      (fun reason value => reasonOf value = reason) distrusts
      (f (hive.reach naming (components distrustPath))).values)
    (hFingerprints : ∀ d ∈ distrusts,
      fingerprintOf d.1 = some d.1) :
    Represents naming { policy with distrusts }
      (hive.edit naming f (components distrustPath)) := by
  have hOthers := @reach_edit_distrust naming hive f
  refine ⟨?_, hRep.distinct, ?_, hFingerprints, ?_, ?_⟩
  · rw [hOthers.1]
    exact hRep.entries
  · rw [Key.reach_edit]
    exact hAlike
  · rw [Key.value, hOthers.2]
    exact hRep.compat
  · rw [Key.value, hOthers.2]
    exact hRep.controlSecurity

theorem Represents.note
    (hRep : Represents naming policy hive)
    {fingerprint : Text}
    (hSelf : fingerprintOf fingerprint = some fingerprint)
    (value : RegValue) :
    Represents naming
      (policy.apply naming (.note fingerprint (reasonOf value)))
      (hive.edit naming
        (Key.setValue naming fingerprint value)
        (components distrustPath)) := by
  refine hRep.distrusting (hRep.distrusts.put fingerprint rfl)
    ?_
  intro d hd
  rcases name_of_mem_put hd with hNew | ⟨x, hx, hSame⟩
  · rw [hNew]
    exact hSelf
  · rw [hSame]
    exact hRep.fingerprints x hx

theorem Represents.lift
    (hRep : Represents naming policy hive)
    (fingerprint : Text) :
    Represents naming
      (policy.apply naming (.lift fingerprint))
      (hive.edit naming (Key.deleteValue naming fingerprint)
        (components distrustPath)) := by
  refine hRep.distrusting (hRep.distrusts.remove fingerprint)
    ?_
  intro d hd
  exact hRep.fingerprints d (mem_remove.mp hd).1

/- A value that is found is of what is distrusted. -/
theorem Represents.distrusted
    (hRep : Represents naming policy hive)
    {fingerprint : Text}
    {value : RegValue}
    (hValue : (distrustKeyOf naming hive).bind (fun k =>
      k.value naming fingerprint) = some value) :
    policy.Distrusts naming fingerprint := by
  rcases Option.bind_eq_some_iff.mp hValue with
    ⟨key, hKey, hValue⟩
  have hRel := @Alike.entry _ _ _ _ _ _ naming.fold _ _ _ _
    hRep.distrusts fingerprint
  rw [Key.reach_of_follow hKey] at hRel
  have hThere : General.entry naming.fold key.values
      (Text.utf8 fingerprint) = some value := hValue
  rw [hThere] at hRel
  rcases exists_of_rel hRel with ⟨reason, hReason, -⟩
  unfold Policy.Distrusts
  intro hNone
  have hSame : General.entry naming.text policy.distrusts
      fingerprint = some reason := hReason
  rw [hSame] at hNone
  cases hNone

theorem compat_ne_security (naming : Naming) :
    naming.fold (Text.utf8 compatValue) ≠
      naming.fold (Text.utf8 controlSecurityValue) := by
  apply fold_ne
  · exact ascii_of_all (by decide)
  · exact ascii_of_all (by decide)
  · decide

theorem Represents.mode
    (hRep : Represents naming policy hive)
    (value : RegValue) :
    Represents naming
      (policy.apply naming (.mode (compatOf (some value))))
      (hive.edit naming (Key.setValue naming compatValue value)
        (components trustPath)) := by
  have hBelow : ∀ {path : List Text}, path ≠ [] →
      (hive.edit naming (Key.setValue naming compatValue value)
        (components trustPath)).reach naming
          (components trustPath ++ path) =
        hive.reach naming (components trustPath ++ path) := by
    intro path hPath
    rw [Key.reach_edit_above, Key.reach_append]
    exact Key.reach_congr (Key.subkeys_setValue _ _ _) hPath
  refine ⟨?_, hRep.distinct, ?_, hRep.fingerprints, ?_, ?_⟩
  · rw [addPath, hBelow (List.cons_ne_nil _ _)]
    exact hRep.entries
  · rw [components_distrustPath,
      hBelow (List.cons_ne_nil _ _),
      ← components_distrustPath]
    exact hRep.distrusts
  · rw [Key.reach_edit, Key.value, Key.values_setValue,
      entry_put, if_pos rfl]
    rfl
  · rw [Key.reach_edit, Key.value, Key.values_setValue,
      entry_put, if_neg (compat_ne_security naming)]
    exact hRep.controlSecurity

end ClientCore

end Trustd

------------------------------------------------------------
-- Every Interleaving Of Clients
------------------------------------------------------------

namespace Trustd

namespace ClientCore

open General Registry Store Cert Render

variable {naming : Naming}
variable {missing : Missing}
variable {policy : Policy}
variable {hive : Key}

/- What a call does is what is decided by it. -/
def Performs
    (naming : Naming)
    (missing : Missing)
    (policy : Policy)
    (hive : Key)
    (call : Call) :
    Prop :=
  Along (Policy.apply naming) (Policy.Admits naming) policy
      (decisions ⟨call, (perform naming missing call hive).1⟩) ∧
    Represents naming
      (run (Policy.apply naming) policy (decisions
        ⟨call, (perform naming missing call hive).1⟩))
      (perform naming missing call hive).2

/- A call that decides nothing and changes nothing read. -/
theorem Performs.nothing
    {call : Call}
    (hNone : decisionOf call = none)
    (hRep : Represents naming policy
      (perform naming missing call hive).2) :
    Performs naming missing policy hive call := by
  have hEmpty : decisions
      ⟨call, (perform naming missing call hive).1⟩ = [] := by
    unfold decisions
    dsimp only
    cases (perform naming missing call hive).1 with
    | error e => rfl
    | ok a => rw [hNone]; rfl
  unfold Performs
  rw [hEmpty]
  exact ⟨trivial, hRep⟩

/- A call that is not carried out. -/
theorem Performs.failed
    {call : Call}
    {e : IoError}
    (hRep : Represents naming policy hive)
    (hPerform : perform naming missing call hive =
      (.error e, hive)) :
    Performs naming missing policy hive call := by
  unfold Performs
  rw [hPerform]
  exact ⟨trivial, hRep⟩

/- A call that is, where it finds what is decided of. -/
theorem Performs.done
    {call : Call}
    {a : call.Result}
    {hive' : Key}
    {d : Decision}
    (hPerform : perform naming missing call hive =
      (.ok a, hive'))
    (hDecision : decisionOf call = some d)
    (hAdmits : policy.Admits naming d)
    (hRep : Represents naming (policy.apply naming d) hive') :
    Performs naming missing policy hive call := by
  unfold Performs decisions
  rw [hPerform]
  dsimp only
  rw [hDecision]
  exact ⟨⟨hAdmits, trivial⟩, hRep⟩

theorem Represents.performs_set
    (hRep : Represents naming policy hive)
    {key : Handle}
    {name : Text}
    {value : RegValue}
    {d : Decision}
    (hDecision : decisionOf (.setValue key name value) = some d)
    (hAdmits : ∀ k, hive.follow naming key = some k →
      policy.Admits naming d)
    (hWritten : Represents naming (policy.apply naming d)
      (hive.edit naming (Key.setValue naming name value) key)) :
    Performs naming missing policy hive
      (.setValue key name value) := by
  cases hFollow : hive.follow naming key with
  | none =>
      refine Performs.failed (e := missing) hRep ?_
      rw [perform, hFollow]
  | some k =>
      refine Performs.done (a := ()) ?_ hDecision
        (hAdmits k hFollow) hWritten
      rw [perform, hFollow]

/- Each of the calls that the commands are made of. -/
theorem Represents.performs
    (hRep : Represents naming policy hive)
    {call : Call}
    (hIssued : Issued call) :
    Performs naming missing policy hive call := by
  cases hIssued with
  | openKey parent path =>
      refine Performs.nothing rfl ?_
      rw [perform]
      cases hive.follow naming (parent ++ components path) with
      | none => exact hRep
      | some k => exact hRep
  | certificates =>
      exact Performs.nothing (by decide) hRep.made_certificates
  | add =>
      refine Performs.nothing (by decide) ?_
      rw [perform, components_addKey, ← addPath_eq]
      exact hRep.made_add
  | distrust =>
      have hName : components distrustKey = [distrustKey] := by
        decide
      refine Performs.nothing (by decide) ?_
      rw [perform, hName, ← components_distrustPath_eq]
      exact hRep.made_distrust
  | enter name hUsable =>
      refine Performs.done (perform.eq_2 ..)
        (decisionOf_enter name) trivial ?_
      rw [components_of_usableName hUsable]
      exact hRep.adjust name (fun _ _ hEntry => hEntry)
  | purposes name purposes =>
      refine hRep.performs_set (decisionOf_purposes name purposes)
        (fun k hFollow => hRep.entered hFollow) ?_
      exact hRep.adjust name
        (fun _ _ hEntry => hEntry.setPurposes purposes)
  | certify name der =>
      refine hRep.performs_set (decisionOf_certify name der)
        (fun k hFollow => hRep.entered hFollow) ?_
      exact hRep.adjust name
        (fun _ _ hEntry => hEntry.setCertificate der)
  | note fingerprint reason hSelf =>
      have hNote := hRep.note hSelf (Steps.reasonWritten reason)
      rw [reasonOf_reasonWritten] at hNote
      exact hRep.performs_set
        (decisionOf_note fingerprint reason)
        (fun _ _ => trivial) hNote
  | mode mode =>
      have hMode := hRep.mode
        { ty := .dword, data := Steps.toLeBytes mode }
      rw [compatOf_mode] at hMode
      exact hRep.performs_set (decisionOf_mode mode)
        (fun _ _ => trivial) hMode
  | lift fingerprint =>
      cases hValue : (hive.follow naming
          (components distrustPath)).bind (fun k =>
            k.value naming fingerprint) with
      | none =>
          refine Performs.failed (e := missing) hRep ?_
          rw [perform, hValue]
      | some value =>
          refine Performs.done (a := ()) ?_ rfl
            (hRep.distrusted hValue) (hRep.lift fingerprint)
          rw [perform, hValue]
  | drop name =>
      cases hFollow : hive.follow naming
          (addPath ++ components name) with
      | none =>
          refine Performs.failed (e := missing) hRep ?_
          rw [perform, hFollow]
      | some k =>
          -- a name of several parts leads below an entry
          rcases hParts : components name with
            _ | ⟨first, _ | ⟨second, rest⟩⟩
          · exact absurd hParts (splitAt_ne_nil name)
          · rw [hParts] at hFollow
            refine Performs.done (a := ()) ?_
              (decisionOf_drop _)
              ⟨first, rfl, hRep.entered hFollow⟩
              (hRep.drop first)
            rw [perform, hFollow, Key.deleteAt,
              List.getLast?_concat, List.dropLast_concat]
          · rw [hParts, hRep.follow_below] at hFollow
            cases hFollow
  | listValues key =>
      refine Performs.nothing rfl ?_
      rw [perform]
      cases hive.follow naming key with
      | none => exact hRep
      | some k => exact hRep
  | readValue value => exact Performs.nothing rfl hRep

theorem fits_perform (call : Call) (hive : Key) :
    Fits ⟨call, (perform naming missing call hive).1⟩ := by
  cases call with
  | openKey parent path =>
      rw [perform]
      cases hive.follow naming (parent ++ components path) with
      | none => trivial
      | some k => exact rfl
  | createKey parent path => exact rfl
  | setValue key name value => trivial
  | deleteValue key name => trivial
  | deleteKey key => trivial
  | listValues key => trivial
  | readValue value => trivial

/- Calls refine decisions, also those that are refused. -/
theorem serve_refines :
    Shared.Refines (serve naming missing) Issued Fits decisions
      (Policy.apply naming) (Policy.Admits naming)
      (Represents naming) where
  answer := by
    intro hive call fault
    cases fault with
    | none => exact fits_perform call hive
    | some e =>
        cases call with
        | openKey parent path => trivial
        | createKey parent path => trivial
        | setValue key name value => trivial
        | deleteValue key name => trivial
        | deleteKey key => trivial
        | listValues key => trivial
        | readValue value => trivial
  admitted := by
    intro policy hive call fault hRep hIssued
    cases fault with
    | none => exact (hRep.performs hIssued).1
    | some e => trivial
  related := by
    intro policy hive call fault hRep hIssued
    cases fault with
    | none => exact (hRep.performs hIssued).2
    | some e => exact hRep

section

variable (naming : Naming)
variable (missing : Missing)
variable (debug : Text → Text)
variable (crates : Crates)
variable (hive : Key)

/- A move of one of the clients. -/
abbrev ClientMove : Type :=
  Shared.Move Command (Option IoError)

/- The registry and the clients after some moves. -/
def clients (moves : List ClientMove) :
    Shared Command Key Call Answer Error Done :=
  run (Shared.move (Command.steps debug crates)
    (serve naming missing)) (Shared.idle hive) moves

/- What was decided by then, and by whom. -/
def history (moves : List ClientMove) :
    List (Nat × Decision) :=
  Shared.journal (Command.steps debug crates)
    (serve naming missing) decisions (Shared.idle hive) moves

end

/-
  The decisions are a history in which what is decided of
  something finds it there. The daemon loads, and the operators
  are shown, what the decisions amount to. Each command that
  ended decided what its end says.
-/
structure Accounted
    (naming : Naming)
    (crates : Crates)
    (policy : Policy)
    (w : Shared Command Key Call Answer Error Done)
    (log : List (Nat × Decision)) : Prop where
  admitted : Along (Policy.apply naming)
    (Policy.Admits naming) policy (log.map Prod.snd)
  loaded : configured naming w.state =
    .ok (run (Policy.apply naming) policy
      (log.map Prod.snd)).config
  shown : listing (distrustKeyOf naming w.state) =
    (run (Policy.apply naming) policy
      (log.map Prod.snd)).listing
  came : ∀ (i : Nat) command done,
    w.parties[i]? = some (command, .done done) →
      command.Came crates (ofParty i log) done
  failed : ∀ (i : Nat) command error,
    w.parties[i]? = some (command, .fail error) →
      command.Failed (ofParty i log) error

/-
  So it is in every interleaving of any clients' calls, any of
  which may be refused, and any of which may be the last.
-/
theorem clients_refine
    (naming : Naming)
    (missing : Missing)
    (debug : Text → Text)
    (crates : Crates)
    (policy : Policy)
    (hive : Key)
    (hStart : Represents naming policy hive)
    (moves : List ClientMove) :
    Accounted naming crates policy
      (clients naming missing debug crates hive moves)
      (history naming missing debug crates hive moves) := by
  rcases Shared.run_refines serve_refines
    (fun c => Command.ends debug crates c)
    hStart moves with ⟨hAlong, hRep, hEnds⟩
  refine ⟨hAlong, hRep.configured, hRep.listing, ?_, ?_⟩
  · intro i command done hParty
    exact (hEnds i command _ hParty).1 done rfl
  · intro i command error hParty
    exact (hEnds i command _ hParty).2 error rfl

/- A fingerprint that no certificate is known to have. -/
def someFingerprint : Text :=
  List.replicate 64 'a'

/-
  One client adds a certificate while another distrusts one,
  and a third takes that back, first refused and then not.
-/
def threeClients : List ClientMove :=
  [.enter (.add (some 0) corpName purposeAdded codeSigning),
    .enter (.distrust none someFingerprint "why".toList),
    .enter (.restore someFingerprint)] ++
  [0, 1, 0, 1, 0, 0, 1, 2].map (fun i => .turn i none) ++
  [.turn 2 (some notThere), .enter (.restore someFingerprint)] ++
  [3, 3, 0].map (fun i => .turn i none)

/- What becomes of a registry that was empty. -/
theorem clients_refine_three :
    Accounted exactNaming purposeCrates {}
      (clients exactNaming notThere id purposeCrates Key.empty
        threeClients)
      (history exactNaming notThere id purposeCrates Key.empty
        threeClients) ∧
    history exactNaming notThere id purposeCrates Key.empty
        threeClients =
      [(0, .enter corpName),
        (0, .purposes corpName codeSigning),
        (1, .note someFingerprint "why".toList),
        (3, .lift someFingerprint),
        (0, .certify corpName purposeAdded)] := by
  refine ⟨clients_refine exactNaming notThere id purposeCrates
    {} Key.empty (represents_empty exactNaming) threeClients, ?_⟩
  decide +kernel

end ClientCore

end Trustd
