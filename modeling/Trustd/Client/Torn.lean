import Trustd.Client.Watched

/-
  An addition that is read while it is written.

  The writer leads from one phase of the registry to the next,
  and the daemon's reads are shown phases that never go back.
  What it reports of the addition's name is a certificate of
  one phase with the purposes of a later one.

  Key definitions include:
    * `Trustd.ClientCore.Whole`
    * `Trustd.ClientCore.Untorn`
    * `Trustd.ClientCore.ReadsWhole`

  Key theorems include:
    * `Trustd.ClientCore.untorn_iff`
    * `Trustd.ClientCore.exists_load_jump`
    * `Trustd.ClientCore.load_whole_iff`
-/

------------------------------------------------------------
-- What Is Made Of An Addition
------------------------------------------------------------

namespace Trustd

namespace ClientCore

open General Registry Store

variable {naming : Naming}
variable {name : Text}
variable {der : Bytes}
variable {purposes : List Text}
variable {hive : Key}
variable {j k : Nat}

/- `Add` in a phase, if it is there. -/
theorem add_phase
    {add : Key}
    (hAdd : (phase naming name der purposes hive k).follow
      naming addPath = some add) :
    add.subkeys = (addBefore naming hive).subkeys ∨
      ∃ key, add.subkeys =
        put naming.fold (addBefore naming hive).subkeys
          (Text.utf8 name) key := by
  have hBefore : hive.follow naming addPath = some add →
      add.subkeys = (addBefore naming hive).subkeys := by
    intro hThere
    rw [addBefore, hThere]
    rfl
  have hEdit : ∀ f, (hive.edit naming f
      (addPath ++ [name])).follow naming addPath = some add →
      ∃ key, add.subkeys =
        put naming.fold (addBefore naming hive).subkeys
          (Text.utf8 name) key := by
    intro f hThere
    rw [Key.edit_append, Key.follow_edit] at hThere
    cases hThere
    exact ⟨_, rfl⟩
  rcases k with _ | _ | _ | k
  · exact Or.inl (hBefore hAdd)
  · rw [phase, addPath_eq, Key.follow_edit_id _
      (List.cons_ne_nil _ _), ← addPath_eq] at hAdd
    exact Or.inl (hBefore hAdd)
  · rw [phase, Key.follow_edit] at hAdd
    cases hAdd
    exact Or.inl rfl
  · rcases k with _ | _ | k
    · exact Or.inr (hEdit _ hAdd)
    · exact Or.inr (hEdit _ hAdd)
    · exact Or.inr (hEdit _ hAdd)

/- The names before are listed in every phase. -/
theorem mem_add_phase
    (hDistinct : Distinct naming.fold
      (addBefore naming hive).subkeys)
    {add : Key}
    (hAdd : (phase naming name der purposes hive k).follow
      naming addPath = some add)
    {e : Bytes × Key}
    (he : e ∈ (addBefore naming hive).subkeys) :
    e.1 ∈ add.subkeys.map Prod.fst := by
  rcases add_phase hAdd with hSame | ⟨key, hPut⟩
  · rw [hSame]
    exact List.mem_map_of_mem he
  · rw [hPut]
    by_cases hName : naming.fold e.1 =
        naming.fold (Text.utf8 name)
    · refine List.mem_map.mpr ⟨(e.1, key), ?_, rfl⟩
      rw [mem_put_iff hDistinct, nameIn_of_mem hDistinct he
        hName]
      exact Or.inl rfl
    · refine List.mem_map.mpr ⟨e, ?_, rfl⟩
      rw [mem_put_iff hDistinct]
      exact Or.inr ⟨he, hName⟩

/- An entry of before is found under its name. -/
theorem follow_of_mem
    (hDistinct : Distinct naming.fold
      (addBefore naming hive).subkeys)
    {e : Bytes × Key}
    (he : e ∈ (addBefore naming hive).subkeys)
    (hLegible : Legible e.1) :
    hive.follow naming (entryPath (textOf e.1)) =
      some e.2 := by
  rw [follow_entryPath]
  unfold addBefore at hDistinct he
  cases hAdd : hive.follow naming addPath with
  | none =>
      rw [hAdd] at he
      cases he
  | some add =>
      rw [hAdd] at hDistinct he
      rw [Option.bind_some, Key.child, hLegible.utf8_textOf]
      exact hDistinct.entry_of_mem he

/- What is read shows that what is beside the entry can be. -/
theorem legibleBeside_of_readOf
    (hDistinct : Distinct naming.fold
      (addBefore naming hive).subkeys)
    {config : Config}
    (hRead : ReadOf naming
      (phase naming name der purposes hive) j config) :
    LegibleBeside naming name hive := by
  rcases hRead.names with ⟨k, add, hAdd, hTurns⟩
  refine ⟨fun e he => ?_, fun key hKey => ?_⟩
  · rcases hTurns e.1 (mem_add_phase hDistinct hAdd he) with
      ⟨r, hTurn⟩
    have hLegible : Legible e.1 := by
      cases r with
      | none => exact hTurn.1
      | some a => exact hTurn.1
    have hFollow := follow_of_mem hDistinct he hLegible
    refine ⟨hLegible, fun hOther der' hDer' => ?_⟩
    rw [← hLegible.utf8_textOf] at hOther
    cases r with
    | none =>
        rcases hTurn.2 with ⟨l, key, hKey, hNone⟩
        rw [follow_other hOther, hFollow] at hKey
        cases hKey
        rw [hNone] at hDer'
        cases hDer'
    | some a =>
        rcases hTurn with ⟨-, hName, -, l, -, key, -, -, -, -,
          hKey, hParts, -⟩
        rw [hName, follow_other hOther, hFollow] at hKey
        cases hKey
        exact hParts
  · rcases hRead.distrust with ⟨k, hDistrust⟩
    exact hDistrust key ((distrustKeyOf_phase k).trans hKey)

/-
  An addition of the name that is read has the certificate of
  one phase and the purposes of another one.
-/
theorem MadeOf.named
    {a : Addition}
    (hMade : MadeOf naming
      (phase naming name der purposes hive) j a)
    (hNamed : isNamed naming name a = true) :
    ∃ k l, k ≤ l ∧ l ≤ j ∧
      (entryOf naming der purposes
        (entryBefore naming name hive) k).certificate naming =
          some a.der ∧
      (∀ p ∈ (entryOf naming der purposes
        (entryBefore naming name hive) l).purposeParts naming,
        Legible p) ∧
      a.purposes = ((entryOf naming der purposes
        (entryBefore naming name hive) l).purposeParts
          naming).map textOf := by
  rcases hMade with ⟨k, l, key, key', hkl, hlj, hKey,
    hCertificate, hKey', hParts, hPurposes⟩
  have hSame : naming.fold (Text.utf8 a.name) =
      naming.fold (Text.utf8 name) := of_decide_eq_true hNamed
  rw [follow_entryPath_congr hSame] at hKey hKey'
  cases follow_phase hKey
  cases follow_phase hKey'
  exact ⟨k, l, hkl, hlj, hCertificate, hParts, hPurposes⟩

/- The texts of the purposes once an addition is entered. -/
def partsEntered
    (naming : Naming)
    (name : Text)
    (purposes : List Text)
    (hive : Key) :
    List Bytes :=
  (purposed naming purposes
    (entryBefore naming name hive)).purposeParts naming

/- The pair of before, or the pair that was asked for. -/
def Whole
    (naming : Naming)
    (name : Text)
    (der : Bytes)
    (purposes : List Text)
    (hive : Key)
    (a : Addition) :
    Prop :=
  (a.der = der ∧
    purposesMeant a.purposes = purposesMeant purposes) ∨
  ((entryBefore naming name hive).certificate naming =
      some a.der ∧
    (∀ p ∈ (entryBefore naming name hive).purposeParts naming,
      Legible p) ∧
    purposesMeant a.purposes = purposesMeant
      (((entryBefore naming name hive).purposeParts
        naming).map textOf))

/- The purposes entered mean those that were asked for. -/
def Asked
    (naming : Naming)
    (name : Text)
    (purposes : List Text)
    (hive : Key) :
    Prop :=
  purposesMeant ((partsEntered naming name purposes
    hive).map textOf) = purposesMeant purposes

/- They mean the same as the purposes of before. -/
def Kept
    (naming : Naming)
    (name : Text)
    (purposes : List Text)
    (hive : Key) :
    Prop :=
  (∀ p ∈ (entryBefore naming name hive).purposeParts naming,
    Legible p) ∧
  purposesMeant ((partsEntered naming name purposes
    hive).map textOf) = purposesMeant
      (((entryBefore naming name hive).purposeParts
        naming).map textOf)

/-
  The purposes entered cannot be read; or they mean those
  that were asked for, where no complete entry was there;
  those, or the ones of before, where it was one of the same
  certificate; and both, where it was one of another.
-/
def Untorn
    (naming : Naming)
    (name : Text)
    (der : Bytes)
    (purposes : List Text)
    (hive : Key) :
    Prop :=
  (∀ p ∈ partsEntered naming name purposes hive,
    Legible p) →
  match (entryBefore naming name hive).certificate naming with
  | none => Asked naming name purposes hive
  | some before =>
      if before = der then
        Asked naming name purposes hive ∨
          Kept naming name purposes hive
      else
        Asked naming name purposes hive ∧
          Kept naming name purposes hive

/- With the purposes entered a certificate makes a whole. -/
theorem whole_entered_iff
    {a : Addition}
    (hPurposes : a.purposes =
      (partsEntered naming name purposes hive).map textOf) :
    Whole naming name der purposes hive a ↔
      (a.der = der ∧ Asked naming name purposes hive) ∨
        ((entryBefore naming name hive).certificate naming =
            some a.der ∧ Kept naming name purposes hive) := by
  unfold Whole
  rw [hPurposes]
  rfl

/-
  It does so for the new certificate and for the one of
  before if and only if they are not torn apart.
-/
theorem untorn_iff :
    Untorn naming name der purposes hive ↔
      ((∀ p ∈ partsEntered naming name purposes hive,
        Legible p) →
      ∀ a : Addition, a.purposes =
          (partsEntered naming name purposes hive).map textOf →
        (a.der = der ∨
          (entryBefore naming name hive).certificate naming =
            some a.der) →
          Whole naming name der purposes hive a) := by
  unfold Untorn
  refine imp_congr_right fun hLegible => ?_
  constructor
  · intro hUntorn a hPurposes hDer
    rw [whole_entered_iff hPurposes]
    cases hBefore : (entryBefore naming name hive).certificate
        naming with
    | none =>
        rw [hBefore] at hUntorn hDer
        rcases hDer with rfl | hDer
        · exact Or.inl ⟨rfl, hUntorn⟩
        · cases hDer
    | some before =>
        rw [hBefore] at hUntorn hDer
        dsimp only at hUntorn
        by_cases hSame : before = der
        · rw [if_pos hSame] at hUntorn
          subst hSame
          have hBoth : a.der = before :=
            hDer.elim id (fun h => (Option.some.inj h).symm)
          rcases hUntorn with hAsked | hKept
          · exact Or.inl ⟨hBoth, hAsked⟩
          · exact Or.inr ⟨congrArg some hBoth.symm, hKept⟩
        · rw [if_neg hSame] at hUntorn
          rcases hDer with hDer | hDer
          · exact Or.inl ⟨hDer, hUntorn.1⟩
          · exact Or.inr ⟨hDer, hUntorn.2⟩
  · intro hWhole
    have hNew := hWhole
      { name, der, purposes := (partsEntered naming name
          purposes hive).map textOf } rfl (Or.inl rfl)
    rw [whole_entered_iff rfl] at hNew
    cases hBefore : (entryBefore naming name hive).certificate
        naming with
    | none =>
        rw [hBefore] at hNew
        rcases hNew with ⟨-, hAsked⟩ | ⟨hDer, -⟩
        · exact hAsked
        · cases hDer
    | some before =>
        have hOld := hWhole
          { name, der := before
            purposes := (partsEntered naming name
              purposes hive).map textOf } rfl (Or.inr hBefore)
        rw [whole_entered_iff rfl] at hOld
        rw [hBefore] at hNew hOld
        dsimp only at hNew hOld ⊢
        by_cases hSame : before = der
        · rw [if_pos hSame]
          rcases hNew with ⟨-, hAsked⟩ | ⟨-, hKept⟩
          · exact Or.inl hAsked
          · exact Or.inr hKept
        · rw [if_neg hSame]
          constructor
          · rcases hNew with ⟨-, hAsked⟩ | ⟨hDer, -⟩
            · exact hAsked
            · exact absurd (Option.some.inj hDer) hSame
          · rcases hOld with ⟨hDer, -⟩ | ⟨-, hKept⟩
            · exact absurd hDer hSame
            · exact hKept

theorem entryOf_of_le
    (key : Key)
    (hEarly : k ≤ 3) :
    entryOf naming der purposes key k = key := by
  match k with
  | 0 => rfl
  | 1 => rfl
  | 2 => rfl
  | 3 => rfl

/- Made of what was there before it is the pair of before. -/
theorem whole_of_early
    {a : Addition}
    (hMade : MadeOf naming
      (phase naming name der purposes hive) j a)
    (hNamed : isNamed naming name a = true)
    (hEarly : j ≤ 3) :
    Whole naming name der purposes hive a := by
  rcases hMade.named hNamed with ⟨k, l, hkl, hlj, hCertificate,
    hParts, hPurposes⟩
  rw [entryOf_of_le _ (by omega)] at hCertificate
  rw [entryOf_of_le _ (by omega)] at hParts
  rw [entryOf_of_le _ (by omega)] at hPurposes
  exact Or.inr ⟨hCertificate, hParts, by rw [hPurposes]⟩

/- What is made of the phases is whole unless it is torn. -/
theorem whole_of_untorn
    (hDer : der ≠ [])
    (hUntorn : Untorn naming name der purposes hive)
    {a : Addition}
    (hMade : MadeOf naming
      (phase naming name der purposes hive) j a)
    (hNamed : isNamed naming name a = true) :
    Whole naming name der purposes hive a := by
  rcases hMade.named hNamed with ⟨k, l, hkl, hlj, hCertificate,
    hParts, hPurposes⟩
  rw [certificate_entryOf hDer] at hCertificate
  rw [purposeParts_entryOf] at hPurposes hParts
  by_cases hEarly : l ≤ 3
  · rw [if_pos hEarly] at hPurposes hParts
    rw [if_pos (by omega)] at hCertificate
    exact Or.inr ⟨hCertificate, hParts, by rw [hPurposes]⟩
  · rw [if_neg hEarly] at hPurposes hParts
    refine untorn_iff.mp hUntorn hParts a hPurposes ?_
    by_cases hOld : k ≤ 4
    · rw [if_pos hOld] at hCertificate
      exact Or.inr hCertificate
    · rw [if_neg hOld] at hCertificate
      exact Or.inl (Option.some.inj hCertificate).symm

end ClientCore

end Trustd

------------------------------------------------------------
-- A Certificate And Later Purposes
------------------------------------------------------------

namespace Trustd

namespace ClientCore

open General Registry Store

variable {naming : Naming}
variable {name : Text}
variable {der : Bytes}
variable {purposes : List Text}
variable {hive : Key}
variable {k : Nat}

/- What is listed in a phase is the name, or was before. -/
theorem listed_phase
    (hDistinct : Distinct naming.fold
      (addBefore naming hive).subkeys)
    {add : Key}
    (hAdd : (phase naming name der purposes hive k).follow
      naming addPath = some add)
    {n : Bytes}
    (hListed : n ∈ add.subkeys.map Prod.fst) :
    n = nameIn naming.fold (addBefore naming hive).subkeys
        (Text.utf8 name) ∨
      ∃ e ∈ (addBefore naming hive).subkeys, e.1 = n := by
  rcases List.mem_map.mp hListed with ⟨e, he, rfl⟩
  rcases add_phase hAdd with hSame | ⟨key, hPut⟩
  · rw [hSame] at he
    exact Or.inr ⟨e, he, rfl⟩
  · rw [hPut, mem_put_iff hDistinct] at he
    rcases he with rfl | ⟨he, -⟩
    · exact Or.inl rfl
    · exact Or.inr ⟨e, he, rfl⟩

theorem distinct_phase
    (hDistinct : Distinct naming.fold
      (addBefore naming hive).subkeys)
    {add : Key}
    (hAdd : (phase naming name der purposes hive k).follow
      naming addPath = some add) :
    Distinct naming.fold add.subkeys := by
  rcases add_phase hAdd with hSame | ⟨key, hPut⟩
  · rw [hSame]
    exact hDistinct
  · rw [hPut]
    exact hDistinct.put _ _

theorem legible_listed
    (hDistinct : Distinct naming.fold
      (addBefore naming hive).subkeys)
    (hBeside : LegibleBeside naming name hive)
    {add : Key}
    (hAdd : (phase naming name der purposes hive k).follow
      naming addPath = some add)
    {n : Bytes}
    (hListed : n ∈ add.subkeys.map Prod.fst) :
    Legible n := by
  rcases listed_phase hDistinct hAdd hListed with
    rfl | ⟨e, he, rfl⟩
  · exact legible_nameIn (fun e he => (hBeside.1 e he).1)
  · exact (hBeside.1 e he).1

/- The other names can be read in every phase. -/
theorem readable_phase
    (hDistinct : Distinct naming.fold
      (addBefore naming hive).subkeys)
    (hBeside : LegibleBeside naming name hive)
    {add : Key}
    (hAdd : (phase naming name der purposes hive k).follow
      naming addPath = some add)
    {n : Bytes}
    (hListed : n ∈ add.subkeys.map Prod.fst)
    (hOther : naming.fold n ≠
      naming.fold (Text.utf8 name))
    (l : Nat) :
    Readable naming
      (phase naming name der purposes hive l) n := by
  rcases listed_phase hDistinct hAdd hListed with
    rfl | ⟨e, he, rfl⟩
  · exact absurd (fold_nameIn _ _) hOther
  · rcases hBeside.1 e he with ⟨hLegible, hEntry⟩
    refine ⟨hLegible, e.2, ?_, hEntry hOther⟩
    rw [← hLegible.utf8_textOf] at hOther
    rw [follow_other hOther]
    exact follow_of_mem hDistinct he hLegible

/-
  The certificate of any phase is read together with the
  purposes that are there in the end.
-/
theorem exists_load_jump
    (hDistinct : Distinct naming.fold
      (addBefore naming hive).subkeys)
    (hBeside : LegibleBeside naming name hive)
    (hParts : ∀ p ∈ partsEntered naming name purposes hive,
      Legible p)
    {key : Key}
    (hKey : (phase naming name der purposes hive k).follow
      naming (entryPath name) = some key)
    {d : Bytes}
    (hCertificate : key.certificate naming = some d) :
    ∃ config a, a ∈ config.additions ∧
      isNamed naming name a = true ∧ a.der = d ∧
      a.purposes = (partsEntered naming name purposes
        hive).map textOf ∧
      Jumps (phase naming name der purposes hive k)
        (withAddition naming name der purposes hive)
        (loadWatched naming) config := by
  have hEntry := hKey
  rw [follow_entryPath] at hEntry
  rcases Option.bind_eq_some_iff.mp hEntry with
    ⟨add, hAdd, hChild⟩
  have hLast : (phase naming name der purposes hive 5).follow
      naming (entryPath name) = some (entered naming der
        purposes (entryBefore naming name hive)) := by
    rw [entryBefore_eq]
    exact Key.follow_edit _ _ _
  have hEntry' := hLast
  rw [follow_entryPath] at hEntry'
  rcases Option.bind_eq_some_iff.mp hEntry' with
    ⟨add', hAdd', -⟩
  rcases mem_of_entry hChild with ⟨n, hMem, hName⟩
  have hListed : n ∈ add.subkeys.map Prod.fst :=
    List.mem_map.mpr ⟨_, hMem, rfl⟩
  have hLegible := legible_listed hDistinct hBeside hAdd hListed
  have hSame : naming.fold (Text.utf8 (textOf n)) =
      naming.fold (Text.utf8 name) := by
    rw [hLegible.utf8_textOf, hName]
  have hPurposes : (entered naming der purposes
      (entryBefore naming name hive)).purposeParts naming =
        partsEntered naming name purposes hive :=
    purposeParts_entryOf _ 5
  rw [← follow_entryPath_congr hSame] at hKey hLast
  rw [← hPurposes] at hParts
  have hTurn := loadAddition_jumps hLegible hAdd hKey
    hCertificate hLast hParts
  rcases List.append_of_mem hListed with
    ⟨names, later, hSplit⟩
  -- no other name that is listed is the entry's
  have hNodup : ((names ++ n :: later).map
      naming.fold).Nodup := by
    rw [← hSplit, List.map_map]
    exact distinct_phase hDistinct hAdd
  rw [List.map_append, List.map_cons, List.nodup_middle,
    List.nodup_cons, hName, ← List.map_append] at hNodup
  have hOthers : ∀ x ∈ names ++ later, ∀ l, Readable naming
      (phase naming name der purposes hive l) x := by
    intro x hx l
    refine readable_phase hDistinct hBeside hAdd ?_ ?_ l
    · rw [hSplit]
      rcases List.mem_append.mp hx with hx | hx
      · exact List.mem_append_left _ hx
      · exact List.mem_append_right _
          (List.mem_cons_of_mem _ hx)
    · intro hFold
      exact hNodup.1 (List.mem_map.mpr ⟨x, hx, hFold⟩)
  rcases load_jumps hAdd hAdd' hTurn hSplit
    (fun x hx => hOthers x (List.mem_append_left _ hx) k)
    (fun x hx => hOthers x (List.mem_append_right _ hx) 5)
    (fun key hKey => hBeside.2 key
      ((distrustKeyOf_phase 5).symm.trans hKey)) with
    ⟨config, hAddition, hLoad⟩
  refine ⟨config, _, hAddition, decide_eq_true hSame, rfl, ?_,
    hLoad⟩
  rw [hPurposes]

/- What is whole depends on the pair alone. -/
theorem Whole.congr
    {a b : Addition}
    (hDer : a.der = b.der)
    (hPurposes : a.purposes = b.purposes)
    (hWhole : Whole naming name der purposes hive a) :
    Whole naming name der purposes hive b := by
  unfold Whole at hWhole ⊢
  rw [hDer, hPurposes] at hWhole
  exact hWhole

end ClientCore

end Trustd

------------------------------------------------------------
-- Adding While The Daemon Reads
------------------------------------------------------------

namespace Trustd

namespace ClientCore

open General Registry Store Cert

/-
  However an addition, whatever stops it, is interleaved with
  the reads of a load that succeeds, what is reported of its
  name is the pair of before or the pair that was asked for.
-/
def ReadsWhole
    (naming : Naming)
    (missing : Missing)
    (debug : Text → Text)
    (crates : Crates)
    (now : Option Int)
    (hive : Key)
    (name : Text)
    (der : Bytes)
    (purposes : List Text) :
    Prop :=
  ∀ faults views config rest,
    Interleaves (add naming missing debug crates now name der
      purposes (Machine.start hive faults)).2.history views →
    loadWatched naming views = .ok (config, rest) →
    ∀ a ∈ config.additions, isNamed naming name a = true →
      Whole naming name der purposes hive a

/-
  It is so if and only if the addition is refused, what is
  beside the entry cannot be read, or the two pairs are not
  torn apart.
-/
theorem load_whole_iff
    (naming : Naming)
    (missing : Missing)
    (debug : Text → Text)
    (crates : Crates)
    (hEmpty : ∀ certificate,
      crates.fromDer [] ≠ .ok certificate)
    (now : Option Int)
    (hive : Key)
    (hDistinct : ∀ key, hive.follow naming addPath = some key →
      Distinct naming.fold key.subkeys)
    (name : Text)
    (der : Bytes)
    (purposes : List Text) :
    ReadsWhole naming missing debug crates now hive name der
      purposes ↔
    (usableName name = true →
      ∀ parsed, vet crates now der = .ok parsed →
        LegibleBeside naming name hive →
          Untorn naming name der purposes hive) := by
  have hDistinct := distinct_addBefore hDistinct
  constructor
  · intro hAll hUsable parsed hVet hBeside
    have hDer := ne_nil_of_vet hEmpty hVet
    have hEnds := Climbs.ends
      (@add_climbs naming missing debug crates now name der
        purposes hive hUsable parsed hVet) (fun _ => none)
          (fun _ => rfl)
    rw [untorn_iff]
    intro hParts a hPurposes hPair
    rcases hPair with hNew | hOld
    -- all is read at the end
    · have hKey : (phase naming name der purposes hive 5).follow
          naming (entryPath name) = some (entered naming der
            purposes (entryBefore naming name hive)) := by
        rw [entryBefore_eq]
        exact Key.follow_edit _ _ _
      rcases exists_load_jump hDistinct hBeside hParts hKey
        (certificate_entered hDer _) with
        ⟨config, b, hb, hNamed, hSame, hSamePurposes, hJumps⟩
      rcases hJumps.exists_views with ⟨time, rest, hLoad⟩
      have hViews := interleaves_last hEnds.2
      have hStays : (fun n => if n < time then
          phase naming name der purposes hive 5
            else withAddition naming name der purposes hive) =
          fun _ => phase naming name der purposes hive 5 := by
        funext n
        exact ite_self _
      rw [← hStays] at hViews
      exact (hAll _ _ config rest hViews hLoad b hb
        hNamed).congr (hSame.trans hNew.symm)
          (hSamePurposes.trans hPurposes.symm)
    -- the certificate is read at the beginning
    · have hKey : (phase naming name der purposes hive 0).follow
          naming (entryPath name) =
            some (entryBefore naming name hive) := by
        rw [entryBefore_eq] at hOld ⊢
        rw [phase]
        cases hThere : hive.follow naming (entryPath name) with
        | none =>
            rw [hThere] at hOld
            cases hOld
        | some key => rfl
      rcases exists_load_jump hDistinct hBeside hParts hKey
        hOld with
        ⟨config, b, hb, hNamed, hSame, hSamePurposes, hJumps⟩
      rcases hJumps.exists_views with ⟨time, rest, hLoad⟩
      have hViews := interleaves_jump hEnds.1 hEnds.2 time
      exact (hAll _ _ config rest hViews hLoad b hb
        hNamed).congr hSame (hSamePurposes.trans hPurposes.symm)
  · intro hCondition faults views config rest hViews hLoad a ha
      hNamed
    have hAny : config.additions ≠ [] := by
      intro hNone
      rw [hNone] at ha
      cases ha
    by_cases hMade : usableName name = true ∧
        ∃ parsed, vet crates now der = .ok parsed
    · rcases hMade with ⟨hUsable, parsed, hVet⟩
      rcases (@add_climbs naming missing debug crates now name
        der purposes hive hUsable parsed hVet).turns faults with
        ⟨turns, hOrder, hLe, hHistory⟩
      rw [phase] at hHistory
      rw [hHistory] at hViews
      rcases load_watches views config rest
        (hViews.sees hOrder hLe) hLoad with ⟨-, -, -, hRead⟩
      have hRead := hRead hAny
      exact whole_of_untorn (ne_nil_of_vet hEmpty hVet)
        (hCondition hUsable parsed hVet
          (legibleBeside_of_readOf hDistinct hRead))
        (hRead.additions a ha) hNamed
    -- the registry stays as it was
    · have hStays := @add_stays naming missing debug crates now
        name der purposes (fun hUsable parsed hVet =>
          hMade ⟨hUsable, parsed, hVet⟩)
        (Machine.start hive faults)
      rw [hStays] at hViews
      have hOrder : [0].Pairwise (· ≤ ·) :=
        List.pairwise_singleton _ _
      have hSees : Sees (phase naming name der purposes hive)
          0 0 views := by
        refine Interleaves.sees hOrder ?_ hViews
        intro k hk
        exact (List.mem_singleton.mp hk).le
      rcases load_watches views config rest hSees hLoad with
        ⟨-, -, -, hRead⟩
      exact whole_of_early ((hRead hAny).additions a ha) hNamed
        (Nat.zero_le 3)

/- A first addition is read whole or not at all. -/
theorem load_whole_first :
    Untorn exactNaming corpName purposeAdded codeSigning
      Key.empty ∧
    ReadsWhole exactNaming notThere id purposeCrates (some 0)
      Key.empty corpName purposeAdded codeSigning := by
  have hParts : partsEntered exactNaming corpName codeSigning
      Key.empty = codeSigning.map Text.utf8 := by
    decide
  have hUntorn : Untorn exactNaming corpName purposeAdded
      codeSigning Key.empty := by
    intro hLegible
    have hAsked : Asked exactNaming corpName codeSigning
        Key.empty := by
      rw [Asked, hParts, List.map_map, codeSigning,
        List.map_singleton, Function.comp, textOf_utf8]
    exact hAsked
  refine ⟨hUntorn, (load_whole_iff exactNaming notThere id
    purposeCrates purposeCrates_nonempty (some 0) Key.empty ?_
    corpName purposeAdded codeSigning).mpr
      (fun _ _ _ _ => hUntorn)⟩
  intro key hKey
  cases hKey

/- The default purpose, asked for by its name. -/
def serverOnly : List Text :=
  [serverAuth]

/-
  An addition of another certificate for another purpose: the
  certificate of before is read with the new purposes.
-/
theorem load_torn :
    (∃ views config rest,
      Interleaves (add exactNaming notThere id purposeCrates
        (some 0) corpName purposeShipped serverOnly
        (Machine.start addedBefore
          (fun _ => none))).2.history views ∧
      loadWatched exactNaming views = .ok (config, rest) ∧
      config.additions = [{
        name := corpName
        der := purposeAdded
        purposes := serverOnly }]) ∧
    ¬ ReadsWhole exactNaming notThere id purposeCrates (some 0)
      addedBefore corpName purposeShipped serverOnly := by
  have hVet : ∃ parsed, vet purposeCrates (some 0)
      purposeShipped = .ok parsed := by
    have hAny : (vet purposeCrates (some 0)
        purposeShipped).toOption.isSome = true := by
      decide +kernel
    cases hRead : vet purposeCrates (some 0) purposeShipped with
    | error e =>
        rw [hRead] at hAny
        cases hAny
    | ok parsed => exact ⟨parsed, rfl⟩
  rcases hVet with ⟨parsed, hVet⟩
  have hEnds := Climbs.ends
    (@add_climbs exactNaming notThere id purposeCrates (some 0)
      corpName purposeShipped serverOnly addedBefore
      (by decide) parsed hVet) (fun _ => none) (fun _ => rfl)
  -- the purposes are written between the eighth and ninth read
  have hViews := interleaves_jump hEnds.1 hEnds.2 8
  have hAny : (loadWatched exactNaming (fun n => if n < 8 then
      phase exactNaming corpName purposeShipped serverOnly
        addedBefore 0
      else phase exactNaming corpName purposeShipped serverOnly
        addedBefore 5)).toOption.any (fun r =>
          r.1.additions = [{
            name := corpName
            der := purposeAdded
            purposes := serverOnly }]) = true := by
    decide +kernel
  rcases General.exists_ok_of_any hAny with
    ⟨⟨config, rest⟩, hLoad, hAdditions⟩
  have hAdditions := of_decide_eq_true hAdditions
  refine ⟨⟨_, config, rest, hViews, hLoad, hAdditions⟩,
    fun hWhole => ?_⟩
  have hOne := hWhole _ _ config rest hViews hLoad
    { name := corpName, der := purposeAdded
      purposes := serverOnly }
    (by rw [hAdditions]; exact List.mem_singleton_self _)
    (by decide)
  rcases hOne with ⟨hDer, -⟩ | ⟨-, -, hMeant⟩
  · revert hDer
    decide +kernel
  · have hParts : (entryBefore exactNaming corpName
        addedBefore).purposeParts exactNaming =
          codeSigning.map Text.utf8 := by
      decide
    rw [hParts, List.map_map, codeSigning, List.map_singleton,
      Function.comp, textOf_utf8] at hMeant
    revert hMeant
    decide

end ClientCore

end Trustd
