import Trustd.Daemon.Staging
import Trustd.General.Numbering

/-
  The hashed files of a rendering: their names, their numbers
  and what they replace where they are put.

  Key definitions include:
    * `Trustd.Render.Hashed`
    * `Trustd.Render.HashedFor`
    * `Trustd.Render.Rewritten`

  Key theorems include:
    * `Trustd.Render.hashedFiles_eq`
    * `Trustd.Render.hashedFor_hashedList`
    * `Trustd.Render.foldl_putFile`
-/

------------------------------------------------------------
-- Hashed Files
------------------------------------------------------------

namespace Trustd

namespace Render

open General Store Cert

/- The name under a subject hash with a sequence number. -/
def hashedName (hash : Text) (sequence : Nat) : Text :=
  hash ++ ['.'] ++ Text.decimal sequence

/- One hashed file: whose it is, its number, its bytes. -/
structure Hashed where
  root : Entry
  sequence : Nat
  data : Bytes

def Hashed.hash (f : Hashed) : Text :=
  f.root.parsed.subjectHash

def Hashed.file (f : Hashed) : Text × Leaf :=
  (hashedName f.hash f.sequence, .file f.data)

/- What `from_pem` reads of a file. -/
def Hashed.ders (f : Hashed) : Option (List Bytes) :=
  (Text.fromUtf8 f.data).map fromPem

/-
  One file for each of the roots, that reads as its
  certificate, and those of a hash numbered from zero.
-/
structure HashedFor
    (roots : List Entry)
    (files : List Hashed) :
    Prop where
  each : files.map Hashed.root = roots
  reads : ∀ f ∈ files, f.ders = some [f.root.parsed.der]
  numbers : ∀ hash,
    ((files.filter (fun f => f.hash = hash)).map
        Hashed.sequence).Perm
      (List.range (roots.countP
        (fun r => r.parsed.subjectHash = hash)))

/-
  The names a render writes inside the directory: the bundle
  and the numbers in use of each hash.
-/
def Rewritten (roots : List Entry) (name : Text) : Prop :=
  name = bundleName ∨
    ∃ hash sequence, name = hashedName hash sequence ∧
      sequence < roots.countP
        (fun r => r.parsed.subjectHash = hash)

theorem dot_not_mem_decimal (n : Nat) :
    '.' ∉ Text.decimal n := by
  intro hMem
  exact absurd (Nat.isDigit_of_mem_toDigits (by decide)
    (by decide) hMem) (by decide)

theorem decimal_injective
    {m n : Nat}
    (hSame : Text.decimal m = Text.decimal n) :
    m = n := by
  have hRead := congrArg (Nat.ofDigitChars 10 · 0) hSame
  simpa [Text.decimal, Nat.ofDigitChars_ten_toDigits]
    using hRead

/- A name tells its hash and its number. -/
theorem hashedName_inj
    {hash hash' : Text}
    {n n' : Nat}
    (hSame : hashedName hash n = hashedName hash' n') :
    hash = hash' ∧ n = n' := by
  unfold hashedName at hSame
  rw [List.append_assoc, List.append_assoc,
    List.singleton_append, List.singleton_append] at hSame
  rcases append_cons_inj_last (dot_not_mem_decimal n)
    (dot_not_mem_decimal n') hSame with ⟨hHash, hNumber⟩
  exact ⟨hHash, decimal_injective hNumber⟩

theorem hashedName_ne_bundleName
    (hash : Text)
    (n : Nat) :
    hashedName hash n ≠ bundleName := by
  intro hSame
  have hCut : bundleName =
      "ca-certificates".toList ++ '.' :: "crt".toList := rfl
  rw [hashedName, hCut, List.append_assoc,
    List.singleton_append] at hSame
  have hNumber := (append_cons_inj_last
    (dot_not_mem_decimal n) (by decide) hSame).2
  have hDigit : 'c' ∈ Text.decimal n := by
    rw [hNumber]
    exact List.mem_cons_self
  exact absurd (Nat.isDigit_of_mem_toDigits (by decide)
    (by decide) hDigit) (by decide)

end Render

end Trustd

------------------------------------------------------------
-- The Naming Loop
------------------------------------------------------------

namespace Trustd

namespace Render

open General Store Cert

theorem find?_map_used
    (used : List (Text × Nat))
    (hash other : Text) :
    (used.map (fun u =>
        if u.1 = hash then (hash, u.2 + 1) else u)).find?
          (fun u => u.1 = other) =
      (used.find? (fun u => u.1 = other)).map (fun u =>
        if u.1 = hash then (hash, u.2 + 1) else u) := by
  rw [List.find?_map]
  congr 2
  funext u
  by_cases hHash : u.1 = hash
  · simp [hHash]
  · simp [hHash]

/- `used` counts the files written under each hash. -/
theorem nextSequence_record
    (used : List (Text × Nat))
    (hash : Text) :
    nextSequence (recordSequence used hash) =
      Function.update (nextSequence used) hash
        (nextSequence used hash + 1) := by
  funext other
  unfold recordSequence
  by_cases hUsed : used.any (fun u => u.1 = hash) = true
  · rw [if_pos hUsed, nextSequence, find?_map_used]
    by_cases hOther : other = hash
    · subst hOther
      rw [Function.update_self, nextSequence]
      rcases List.any_eq_true.mp hUsed with ⟨u, hMem, hu⟩
      cases hFind : used.find? (fun u => u.1 = other) with
      | none =>
          exact absurd hu (List.find?_eq_none.mp hFind u hMem)
      | some u =>
          have hFound := List.find?_some hFind
          have hKey : u.1 = other := of_decide_eq_true hFound
          simp [hKey]
    · rw [Function.update_of_ne hOther, nextSequence]
      cases hFind : used.find? (fun u => u.1 = other) with
      | none => rfl
      | some u =>
          have hFound := List.find?_some hFind
          have hKey : u.1 = other := of_decide_eq_true hFound
          have hNe : u.1 ≠ hash := by rwa [hKey]
          simp [hNe]
  · have hNone : used.find? (fun u => u.1 = hash) = none := by
      refine List.find?_eq_none.mpr (fun u hu hHash => ?_)
      exact hUsed (List.any_eq_true.mpr ⟨u, hu, hHash⟩)
    rw [if_neg hUsed, nextSequence, List.find?_append]
    by_cases hOther : other = hash
    · subst hOther
      rw [Function.update_self, nextSequence, hNone]
      simp
    · rw [Function.update_of_ne hOther, nextSequence]
      have hLast : [(hash, 0)].find?
          (fun u : Text × Nat => u.1 = other) = none := by
        simp [Ne.symm hOther]
      rw [hLast, Option.or_none]

def subjectHashOf (root : Entry) : Text :=
  root.parsed.subjectHash

/- The file of a root under its number. -/
def hashedOf (p : Entry × Nat) : Hashed where
  root := p.1
  sequence := p.2
  data := Text.utf8 (toPem p.1.parsed.der)

/- The loop numbers the roots of each hash apart. -/
theorem hashedFiles_eq
    (used : List (Text × Nat))
    (roots : List Entry) :
    (hashedFiles used roots).map
        (fun file => (file.1, Leaf.file file.2)) =
      ((numbered subjectHashOf (nextSequence used) roots).map
        hashedOf).map Hashed.file := by
  induction roots generalizing used with
  | nil => rfl
  | cons root rest ih =>
      rw [hashedFiles, List.map_cons, ih, numbered,
        nextSequence_record]
      rfl

/- The files of the hashed directory. -/
def hashedList (roots : List Entry) : List Hashed :=
  (numbered subjectHashOf (nextSequence []) roots).map
    hashedOf

theorem hashedFor_hashedList (roots : List Entry) :
    HashedFor roots (hashedList roots) := by
  refine ⟨?_, ?_, ?_⟩
  · rw [hashedList, List.map_map]
    exact map_fst_numbered subjectHashOf _ roots
  · intro f hf
    rcases List.mem_map.mp hf with ⟨p, -, rfl⟩
    rw [Hashed.ders, hashedOf, Text.fromUtf8_utf8]
    have hRead := fromPem_flatMap_toPem [p.1.parsed.der]
    rw [List.flatMap_singleton] at hRead
    exact congrArg some hRead
  · intro hash
    have hNumbers := numbers_of_key subjectHashOf
      (nextSequence []) roots hash
    rw [hashedList, List.filter_map, List.map_map,
      List.range_eq_range']
    exact List.Perm.of_eq hNumbers

/- The names in the directory are all different. -/
theorem nodup_hashedList (roots : List Entry) :
    (bundleName :: (hashedList roots).map
      (fun f => f.file.1)).Nodup := by
  refine List.nodup_cons.mpr ⟨fun hMem => ?_, ?_⟩
  · rcases List.mem_map.mp hMem with ⟨f, -, hName⟩
    exact hashedName_ne_bundleName _ _ hName
  · have hPairs := nodup_numbered subjectHashOf
      (nextSequence []) roots
    have hNames := hPairs.map_on
      (f := fun p => hashedName p.1 p.2)
      (fun p _ q _ hSame => Prod.ext (hashedName_inj hSame).1
        (hashedName_inj hSame).2)
    rw [List.map_map] at hNames
    rw [hashedList, List.map_map]
    exact hNames

/- They are the names that are written anew. -/
theorem mem_names_iff
    {roots : List Entry}
    {name : Text} :
    name ∈ bundleName :: (hashedList roots).map
        (fun f => f.file.1) ↔
      Rewritten roots name := by
  rw [List.mem_cons, Rewritten, hashedList, List.map_map]
  refine or_congr_right ?_
  have hTurn : ∀ hash sequence,
      (∃ root, (root, sequence) ∈ numbered subjectHashOf
          (nextSequence []) roots ∧
        subjectHashOf root = hash) ↔
      sequence < roots.countP
        (fun r => r.parsed.subjectHash = hash) := by
    intro hash sequence
    rw [mem_numbered_iff subjectHashOf]
    exact (and_iff_right (Nat.zero_le _)).trans
      (by rw [nextSequence, List.find?_nil, Nat.zero_add]; rfl)
  rw [List.mem_map]
  constructor
  · rintro ⟨⟨root, sequence⟩, hMem, rfl⟩
    exact ⟨subjectHashOf root, sequence, rfl,
      (hTurn _ _).mp ⟨root, hMem, rfl⟩⟩
  · rintro ⟨hash, sequence, rfl, hBelow⟩
    rcases (hTurn hash sequence).mpr hBelow with
      ⟨root, hMem, hHash⟩
    refine ⟨(root, sequence), hMem, ?_⟩
    rw [← hHash]
    rfl

end Render

end Trustd

------------------------------------------------------------
-- Files That Replace Others
------------------------------------------------------------

namespace Trustd

namespace Render

open General Store Cert

/- Files of different names replace what has their names. -/
theorem foldl_putFile
    (start : Entries)
    {files : List (Text × Bytes)}
    (hNames : (files.map Prod.fst).Nodup) :
    files.foldl putFile start =
      start.filter (fun e => e.1 ∉ files.map Prod.fst) ++
        files.map (fun file => (file.1, .file file.2)) := by
  induction files generalizing start with
  | nil => simp
  | cons file rest ih =>
      rw [List.map_cons, List.nodup_cons] at hNames
      have hPut : putFile start file =
          start.filter (fun e => e.1 ≠ file.1) ++
            [(file.1, .file file.2)] := rfl
      rw [List.foldl_cons, ih _ hNames.2, hPut,
        List.filter_append, List.filter_filter,
        List.map_cons, List.map_cons,
        List.filter_cons_of_pos (by simpa using hNames.1),
        List.filter_nil, List.append_assoc,
        List.singleton_append]
      congr 1
      refine List.filter_congr (fun e _ => ?_)
      rw [← Bool.decide_and]
      refine decide_eq_decide.mpr ?_
      rw [List.mem_cons, not_or]
      exact and_comm

theorem stagedFiles_eq (roots : List Entry) :
    (stagedFiles roots).map
        (fun file => (file.1, Leaf.file file.2)) =
      (bundleName,
          .file (Text.utf8 (bundleForRoots roots))) ::
        (hashedList roots).map Hashed.file := by
  rw [stagedFiles, List.map_cons, hashedFiles_eq]
  rfl

theorem names_stagedFiles (roots : List Entry) :
    (stagedFiles roots).map Prod.fst =
      bundleName :: (hashedList roots).map
        (fun f => f.file.1) := by
  have hNames := congrArg (List.map Prod.fst)
    (stagedFiles_eq roots)
  rw [List.map_map, List.map_cons, List.map_map] at hNames
  exact hNames

end Render

end Trustd
