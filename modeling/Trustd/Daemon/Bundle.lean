import Trustd.Daemon.Config

/-
  What reading the rendered bundle back gives.

  Key definitions include:
    * `Trustd.Cert.HoldsBlock`
    * `Trustd.Render.Smuggles`

  Key theorems include:
    * `Trustd.Cert.fromPemLines_ne_nil_iff`
    * `Trustd.Render.fromPem_bundle`
    * `Trustd.Render.fromPem_bundle_iff`
-/

------------------------------------------------------------
-- Blocks Among Lines
------------------------------------------------------------

namespace Trustd

namespace Cert

/- A line that is neither marker. -/
def NoMarker (line : Text) : Prop :=
  Text.trim line ≠ pemBegin ∧ Text.trim line ≠ pemEnd

/-
  A block of which `read` has been read is closed before any
  other opens, and its body decodes.
-/
inductive ClosesBlock : Text → List Text → Prop where
  | here
      {read line : Text}
      {rest : List Text}
      (hEnd : Text.trim line = pemEnd)
      (hDecodes : (base64Decode read).isSome = true) :
      ClosesBlock read (line :: rest)
  | there
      {read line : Text}
      {rest : List Text}
      (hMarker : NoMarker line)
      (hCloses : ClosesBlock (read ++ Text.trim line) rest) :
      ClosesBlock read (line :: rest)

/- A block opens somewhere, is closed, and decodes. -/
inductive HoldsBlock : List Text → Prop where
  | opens
      {line : Text}
      {rest : List Text}
      (hBegin : Text.trim line = pemBegin)
      (hCloses : ClosesBlock [] rest) :
      HoldsBlock (line :: rest)
  | later
      {line : Text}
      {rest : List Text}
      (hHolds : HoldsBlock rest) :
      HoldsBlock (line :: rest)

theorem pemEnd_ne_pemBegin : pemEnd ≠ pemBegin := by
  decide

theorem not_closesBlock_of_begin
    {read line : Text}
    {rest : List Text}
    (hBegin : Text.trim line = pemBegin) :
    ¬ ClosesBlock read (line :: rest) := by
  intro hCloses
  cases hCloses with
  | here hEnd _ =>
      exact pemEnd_ne_pemBegin (hEnd.symm.trans hBegin)
  | there hMarker _ => exact hMarker.1 hBegin

theorem closesBlock_end_iff
    {read line : Text}
    {rest : List Text}
    (hEnd : Text.trim line = pemEnd) :
    ClosesBlock read (line :: rest) ↔
      (base64Decode read).isSome = true := by
  constructor
  · intro hCloses
    cases hCloses with
    | here _ hDecodes => exact hDecodes
    | there hMarker _ => exact absurd hEnd hMarker.2
  · exact ClosesBlock.here hEnd

theorem closesBlock_skip_iff
    {read line : Text}
    {rest : List Text}
    (hMarker : NoMarker line) :
    ClosesBlock read (line :: rest) ↔
      ClosesBlock (read ++ Text.trim line) rest := by
  constructor
  · intro hCloses
    cases hCloses with
    | here hEnd _ => exact absurd hEnd hMarker.2
    | there _ hRest => exact hRest
  · exact ClosesBlock.there hMarker

theorem holdsBlock_begin_iff
    {line : Text}
    {rest : List Text}
    (hBegin : Text.trim line = pemBegin) :
    HoldsBlock (line :: rest) ↔
      ClosesBlock [] rest ∨ HoldsBlock rest := by
  constructor
  · intro hHolds
    cases hHolds with
    | opens _ hCloses => exact Or.inl hCloses
    | later hRest => exact Or.inr hRest
  · rintro (hCloses | hRest)
    · exact HoldsBlock.opens hBegin hCloses
    · exact HoldsBlock.later hRest

theorem holdsBlock_skip_iff
    {line : Text}
    {rest : List Text}
    (hBegin : Text.trim line ≠ pemBegin) :
    HoldsBlock (line :: rest) ↔ HoldsBlock rest := by
  constructor
  · intro hHolds
    cases hHolds with
    | opens hOpens _ => exact absurd hOpens hBegin
    | later hRest => exact hRest
  · exact HoldsBlock.later

/-
  The reader finds something exactly where the block it is
  inside of is closed, or where another one is. By induction
  on the lines, whatever has been read of a block so far.
-/
theorem fromPemLines_ne_nil_iff
    (body : Option Text)
    (lines : List Text) :
    fromPemLines body lines ≠ [] ↔
      (∃ read, body = some read ∧ ClosesBlock read lines) ∨
        HoldsBlock lines := by
  induction lines generalizing body with
  | nil =>
      constructor
      · intro hNe
        exact absurd rfl hNe
      · rintro (⟨_, _, hCloses⟩ | hHolds)
        · cases hCloses
        · cases hHolds
  | cons line rest ih =>
      by_cases hBegin : Text.trim line = pemBegin
      · rw [fromPemLines, if_pos hBegin, ih,
          holdsBlock_begin_iff hBegin]
        simp [not_closesBlock_of_begin hBegin]
      · rw [holdsBlock_skip_iff hBegin]
        by_cases hEnd : Text.trim line = pemEnd
        · simp only [fromPemLines, if_neg hBegin, if_pos hEnd,
            closesBlock_end_iff hEnd]
          rcases body with _ | read
          · simp [ih]
          · cases hDecode : base64Decode read with
            | some der => simp [hDecode]
            | none => simp [hDecode, ih]
        · have hMarker : NoMarker line := ⟨hBegin, hEnd⟩
          simp only [fromPemLines, if_neg hBegin,
            if_neg hEnd, ih, closesBlock_skip_iff hMarker]
          cases body with
          | none => simp
          | some read => simp

end Cert

end Trustd

------------------------------------------------------------
-- Reading The Bundle Back
------------------------------------------------------------

namespace Trustd

namespace Render

open Cert Store

/- The lines of a name below its first one. -/
def furtherLines (name : Text) : List Text :=
  (Text.lines (name ++ ['\n'])).tail

/- A name whose further lines hold a certificate block. -/
def Smuggles (name : Option Text) : Prop :=
  ∃ n, name = some n ∧ HoldsBlock (furtherLines n)

/- What the reader finds in the lines that give a name. -/
def smuggled (name : Option Text) : List Bytes :=
  match name with
  | some n => fromPemLines none (furtherLines n)
  | none => []

theorem smuggled_eq_nil_iff (name : Option Text) :
    smuggled name = [] ↔ ¬ Smuggles name := by
  cases name with
  | none => simp [smuggled, Smuggles]
  | some n =>
      have hIff := fromPemLines_ne_nil_iff none
        (furtherLines n)
      simp only [smuggled, Smuggles, Option.some.injEq,
        exists_eq_left']
      simpa using not_iff_not.mpr hIff

/- A number sign at the front of a line stays there. -/
theorem stripCarriageReturn_comment (comment : Text) :
    ∃ rest, Text.stripCarriageReturn ('#' :: comment) =
      '#' :: rest := by
  cases comment with
  | nil => exact ⟨[], by decide⟩
  | cons c rest =>
      unfold Text.stripCarriageReturn
      split_ifs
      · exact ⟨(c :: rest).dropLast, rfl⟩
      · exact ⟨c :: rest, rfl⟩

/- A comment adds nothing outside a block. -/
theorem fromPemLines_comment
    {comment : Text}
    (hComment : '\n' ∉ comment)
    (body : Option Text)
    (rest : Text) :
    ∃ body', (body = none → body' = none) ∧
      fromPemLines body
          (Text.lines ('#' :: comment ++ '\n' :: rest)) =
        fromPemLines body' (Text.lines rest) := by
  have hLine : '\n' ∉ '#' :: comment := by
    simpa using hComment
  rcases stripCarriageReturn_comment comment with
    ⟨stripped, hStrip⟩
  rcases trim_comment_ne stripped with ⟨hBegin, hEnd⟩
  rw [Text.lines_line _ _ hLine, hStrip,
    fromPemLines_skip hBegin hEnd]
  exact ⟨_, fun hNone => by rw [hNone]; rfl, rfl⟩

/- Between blocks a comment is skipped. -/
theorem fromPemLines_none_comment
    {comment : Text}
    (hComment : '\n' ∉ comment)
    (rest : Text) :
    fromPemLines none
        (Text.lines ('#' :: comment ++ '\n' :: rest)) =
      fromPemLines none (Text.lines rest) := by
  rcases fromPemLines_comment hComment none rest with
    ⟨body, hBody, hEq⟩
  rw [hEq, hBody rfl]

/- Between blocks an empty line is skipped. -/
theorem fromPemLines_none_blank (rest : Text) :
    fromPemLines none (Text.lines ('\n' :: rest)) =
      fromPemLines none (Text.lines rest) := by
  have hLine := Text.lines_line [] rest (by simp)
  have hTrim : Text.trim (Text.stripCarriageReturn []) = [] :=
    by decide
  rw [List.nil_append] at hLine
  rw [hLine, fromPemLines_skip (by rw [hTrim]; decide)
    (by rw [hTrim]; decide)]
  rfl

/- The line a name starts on, and the lines below it. -/
theorem lines_name
    {label : Text}
    (hLabel : '\n' ∉ label)
    (name : Text) :
    ∃ first, Text.lines ('#' :: label ++ name ++ ['\n']) =
      Text.stripCarriageReturn ('#' :: first) ::
        furtherLines name := by
  have hSharp : '\n' ∉ '#' :: label := by
    simpa using hLabel
  by_cases hMem : '\n' ∈ name
  · rcases List.eq_append_cons_of_mem hMem with
      ⟨first, rest, rfl, hFirst⟩
    have hLine : '\n' ∉ '#' :: label ++ first := by
      simp only [List.mem_append, not_or]
      exact ⟨hSharp, hFirst⟩
    refine ⟨label ++ first, ?_⟩
    have hWhole := Text.lines_line _ (rest ++ ['\n']) hLine
    have hName := Text.lines_line _ (rest ++ ['\n']) hFirst
    simp only [furtherLines, List.append_assoc,
      List.cons_append] at hWhole hName ⊢
    rw [hWhole, hName, List.tail_cons]
  · have hLine : '\n' ∉ '#' :: label ++ name := by
      simp only [List.mem_append, not_or]
      exact ⟨hSharp, hMem⟩
    refine ⟨label ++ name, ?_⟩
    have hWhole := Text.lines_line _ [] hLine
    have hName := Text.lines_line _ [] hMem
    simp only [furtherLines, List.append_assoc,
      List.cons_append] at hWhole hName ⊢
    rw [hWhole, hName, List.tail_cons, Text.lines_nil]

/- The line a name is given on hides whatever follows it. -/
theorem fromPemLines_name
    {label : Text}
    (hLabel : '\n' ∉ label)
    (name : Text)
    (rest : Text) :
    fromPemLines none (Text.lines
        ('#' :: label ++ name ++ '\n' :: rest)) =
      fromPemLines none (furtherLines name) ++
        fromPemLines (bodyAfter none (furtherLines name))
          (Text.lines rest) := by
  rcases lines_name hLabel name with ⟨first, hFirst⟩
  rcases stripCarriageReturn_comment first with
    ⟨stripped, hStrip⟩
  rcases trim_comment_ne stripped with ⟨hBegin, hEnd⟩
  rw [Text.lines_append, hFirst, hStrip, List.cons_append,
    fromPemLines_skip hBegin hEnd, Option.map_none,
    fromPemLines_append]

/- What follows a root's name: its fingerprint, its block. -/
def bundleTail (root : Entry) (rest : Text) : Text :=
  '#' :: (" SHA-256 ".toList ++ root.parsed.fingerprint) ++
    '\n' :: (toPem root.parsed.der ++ '\n' :: rest)

theorem fromPemLines_bundleTail
    {root : Entry}
    (hFingerprint : '\n' ∉ root.parsed.fingerprint)
    (body : Option Text)
    (rest : Text) :
    fromPemLines body (Text.lines (bundleTail root rest)) =
      root.parsed.der ::
        fromPemLines none (Text.lines rest) := by
  have hComment :
      '\n' ∉ " SHA-256 ".toList ++ root.parsed.fingerprint := by
    rw [List.mem_append, not_or]
    exact ⟨by decide, hFingerprint⟩
  rcases fromPemLines_comment hComment body
      (toPem root.parsed.der ++ '\n' :: rest) with
    ⟨body', _, hEq⟩
  rw [bundleTail, hEq, fromPemLines_toPem,
    fromPemLines_none_blank]

theorem bundleRoot_append (root : Entry) (rest : Text) :
    bundleRoot root ++ rest =
      '#' :: (' ' :: root.parsed.subject) ++
        '\n' :: ((match root.name with
          | some name =>
              '#' :: " added as ".toList ++ name ++ ['\n']
          | none => []) ++ bundleTail root rest) := by
  unfold bundleRoot bundleTail
  cases root.name with
  | none => simp
  | some name => simp

/-
  A root's part of the bundle yields what its name smuggles
  in, and then the root.
-/
theorem fromPemLines_bundleRoot
    {root : Entry}
    (hSubject : '\n' ∉ root.parsed.subject)
    (hFingerprint : '\n' ∉ root.parsed.fingerprint)
    (rest : Text) :
    fromPemLines none (Text.lines (bundleRoot root ++ rest)) =
      smuggled root.name ++ root.parsed.der ::
        fromPemLines none (Text.lines rest) := by
  have hComment : '\n' ∉ ' ' :: root.parsed.subject := by
    rw [List.mem_cons, not_or]
    exact ⟨by decide, hSubject⟩
  rw [bundleRoot_append, fromPemLines_none_comment hComment]
  cases root.name with
  | none =>
      rw [List.nil_append,
        fromPemLines_bundleTail hFingerprint]
      rfl
  | some name =>
      dsimp only
      rw [List.append_assoc, List.singleton_append,
        fromPemLines_name (by decide),
        fromPemLines_bundleTail hFingerprint]
      rfl

/- All the roots' parts, in order. -/
theorem fromPemLines_bundleRoots
    (roots : List Entry)
    (hRoots : ∀ root ∈ roots,
      '\n' ∉ root.parsed.subject ∧
        '\n' ∉ root.parsed.fingerprint) :
    fromPemLines none
        (Text.lines (roots.flatMap bundleRoot)) =
      roots.flatMap (fun root =>
        smuggled root.name ++ [root.parsed.der]) := by
  induction roots with
  | nil => rfl
  | cons root roots ih =>
      rcases hRoots root List.mem_cons_self with
        ⟨hSubject, hFingerprint⟩
      have hRest := ih (fun r hr =>
        hRoots r (List.mem_cons_of_mem root hr))
      rw [List.flatMap_cons, List.flatMap_cons,
        fromPemLines_bundleRoot hSubject hFingerprint,
        hRest, List.append_assoc, List.singleton_append]

theorem newline_not_mem_decimal (n : Nat) :
    '\n' ∉ Text.decimal n := by
  intro hMem
  have hDigit := Nat.isDigit_of_mem_toDigits
    (by decide) (by decide) hMem
  exact absurd hDigit (by decide)

/- Every line of the header's text is a comment. -/
theorem headerText_lines :
    ∀ line ∈ Text.lines headerText,
      line.head? = some '#' := by
  decide +kernel

theorem fromPemLines_none_comments
    (comments rest : List Text)
    (hComments : ∀ line ∈ comments,
      line.head? = some '#') :
    fromPemLines none (comments ++ rest) =
      fromPemLines none rest := by
  induction comments with
  | nil => rfl
  | cons line comments ih =>
      have hHead := hComments line List.mem_cons_self
      cases line with
      | nil => cases hHead
      | cons c line =>
          cases hHead
          rcases trim_comment_ne line with ⟨hBegin, hEnd⟩
          rw [List.cons_append,
            fromPemLines_skip hBegin hEnd, Option.map_none]
          exact ih (fun l hl =>
            hComments l (List.mem_cons_of_mem _ hl))

theorem endsLine_headerText : Text.EndsLine headerText := by
  have hSplit : headerLines =
      headerLines.dropLast ++ ["#\n"] := rfl
  have hLast : ["#\n"].flatMap String.toList =
      ['#'] ++ ['\n'] := by decide
  refine Or.inr
    ⟨headerLines.dropLast.flatMap String.toList ++ ['#'], ?_⟩
  rw [List.append_assoc, ← hLast, ← List.flatMap_append,
    ← hSplit, headerText]

/- The header holds no block. -/
theorem fromPemLines_header
    (roots : List Entry)
    (rest : Text) :
    fromPemLines none (Text.lines (header roots ++ rest)) =
      fromPemLines none (Text.lines rest) := by
  have hHash : "# ".toList = ['#', ' '] := by decide
  have hEnd : " added.\n\n".toList =
      " added.".toList ++ ['\n', '\n'] := by decide
  have hDecimal := newline_not_mem_decimal
  have hComment : '\n' ∉ ' ' :: Text.decimal roots.length ++
      " root(s): ".toList ++ Text.decimal
        (roots.countP (fun r => r.source = .shipped)) ++
      " shipped, ".toList ++ Text.decimal
        (roots.countP (fun r => r.source = .added)) ++
      " added.".toList := by
    simp only [List.mem_append, List.mem_cons, not_or]
    refine ⟨⟨⟨⟨⟨⟨by decide, hDecimal _⟩, by decide⟩,
      hDecimal _⟩, by decide⟩, hDecimal _⟩, by decide⟩
  have hSplit : header roots ++ rest =
      headerText ++ ('#' :: (' ' ::
        Text.decimal roots.length ++ " root(s): ".toList ++
        Text.decimal
          (roots.countP (fun r => r.source = .shipped)) ++
        " shipped, ".toList ++ Text.decimal
          (roots.countP (fun r => r.source = .added)) ++
        " added.".toList) ++ '\n' :: '\n' :: rest) := by
    rw [header, hHash, hEnd]
    simp only [List.append_assoc, List.cons_append,
      List.nil_append]
  rw [hSplit, endsLine_headerText.lines_append,
    fromPemLines_none_comments _ _ headerText_lines,
    fromPemLines_none_comment hComment,
    fromPemLines_none_blank]

/-
  What the bundle yields: for each root what its name
  smuggles in, and then the root itself.
-/
theorem fromPem_bundleForRoots
    (roots : List Entry)
    (hRoots : ∀ root ∈ roots,
      '\n' ∉ root.parsed.subject ∧
        '\n' ∉ root.parsed.fingerprint) :
    fromPem (bundleForRoots roots) =
      roots.flatMap (fun root =>
        smuggled root.name ++ [root.parsed.der]) := by
  rw [fromPem, bundleForRoots, fromPemLines_header,
    fromPemLines_bundleRoots roots hRoots]

/- Nothing a hash prints as ends a line. -/
theorem newline_not_mem_fingerprint
    (crates : Crates)
    (der : Bytes) :
    '\n' ∉ fingerprint crates der := by
  intro hMem
  rcases List.mem_flatMap.mp hMem with ⟨b, _, hByte⟩
  have hDigits : ∀ b : UInt8,
      '\n' ∉ Text.hexByte b :=
    forall_byte (by decide +kernel)
  exact hDigits b hByte

/- No line of a composed root's comments ends early. -/
theorem newline_not_mem_root
    {crates : Crates}
    (hSubjects : ∀ der certificate,
      crates.fromDer der = .ok certificate →
        '\n' ∉ certificate.subject)
    {shipped : List Bytes}
    {additions : List Addition}
    {now : Option Int}
    {root : Entry}
    (hOrigin : Origin crates shipped additions now root) :
    '\n' ∉ root.parsed.subject ∧
      '\n' ∉ root.parsed.fingerprint := by
  have hParsed : ∃ der clock,
      parse crates der clock = .ok root.parsed := by
    cases hOrigin with
    | shipped der _ hParse _ => exact ⟨der, none, hParse⟩
    | added addition _ hParse _ =>
        exact ⟨addition.der, now, hParse⟩
  rcases hParsed with ⟨der, clock, hParse⟩
  rcases parse_ok crates hParse with
    ⟨_, hFingerprint, certificate, hDer, _, hSubject⟩
  rw [hSubject, hFingerprint]
  exact ⟨hSubjects der certificate hDer,
    newline_not_mem_fingerprint crates der⟩

section

variable {crates : Crates}
variable (hSubjects : ∀ der certificate,
  crates.fromDer der = .ok certificate →
    '\n' ∉ certificate.subject)
variable {shippedPem : Text}
variable {additions : List Addition}
variable {distrust : List Text}
variable {now : Option Int}
variable {composed : Composed}

/- What the bundle of a composition yields. -/
include hSubjects in
theorem fromPem_bundle
    (hCompose : compose crates shippedPem additions distrust
      now = .ok composed) :
    fromPem (bundle composed) =
      (forPurpose composed.roots serverAuth).flatMap (fun r =>
        smuggled r.name ++ [r.parsed.der]) := by
  have hOrigin := (compose_sound hCompose).1.origin
  have hRoots : ∀ r ∈ forPurpose composed.roots serverAuth,
      '\n' ∉ r.parsed.subject ∧
        '\n' ∉ r.parsed.fingerprint := fun r hr =>
    newline_not_mem_root hSubjects
      (hOrigin r (List.mem_filter.mp hr).1)
  rw [bundle, fromPem_bundleForRoots _ hRoots]

/-
  The bundle of any composition reads back as its roots for
  servers exactly when no name given to one of them has a
  block below its first line. Assumed of the decoder: a
  subject prints on one line.
-/
include hSubjects in
theorem fromPem_bundle_iff
    (hCompose : compose crates shippedPem additions distrust
      now = .ok composed) :
    fromPem (bundle composed) =
        (forPurpose composed.roots serverAuth).map
          (fun r => r.parsed.der) ↔
      ∀ r ∈ forPurpose composed.roots serverAuth,
        ¬ Smuggles r.name := by
  rw [fromPem_bundle hSubjects hCompose,
    General.flatMap_snoc_eq_map_iff]
  simp only [smuggled_eq_nil_iff]

end

/- A key with one addition, under the given name. -/
def registryWith (name : Text) : Registry.Key :=
  .mk [] [(Text.utf8 Registry.certificatesKey,
    .mk [] [(Text.utf8 Registry.addKey,
      .mk [] [(Text.utf8 name,
        .mk [(Text.utf8 Registry.certificateValue,
          { ty := .binary, data := purposeAdded })] [])])])]

/- A name with a block of three zero bytes below it. -/
def smugglingName : Text :=
  "corp".toList ++ ['\n'] ++ pemBegin ++ ['\n'] ++
    "AAAA".toList ++ ['\n'] ++ pemEnd

theorem purposeSubjects
    (der : Bytes)
    (certificate : Certificate)
    (hDer : purposeCrates.fromDer der = .ok certificate) :
    '\n' ∉ certificate.subject := by
  simp only [purposeCrates] at hDer
  split_ifs at hDer
  cases hDer
  decide

/- The one addition that registry gives. -/
def additionNamed (name : Text) : Addition :=
  { name, der := purposeAdded, purposes := [] }

/- A name of one line leaves the bundle as it was composed. -/
theorem fromPem_bundle_plain :
    ∃ composed,
      compose purposeCrates purposeBundle
          [additionNamed "corp".toList] [] none =
            .ok composed ∧
        fromPem (bundle composed) =
          (forPurpose composed.roots serverAuth).map
            (fun r => r.parsed.der) := by
  have hAny : (composeFrom purposeCrates
      (List.replicate minimumShipped purposeShipped)
      [additionNamed "corp".toList] [] none).toOption.any
        (fun composed => composed.roots.all (fun r =>
          smuggled r.name = [])) = true := by
    decide +kernel
  rcases exists_compose_purposeBundle hAny with
    ⟨composed, hCompose, hPlain⟩
  refine ⟨composed, hCompose,
    (fromPem_bundle_iff purposeSubjects hCompose).mpr ?_⟩
  intro r hr
  have hNone := List.all_eq_true.mp hPlain r
    (List.mem_filter.mp hr).1
  exact (smuggled_eq_nil_iff r.name).mp
    (of_decide_eq_true hNone)

/-
  A name of four lines, read from the registry, puts into the
  bundle a certificate that was never composed.
-/
theorem fromPem_bundle_smuggling :
    ∃ config composed,
      Registry.loadFrom (m := Except IoError)
          (some (registryWith smugglingName)) = .ok config ∧
        compose purposeCrates purposeBundle config.additions
          config.distrust none = .ok composed ∧
        fromPem (bundle composed) ≠
          (forPurpose composed.roots serverAuth).map
            (fun r => r.parsed.der) := by
  have hLoad : Registry.loadFrom (m := Except IoError)
      (some (registryWith smugglingName)) =
        .ok { additions := [additionNamed smugglingName] } := by
    decide +kernel
  have hAny : (composeFrom purposeCrates
      (List.replicate minimumShipped purposeShipped)
      [additionNamed smugglingName] [] none).toOption.any
        (fun composed =>
          (forPurpose composed.roots serverAuth).any
            (fun r => smuggled r.name ≠ [])) = true := by
    decide +kernel
  rcases exists_compose_purposeBundle hAny with
    ⟨composed, hCompose, hSmuggled⟩
  refine ⟨_, composed, hLoad, hCompose, ?_⟩
  rw [fromPem_bundle purposeSubjects hCompose, ne_eq,
    General.flatMap_snoc_eq_map_iff]
  intro hAll
  rcases List.any_eq_true.mp hSmuggled with ⟨r, hr, hNe⟩
  exact of_decide_eq_true hNe (hAll r hr)

end Render

end Trustd
