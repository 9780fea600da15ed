import Trustd.Core.Pem
import Trustd.General.Spacing
import Trustd.General.Splitting

/-
  PEM documents as they are laid out in files: the reader
  looks at trimmed lines only, and finds in them the blocks
  that are closed and decode.

  Key definitions include:
    * `Trustd.Cert.pemLines`
    * `Trustd.Cert.scan`
    * `Trustd.Cert.LaidOut`
    * `Trustd.Cert.documentLines`

  Key theorems include:
    * `Trustd.Cert.fromPem_eq_scan`
    * `Trustd.Cert.scan_block`
    * `Trustd.Cert.scan_eq_cons`
    * `Trustd.Cert.fromPem_laidOut`
-/

------------------------------------------------------------
-- Trimming
------------------------------------------------------------

namespace Trustd

namespace Text

open General

theorem trim_trim (t : Text) : trim (trim t) = trim t :=
  trimBy_trimBy isWhitespace t

/- The carriage return before a line feed is white space. -/
theorem trim_stripCarriageReturn (line : Text) :
    trim (stripCarriageReturn line) = trim line := by
  unfold stripCarriageReturn
  split_ifs with hLast
  · have hSplit := List.dropLast_append_getLast? _ hLast
    have hTrim := @trimBy_append _ isWhitespace [] ['\r']
      (by simp) (List.forall_mem_singleton.mpr rfl)
      line.dropLast
    rw [List.nil_append, hSplit] at hTrim
    exact hTrim.symm
  · rfl

/- A line has no line feed in it. -/
theorem newline_not_mem_linesFrom
    {line : Text}
    (hLine : '\n' ∉ line)
    (t : Text) :
    ∀ l ∈ linesFrom line t, '\n' ∉ l := by
  induction t generalizing line with
  | nil =>
      rw [linesFrom]
      split_ifs
      · simp
      · simpa using hLine
  | cons c rest ih =>
      rw [linesFrom]
      split_ifs with hc
      · have hStrip : '\n' ∉ stripCarriageReturn line := by
          unfold stripCarriageReturn
          split_ifs
          · exact fun hMem =>
              hLine (List.dropLast_subset _ hMem)
          · exact hLine
        rw [List.forall_mem_cons]
        exact ⟨hStrip, ih List.not_mem_nil⟩
      · apply ih
        rw [List.mem_append, List.mem_singleton, not_or]
        exact ⟨hLine, fun hSame => hc hSame.symm⟩

end Text

end Trustd

------------------------------------------------------------
-- The Lines The Reader Looks At
------------------------------------------------------------

namespace Trustd

namespace Cert

open General

/- The lines of a text without what surrounds them. -/
def pemLines (text : Text) : List Text :=
  (Text.lines text).map Text.trim

/- The loop of `from_pem` over lines that are trimmed. -/
def scan : Option Text → List Text → List Bytes
  | _, [] => []
  | body, line :: rest =>
      if line = pemBegin then scan (some []) rest
      else if line = pemEnd then
        (body.bind base64Decode).toList ++ scan none rest
      else scan (body.map (· ++ line)) rest

theorem fromPemLines_eq_scan
    (body : Option Text)
    (lines : List Text) :
    fromPemLines body lines =
      scan body (lines.map Text.trim) := by
  induction lines generalizing body with
  | nil => rfl
  | cons line lines ih =>
      simp only [fromPemLines, List.map_cons, scan, ih]
      split_ifs
      · rfl
      · cases body.bind base64Decode with
        | none => rfl
        | some der => rfl
      · rfl

theorem fromPem_eq_scan (text : Text) :
    fromPem text = scan none (pemLines text) :=
  fromPemLines_eq_scan none (Text.lines text)

/- The body the loop is inside of after some lines. -/
def scanBody : Option Text → List Text → Option Text
  | body, [] => body
  | body, line :: rest =>
      if line = pemBegin then scanBody (some []) rest
      else if line = pemEnd then scanBody none rest
      else scanBody (body.map (· ++ line)) rest

theorem scan_append
    (body : Option Text)
    (a b : List Text) :
    scan body (a ++ b) =
      scan body a ++ scan (scanBody body a) b := by
  induction a generalizing body with
  | nil => rfl
  | cons line a ih =>
      simp only [List.cons_append, scan, scanBody]
      split_ifs
      · exact ih (some [])
      · rw [ih none, List.append_assoc]
      · exact ih _

/- A line that is none of the two markers. -/
def IsPlain (line : Text) : Prop :=
  line ≠ pemBegin ∧ line ≠ pemEnd

/- Such lines add themselves to the body, if there is one. -/
theorem scan_plain
    {lines : List Text}
    (hPlain : ∀ line ∈ lines, IsPlain line)
    (body : Option Text)
    (rest : List Text) :
    scan body (lines ++ rest) =
      scan (body.map (· ++ lines.flatten)) rest := by
  induction lines generalizing body with
  | nil => cases body <;> simp
  | cons line lines ih =>
      have hLine := hPlain line List.mem_cons_self
      have hRest := fun l hl =>
        hPlain l (List.mem_cons_of_mem line hl)
      rw [List.cons_append, scan, if_neg hLine.1,
        if_neg hLine.2, ih hRest, Option.map_map]
      congr 2
      funext acc
      simp

/- A block that is closed gives what its body decodes to. -/
theorem scan_closed
    {body : List Text}
    (hPlain : ∀ line ∈ body, IsPlain line)
    (outer : Option Text)
    (rest : List Text) :
    scan outer (pemBegin :: (body ++ pemEnd :: rest)) =
      (base64Decode body.flatten).toList ++ scan none rest := by
  have hOther : pemEnd ≠ pemBegin := by decide
  rw [scan, if_pos rfl, scan_plain hPlain, scan,
    if_neg hOther, if_pos rfl]
  rfl

/- A block, wherever it stands. -/
theorem scan_block
    (before : List Text)
    {body : List Text}
    (hPlain : ∀ line ∈ body, IsPlain line)
    {der : Bytes}
    (hDecodes : base64Decode body.flatten = some der)
    (outer : Option Text)
    (after : List Text) :
    scan outer (before ++ pemBegin :: (body ++
        pemEnd :: after)) =
      scan outer before ++ der :: scan none after := by
  rw [scan_append, scan_closed hPlain, hDecodes]
  rfl

end Cert

end Trustd

------------------------------------------------------------
-- What A Scan Found
------------------------------------------------------------

namespace Trustd

namespace Cert

open General

/- A block that is closed, and what it decodes to. -/
structure Block (der : Bytes) (lines : List Text) where
  before : List Text
  body : List Text
  after : List Text
  split : lines =
    before ++ pemBegin :: (body ++ pemEnd :: after)
  plain : ∀ line ∈ body, IsPlain line
  decodes : base64Decode body.flatten = some der

def Block.cons
    {der : Bytes}
    {lines : List Text}
    (line : Text)
    (block : Block der lines) :
    Block der (line :: lines) where
  before := line :: block.before
  body := block.body
  after := block.after
  split := by rw [List.cons_append, ← block.split]
  plain := block.plain
  decodes := block.decodes

/-
  What is found first is the body that was open or a block,
  and the rest is found after it.
-/
theorem scan_eq_cons
    {open? : Option Text}
    {lines : List Text}
    {der : Bytes}
    {ders : List Bytes}
    (hScan : scan open? lines = der :: ders) :
    (∃ acc body after, open? = some acc ∧
      lines = body ++ pemEnd :: after ∧
      (∀ line ∈ body, IsPlain line) ∧
      base64Decode (acc ++ body.flatten) = some der ∧
      scan none after = ders) ∨
    ∃ block : Block der lines,
      scan none block.after = ders := by
  induction lines generalizing open? with
  | nil => cases hScan
  | cons line lines ih =>
      rw [scan] at hScan
      split_ifs at hScan with hBegin hEnd
      · right
        rcases ih hScan with hOpen | ⟨block, hAfter⟩
        · rcases hOpen with
            ⟨_, body, after, hAcc, rfl, hPlain, hDecodes, hAfter⟩
          cases hAcc
          exact ⟨⟨[], body, after, by rw [hBegin]; rfl, hPlain,
            hDecodes⟩, hAfter⟩
        · exact ⟨block.cons line, hAfter⟩
      · cases hBody : open?.bind base64Decode with
        | none =>
            rw [hBody] at hScan
            rcases ih hScan with hOpen | ⟨block, hAfter⟩
            · rcases hOpen with ⟨_, _, _, hAcc, _⟩
              cases hAcc
            · exact Or.inr ⟨block.cons line, hAfter⟩
        | some found =>
            rw [hBody] at hScan
            cases hScan
            rcases Option.bind_eq_some_iff.mp hBody with
              ⟨acc, hAcc, hDecodes⟩
            refine Or.inl ⟨acc, [], lines, hAcc, ?_, ?_, ?_, rfl⟩
            · rw [hEnd]
              rfl
            · simp
            · rwa [List.flatten_nil, List.append_nil]
      · rcases ih hScan with hOpen | ⟨block, hAfter⟩
        · rcases hOpen with
            ⟨_, body, after, hAcc, rfl, hPlain, hDecodes, hAfter⟩
          rcases Option.map_eq_some_iff.mp hAcc with
            ⟨acc, hOuter, rfl⟩
          refine Or.inl ⟨acc, line :: body, after, hOuter, rfl,
            ?_, ?_, hAfter⟩
          · rw [List.forall_mem_cons]
            exact ⟨⟨hBegin, hEnd⟩, hPlain⟩
          · rwa [List.flatten_cons, ← List.append_assoc]
        · exact Or.inr ⟨block.cons line, hAfter⟩

/- From outside of a block it is a block. -/
theorem exists_block
    {lines : List Text}
    {der : Bytes}
    {ders : List Bytes}
    (hScan : scan none lines = der :: ders) :
    ∃ block : Block der lines, scan none block.after = ders := by
  rcases scan_eq_cons hScan with hOpen | hBlock
  · rcases hOpen with ⟨_, _, _, hAcc, _⟩
    cases hAcc
  · exact hBlock

theorem Block.scan
    {der : Bytes}
    {lines : List Text}
    (block : Block der lines) :
    Cert.scan none lines =
      Cert.scan none block.before ++
        der :: Cert.scan none block.after := by
  rw [← scan_block block.before block.plain block.decodes,
    ← block.split]

/- Without a begin marker nothing is found. -/
theorem scan_of_no_begin
    {lines : List Text}
    (hNone : pemBegin ∉ lines) :
    scan none lines = [] := by
  cases hScan : scan none lines with
  | nil => rfl
  | cons der ders =>
      rcases exists_block hScan with ⟨block, -⟩
      apply absurd _ hNone
      rw [block.split]
      exact List.mem_append_right _ List.mem_cons_self

end Cert

end Trustd

------------------------------------------------------------
-- Marker Lines Of Bytes
------------------------------------------------------------

namespace Trustd

namespace Cert

open General

/- A line of a file that says where a certificate is. -/
def IsMarkerLine (line : Bytes) : Prop :=
  ∃ t, Text.fromUtf8 line = some t ∧ ¬ IsPlain (Text.trim t)

/- Some line of a file is one. -/
def HoldsMarker (bytes : Bytes) : Prop :=
  ∃ line ∈ splitAt (· == 0x0A) bytes, IsMarkerLine line

/- No other character has the byte of a line feed in it. -/
theorem ne_newline_of_mem_utf8
    {c : Char}
    (hc : c ≠ '\n')
    {b : UInt8}
    (hb : b ∈ String.utf8EncodeChar c) :
    b ≠ 0x0A := by
  rintro rfl
  by_cases hAscii : c.toNat < 0x80
  · rw [Text.utf8EncodeChar_ascii hAscii,
      List.mem_singleton] at hb
    have hNat := congrArg UInt8.toNat hb
    rw [UInt8.toNat_ofNat', Nat.mod_eq_of_lt (by omega)]
      at hNat
    apply hc
    rw [← Char.toNat_inj]
    exact hNat.symm
  · have hHigh := (Text.utf8EncodeChar_high
      (Nat.not_lt.mp hAscii)).1 _ hb
    exact absurd hHigh (by decide)

/- The bytes of a line are the line's bytes. -/
theorem splitAt_utf8 (t : Text) :
    splitAt (· == 0x0A) (Text.utf8 t) =
      (splitAt (· == '\n') t).map Text.utf8 := by
  induction t with
  | nil => rfl
  | cons c t ih =>
      by_cases hc : c = '\n'
      · subst hc
        have hCut := @splitAt_append _ (· == '\n') '\n' rfl
          [] t
        have hBytes := @splitAt_append _ (· == (0x0A : UInt8))
          0x0A rfl [] (Text.utf8 t)
        have hOne : Text.utf8 ('\n' :: t) =
            [] ++ 0x0A :: Text.utf8 t := by
          rw [Text.utf8_cons]
          rfl
        rw [List.nil_append] at hCut
        rw [hOne, hBytes, ih, hCut, List.map_append]
        rfl
      · rcases List.exists_cons_of_ne_nil
            (splitAt_ne_nil (p := (· == '\n')) t) with
          ⟨part, parts, hRest⟩
        have hChar := splitAt_cons_of_neg
          (p := (· == '\n')) (beq_eq_false_iff_ne.mpr hc) hRest
        rw [hRest, List.map_cons] at ih
        have hPlain : ∀ b ∈ String.utf8EncodeChar c,
            (b == (0x0A : UInt8)) = false :=
          fun b hb => beq_eq_false_iff_ne.mpr
            (ne_newline_of_mem_utf8 hc hb)
        rw [Text.utf8_cons, splitAt_plain_append hPlain ih,
          hChar, List.map_cons, Text.utf8_cons]

theorem splitAt_line
    {line : Text}
    (hLine : '\n' ∉ line) :
    splitAt (· == '\n') line = [line] := by
  apply splitAt_of_forall
  intro c hc
  rw [beq_eq_false_iff_ne]
  rintro rfl
  exact hLine hc

/- A text cut at its line feeds, and its lines. -/
theorem map_trim_splitAt
    {line : Text}
    (hLine : '\n' ∉ line)
    (t : Text) :
    (splitAt (· == '\n') (line ++ t)).map Text.trim =
        (Text.linesFrom line t).map Text.trim ∨
      (splitAt (· == '\n') (line ++ t)).map Text.trim =
        (Text.linesFrom line t).map Text.trim ++ [[]] := by
  induction t generalizing line with
  | nil =>
      rw [List.append_nil, splitAt_line hLine, Text.linesFrom]
      split_ifs with hNil
      · subst hNil
        exact Or.inr rfl
      · exact Or.inl rfl
  | cons c t ih =>
      rw [Text.linesFrom]
      split_ifs with hc
      · subst hc
        rw [splitAt_append rfl, splitAt_line hLine,
          List.map_append, List.map_cons, List.map_cons,
          Text.trim_stripCarriageReturn]
        rcases ih List.not_mem_nil with hSame | hMore
        · exact Or.inl (congrArg _ hSame)
        · exact Or.inr (congrArg _ hMore)
      · have hNext : '\n' ∉ line ++ [c] := by
          rw [List.mem_append, List.mem_singleton, not_or]
          exact ⟨hLine, fun hSame => hc hSame.symm⟩
        have hRest := ih hNext
        rwa [List.append_assoc, List.singleton_append] at hRest

theorem holdsMarker_utf8 (t : Text) :
    HoldsMarker (Text.utf8 t) ↔
      ∃ line ∈ pemLines t, ¬ IsPlain line := by
  have hCut : (∃ line ∈
        (splitAt (· == '\n') t).map Text.trim,
        ¬ IsPlain line) ↔
      ∃ line ∈ pemLines t, ¬ IsPlain line := by
    have hEmpty : IsPlain [] := by
      unfold IsPlain
      decide
    rcases map_trim_splitAt List.not_mem_nil t with
      hSame | hMore
    · rw [List.nil_append] at hSame
      rw [hSame]
      rfl
    · rw [List.nil_append] at hMore
      rw [hMore]
      simp only [List.mem_append, List.mem_singleton, or_and_right,
        exists_or, exists_eq_left, hEmpty, not_true_eq_false,
        or_false]
      rfl
  rw [← hCut, HoldsMarker, splitAt_utf8]
  simp only [List.mem_map, exists_exists_and_eq_and,
    IsMarkerLine, Text.fromUtf8_utf8, Option.some.injEq,
    exists_eq_left']

end Cert

end Trustd

------------------------------------------------------------
-- Laid-Out Documents
------------------------------------------------------------

namespace Trustd

namespace Cert

open General

/- White space within a line. -/
def IsBlankText (t : Text) : Prop :=
  ∀ c ∈ t, Text.isWhitespace c = true ∧ c ≠ '\n'

/- A line as a text may hold it: with blanks, and its end. -/
inductive LaidOut (line : Text) : Text → Prop where
  | lineFeed
      (front back : Text)
      (hFront : IsBlankText front)
      (hBack : IsBlankText back) :
      LaidOut line (front ++ line ++ back ++ ['\n'])
  | carriageReturn
      (front back : Text)
      (hFront : IsBlankText front)
      (hBack : IsBlankText back) :
      LaidOut line (front ++ line ++ back ++ ['\r', '\n'])

/- A line that can stand around the blocks. -/
def IsSurrounding (line : Text) : Prop :=
  '\n' ∉ line ∧ IsPlain (Text.trim line)

/- Blocks in order, with lines before and after each. -/
def documentLines
    (gap : List Text)
    (blocks : List (Bytes × List Text)) :
    List Text :=
  gap ++ blocks.flatMap (fun block =>
    Text.lines (toPem block.1) ++ block.2)

theorem trim_blanks
    {front back : Text}
    (hFront : IsBlankText front)
    (hBack : IsBlankText back)
    (line : Text) :
    Text.trim (front ++ line ++ back) = Text.trim line :=
  trimBy_append (fun c hc => (hFront c hc).1)
    (fun c hc => (hBack c hc).1) line

/- What is laid out is one line, with the blanks it has. -/
theorem pemLines_laidOut
    {line raw : Text}
    (hLine : '\n' ∉ line)
    (hRaw : LaidOut line raw)
    (rest : Text) :
    pemLines (raw ++ rest) =
      Text.trim line :: pemLines rest := by
  have hOne : ∀ front back : Text, IsBlankText front →
      IsBlankText back →
      pemLines (front ++ line ++ back ++ '\n' :: rest) =
        Text.trim line :: pemLines rest := by
    intro front back hFront hBack
    have hNone : '\n' ∉ front ++ line ++ back := by
      simp only [List.mem_append, not_or]
      exact ⟨⟨fun hMem => (hFront _ hMem).2 rfl, hLine⟩,
        fun hMem => (hBack _ hMem).2 rfl⟩
    rw [pemLines, Text.lines_line _ _ hNone, List.map_cons,
      Text.trim_stripCarriageReturn, trim_blanks hFront hBack]
    rfl
  cases hRaw with
  | lineFeed front back hFront hBack =>
      rw [List.append_assoc _ ['\n']]
      exact hOne front back hFront hBack
  | carriageReturn front back hFront hBack =>
      have hReturn : IsBlankText (back ++ ['\r']) := by
        intro c hc
        rcases List.mem_append.mp hc with hc | hc
        · exact hBack c hc
        · rw [List.mem_singleton.mp hc]
          decide
      have hBoth := hOne front (back ++ ['\r']) hFront hReturn
      simp only [List.append_assoc, List.cons_append,
        List.nil_append] at hBoth ⊢
      exact hBoth

theorem pemLines_flatten
    {lines raws : List Text}
    (hLines : ∀ line ∈ lines, '\n' ∉ line)
    (hRaws : List.Forall₂ LaidOut lines raws) :
    pemLines raws.flatten = lines.map Text.trim := by
  induction hRaws with
  | nil => rfl
  | cons hRaw hRest ih =>
      rw [List.flatten_cons, pemLines_laidOut
        (hLines _ List.mem_cons_self) hRaw,
        ih (fun l hl => hLines l (List.mem_cons_of_mem _ hl)),
        List.map_cons]

/- A line feed at the end makes no line, or an empty one. -/
theorem linesFrom_snoc
    (line t : Text) :
    (Text.linesFrom line (t ++ ['\n'])).map Text.trim =
        (Text.linesFrom line t).map Text.trim ∨
      (Text.linesFrom line (t ++ ['\n'])).map Text.trim =
        (Text.linesFrom line t).map Text.trim ++ [[]] := by
  induction t generalizing line with
  | nil =>
      simp only [List.nil_append, Text.linesFrom, if_true]
      split_ifs with hLine
      · subst hLine
        exact Or.inr rfl
      · left
        simp [Text.trim_stripCarriageReturn]
  | cons c t ih =>
      simp only [List.cons_append, Text.linesFrom]
      split_ifs with hc
      · rcases ih [] with hSame | hMore
        · exact Or.inl (by simp [hSame])
        · exact Or.inr (by simp [hMore])
      · exact ih (line ++ [c])

theorem fromPem_snoc (text : Text) :
    fromPem (text ++ ['\n']) = fromPem text := by
  rw [fromPem_eq_scan, fromPem_eq_scan]
  rcases linesFrom_snoc [] text with hSame | hMore
  · exact congrArg (scan none) hSame
  · have hLines : pemLines (text ++ ['\n']) =
        pemLines text ++ [[]] := hMore
    have hEmpty : ∀ body, scan body [[]] = [] := by
      intro body
      rfl
    rw [hLines, scan_append, hEmpty, List.append_nil]

/- The lines of a block, trimmed, are a block. -/
theorem pemLines_toPem (der : Bytes) :
    ∃ body, pemLines (toPem der) =
        pemBegin :: (body ++ [pemEnd]) ∧
      (∀ line ∈ body, IsPlain line) ∧
      base64Decode body.flatten = some der := by
  have hChars : ∀ piece ∈ chunks 64 (base64Encode der),
      ∀ c ∈ piece, IsBodyChar c :=
    fun piece hPiece c hc => isBodyChar_of_mem_base64Encode
      (mem_of_mem_chunks 64 hPiece hc)
  have hLines := lines_toPem der []
  rw [List.append_nil, Text.lines_nil] at hLines
  have hTrim : (chunks 64 (base64Encode der)).map Text.trim =
      chunks 64 (base64Encode der) :=
    (List.map_congr_left (fun piece hPiece =>
      trim_of_isBodyChar (hChars piece hPiece))).trans
        (List.map_id _)
  have hBegin : Text.trim pemBegin = pemBegin := by
    decide +kernel
  have hEnd : Text.trim pemEnd = pemEnd := by
    decide +kernel
  refine ⟨chunks 64 (base64Encode der), ?_, ?_, ?_⟩
  · rw [pemLines, hLines, List.cons_append, List.map_cons,
      List.map_append, hTrim, List.map_cons, hBegin, hEnd,
      List.map_nil]
  · intro piece hPiece
    have hDash : '-' ∉ piece := fun hMem =>
      (hChars piece hPiece '-' hMem).1 rfl
    constructor
    · rintro rfl
      exact hDash (by decide)
    · rintro rfl
      exact hDash (by decide)
  · rw [flatten_chunks, base64Decode_base64Encode]

/- Lines outside of a block add nothing. -/
theorem scan_surrounding
    {gap : List Text}
    (hGap : ∀ line ∈ gap, IsSurrounding line)
    (rest : List Text) :
    scan none (gap.map Text.trim ++ rest) = scan none rest := by
  have hPlain : ∀ line ∈ gap.map Text.trim, IsPlain line := by
    intro line hLine
    rcases List.mem_map.mp hLine with ⟨l, hl, rfl⟩
    exact (hGap l hl).2
  rw [scan_plain hPlain]
  rfl

theorem scan_documentLines
    {gap : List Text}
    {blocks : List (Bytes × List Text)}
    (hGap : ∀ line ∈ gap, IsSurrounding line)
    (hGaps : ∀ block ∈ blocks, ∀ line ∈ block.2,
      IsSurrounding line) :
    scan none ((documentLines gap blocks).map Text.trim) =
      blocks.map Prod.fst := by
  rw [documentLines, List.map_append, scan_surrounding hGap]
  clear hGap
  induction blocks with
  | nil => rfl
  | cons block blocks ih =>
      rcases block with ⟨der, after⟩
      rcases pemLines_toPem der with
        ⟨body, hLines, hPlain, hDecodes⟩
      have hRest := ih (fun b hb =>
        hGaps b (List.mem_cons_of_mem _ hb))
      have hAfter := hGaps _ List.mem_cons_self
      have hBlock := scan_block [] hPlain hDecodes none
        (after.map Text.trim ++ (blocks.flatMap (fun block =>
          Text.lines (toPem block.1) ++ block.2)).map
            Text.trim)
      rw [scan_surrounding hAfter, hRest] at hBlock
      rw [List.flatMap_cons, List.map_append, List.map_append,
        List.append_assoc]
      change scan none (pemLines (toPem der) ++ _) = _
      rw [hLines]
      simpa [scan] using hBlock

/-
  A text that holds blocks gives what they were written from,
  whatever lines stand around them and however the lines of
  all of it are laid out.
-/
theorem fromPem_laidOut
    {gap : List Text}
    {blocks : List (Bytes × List Text)}
    {raws : List Text}
    {text : Text}
    (hGap : ∀ line ∈ gap, IsSurrounding line)
    (hGaps : ∀ block ∈ blocks, ∀ line ∈ block.2,
      IsSurrounding line)
    (hRaws : List.Forall₂ LaidOut (documentLines gap blocks)
      raws)
    (hText : text = raws.flatten ∨
      text ++ ['\n'] = raws.flatten) :
    fromPem text = blocks.map Prod.fst := by
  have hLines : ∀ line ∈ documentLines gap blocks,
      '\n' ∉ line := by
    intro line hLine
    rcases List.mem_append.mp hLine with hLine | hLine
    · exact (hGap line hLine).1
    · rcases List.mem_flatMap.mp hLine with
        ⟨block, hBlock, hLine⟩
      rcases List.mem_append.mp hLine with hLine | hLine
      · exact Text.newline_not_mem_linesFrom List.not_mem_nil
          (toPem block.1) line hLine
      · exact (hGaps block hBlock line hLine).1
  have hWhole : fromPem raws.flatten =
      blocks.map Prod.fst := by
    rw [fromPem_eq_scan, pemLines_flatten hLines hRaws,
      scan_documentLines hGap hGaps]
  rcases hText with hText | hText
  · rw [hText, hWhole]
  · rw [← fromPem_snoc, hText, hWhole]

/- Two blocks with other lines around, indented, for CR LF. -/
def sampleGap : List Text :=
  ["# two certificates".toList]

def sampleBlocks : List (Bytes × List Text) :=
  [([0x30, 0x00],
      [[], "-----BEGIN PUBLIC KEY-----".toList]),
    (List.replicate 50 0x30, [])]

def sampleRaws : List Text :=
  (documentLines sampleGap sampleBlocks).map
    (fun line => ['\t'] ++ line ++ [' '] ++ ['\r', '\n'])

theorem fromPem_laidOut_sample :
    fromPem sampleRaws.flatten =
      [[0x30, 0x00], List.replicate 50 0x30] := by
  have hRaws : List.Forall₂ LaidOut
      (documentLines sampleGap sampleBlocks) sampleRaws := by
    rw [sampleRaws, List.forall₂_map_right_iff,
      List.forall₂_same]
    intro line _
    exact .carriageReturn ['\t'] [' ']
      (List.forall_mem_singleton.mpr ⟨rfl, by decide⟩)
      (List.forall_mem_singleton.mpr ⟨rfl, by decide⟩)
  exact fromPem_laidOut
    (by unfold IsSurrounding IsPlain; decide +kernel)
    (by unfold IsSurrounding IsPlain; decide +kernel)
    hRaws (Or.inl rfl)

end Cert

end Trustd
