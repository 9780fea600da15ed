import Trustd.General.Lists

/-
  Text and bytes as the daemon handles them.

  A string is the list of its Unicode scalar values, a byte
  vector the list of its bytes. The operations below are the
  string operations of the language's standard library that
  the modelled functions call.

  Key definitions include:
    * `Trustd.Text`
    * `Trustd.Bytes`
    * `Trustd.Text.lines`
    * `Trustd.Text.trim`
    * `Trustd.Text.utf8`
    * `Trustd.Text.fromUtf8`

  Key theorems include:
    * `Trustd.Text.lines_append`
    * `Trustd.Text.lines_line`
    * `Trustd.Text.fromUtf8_utf8`
    * `Trustd.Text.utf8_of_fromUtf8`
    * `Trustd.Text.fromUtf8Lossy_utf8`
    * `Trustd.Text.ascending_insertionSort`
    * `Trustd.Text.eq_of_ascending`
-/

------------------------------------------------------------
-- Carriers
------------------------------------------------------------

namespace Trustd

abbrev Text := List Char

abbrev Bytes := List UInt8

/-
  Every test of membership in a list of texts reads this
  proof, under its name.
-/
instance Text.lawfulBEq : LawfulBEq Text :=
  inferInstance

/- The error of an input or output operation. -/
inductive ErrorKind where
  | notFound
  | permissionDenied
  | alreadyExists
  | invalidInput
  | invalidData
  | notConnected
  | timedOut
  | writeZero
  | unexpectedEof
  | isADirectory
  | notADirectory
  | directoryNotEmpty
  | other
deriving DecidableEq, Repr

/-
  `io::Error`: its kind, the operating system's number where
  the system gave one, and what it prints.
-/
structure IoError where
  kind : ErrorKind
  rawOsError : Option Nat
  text : Text
deriving DecidableEq, Repr

/- A property of all bytes is checked on all bytes. -/
theorem forall_byte
    {P : UInt8 → Prop}
    (hAll : ∀ n < 256, P (UInt8.ofNat n))
    (b : UInt8) :
    P b := by
  simpa using hAll b.toNat b.toNat_lt

end Trustd

------------------------------------------------------------
-- Characters
------------------------------------------------------------

namespace Trustd

namespace Text

/- `char::is_whitespace`: the property White_Space. -/
def isWhitespace (c : Char) : Bool :=
  let n := c.toNat
  (9 ≤ n && n ≤ 13) || n == 0x20 || n == 0x85 ||
    n == 0xA0 || n == 0x1680 ||
    (0x2000 ≤ n && n ≤ 0x200A) || n == 0x2028 ||
    n == 0x2029 || n == 0x202F || n == 0x205F ||
    n == 0x3000

/- `u8::is_ascii_hexdigit`, on a character. -/
def isAsciiHexdigit (c : Char) : Bool :=
  ('0' ≤ c && c ≤ '9') || ('a' ≤ c && c ≤ 'f') ||
    ('A' ≤ c && c ≤ 'F')

/- `str::eq_ignore_ascii_case`. -/
def eqIgnoreAsciiCase (a b : Text) : Bool :=
  a.map Char.toLower == b.map Char.toLower

/- `str::trim`. -/
def trim (t : Text) : Text :=
  ((t.dropWhile isWhitespace).reverse.dropWhile
    isWhitespace).reverse

/- The bytes of a string. -/
def utf8 (t : Text) : Bytes :=
  t.flatMap String.utf8EncodeChar

/- `String::from_utf8`: strict, and `none` on an error. -/
def fromUtf8 (b : Bytes) : Option Text :=
  (ByteArray.mk b.toArray).utf8Decode?.map Array.toList

/- A number as `{}` prints it. -/
def decimal (n : Nat) : Text :=
  Nat.toDigits 10 n

/- One digit of a lowercase hexadecimal number. -/
def hexDigit (n : Nat) : Char :=
  (Nat.digitChar n)

/- A byte as `{:02x}` prints it. -/
def hexByte (b : UInt8) : Text :=
  [hexDigit (b.toNat / 16), hexDigit (b.toNat % 16)]

end Text

end Trustd

------------------------------------------------------------
-- Lines
------------------------------------------------------------

namespace Trustd

namespace Text

/- A carriage return before the line feed goes with it. -/
def stripCarriageReturn (line : Text) : Text :=
  if line.getLast? = some '\r' then line.dropLast else line

/-
  Walk the text with the line read so far. What stands after
  the last line feed is a line of its own unless it is empty,
  and keeps a carriage return it ends in.
-/
def linesFrom (line : Text) : Text → List Text
  | [] => if line = [] then [] else [line]
  | c :: rest =>
      if c = '\n' then
        stripCarriageReturn line :: linesFrom [] rest
      else
        linesFrom (line ++ [c]) rest

/- `str::lines`. -/
def lines (t : Text) : List Text :=
  linesFrom [] t

@[simp] theorem lines_nil : lines [] = [] := rfl

theorem linesFrom_line
    (line part rest : Text)
    (hPart : '\n' ∉ part) :
    linesFrom line (part ++ '\n' :: rest) =
      stripCarriageReturn (line ++ part) :: lines rest := by
  induction part generalizing line with
  | nil => simp [linesFrom, lines]
  | cons c part ih =>
      have hHead : c ≠ '\n' := by
        rintro rfl
        exact hPart List.mem_cons_self
      have hTail : '\n' ∉ part :=
        fun hMem => hPart (List.mem_cons_of_mem c hMem)
      simp [linesFrom, hHead, ih _ hTail]

/- A line that ends in a line feed is split off the front. -/
theorem lines_line
    (line rest : Text)
    (hLine : '\n' ∉ line) :
    lines (line ++ '\n' :: rest) =
      stripCarriageReturn line :: lines rest := by
  simpa [lines] using linesFrom_line [] line rest hLine

theorem linesFrom_append
    (line a b : Text) :
    linesFrom line (a ++ '\n' :: b) =
      linesFrom line (a ++ ['\n']) ++ lines b := by
  induction a generalizing line with
  | nil => simp [linesFrom, lines]
  | cons c a ih =>
      by_cases hc : c = '\n'
      · simp [linesFrom, hc, ih []]
      · simp [linesFrom, hc, ih (line ++ [c])]

/-
  Text that ends in a line feed contributes its lines, and
  what follows contributes its own.
-/
theorem lines_append
    (a b : Text) :
    lines (a ++ '\n' :: b) =
      lines (a ++ ['\n']) ++ lines b :=
  linesFrom_append [] a b

/- A text made of whole lines. -/
def EndsLine (t : Text) : Prop :=
  t = [] ∨ ∃ a, t = a ++ ['\n']

theorem EndsLine.lines_append
    {a : Text}
    (hEnds : EndsLine a)
    (b : Text) :
    lines (a ++ b) = lines a ++ lines b := by
  rcases hEnds with rfl | ⟨c, rfl⟩
  · simp
  · simpa using Text.lines_append c b

theorem EndsLine.append
    {a b : Text}
    (hLeft : EndsLine a)
    (hRight : EndsLine b) :
    EndsLine (a ++ b) := by
  rcases hRight with rfl | ⟨c, rfl⟩
  · simpa using hLeft
  · exact Or.inr ⟨a ++ c, by simp⟩

theorem EndsLine.newline (a : Text) :
    EndsLine (a ++ ['\n']) :=
  Or.inr ⟨a, rfl⟩

/- A line whose first character is not white space keeps it. -/
theorem head?_trim
    (c : Char)
    (rest : Text)
    (hc : isWhitespace c = false) :
    (trim (c :: rest)).head? = some c := by
  have hDrop :
      (c :: rest).dropWhile isWhitespace = c :: rest := by
    simp [hc]
  have hKeep :
      ∃ part, ((c :: rest).reverse.dropWhile
        isWhitespace) = part ++ [c] := by
    rw [List.reverse_cons, List.dropWhile_append]
    split
    · exact ⟨[], by simp [hc]⟩
    · exact ⟨_, rfl⟩
  rcases hKeep with ⟨part, hPart⟩
  rw [trim, hDrop, hPart]
  simp

end Text

end Trustd

------------------------------------------------------------
-- UTF-8
------------------------------------------------------------

namespace Trustd

namespace Text

@[simp] theorem utf8_nil : utf8 [] = [] := rfl

@[simp] theorem utf8_cons
    (c : Char)
    (t : Text) :
    utf8 (c :: t) = String.utf8EncodeChar c ++ utf8 t := rfl

@[simp] theorem utf8_append (a b : Text) :
    utf8 (a ++ b) = utf8 a ++ utf8 b :=
  List.flatMap_append

theorem toByteArray_utf8 (t : Text) :
    ByteArray.mk (utf8 t).toArray = t.utf8Encode := by
  apply ByteArray.ext
  simp [List.utf8Encode, utf8]

/- Reading back what was encoded. -/
theorem fromUtf8_utf8 (t : Text) :
    fromUtf8 (utf8 t) = some t := by
  rw [fromUtf8, toByteArray_utf8, List.utf8Decode?_utf8Encode]
  rfl

/- What is accepted is the encoding of what is returned. -/
theorem utf8_of_fromUtf8
    {b : Bytes}
    {t : Text}
    (hRead : fromUtf8 b = some t) :
    utf8 t = b := by
  rcases Option.map_eq_some_iff.mp hRead with
    ⟨chars, hChars, rfl⟩
  have hValid :
      (ByteArray.mk b.toArray).utf8Decode?.isSome = true := by
    rw [hChars]
    rfl
  have hBack := ByteArray.utf8Encode_get_utf8Decode?
    (b := ByteArray.mk b.toArray) (h := hValid)
  simp only [hChars, Option.get_some,
    ← toByteArray_utf8] at hBack
  have hArrays := congrArg ByteArray.data hBack
  simpa using congrArg Array.toList hArrays

/- An ASCII character is one byte. -/
theorem utf8EncodeChar_ascii
    {c : Char}
    (hc : c.toNat < 0x80) :
    String.utf8EncodeChar c = [UInt8.ofNat c.toNat] := by
  have hc' : c.val.toNat ≤ 0x7f := by
    change c.toNat ≤ 0x7f
    omega
  exact if_pos hc'

/- Any other is several bytes, none of them ASCII. -/
theorem utf8EncodeChar_high
    {c : Char}
    (hc : 0x80 ≤ c.toNat) :
    (∀ b ∈ String.utf8EncodeChar c, 0x80 ≤ b.toNat) ∧
      2 ≤ (String.utf8EncodeChar c).length ∧
      (0x800 ≤ c.toNat →
        3 ≤ (String.utf8EncodeChar c).length) := by
  have hc' : 0x80 ≤ c.val.toNat := hc
  have hEq : c.toNat = c.val.toNat := rfl
  rw [hEq]
  generalize hn : c.val.toNat = n at hc'
  simp only [String.utf8EncodeChar, hn]
  split_ifs with h1 h2 h3
  · omega
  · simp
    omega
  · simp
    omega
  · simp
    omega

end Text

end Trustd

------------------------------------------------------------
-- Lossy Decoding
------------------------------------------------------------

namespace Trustd

namespace Text

/- Whether a byte continues a character. -/
def isContinuation (b : UInt8) : Bool :=
  0x80 ≤ b && b ≤ 0xBF

/- The bytes of a character that starts with this one. -/
def utf8CharWidth (first : UInt8) : Nat :=
  if first < 0x80 then 1
  else if 0xC2 ≤ first ∧ first ≤ 0xDF then 2
  else if 0xE0 ≤ first ∧ first ≤ 0xEF then 3
  else if 0xF0 ≤ first ∧ first ≤ 0xF4 then 4
  else 0

/- Whether a character can go on with a byte from its first. -/
def secondAllowed (first second : UInt8) : Bool :=
  if first = 0xE0 then 0xA0 ≤ second && second ≤ 0xBF
  else if first = 0xED then 0x80 ≤ second && second ≤ 0x9F
  else if first = 0xF0 then 0x90 ≤ second && second ≤ 0xBF
  else if first = 0xF4 then 0x80 ≤ second && second ≤ 0x8F
  else isContinuation second

/-
  The length of the character that comes first, or of what
  there is of it where it breaks off.
-/
def chunkLength (first : UInt8) (rest : Bytes) : Nat :=
  if utf8CharWidth first ≤ 1 then 1
  else
    match rest with
    | [] => 1
    | second :: more =>
        if secondAllowed first second = false then 1
        else
          2 + ((more.take (utf8CharWidth first - 2)).takeWhile
            isContinuation).length

/- `String::from_utf8_lossy`. -/
def fromUtf8Lossy : Bytes → Text
  | [] => []
  | first :: rest =>
      let more := chunkLength first rest - 1
      (fromUtf8 (first :: rest.take more)).getD
        [Char.ofNat 0xFFFD] ++
          fromUtf8Lossy (rest.drop more)
termination_by bytes => bytes.length
decreasing_by
  simp only [List.length_drop, List.length_cons]
  omega

end Text

end Trustd

------------------------------------------------------------
-- Order
------------------------------------------------------------

namespace Trustd

open General

/- `Vec<u8>`'s order: byte by byte, a prefix first. -/
def bytesLe (a b : Bytes) : Bool :=
  lexLe (a.map UInt8.toNat) (b.map UInt8.toNat)

theorem bytesLe_total (a b : Bytes) :
    bytesLe a b = true ∨ bytesLe b a = true :=
  lexLe_total _ _

theorem bytesLe_trans
    {a b c : Bytes}
    (hLeft : bytesLe a b = true)
    (hRight : bytesLe b c = true) :
    bytesLe a c = true :=
  lexLe_trans hLeft hRight

theorem bytesLe_antisymm
    {a b : Bytes}
    (hLeft : bytesLe a b = true)
    (hRight : bytesLe b a = true) :
    a = b :=
  List.map_injective_iff.mpr (fun _ _ => UInt8.toNat_inj.mp)
    (lexLe_antisymm hLeft hRight)

end Trustd

------------------------------------------------------------
-- Texts In Order
------------------------------------------------------------

namespace Trustd

namespace Text

theorem utf8_injective
    {a b : Text}
    (hBytes : utf8 a = utf8 b) :
    a = b := by
  have hRead := fromUtf8_utf8 a
  rw [hBytes, fromUtf8_utf8] at hRead
  exact (Option.some.inj hRead).symm

/- `str`'s order. -/
def le (a b : Text) : Prop :=
  bytesLe (utf8 a) (utf8 b) = true

instance : DecidableRel le :=
  fun _ _ => inferInstanceAs (Decidable (_ = _))

instance : Std.Total le where
  total _ _ := bytesLe_total _ _

instance : IsTrans Text le where
  trans _ _ _ hLeft hRight := bytesLe_trans hLeft hRight

theorem le_antisymm
    {a b : Text}
    (hLeft : le a b)
    (hRight : le b a) :
    a = b :=
  utf8_injective (bytesLe_antisymm hLeft hRight)

variable {α : Type}

/- A list in ascending order of its keys, no two the same. -/
def Ascending (key : α → Text) (l : List α) : Prop :=
  l.Pairwise (fun a b => le (key a) (key b) ∧ key a ≠ key b)

theorem ascending_insertionSort
    (key : α → Text)
    {l : List α}
    (hNodup : (l.map key).Nodup) :
    Ascending key (l.insertionSort (fun a b =>
      bytesLe (utf8 (key a)) (utf8 (key b)) = true)) := by
  let r : α → α → Prop := fun a b => le (key a) (key b)
  have hTotal : Std.Total r :=
    ⟨fun a b => Std.Total.total (r := le) (key a) (key b)⟩
  have hTrans : IsTrans α r :=
    ⟨fun _ _ _ hab hbc => IsTrans.trans (r := le) _ _ _ hab hbc⟩
  have hOrdered := List.pairwise_insertionSort r l
  have hDistinct : ((l.insertionSort r).map key).Nodup :=
    ((List.perm_insertionSort r l).map key).nodup_iff.mpr hNodup
  rw [List.Nodup, List.pairwise_map] at hDistinct
  exact hOrdered.and hDistinct

/- There is one way to list things in ascending order. -/
theorem eq_of_ascending
    {key : α → Text}
    {l m : List α}
    (hLeft : Ascending key l)
    (hRight : Ascending key m)
    (hMem : ∀ a, a ∈ l ↔ a ∈ m) :
    l = m := by
  let r : α → α → Prop := fun a b =>
    le (key a) (key b) ∧ key a ≠ key b
  have hAntisymm : Std.Antisymm r :=
    ⟨fun _ _ hab hba =>
      absurd (le_antisymm hab.1 hba.1) hab.2⟩
  have hIrrefl : Std.Irrefl r := ⟨fun _ h => h.2 rfl⟩
  exact @List.Pairwise.eq_of_mem_iff _ r hAntisymm hIrrefl _ _
    hLeft hRight hMem

theorem isContinuation_ofNat
    {x : Nat}
    (hx : x < 256) :
    isContinuation (UInt8.ofNat x) =
      decide (128 ≤ x ∧ x ≤ 191) := by
  simp only [isContinuation, UInt8.le_iff_toNat_le,
    UInt8.toNat_ofNat_of_lt' hx, Bool.decide_and]
  rfl

theorem utf8CharWidth_ofNat
    {x : Nat}
    (hx : x < 256) :
    utf8CharWidth (UInt8.ofNat x) =
      if x < 128 then 1
      else if 194 ≤ x ∧ x ≤ 223 then 2
      else if 224 ≤ x ∧ x ≤ 239 then 3
      else if 240 ≤ x ∧ x ≤ 244 then 4
      else 0 := by
  simp only [utf8CharWidth, UInt8.le_iff_toNat_le,
    UInt8.lt_iff_toNat_lt, UInt8.toNat_ofNat_of_lt' hx]
  rfl

theorem secondAllowed_ofNat
    {x y : Nat}
    (hx : x < 256)
    (hy : y < 256)
    (hAllowed : 128 ≤ y ∧ y ≤ 191 ∧ (x = 224 → 160 ≤ y) ∧
      (x = 237 → y ≤ 159) ∧ (x = 240 → 144 ≤ y) ∧
        (x = 244 → y ≤ 143)) :
    secondAllowed (UInt8.ofNat x) (UInt8.ofNat y) = true := by
  have hEq : ∀ z < 256, UInt8.ofNat x = UInt8.ofNat z → x = z := by
    intro z hz hSame
    have hNat := congrArg UInt8.toNat hSame
    rwa [UInt8.toNat_ofNat_of_lt' hx,
      UInt8.toNat_ofNat_of_lt' hz] at hNat
  unfold secondAllowed
  simp only [isContinuation_ofNat hy, UInt8.le_iff_toNat_le,
    UInt8.toNat_ofNat_of_lt' hy]
  split_ifs with h1 h2 h3 h4
  · have := hEq 224 (by decide) h1
    simp
    omega
  · have := hEq 237 (by decide) h2
    simp
    omega
  · have := hEq 240 (by decide) h3
    simp
    omega
  · have := hEq 244 (by decide) h4
    simp
    omega
  · simp
    omega

/- The bytes of a character are the first chunk there is. -/
theorem exists_chunk (c : Char) :
    ∃ first more, String.utf8EncodeChar c = first :: more ∧
      ∀ rest, chunkLength first (more ++ rest) =
        more.length + 1 := by
  have hValid : c.val.toNat < 0xD800 ∨
      0xDFFF < c.val.toNat ∧ c.val.toNat < 0x110000 := c.valid
  unfold String.utf8EncodeChar
  dsimp only
  generalize c.val.toNat = n at hValid
  by_cases h1 : n ≤ 0x7f
  · refine ⟨_, _, if_pos h1, fun rest => ?_⟩
    have hWidth : utf8CharWidth (UInt8.ofNat n) = 1 := by
      rw [utf8CharWidth_ofNat (by omega), if_pos (by omega)]
    unfold chunkLength
    rw [hWidth, if_pos le_rfl]
    rfl
  rw [if_neg h1]
  by_cases h2 : n ≤ 0x7ff
  · refine ⟨_, _, if_pos h2, fun rest => ?_⟩
    have hWidth : utf8CharWidth
        (UInt8.ofNat (n / 64 % 0x20 + 0xc0)) = 2 := by
      rw [utf8CharWidth_ofNat (by omega), if_neg (by omega),
        if_pos (by omega)]
    have hSecond : secondAllowed
        (UInt8.ofNat (n / 64 % 0x20 + 0xc0))
        (UInt8.ofNat (n % 0x40 + 0x80)) = true :=
      secondAllowed_ofNat (by omega) (by omega) (by omega)
    unfold chunkLength
    rw [hWidth, if_neg (by decide), List.cons_append]
    dsimp only
    rw [hSecond]
    rfl
  rw [if_neg h2]
  have hLast : isContinuation
      (UInt8.ofNat (n % 0x40 + 0x80)) = true := by
    rw [isContinuation_ofNat (by omega), decide_eq_true_eq]
    omega
  by_cases h3 : n ≤ 0xffff
  · refine ⟨_, _, if_pos h3, fun rest => ?_⟩
    have hWidth : utf8CharWidth
        (UInt8.ofNat (n / 4096 % 0x10 + 0xe0)) = 3 := by
      rw [utf8CharWidth_ofNat (by omega), if_neg (by omega),
        if_neg (by omega), if_pos (by omega)]
    have hSecond : secondAllowed
        (UInt8.ofNat (n / 4096 % 0x10 + 0xe0))
        (UInt8.ofNat (n / 64 % 0x40 + 0x80)) = true :=
      secondAllowed_ofNat (by omega) (by omega) (by omega)
    unfold chunkLength
    rw [hWidth, if_neg (by decide), List.cons_append]
    dsimp only
    rw [hSecond]
    generalize UInt8.ofNat (n % 0x40 + 0x80) = last at hLast
    simp [hLast]
  rw [if_neg h3]
  refine ⟨_, _, rfl, fun rest => ?_⟩
  have hWidth : utf8CharWidth
      (UInt8.ofNat (n / 262144 % 0x08 + 0xf0)) = 4 := by
    rw [utf8CharWidth_ofNat (by omega), if_neg (by omega),
      if_neg (by omega), if_neg (by omega), if_pos (by omega)]
  have hSecond : secondAllowed
      (UInt8.ofNat (n / 262144 % 0x08 + 0xf0))
      (UInt8.ofNat (n / 4096 % 0x40 + 0x80)) = true :=
    secondAllowed_ofNat (by omega) (by omega) (by omega)
  have hThird : isContinuation
      (UInt8.ofNat (n / 64 % 0x40 + 0x80)) = true := by
    rw [isContinuation_ofNat (by omega), decide_eq_true_eq]
    omega
  unfold chunkLength
  rw [hWidth, if_neg (by decide), List.cons_append]
  dsimp only
  rw [hSecond]
  generalize UInt8.ofNat (n % 0x40 + 0x80) = last at hLast
  generalize UInt8.ofNat (n / 64 % 0x40 + 0x80) = third
    at hThird
  simp [hThird, hLast]

/- What is UTF-8 is read without loss. -/
theorem fromUtf8Lossy_utf8 (t : Text) :
    fromUtf8Lossy (utf8 t) = t := by
  induction t with
  | nil => rw [utf8_nil, fromUtf8Lossy]
  | cons c t ih =>
      rcases exists_chunk c with ⟨first, more, hBytes, hChunk⟩
      have hOne : fromUtf8 (first :: more) = some [c] := by
        have hRead := fromUtf8_utf8 [c]
        rw [utf8_cons, utf8_nil, List.append_nil,
          hBytes] at hRead
        exact hRead
      rw [utf8_cons, hBytes, List.cons_append, fromUtf8Lossy,
        hChunk, Nat.add_sub_cancel, List.take_left,
        List.drop_left, ih, hOne]
      rfl

end Text

end Trustd
