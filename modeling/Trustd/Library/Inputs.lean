import Trustd.Library.Views
import Trustd.Shared.Channel

/-
  What a caller of the C interface hands in.

  A span is lent for the length of a call. Its length, its
  text and its presence are checked before anything is done
  with it; what passes is the value that was lent.

  Key definitions include:
    * `Trustd.Inputs.strings`
    * `Trustd.Inputs.Lent`
    * `Trustd.Inputs.textOf`
    * `Trustd.Inputs.stringsOf`

  Key theorems include:
    * `Trustd.Inputs.strings_lent`
    * `Trustd.Inputs.strings_accepted_iff`
-/

------------------------------------------------------------
-- Checks
------------------------------------------------------------

namespace Trustd

namespace Inputs

open General Shared

/- A read of what the caller lends. -/
abbrev Input (α : Type) : Type :=
  Reading Abi.Block IoError α

/- `MAX_TEXT_BYTES`. -/
def maxTextBytes : Nat := 4 * 1024 * 1024

/- `isize::MAX`. -/
def isizeMax : Nat := 2 ^ 63 - 1

/- `array`, of values of so many bytes each. -/
def array
    {τ : Type}
    (s : Slice τ Abi.Block)
    (size : Nat)
    (pointer count : Nat) :
    Input (List τ) :=
  if count = 0 then pure []
  else if pointer = 0 ∨ isizeMax / max size 1 < count then
    Reading.refuse (invalid "invalid array span".toList)
  else Reading.slice s pointer count

/- `bytes`. -/
def bytes (value : Abi.Bytes) : Input Bytes :=
  if maxTextBytes < value.len then
    Reading.refuse (invalid
      "input span exceeds 4 MiB".toList)
  else array Abi.octets 1 value.data value.len

/- `text`. -/
def text (value : Abi.Bytes) : Input Text := do
  let octets ← bytes value
  match Text.fromUtf8 octets with
  | some text => return text
  | none => Reading.refuse (invalid
      "text is not UTF-8".toList)

/- `boolean`. -/
def boolean (value : Nat) : Input Bool :=
  if value = 0 then return false
  else if value = 1 then return true
  else Reading.refuse (invalid
    "boolean must be 0 or 1".toList)

/- `maybe_text`. -/
def maybeText (value : Abi.Bytes) : Input (Option Text) :=
  if value.data = 0 then
    if value.len ≠ 0 then
      Reading.refuse (invalid
        "absent text has nonzero length".toList)
    else return none
  else do
    let text ← text value
    return some text

/-
  The closure of `strings` over the spans that are left. A sum
  that overflows is above the bound as well.
-/
def stringsFrom : Nat → List Abi.Bytes → Input (List Text)
  | _, [] => pure []
  | total, value :: rest =>
      if maxTextBytes < total + value.len then
        Reading.refuse (invalid
          "string list exceeds 4 MiB".toList)
      else do
        let text ← text value
        let texts ← stringsFrom (total + value.len) rest
        return text :: texts

/- `strings`. -/
def strings (value : Abi.Strings) :
    Input (List Text) :=
  if 65536 < value.len then
    Reading.refuse (invalid "too many strings".toList)
  else do
    let values ← array Abi.spans 16 value.data value.len
    stringsFrom 0 values

end Inputs

end Trustd

------------------------------------------------------------
-- What Passes
------------------------------------------------------------

namespace Trustd

namespace Inputs

open General Shared

/- The outcome of the checks, of the value that is lent. -/
def bytesOf (value : Bytes) : Except IoError Bytes :=
  if maxTextBytes < value.length then
    .error (invalid "input span exceeds 4 MiB".toList)
  else .ok value

def textOf (value : Text) : Except IoError Text :=
  (bytesOf (Text.utf8 value)).map (fun _ => value)

def maybeTextOf :
    Option Text → Except IoError (Option Text)
  | none => .ok none
  | some value => (textOf value).map some

/- The bytes of all the texts. -/
def totalBytes (values : List Text) : Nat :=
  (values.map (fun value => (Text.utf8 value).length)).sum

def stringsOf (values : List Text) :
    Except IoError (List Text) :=
  if 65536 < values.length then
    .error (invalid "too many strings".toList)
  else if maxTextBytes < totalBytes values then
    .error (invalid "string list exceeds 4 MiB".toList)
  else .ok values

/- A span of bytes that is there for the call. -/
def Lent
    (heap : Heap Abi.Block)
    (view : Abi.Bytes)
    (value : Bytes) :
    Prop :=
  view.len = value.length ∧
    heap.slice Abi.octets view.data view.len = some value

/- A text, or none. -/
def LentMaybe
    (heap : Heap Abi.Block)
    (view : Abi.Bytes) :
    Option Text → Prop
  | none => view = Abi.absent
  | some value =>
      view.data ≠ 0 ∧ Lent heap view (Text.utf8 value)

/- Spans side by side, each of a text. -/
def LentStrings
    (heap : Heap Abi.Block)
    (view : Abi.Strings)
    (values : List Text) :
    Prop :=
  ∃ views,
    view.len = views.length ∧
    heap.slice Abi.spans view.data view.len = some views ∧
    List.Forall₂ (fun view value =>
      Lent heap view (Text.utf8 value)) views values

variable {heap : Heap Abi.Block}

/- Values that are there are at an address. -/
theorem array_of_slice
    {τ : Type}
    {s : Slice τ Abi.Block}
    {size pointer count : Nat}
    {l : List τ}
    (hSlice : heap.slice s pointer count = some l)
    (hCount : count ≤ isizeMax / max size 1) :
    array s size pointer count heap = some (.ok l) := by
  unfold array
  split_ifs with hNone hBad
  · subst hNone
    rw [Heap.slice_zero] at hSlice
    cases hSlice
    rfl
  · rcases hBad with hNull | hMany
    · unfold Heap.slice at hSlice
      rw [if_neg hNone, hNull, Heap.read_null] at hSlice
      cases hSlice
    · omega
  · exact Reading.slice_ok hSlice

theorem bytes_lent
    {view : Abi.Bytes}
    {value : Bytes}
    (hLent : Lent heap view value) :
    bytes view heap = some (bytesOf value) := by
  unfold bytes bytesOf
  rw [hLent.1]
  split_ifs with hLarge
  · rfl
  · apply array_of_slice
    · rw [← hLent.1]
      exact hLent.2
    · apply Nat.le_trans (Nat.le_of_not_lt hLarge)
      decide

theorem text_lent
    {view : Abi.Bytes}
    {value : Text}
    (hLent : Lent heap view (Text.utf8 value)) :
    text view heap = some (textOf value) := by
  have hBytes := bytes_lent hLent
  unfold text textOf
  unfold bytesOf at hBytes ⊢
  split_ifs at hBytes ⊢ with hLarge
  · exact Reading.bind_error hBytes
  · rw [Reading.bind_ok hBytes, Text.fromUtf8_utf8]
    rfl

theorem maybeText_lent
    {view : Abi.Bytes}
    {value : Option Text}
    (hLent : LentMaybe heap view value) :
    maybeText view heap = some (maybeTextOf value) := by
  cases value with
  | none =>
      rw [hLent]
      rfl
  | some value =>
      have hText := text_lent hLent.2
      rw [maybeText, if_neg hLent.1, maybeTextOf]
      cases hOut : textOf value with
      | ok text =>
          rw [hOut] at hText
          exact Reading.bind_ok hText
      | error e =>
          rw [hOut] at hText
          exact Reading.bind_error hText

theorem boolean_toNat
    (value : Bool)
    (heap : Heap Abi.Block) :
    boolean value.toNat heap = some (.ok value) := by
  cases value <;> rfl

theorem totalBytes_cons
    (value : Text)
    (rest : List Text) :
    totalBytes (value :: rest) =
      (Text.utf8 value).length + totalBytes rest := by
  rw [totalBytes, List.map_cons, List.sum_cons]
  rfl

/- The running sum is above the bound once the whole is. -/
theorem stringsFrom_lent
    {views : List Abi.Bytes}
    {values : List Text}
    (hLent : List.Forall₂ (fun view value =>
      Lent heap view (Text.utf8 value)) views values)
    {total : Nat}
    (hTotal : total ≤ maxTextBytes) :
    stringsFrom total views heap =
      some (if maxTextBytes < total + totalBytes values then
        .error (invalid "string list exceeds 4 MiB".toList)
      else .ok values) := by
  induction hLent generalizing total with
  | nil =>
      rw [stringsFrom, if_neg]
      · rfl
      · simpa [totalBytes] using hTotal
  | @cons view value views values hHead hRest ih =>
      rw [stringsFrom, totalBytes_cons, hHead.1]
      split_ifs with hHere hAll hAll
      · rfl
      · omega
      · have hText : text view heap = some (.ok value) := by
          rw [text_lent hHead, textOf, bytesOf,
            if_neg (by omega)]
          rfl
        rw [Reading.bind_ok hText]
        exact Reading.bind_error (by
          rw [ih (by omega), if_pos (by omega)])
      · have hText : text view heap = some (.ok value) := by
          rw [text_lent hHead, textOf, bytesOf,
            if_neg (by omega)]
          rfl
        have hTexts : stringsFrom
            (total + (Text.utf8 value).length) views heap =
              some (.ok values) := by
          rw [ih (by omega), if_neg (by omega)]
        rw [Reading.bind_ok hText, Reading.bind_ok hTexts]
        rfl

theorem strings_lent
    {view : Abi.Strings}
    {values : List Text}
    (hLent : LentStrings heap view values) :
    strings view heap = some (stringsOf values) := by
  rcases hLent with ⟨views, hLen, hSlice, hEach⟩
  unfold strings stringsOf
  rw [hLen, hEach.length_eq]
  split_ifs with hMany hLarge
  · rfl
  all_goals
    have hArray : array Abi.spans 16 view.data
        values.length heap = some (.ok views) := by
      apply array_of_slice
      · rw [← hEach.length_eq, ← hLen]
        exact hSlice
      · apply Nat.le_trans (Nat.le_of_not_lt hMany)
        decide
    rw [Reading.bind_ok hArray,
      stringsFrom_lent hEach (Nat.zero_le _), Nat.zero_add]
  · rw [if_pos hLarge]
  · rw [if_neg hLarge]

end Inputs

end Trustd

------------------------------------------------------------
-- Nothing Else Passes
------------------------------------------------------------

namespace Trustd

namespace Inputs

open General Shared

variable {heap : Heap Abi.Block}

/- What is read of an array is there. -/
theorem slice_of_array
    {τ : Type}
    {s : Slice τ Abi.Block}
    {size pointer count : Nat}
    {l : List τ}
    (hRead : array s size pointer count heap =
      some (.ok l)) :
    heap.slice s pointer count = some l := by
  unfold array at hRead
  split_ifs at hRead with hNone hBad
  · cases hRead
    rw [hNone, Heap.slice_zero]
  · cases hRead
  · exact Reading.slice_eq_ok hRead

theorem bytes_iff
    {view : Abi.Bytes}
    {value : Bytes} :
    bytes view heap = some (.ok value) ↔
      Lent heap view value ∧ value.length ≤ maxTextBytes := by
  constructor
  · intro hRead
    unfold bytes at hRead
    split_ifs at hRead with hLarge
    · cases hRead
    · have hSlice := slice_of_array hRead
      have hLen := Heap.slice_length hSlice
      exact ⟨⟨hLen.symm, hSlice⟩, by omega⟩
  · rintro ⟨hLent, hBound⟩
    rw [bytes_lent hLent, bytesOf, if_neg (by omega)]

theorem text_iff
    {view : Abi.Bytes}
    {value : Text} :
    text view heap = some (.ok value) ↔
      Lent heap view (Text.utf8 value) ∧
        (Text.utf8 value).length ≤ maxTextBytes := by
  constructor
  · intro hRead
    rcases Reading.bind_eq_ok.mp hRead with
      ⟨octets, hOctets, hText⟩
    cases hUtf8 : Text.fromUtf8 octets with
    | none =>
        rw [hUtf8] at hText
        cases hText
    | some text =>
        rw [hUtf8] at hText
        cases hText
        rw [Text.utf8_of_fromUtf8 hUtf8]
        exact bytes_iff.mp hOctets
  · rintro ⟨hLent, hBound⟩
    rw [text_lent hLent, textOf, bytesOf,
      if_neg (by omega)]
    rfl

theorem of_stringsFrom
    {views : List Abi.Bytes}
    {values : List Text}
    {total : Nat}
    (hTotal : total ≤ maxTextBytes)
    (hRead : stringsFrom total views heap =
      some (.ok values)) :
    List.Forall₂ (fun view value =>
        Lent heap view (Text.utf8 value)) views values ∧
      total + totalBytes values ≤ maxTextBytes := by
  induction views generalizing total values with
  | nil =>
      cases hRead
      exact ⟨List.Forall₂.nil, hTotal⟩
  | cons view views ih =>
      rw [stringsFrom] at hRead
      split_ifs at hRead with hLarge
      · cases hRead
      · rcases Reading.bind_eq_ok.mp hRead with
          ⟨text, hText, hRest⟩
        rcases Reading.bind_eq_ok.mp hRest with
          ⟨texts, hTexts, hAll⟩
        cases hAll
        have hHead := (text_iff.mp hText).1
        rcases ih (by omega) hTexts with ⟨hEach, hBound⟩
        refine ⟨List.Forall₂.cons hHead hEach, ?_⟩
        rw [totalBytes_cons, ← hHead.1, ← Nat.add_assoc]
        exact hBound

/-
  A list of texts passes if and only if the caller lends just
  these texts, at most 65536 of them and of at most 4 MiB.
-/
theorem strings_accepted_iff
    (view : Abi.Strings)
    (values : List Text) :
    strings view heap = some (.ok values) ↔
      LentStrings heap view values ∧
        values.length ≤ 65536 ∧
        totalBytes values ≤ maxTextBytes := by
  constructor
  · intro hRead
    unfold strings at hRead
    split_ifs at hRead with hMany
    · cases hRead
    · rcases Reading.bind_eq_ok.mp hRead with
        ⟨views, hViews, hTexts⟩
      have hSlice := slice_of_array hViews
      have hLen := Heap.slice_length hSlice
      rcases of_stringsFrom (Nat.zero_le _) hTexts with
        ⟨hEach, hBound⟩
      refine ⟨⟨views, hLen.symm, hSlice, hEach⟩, ?_, ?_⟩
      · rw [← hEach.length_eq]
        omega
      · rw [Nat.zero_add] at hBound
        exact hBound
  · rintro ⟨hLent, hMany, hBound⟩
    rw [strings_lent hLent, stringsOf, if_neg (by omega),
      if_neg (by omega)]

end Inputs

end Trustd
