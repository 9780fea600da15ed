import Trustd.Core.Text
import Mathlib.Tactic.IntervalCases

/-
  The minimal DER reader and writer: enough to walk a Name
  and rebuild it.

  Key definitions include:
    * `Trustd.Cert.tlv`
    * `Trustd.Cert.readTlv`
    * `Trustd.Cert.derContents`
    * `Trustd.Cert.derElements`

  Key theorems include:
    * `Trustd.Cert.readTlv_tlv`
    * `Trustd.Cert.derContents_tlv`
    * `Trustd.Cert.derElements_tlv`
    * `Trustd.Cert.tlv_selfDelimiting`
-/

------------------------------------------------------------
-- Writing
------------------------------------------------------------

namespace Trustd

namespace Cert

/- The two errors of `der` this reader makes itself. -/
inductive DerError where
  | failed
  | sequenceValue
deriving DecidableEq, Repr

/- `usize::to_be_bytes`. -/
def toBeBytes (n : Nat) : Bytes :=
  [56, 48, 40, 32, 24, 16, 8, 0].map
    (fun s => UInt8.ofNat (n >>> s))

/- The bytes of a length that do not fit the short form. -/
def longLength (len : Nat) : Bytes :=
  let bytes := toBeBytes len
  let first := (bytes.findIdx? (· != 0)).getD
    (bytes.length - 1)
  bytes.drop first

/- `tlv`. -/
def tlv (tag : UInt8) (content : Bytes) : Bytes :=
  let len := content.length
  if len < 0x80 then
    tag :: UInt8.ofNat len :: content
  else
    let bytes := longLength len
    tag :: (0x80 ||| UInt8.ofNat bytes.length) ::
      (bytes ++ content)

end Cert

end Trustd

------------------------------------------------------------
-- Reading
------------------------------------------------------------

namespace Trustd

namespace Cert

/- `input.get(from..to)`. -/
def getRange (input : Bytes) (start stop : Nat) :
    Option Bytes :=
  if start ≤ stop ∧ stop ≤ input.length then
    some ((input.drop start).take (stop - start))
  else none

/- Big-endian bytes as a number. -/
def fromBeBytes (bytes : Bytes) : Nat :=
  bytes.foldl (fun acc b => (acc <<< 8) ||| b.toNat) 0

/- The length of the content and the width of the header. -/
def readLength (input : Bytes) :
    Except DerError (Nat × Nat) :=
  match input[1]? with
  | none => .error .failed
  | some firstLen =>
      if firstLen.toNat < 0x80 then
        .ok (firstLen.toNat, 2)
      else
        let count := firstLen.toNat &&& 0x7F
        if count = 0 ∨ count > 4 then .error .failed
        else
          match getRange input 2 (2 + count) with
          | none => .error .failed
          | some bytes =>
              .ok (fromBeBytes bytes, 2 + count)

/- `read_tlv`. -/
def readTlv (input : Bytes) :
    Except DerError (UInt8 × Bytes × Bytes) :=
  match input[0]? with
  | none => .error .failed
  | some tag =>
      match readLength input with
      | .error e => .error e
      | .ok (len, header) =>
          match getRange input header (header + len) with
          | none => .error .failed
          | some content =>
              .ok (tag, content, input.drop (header + len))

/- A header is at least a tag and a length byte. -/
theorem two_le_of_readLength
    {input : Bytes}
    {len header : Nat}
    (hLength : readLength input = .ok (len, header)) :
    2 ≤ header := by
  unfold readLength at hLength
  split at hLength
  · cases hLength
  · dsimp only at hLength
    split_ifs at hLength
    · cases hLength
      omega
    · split at hLength
      · cases hLength
      · cases hLength
        omega

theorem readTlv_ok
    {input : Bytes}
    {tag : UInt8}
    {content rest : Bytes}
    (hRead : readTlv input = .ok (tag, content, rest)) :
    input[0]? = some tag ∧
      ∃ len header,
        readLength input = .ok (len, header) ∧
          getRange input header (header + len) =
            some content ∧
          rest = input.drop (header + len) := by
  unfold readTlv at hRead
  split at hRead
  · cases hRead
  · rename_i hTag
    split at hRead
    · cases hRead
    · rename_i len header hLength
      split at hRead
      · cases hRead
      · rename_i hContent
        cases hRead
        exact ⟨hTag, len, header, hLength, hContent, rfl⟩

/- Every read makes progress. -/
theorem readTlv_rest_length
    {input : Bytes}
    {tag : UInt8}
    {content rest : Bytes}
    (hRead : readTlv input = .ok (tag, content, rest)) :
    rest.length < input.length := by
  rcases readTlv_ok hRead with
    ⟨hTag, len, header, hLength, _, rfl⟩
  have hHeader := two_le_of_readLength hLength
  have hPos : 0 < input.length := by
    by_contra hZero
    rw [List.getElem?_eq_none (by omega)] at hTag
    cases hTag
  simp only [List.length_drop]
  omega

/-
  The loop shared by `der_contents` and `der_elements`: the
  elements in order, each of which `accepts` its tag.
-/
def derLoop (accepts : UInt8 → Bool) (remaining : Bytes) :
    Except DerError (List Bytes) :=
  if remaining = [] then .ok []
  else
    match _hRead : readTlv remaining with
    | .error e => .error e
    | .ok (t, _, next) =>
        if accepts t then
          let consumed := remaining.length - next.length
          match derLoop accepts next with
          | .error e => .error e
          | .ok out =>
              .ok (remaining.take consumed :: out)
        else .error .failed
termination_by remaining.length
decreasing_by exact readTlv_rest_length _hRead

/- `der_contents`. -/
def derContents (input : Bytes) (elementTag : UInt8) :
    Except DerError (List Bytes) :=
  match readTlv input with
  | .error e => .error e
  | .ok (tag, content, rest) =>
      if tag ≠ 0x30 ∨ rest ≠ [] then .error .failed
      else derLoop (· == elementTag) content

/- `der_elements`. -/
def derElements (input : Bytes) :
    Except DerError (List Bytes) :=
  match readTlv input with
  | .error e => .error e
  | .ok (_, content, _) => derLoop (fun _ => true) content

end Cert

end Trustd

------------------------------------------------------------
-- Round Trip
------------------------------------------------------------

namespace Trustd

namespace Cert

theorem fromBeBytes_concat
    (bytes : Bytes)
    (b : UInt8) :
    fromBeBytes (bytes ++ [b]) =
      fromBeBytes bytes * 256 + b.toNat := by
  have hb := b.toNat_lt
  rw [fromBeBytes, List.foldl_append, List.foldl_cons,
    List.foldl_nil, ← Nat.shiftLeft_add_eq_or_of_lt hb,
    Nat.shiftLeft_eq]
  rfl

@[simp] theorem fromBeBytes_zero_cons
    (bytes : Bytes) :
    fromBeBytes (0 :: bytes) = fromBeBytes bytes := rfl

/- Four bytes hold any length the reader accepts. -/
theorem toBeBytes_eq
    (n : Nat)
    (hn : n < 2 ^ 32) :
    toBeBytes n =
      0 :: 0 :: 0 :: 0 :: [UInt8.ofNat (n / 2 ^ 24),
        UInt8.ofNat (n / 2 ^ 16), UInt8.ofNat (n / 2 ^ 8),
        UInt8.ofNat n] := by
  have hHigh : ∀ s, 32 ≤ s →
      UInt8.ofNat (n / 2 ^ s) = 0 := by
    intro s hs
    rw [Nat.div_eq_of_lt (lt_of_lt_of_le hn
      (Nat.pow_le_pow_right (by omega) hs))]
    rfl
  simp only [toBeBytes, List.map_cons, List.map_nil,
    Nat.shiftRight_eq_div_pow, hHigh 56 (by omega),
    hHigh 48 (by omega), hHigh 40 (by omega),
    hHigh 32 (by omega), Nat.pow_zero, Nat.div_one]

theorem fromBeBytes_toBeBytes
    (n : Nat)
    (hn : n < 2 ^ 32) :
    fromBeBytes (toBeBytes n) = n := by
  have hSnoc : ∀ a b c d : UInt8,
      [a, b, c, d] = [] ++ [a] ++ [b] ++ [c] ++ [d] :=
    fun a b c d => rfl
  rw [toBeBytes_eq n hn, hSnoc]
  simp only [fromBeBytes_zero_cons, fromBeBytes_concat,
    UInt8.toNat_ofNat']
  simp only [fromBeBytes, List.foldl_nil]
  omega

/- Leading zero bytes do not change a number. -/
theorem fromBeBytes_drop
    {bytes : Bytes}
    {first : Nat}
    (hFirst : bytes.findIdx? (· != 0) = some first) :
    fromBeBytes (bytes.drop first) = fromBeBytes bytes := by
  induction bytes generalizing first with
  | nil => simp at hFirst
  | cons b bytes ih =>
      rw [List.findIdx?_cons] at hFirst
      split at hFirst
      · cases hFirst
        rfl
      · rename_i hZero
        have hb : b = 0 := by simpa using hZero
        rcases Option.map_eq_some_iff.mp hFirst with
          ⟨rest, hRest, rfl⟩
        subst hb
        exact ih hRest

/- Some byte of a length that is not zero is not zero. -/
theorem exists_first_toBeBytes
    (n : Nat)
    (hPos : 0 < n)
    (hn : n < 2 ^ 32) :
    ∃ first, (toBeBytes n).findIdx? (· != 0) =
      some first := by
  cases hFirst : (toBeBytes n).findIdx? (· != 0) with
  | none =>
      have hValue := fromBeBytes_toBeBytes n hn
      rw [List.findIdx?_eq_none_iff] at hFirst
      have hZero : toBeBytes n = List.replicate 8 0 :=
        List.eq_replicate_iff.mpr
          ⟨rfl, fun b hb => by simpa using hFirst b hb⟩
      rw [hZero] at hValue
      exact absurd hValue (by simpa [fromBeBytes] using hPos.ne)
  | some first => exact ⟨first, rfl⟩

theorem longLength_spec
    (n : Nat)
    (hPos : 0 < n)
    (hn : n < 2 ^ 32) :
    1 ≤ (longLength n).length ∧
      (longLength n).length ≤ 4 ∧
      fromBeBytes (longLength n) = n := by
  rcases exists_first_toBeBytes n hPos hn with ⟨first, hFirst⟩
  have hValue := fromBeBytes_toBeBytes n hn
  have hLong : longLength n = (toBeBytes n).drop first := by
    simp [longLength, hFirst]
  rcases List.findIdx?_eq_some_iff_getElem.mp hFirst with
    ⟨hLt, hNonzero, _⟩
  have hLength : (toBeBytes n).length = 8 := rfl
  have hFour : 4 ≤ first := by
    by_contra hSmall
    simp only [toBeBytes_eq n hn] at hNonzero
    have hCases : first = 0 ∨ first = 1 ∨ first = 2 ∨
        first = 3 := by
      omega
    rcases hCases with rfl | rfl | rfl | rfl
    · simp at hNonzero
    · simp at hNonzero
    · simp at hNonzero
    · simp at hNonzero
  rw [hLong]
  refine ⟨?_, ?_, ?_⟩
  · rw [List.length_drop]
    omega
  · rw [List.length_drop]
    omega
  · rw [fromBeBytes_drop hFirst, hValue]

/- The range after a prefix. -/
theorem getRange_append
    (a b c : Bytes) :
    getRange (a ++ b ++ c) a.length (a.length + b.length) =
      some b := by
  have hBound : a.length + b.length ≤ (a ++ b ++ c).length := by
    simp
  rw [getRange, if_pos ⟨by omega, hBound⟩,
    List.append_assoc, List.drop_left]
  simp

/- The header `tlv` writes for content of some length. -/
def tlvHeader (tag : UInt8) (len : Nat) : Bytes :=
  if len < 0x80 then [tag, UInt8.ofNat len]
  else
    tag :: (0x80 ||| UInt8.ofNat (longLength len).length) ::
      longLength len

theorem tlv_eq_header
    (tag : UInt8)
    (content : Bytes) :
    tlv tag content =
      tlvHeader tag content.length ++ content := by
  by_cases hShort : content.length < 0x80
  · simp [tlv, tlvHeader, hShort]
  · simp [tlv, tlvHeader, hShort]

theorem readLength_tlvHeader
    (tag : UInt8)
    (len : Nat)
    (hLen : len < 2 ^ 32)
    (rest : Bytes) :
    readLength (tlvHeader tag len ++ rest) =
      .ok (len, (tlvHeader tag len).length) := by
  by_cases hShort : len < 0x80
  · have hByte : (UInt8.ofNat len).toNat = len := by
      rw [UInt8.toNat_ofNat']
      omega
    simp [readLength, tlvHeader, hShort, hByte]
  · rcases longLength_spec len (by omega) hLen with
      ⟨hOne, hFour, hValue⟩
    have hCount :
        (0x80 ||| UInt8.ofNat (longLength len).length).toNat =
          128 + (longLength len).length := by
      generalize (longLength len).length = k at hOne hFour ⊢
      interval_cases k <;> rfl
    have hMask : (128 + (longLength len).length) &&& 0x7F =
        (longLength len).length := by
      rw [Nat.and_two_pow_sub_one_eq_mod _ 7]
      omega
    have hRange :
        getRange (tlvHeader tag len ++ rest) 2
            (2 + (longLength len).length) =
          some (longLength len) := by
      have hSplit :=
        getRange_append
          [tag, 0x80 ||| UInt8.ofNat (longLength len).length]
          (longLength len) rest
      simpa [tlvHeader, hShort] using hSplit
    have hByte : (tlvHeader tag len ++ rest)[1]? =
        some (0x80 ||| UInt8.ofNat (longLength len).length) := by
      simp [tlvHeader, hShort]
    have hWidth : (tlvHeader tag len).length =
        2 + (longLength len).length := by
      simp [tlvHeader, hShort]
      omega
    simp only [readLength, hByte, hCount, hMask, hRange, hValue, hWidth]
    rw [if_neg (by omega), if_neg (by omega)]

/- Reading undoes writing, whatever follows. -/
theorem readTlv_tlv
    (tag : UInt8)
    (content : Bytes)
    (hLen : content.length < 2 ^ 32)
    (rest : Bytes) :
    readTlv (tlv tag content ++ rest) =
      .ok (tag, content, rest) := by
  have hTag : (tlv tag content ++ rest)[0]? = some tag := by
    rw [tlv_eq_header, tlvHeader]
    split_ifs <;> rfl
  have hRange := getRange_append (tlvHeader tag content.length) content rest
  have hLength := readLength_tlvHeader tag content.length hLen (content ++ rest)
  rw [← List.append_assoc, ← tlv_eq_header] at hLength
  rw [← tlv_eq_header] at hRange
  have hDrop : (tlv tag content ++ rest).drop
      ((tlvHeader tag content.length).length + content.length) =
        rest := by
    rw [← List.length_append, ← tlv_eq_header, List.drop_left]
  simp only [readTlv, hTag, hLength, hRange, hDrop]

theorem tlv_ne_nil
    (tag : UInt8)
    (content : Bytes) :
    tlv tag content ≠ [] := by
  rw [tlv_eq_header, tlvHeader]
  split_ifs <;> simp

/- A header is at least two bytes, -/
theorem length_lt_tlv
    (tag : UInt8)
    (content : Bytes) :
    content.length + 2 ≤ (tlv tag content).length := by
  rw [tlv_eq_header, List.length_append, tlvHeader]
  split_ifs
  · simp
    omega
  · simp
    omega

/- and at most six. -/
theorem length_tlv_le
    (tag : UInt8)
    {content : Bytes}
    (hLen : content.length < 2 ^ 32) :
    (tlv tag content).length ≤ content.length + 6 := by
  rw [tlv_eq_header, List.length_append, tlvHeader]
  split_ifs with hShort
  · simp
    omega
  · have hWidth :=
      (longLength_spec content.length (by omega) hLen).2.1
    simp
    omega

/- The loop takes a concatenation of elements apart. -/
theorem derLoop_flatten
    (accepts : UInt8 → Bool)
    (elements : List Bytes)
    (hElements : ∀ e ∈ elements, ∃ tag content,
      e = tlv tag content ∧ content.length < 2 ^ 32 ∧
        accepts tag = true) :
    derLoop accepts elements.flatten = .ok elements := by
  induction elements with
  | nil => simp [derLoop]
  | cons e elements ih =>
      rcases hElements e List.mem_cons_self with
        ⟨tag, content, rfl, hLen, hAccepts⟩
      have hRest := ih (fun x hx =>
        hElements x (List.mem_cons_of_mem _ hx))
      have hRead :=
        readTlv_tlv tag content hLen elements.flatten
      rw [List.flatten_cons, derLoop,
        if_neg (by simp [tlv_ne_nil])]
      split
      · rename_i hError
        rw [hRead] at hError
        cases hError
      · rename_i hOk
        rw [hRead] at hOk
        cases hOk
        simp only [hAccepts, if_true, hRest]
        simp

theorem derContents_tlv
    (elementTag : UInt8)
    (elements : List Bytes)
    (hElements : ∀ e ∈ elements, ∃ content,
      e = tlv elementTag content ∧ content.length < 2 ^ 32)
    (hLen : elements.flatten.length < 2 ^ 32) :
    derContents (tlv 0x30 elements.flatten) elementTag =
      .ok elements := by
  have hRead := readTlv_tlv 0x30 elements.flatten hLen []
  rw [List.append_nil] at hRead
  rw [derContents, hRead]
  simp only [ne_eq, not_true_eq_false, or_self, if_false]
  apply derLoop_flatten
  intro e he
  rcases hElements e he with ⟨content, hEq, hContent⟩
  exact ⟨elementTag, content, hEq, hContent, by simp⟩

theorem derElements_tlv
    (tag : UInt8)
    (elements : List Bytes)
    (hElements : ∀ e ∈ elements, ∃ t content,
      e = tlv t content ∧ content.length < 2 ^ 32)
    (hLen : elements.flatten.length < 2 ^ 32) :
    derElements (tlv tag elements.flatten) =
      .ok elements := by
  have hRead := readTlv_tlv tag elements.flatten hLen []
  rw [List.append_nil] at hRead
  rw [derElements, hRead]
  apply derLoop_flatten
  intro e he
  rcases hElements e he with ⟨t, content, hEq, hContent⟩
  exact ⟨t, content, hEq, hContent, rfl⟩

/- What `tlv` writes says itself where it ends. -/
theorem tlv_selfDelimiting :
    General.SelfDelimiting
      (fun e : UInt8 × Bytes => tlv e.1 e.2)
      (fun e => e.2.length < 2 ^ 32) := by
  rintro ⟨t, c⟩ ⟨u, d⟩ hc hd r s hEq
  have hLeft := readTlv_tlv t c hc r
  have hRight := readTlv_tlv u d hd s
  rw [hEq, hRight] at hLeft
  simp only [Except.ok.injEq, Prod.mk.injEq] at hLeft
  rcases hLeft with ⟨rfl, rfl, rfl⟩
  exact ⟨rfl, rfl⟩

theorem tlv_inj
    {t u : UInt8}
    {c d r s : Bytes}
    (hc : c.length < 2 ^ 32)
    (hd : d.length < 2 ^ 32)
    (hEq : tlv t c ++ r = tlv u d ++ s) :
    t = u ∧ c = d ∧ r = s := by
  have hParts := tlv_selfDelimiting (t, c) (u, d) hc hd r s hEq
  simpa [Prod.ext_iff, and_assoc] using hParts

end Cert

end Trustd
