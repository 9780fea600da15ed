import Trustd.Core.Text

/-
  PEM: the reader and the writer of `CERTIFICATE` blocks, and
  the base64 between the markers.

  Key definitions include:
    * `Trustd.Cert.base64Encode`
    * `Trustd.Cert.base64Decode`
    * `Trustd.Cert.fromPem`
    * `Trustd.Cert.toPem`

  Key theorems include:
    * `Trustd.Cert.base64Decode_base64Encode`
    * `Trustd.Cert.fromPemLines_append`
    * `Trustd.Cert.fromPemLines_toPem`
-/

------------------------------------------------------------
-- Base64
------------------------------------------------------------

namespace Trustd

namespace Cert

open General

/- `B64`. -/
def base64Alphabet : Text :=
  ("ABCDEFGHIJKLMNOPQRSTUVWXYZ" ++
    "abcdefghijklmnopqrstuvwxyz0123456789+/").toList

/- `B64[i]`. -/
def base64Char (i : Nat) : Char :=
  base64Alphabet.getD i '='

/- The four characters of one chunk of at most three bytes. -/
def base64Chunk (chunk : Bytes) : Text :=
  let b0 := (chunk.getD 0 0).toNat
  let b1 := (chunk.getD 1 0).toNat
  let b2 := (chunk.getD 2 0).toNat
  let n := (b0 <<< 16) ||| (b1 <<< 8) ||| b2
  [base64Char ((n >>> 18) &&& 63),
    base64Char ((n >>> 12) &&& 63),
    if chunk.length > 1 then
      base64Char ((n >>> 6) &&& 63)
    else '=',
    if chunk.length > 2 then
      base64Char (n &&& 63)
    else '=']

/- `base64_encode`. -/
def base64Encode (data : Bytes) : Text :=
  (chunks 3 data).flatMap base64Chunk

/- The six bits a character of the alphabet stands for. -/
def base64Value (c : Char) : Option Nat :=
  if 'A' ≤ c ∧ c ≤ 'Z' then some (c.toNat - 'A'.toNat)
  else if 'a' ≤ c ∧ c ≤ 'z' then
    some (c.toNat - 'a'.toNat + 26)
  else if '0' ≤ c ∧ c ≤ '9' then
    some (c.toNat - '0'.toNat + 52)
  else if c = '+' then some 62
  else if c = '/' then some 63
  else none

/-
  The decoding loop from its two registers. `acc` is a `u32`
  whose high bits fall off on the left. The source walks the
  text's bytes: a character outside ASCII is made of bytes
  none of the arms accepts, so it ends in the last arm too.
-/
def base64DecodeFrom (acc bits : Nat) : Text → Option Bytes
  | [] => some []
  | c :: rest =>
      match base64Value c with
      | some value =>
          let acc := ((acc <<< 6) ||| value) % 2 ^ 32
          let bits := bits + 6
          if bits ≥ 8 then
            let bits := bits - 8
            (base64DecodeFrom acc bits rest).map
              (UInt8.ofNat (acc >>> bits) :: ·)
          else
            base64DecodeFrom acc bits rest
      | none =>
          if c = '=' then some []
          else if c = ' ' ∨ c = '\t' ∨ c = '\r' ∨ c = '\n' then
            base64DecodeFrom acc bits rest
          else none

/- `base64_decode`. -/
def base64Decode (text : Text) : Option Bytes :=
  base64DecodeFrom 0 0 text

end Cert

end Trustd

------------------------------------------------------------
-- Base64 Round Trip
------------------------------------------------------------

namespace Trustd

namespace Cert

open General

theorem base64Value_base64Char :
    ∀ i < 64, base64Value (base64Char i) = some i := by
  decide +kernel

theorem base64Char_ne :
    ∀ i < 64,
      base64Char i ≠ '-' ∧
        Text.isWhitespace (base64Char i) = false := by
  decide +kernel

/- The low `32` bits of the accumulator after one character. -/
def pushSextet (acc i : Nat) : Nat :=
  (acc * 64 + i) % 2 ^ 32

theorem base64DecodeFrom_char
    (acc bits i : Nat)
    (hi : i < 64)
    (rest : Text) :
    base64DecodeFrom acc bits (base64Char i :: rest) =
      if bits + 6 ≥ 8 then
        (base64DecodeFrom (pushSextet acc i)
          (bits + 6 - 8) rest).map
            (UInt8.ofNat (pushSextet acc i >>>
              (bits + 6 - 8)) :: ·)
      else
        base64DecodeFrom (pushSextet acc i)
          (bits + 6) rest := by
  have hOr : acc <<< 6 ||| i = acc * 64 + i := by
    rw [← Nat.shiftLeft_add_eq_or_of_lt (by simpa using hi),
      Nat.shiftLeft_eq]
  simp only [base64DecodeFrom, base64Value_base64Char i hi,
    hOr, pushSextet]

/- At a byte boundary a character only fills the register. -/
theorem base64DecodeFrom_hold
    (acc i : Nat)
    (hi : i < 64)
    (rest : Text) :
    base64DecodeFrom acc 0 (base64Char i :: rest) =
      base64DecodeFrom (pushSextet acc i) 6 rest := by
  rw [base64DecodeFrom_char acc 0 i hi]
  rfl

/- Inside a byte a character completes it. -/
theorem base64DecodeFrom_emit
    (acc bits i : Nat)
    (hi : i < 64)
    (rest : Text) :
    base64DecodeFrom acc (bits + 2) (base64Char i :: rest) =
      (base64DecodeFrom (pushSextet acc i) bits rest).map
        (UInt8.ofNat (pushSextet acc i / 2 ^ bits) ::
          ·) := by
  rw [base64DecodeFrom_char acc (bits + 2) i hi,
    if_pos (by omega)]
  simp [Nat.shiftRight_eq_div_pow]

@[simp] theorem base64DecodeFrom_pad
    (acc bits : Nat)
    (rest : Text) :
    base64DecodeFrom acc bits ('=' :: rest) = some [] := by
  have hValue : base64Value '=' = none := by decide
  simp [base64DecodeFrom, hValue]

/- The three bytes of a chunk as one number. -/
theorem base64Word
    (b0 b1 b2 : UInt8) :
    b0.toNat <<< 16 ||| b1.toNat <<< 8 ||| b2.toNat =
      b0.toNat * 65536 + b1.toNat * 256 + b2.toNat := by
  have h1 := b1.toNat_lt
  have h2 := b2.toNat_lt
  have hLow :
      b1.toNat <<< 8 ||| b2.toNat =
        b1.toNat * 256 + b2.toNat := by
    rw [← Nat.shiftLeft_add_eq_or_of_lt h2,
      Nat.shiftLeft_eq]
  rw [Nat.or_assoc, hLow,
    ← Nat.shiftLeft_add_eq_or_of_lt (by omega),
    Nat.shiftLeft_eq]
  omega

/- The four sextets of three bytes. -/
theorem base64Sextets
    (b0 b1 b2 : UInt8) :
    let n := b0.toNat <<< 16 ||| b1.toNat <<< 8 ||| b2.toNat
    n >>> 18 &&& 63 = b0.toNat / 4 ∧
      n >>> 12 &&& 63 =
        b0.toNat % 4 * 16 + b1.toNat / 16 ∧
      n >>> 6 &&& 63 =
        b1.toNat % 16 * 4 + b2.toNat / 64 ∧
      n &&& 63 = b2.toNat % 64 := by
  have h0 := b0.toNat_lt
  have h1 := b1.toNat_lt
  have h2 := b2.toNat_lt
  have hAnd : ∀ n : Nat, n &&& 63 = n % 64 := fun n =>
    Nat.and_two_pow_sub_one_eq_mod n 6
  simp only [base64Word, hAnd, Nat.shiftRight_eq_div_pow]
  omega

theorem base64Chunk_three
    (b0 b1 b2 : UInt8) :
    base64Chunk [b0, b1, b2] =
      [base64Char (b0.toNat / 4),
        base64Char (b0.toNat % 4 * 16 + b1.toNat / 16),
        base64Char (b1.toNat % 16 * 4 + b2.toNat / 64),
        base64Char (b2.toNat % 64)] := by
  rcases base64Sextets b0 b1 b2 with ⟨hA, hB, hC, hD⟩
  simp only [base64Chunk, List.getD_cons_zero,
    List.getD_cons_succ, List.length_cons, List.length_nil,
    hA, hB, hC, hD]
  rfl

theorem base64Chunk_two
    (b0 b1 : UInt8) :
    base64Chunk [b0, b1] =
      [base64Char (b0.toNat / 4),
        base64Char (b0.toNat % 4 * 16 + b1.toNat / 16),
        base64Char (b1.toNat % 16 * 4), '='] := by
  rcases base64Sextets b0 b1 0 with ⟨hA, hB, hC, _⟩
  simp only [base64Chunk, List.getD_cons_zero,
    List.getD_cons_succ, List.getD_nil, List.length_cons,
    List.length_nil, hA, hB, hC]
  rfl

theorem base64Chunk_one
    (b0 : UInt8) :
    base64Chunk [b0] =
      [base64Char (b0.toNat / 4),
        base64Char (b0.toNat % 4 * 16), '=', '='] := by
  rcases base64Sextets b0 0 0 with ⟨hA, hB, _, _⟩
  simp only [base64Chunk, List.getD_cons_zero,
    List.getD_cons_succ, List.getD_nil, List.length_cons,
    List.length_nil, hA, hB]
  rfl

/-
  A whole chunk passes through the loop at a byte boundary,
  whatever the accumulator still holds above it.
-/
theorem base64DecodeFrom_three
    (acc : Nat)
    (b0 b1 b2 : UInt8)
    (rest : Text) :
    ∃ acc',
      base64DecodeFrom acc 0
          (base64Chunk [b0, b1, b2] ++ rest) =
        (base64DecodeFrom acc' 0 rest).map
          ([b0, b1, b2] ++ ·) := by
  have h0 := b0.toNat_lt
  have h1 := b1.toNat_lt
  have h2 := b2.toNat_lt
  rw [base64Chunk_three]
  simp only [List.cons_append, List.nil_append]
  rw [base64DecodeFrom_hold _ _ (by omega),
    base64DecodeFrom_emit _ 4 _ (by omega),
    base64DecodeFrom_emit _ 2 _ (by omega),
    base64DecodeFrom_emit _ 0 _ (by omega),
    Option.map_map, Option.map_map]
  refine ⟨_, congrArg
    (fun f => Option.map f (base64DecodeFrom _ 0 rest)) ?_⟩
  funext out
  simp only [Function.comp_apply, List.cons.injEq, and_true,
    ← UInt8.toNat_inj, UInt8.toNat_ofNat', pushSextet]
  omega

theorem base64DecodeFrom_two
    (acc : Nat)
    (b0 b1 : UInt8) :
    base64DecodeFrom acc 0 (base64Chunk [b0, b1]) =
      some [b0, b1] := by
  have h0 := b0.toNat_lt
  have h1 := b1.toNat_lt
  rw [base64Chunk_two, base64DecodeFrom_hold _ _ (by omega),
    base64DecodeFrom_emit _ 4 _ (by omega),
    base64DecodeFrom_emit _ 2 _ (by omega),
    base64DecodeFrom_pad]
  simp only [Option.map_some, Option.some.injEq,
    List.cons.injEq, and_true, ← UInt8.toNat_inj,
    UInt8.toNat_ofNat', pushSextet]
  omega

theorem base64DecodeFrom_one
    (acc : Nat)
    (b0 : UInt8) :
    base64DecodeFrom acc 0 (base64Chunk [b0]) =
      some [b0] := by
  have h0 := b0.toNat_lt
  rw [base64Chunk_one, base64DecodeFrom_hold _ _ (by omega),
    base64DecodeFrom_emit _ 4 _ (by omega),
    base64DecodeFrom_pad]
  simp only [Option.map_some, Option.some.injEq,
    List.cons.injEq, and_true, ← UInt8.toNat_inj,
    UInt8.toNat_ofNat', pushSextet]
  omega

theorem base64DecodeFrom_base64Encode
    (acc : Nat)
    (data : Bytes) :
    base64DecodeFrom acc 0 (base64Encode data) =
      some data := by
  induction data using chunks.induct 3 generalizing acc with
  | case1 => simp [base64Encode, base64DecodeFrom]
  | case2 b0 rest ih =>
      rcases rest with _ | ⟨b1, _ | ⟨b2, rest⟩⟩
      · simpa [base64Encode, chunks_cons] using
          base64DecodeFrom_one acc b0
      · simpa [base64Encode, chunks_cons] using
          base64DecodeFrom_two acc b0 b1
      · rcases
            base64DecodeFrom_three acc b0 b1 b2
              (base64Encode rest) with
          ⟨acc', hThree⟩
        have hRest : base64DecodeFrom acc' 0
            (base64Encode rest) = some rest := by
          simpa using ih acc'
        have hSplit :
            base64Encode (b0 :: b1 :: b2 :: rest) =
              base64Chunk [b0, b1, b2] ++
                base64Encode rest := by
          simp [base64Encode, chunks_cons]
        rw [hSplit, hThree, hRest]
        rfl

/- Decoding undoes encoding. -/
theorem base64Decode_base64Encode
    (data : Bytes) :
    base64Decode (base64Encode data) = some data :=
  base64DecodeFrom_base64Encode 0 data

end Cert

end Trustd

------------------------------------------------------------
-- PEM Documents
------------------------------------------------------------

namespace Trustd

namespace Cert

open General

/- `PEM_BEGIN`. -/
def pemBegin : Text := "-----BEGIN CERTIFICATE-----".toList

/- `PEM_END`. -/
def pemEnd : Text := "-----END CERTIFICATE-----".toList

/-
  The loop of `from_pem` over the lines that are left, with
  the body of the block it is inside of, if any. It returns
  the certificates those lines still add.
-/
def fromPemLines : Option Text → List Text → List Bytes
  | _, [] => []
  | body, line :: rest =>
      if Text.trim line = pemBegin then
        fromPemLines (some []) rest
      else if Text.trim line = pemEnd then
        match body.bind base64Decode with
        | some der => der :: fromPemLines none rest
        | none => fromPemLines none rest
      else
        fromPemLines (body.map (· ++ Text.trim line)) rest

/- The body the loop is inside of after some lines. -/
def bodyAfter : Option Text → List Text → Option Text
  | body, [] => body
  | body, line :: rest =>
      if Text.trim line = pemBegin then
        bodyAfter (some []) rest
      else if Text.trim line = pemEnd then
        bodyAfter none rest
      else
        bodyAfter (body.map (· ++ Text.trim line)) rest

/- `from_pem`. -/
def fromPem (text : Text) : List Bytes :=
  fromPemLines none (Text.lines text)

/- `to_pem`. -/
def toPem (der : Bytes) : Text :=
  pemBegin ++ ['\n'] ++
    (chunks 64 (base64Encode der)).flatMap (· ++ ['\n']) ++
    pemEnd ++ ['\n']

/- A block of lines is read where the lines before left off. -/
theorem fromPemLines_append
    (body : Option Text)
    (a b : List Text) :
    fromPemLines body (a ++ b) =
      fromPemLines body a ++
        fromPemLines (bodyAfter body a) b := by
  induction a generalizing body with
  | nil => rfl
  | cons line a ih =>
      simp only [List.cons_append, fromPemLines, bodyAfter]
      split_ifs
      · exact ih (some [])
      · cases body.bind base64Decode with
        | none => exact ih none
        | some der => simp [ih none]
      · exact ih _

/- A line that is no marker adds nothing outside a block. -/
theorem fromPemLines_skip
    {line : Text}
    (hBegin : Text.trim line ≠ pemBegin)
    (hEnd : Text.trim line ≠ pemEnd)
    (body : Option Text)
    (rest : List Text) :
    fromPemLines body (line :: rest) =
      fromPemLines (body.map (· ++ Text.trim line))
        rest := by
  simp [fromPemLines, hBegin, hEnd]

/- A line that starts with a number sign is no marker. -/
theorem trim_comment_ne
    (rest : Text) :
    Text.trim ('#' :: rest) ≠ pemBegin ∧
      Text.trim ('#' :: rest) ≠ pemEnd := by
  have hHead := Text.head?_trim '#' rest (by decide)
  constructor
  · intro hEq
    rw [hEq] at hHead
    exact absurd hHead (by decide)
  · intro hEq
    rw [hEq] at hHead
    exact absurd hHead (by decide)

end Cert

end Trustd

------------------------------------------------------------
-- PEM Round Trip
------------------------------------------------------------

namespace Trustd

namespace Cert

open General

/- A character `to_pem` writes between the markers. -/
def IsBodyChar (c : Char) : Prop :=
  c ≠ '-' ∧ Text.isWhitespace c = false

theorem isBodyChar_of_mem_base64Chunk
    {chunk : Bytes}
    {c : Char}
    (hMem : c ∈ base64Chunk chunk) :
    IsBodyChar c := by
  have hPad : IsBodyChar '=' := ⟨by decide, by decide⟩
  have hAlphabet : ∀ n, IsBodyChar (base64Char (n &&& 63)) := by
    intro n
    apply base64Char_ne
    rw [Nat.and_two_pow_sub_one_eq_mod n 6]
    omega
  simp only [base64Chunk, List.mem_cons, List.not_mem_nil,
    or_false] at hMem
  rcases hMem with rfl | rfl | rfl | rfl
  · exact hAlphabet _
  · exact hAlphabet _
  · split
    · exact hAlphabet _
    · exact hPad
  · split
    · exact hAlphabet _
    · exact hPad

theorem isBodyChar_of_mem_base64Encode
    {der : Bytes}
    {c : Char}
    (hMem : c ∈ base64Encode der) :
    IsBodyChar c := by
  rcases List.mem_flatMap.mp hMem with ⟨chunk, _, hChunk⟩
  exact isBodyChar_of_mem_base64Chunk hChunk

/- A line of such characters is read as it was written. -/
theorem trim_of_isBodyChar
    {line : Text}
    (hLine : ∀ c ∈ line, IsBodyChar c) :
    Text.trim line = line := by
  have hFront : line.dropWhile Text.isWhitespace = line := by
    cases line with
    | nil => rfl
    | cons c rest =>
        simp [(hLine c List.mem_cons_self).2]
  have hBack :
      line.reverse.dropWhile Text.isWhitespace =
        line.reverse := by
    cases hRev : line.reverse with
    | nil => rfl
    | cons c rest =>
        have hMem : c ∈ line := by
          rw [← List.mem_reverse, hRev]
          exact List.mem_cons_self
        simp [(hLine c hMem).2]
  rw [Text.trim, hFront, hBack, List.reverse_reverse]

theorem newline_not_mem
    {line : Text}
    (hLine : ∀ c ∈ line, IsBodyChar c) :
    '\n' ∉ line := by
  intro hMem
  exact absurd (hLine _ hMem).2 (by decide)

theorem stripCarriageReturn_of_isBodyChar
    {line : Text}
    (hLine : ∀ c ∈ line, IsBodyChar c) :
    Text.stripCarriageReturn line = line := by
  rw [Text.stripCarriageReturn, if_neg]
  intro hLast
  exact absurd
    (hLine _ (List.mem_of_getLast? hLast)).2 (by decide)

/- The lines between the markers, read back line by line. -/
theorem lines_body
    (pieces : List Text)
    (hPieces : ∀ piece ∈ pieces, ∀ c ∈ piece, IsBodyChar c)
    (rest : Text) :
    Text.lines (pieces.flatMap (· ++ ['\n']) ++ rest) =
      pieces ++ Text.lines rest := by
  induction pieces with
  | nil => simp
  | cons piece pieces ih =>
      have hPiece := hPieces piece List.mem_cons_self
      have hRest := ih (fun p hp =>
        hPieces p (List.mem_cons_of_mem piece hp))
      rw [List.flatMap_cons, List.append_assoc,
        List.append_assoc, List.singleton_append,
        Text.lines_line _ _ (newline_not_mem hPiece),
        stripCarriageReturn_of_isBodyChar hPiece, hRest,
        List.cons_append]

/- The lines of a block as `to_pem` writes it. -/
theorem lines_toPem
    (der : Bytes)
    (rest : Text) :
    Text.lines (toPem der ++ rest) =
      pemBegin :: chunks 64 (base64Encode der) ++
        pemEnd :: Text.lines rest := by
  have hBody : ∀ piece ∈ chunks 64 (base64Encode der),
      ∀ c ∈ piece, IsBodyChar c :=
    fun piece hPiece c hc =>
      isBodyChar_of_mem_base64Encode
        (mem_of_mem_chunks 64 hPiece hc)
  have hBegin : Text.stripCarriageReturn pemBegin =
      pemBegin := by decide
  have hEnd : Text.stripCarriageReturn pemEnd =
      pemEnd := by decide
  simp only [toPem, List.append_assoc, List.cons_append,
    List.nil_append]
  rw [Text.lines_line _ _ (by decide), hBegin,
    lines_body _ hBody, Text.lines_line _ _ (by decide),
    hEnd]

/- Lines of body characters extend the body they are in. -/
theorem bodyAfter_pieces
    (body : Text)
    (pieces : List Text)
    (hPieces : ∀ piece ∈ pieces,
      piece ≠ [] ∧ ∀ c ∈ piece, IsBodyChar c)
    (rest : List Text) :
    fromPemLines (some body) (pieces ++ rest) =
      fromPemLines (some (body ++ pieces.flatten))
        rest := by
  induction pieces generalizing body with
  | nil => simp
  | cons piece pieces ih =>
      have hPiece := hPieces piece List.mem_cons_self
      have hTrim := trim_of_isBodyChar hPiece.2
      have hMarker : ∀ marker : Text,
          '-' ∈ marker → Text.trim piece ≠ marker := by
        rintro marker hDash hEq
        rw [hTrim] at hEq
        exact (hPiece.2 '-' (hEq ▸ hDash)).1 rfl
      rw [List.cons_append,
        fromPemLines_skip (hMarker _ (by decide))
          (hMarker _ (by decide)),
        Option.map_some, hTrim,
        ih (body ++ piece) (fun p hp =>
          hPieces p (List.mem_cons_of_mem piece hp))]
      simp

/-
  A block as `to_pem` writes it yields the certificate it
  was written from, wherever the reader comes from.
-/
theorem fromPemLines_toPem
    (body : Option Text)
    (der : Bytes)
    (rest : Text) :
    fromPemLines body (Text.lines (toPem der ++ rest)) =
      der :: fromPemLines none (Text.lines rest) := by
  have hPieces : ∀ piece ∈ chunks 64 (base64Encode der),
      piece ≠ [] ∧ ∀ c ∈ piece, IsBodyChar c := by
    intro piece hPiece
    have hWidth :=
      length_of_mem_chunks 64 (by decide) _ piece hPiece
    exact ⟨List.ne_nil_of_length_pos hWidth.1, fun c hc =>
      isBodyChar_of_mem_base64Encode
        (mem_of_mem_chunks 64 hPiece hc)⟩
  have hBegin : Text.trim pemBegin = pemBegin := by
    decide +kernel
  have hEnd : Text.trim pemEnd = pemEnd := by
    decide +kernel
  have hNe : pemEnd ≠ pemBegin := by decide
  rw [lines_toPem, List.cons_append, fromPemLines,
    if_pos hBegin, bodyAfter_pieces [] _ hPieces,
    fromPemLines, hEnd, if_neg hNe, if_pos rfl,
    List.nil_append, flatten_chunks, Option.bind_some,
    base64Decode_base64Encode]

theorem endsLine_toPem (der : Bytes) :
    Text.EndsLine (toPem der) :=
  Text.EndsLine.newline _

/- A document of blocks yields their certificates in order. -/
theorem fromPem_flatMap_toPem
    (ders : List Bytes) :
    fromPem (ders.flatMap toPem) = ders := by
  induction ders with
  | nil => rfl
  | cons der ders ih =>
      rw [fromPem, List.flatMap_cons, fromPemLines_toPem]
      exact congrArg (der :: ·) ih

end Cert

end Trustd
