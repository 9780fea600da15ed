import Trustd.Core.Der

/-
  The DER walker is exact: what it reads is a tag, one of the
  forms a length can have, the content, and what follows, and
  no index of it leaves the input.

  Key definitions include:
    * `Trustd.Cert.LengthForm`
    * `Trustd.Cert.machineReadTlv`
    * `Trustd.Cert.machineContents`
    * `Trustd.Cert.machineElements`

  Key theorems include:
    * `Trustd.Cert.readTlv_iff`
    * `Trustd.Cert.derLoop_ok`
    * `Trustd.Cert.walker_exact`
-/

------------------------------------------------------------
-- What A Read Takes Apart
------------------------------------------------------------

namespace Trustd

namespace Cert

/- The octets the reader takes for a length. -/
inductive LengthForm : Bytes → Nat → Prop where
  | short
      (b : UInt8)
      (hShort : b.toNat < 0x80) :
      LengthForm [b] b.toNat
  | long
      (c : UInt8)
      (bytes : Bytes)
      (hLong : ¬ c.toNat < 0x80)
      (hCount : c.toNat &&& 0x7F = bytes.length)
      (hSome : bytes.length ≠ 0)
      (hFour : bytes.length ≤ 4) :
      LengthForm (c :: bytes) (fromBeBytes bytes)

theorem LengthForm.length_octets
    {octets : Bytes}
    {len : Nat}
    (hForm : LengthForm octets len) :
    1 ≤ octets.length ∧ octets.length ≤ 5 := by
  cases hForm with
  | short b hShort => simp
  | long c bytes hLong hCount hSome hFour =>
      rw [List.length_cons]
      omega

/- A number of so many bytes. -/
theorem fromBeBytes_lt (bytes : Bytes) :
    fromBeBytes bytes < 256 ^ bytes.length := by
  induction bytes using List.reverseRecOn with
  | nil => simp [fromBeBytes]
  | append_singleton bytes b ih =>
      have hb := b.toNat_lt
      rw [fromBeBytes_concat, List.length_append,
        List.length_singleton, Nat.pow_succ]
      omega

/- No form gives a length of more than four bytes. -/
theorem LengthForm.lt
    {octets : Bytes}
    {len : Nat}
    (hForm : LengthForm octets len) :
    len < 2 ^ 32 := by
  cases hForm with
  | short b hShort => omega
  | long c bytes hLong hCount hSome hFour =>
      calc fromBeBytes bytes
          < 256 ^ bytes.length := fromBeBytes_lt bytes
        _ ≤ 256 ^ 4 := Nat.pow_le_pow_right (by omega) hFour
        _ = 2 ^ 32 := by norm_num

theorem readLength_form
    (tag : UInt8)
    {octets : Bytes}
    {len : Nat}
    (hForm : LengthForm octets len)
    (rest : Bytes) :
    readLength (tag :: (octets ++ rest)) =
      .ok (len, 1 + octets.length) := by
  cases hForm with
  | short b hShort => simp [readLength, hShort]
  | long c bytes hLong hCount hSome hFour =>
      have hRange := getRange_append [tag, c] bytes rest
      simp only [List.cons_append, List.nil_append,
        List.length_cons, List.length_nil] at hRange
      simp only [readLength, List.cons_append,
        List.getElem?_cons_succ, List.getElem?_cons_zero,
        if_neg hLong, hCount, hRange]
      rw [if_neg (by omega), List.length_cons]
      congr 2
      omega

theorem le_fromBeBytes_cons
    (b : UInt8)
    (bytes : Bytes)
    (hSome : b ≠ 0) :
    256 ^ bytes.length ≤ fromBeBytes (b :: bytes) := by
  induction bytes using List.reverseRecOn with
  | nil =>
      have hPos : 0 < b.toNat := by
        rw [Nat.pos_iff_ne_zero]
        intro hZero
        exact hSome (UInt8.toNat_inj.mp hZero)
      simp only [fromBeBytes, List.foldl_cons, List.foldl_nil,
        List.length_nil, Nat.pow_zero, Nat.zero_shiftLeft,
        Nat.zero_or]
      omega
  | append_singleton bytes c ih =>
      rw [← List.cons_append, fromBeBytes_concat,
        List.length_append, List.length_singleton,
        Nat.pow_succ]
      omega

/- The first byte of a length is not zero. -/
theorem longLength_head
    {n : Nat}
    (hPos : 0 < n)
    (hn : n < 2 ^ 32) :
    ∃ b bytes, longLength n = b :: bytes ∧ b ≠ 0 := by
  rcases exists_first_toBeBytes n hPos hn with ⟨first, hFirst⟩
  rcases List.findIdx?_eq_some_iff_getElem.mp hFirst with
    ⟨hLt, hNonzero, -⟩
  refine ⟨(toBeBytes n)[first],
    (toBeBytes n).drop (first + 1), ?_,
    by simpa using hNonzero⟩
  rw [longLength, hFirst]
  exact List.drop_eq_getElem_cons hLt

/- No shorter number of bytes holds the same length. -/
theorem length_longLength_le
    {n k : Nat}
    (hPos : 0 < n)
    (hn : n < 2 ^ 32)
    (hWidth : n < 256 ^ k) :
    (longLength n).length ≤ k := by
  have hValue := (longLength_spec n hPos hn).2.2
  rcases longLength_head hPos hn with ⟨b, bytes, hLong, hb⟩
  have hLe := le_fromBeBytes_cons b bytes hb
  rw [← hLong, hValue] at hLe
  have hLt := Nat.lt_of_le_of_lt hLe hWidth
  rw [hLong, List.length_cons]
  exact (Nat.pow_lt_pow_iff_right (by decide)).mp hLt

/- No form of a length is shorter than what `tlv` writes. -/
theorem LengthForm.length_tlv_le
    {octets content : Bytes}
    {len : Nat}
    (hForm : LengthForm octets len)
    (tag : UInt8)
    (hLe : content.length ≤ len) :
    (tlv tag content).length ≤ 1 + octets.length + len := by
  have hOctets := hForm.length_octets
  rw [tlv_eq_header, List.length_append, tlvHeader]
  split_ifs with hShort
  · simp only [List.length_cons, List.length_nil]
    omega
  · have hLen := hForm.lt
    cases hForm with
    | short b hByte => omega
    | long c bytes hLong hCount hSome hFour =>
        have hWidth := @length_longLength_le content.length
          bytes.length (by omega) (by omega)
          (lt_of_le_of_lt hLe (fromBeBytes_lt bytes))
        simp only [List.length_cons]
        omega

/- What `getRange` gives stands between two other parts. -/
theorem getRange_eq_some
    {input part : Bytes}
    {start stop : Nat}
    (hRange : getRange input start stop = some part) :
    input = input.take start ++ part ++ input.drop stop ∧
      (input.take start).length = start ∧
      part.length = stop - start ∧ start ≤ stop := by
  unfold getRange at hRange
  split_ifs at hRange with hBounds
  cases hRange
  rcases hBounds with ⟨hOrder, hStop⟩
  refine ⟨?_, ?_, ?_, hOrder⟩
  · have hJoin : (input.drop start).drop (stop - start) =
        input.drop stop := by
      rw [List.drop_drop]
      congr 1
      omega
    rw [← hJoin, List.append_assoc, List.take_append_drop,
      List.take_append_drop]
  · rw [List.length_take]
    omega
  · rw [List.length_take, List.length_drop]
    omega

theorem form_of_readLength
    {input : Bytes}
    {len header : Nat}
    (hRead : readLength input = .ok (len, header)) :
    ∃ tag octets rest,
      input = tag :: (octets ++ rest) ∧
        LengthForm octets len ∧
        header = 1 + octets.length := by
  match input with
  | [] => cases hRead
  | [tag] => cases hRead
  | tag :: c :: tail =>
      simp only [readLength, List.getElem?_cons_succ,
        List.getElem?_cons_zero] at hRead
      split_ifs at hRead with hShort hCount
      · cases hRead
        exact ⟨tag, [c], tail, rfl, .short c hShort, rfl⟩
      · split at hRead
        · cases hRead
        · rename_i bytes hRange
          cases hRead
          have hParts := getRange_eq_some hRange
          rw [not_or] at hCount
          refine ⟨tag, c :: bytes,
            (tag :: c :: tail).drop (2 + (c.toNat &&& 0x7F)),
            hParts.1, .long c bytes hShort ?_ ?_ ?_, ?_⟩
          · omega
          · omega
          · omega
          · rw [List.length_cons]
            omega

/-
  Exactly what is read: a tag, a form of the content's
  length, the content, and what is left.
-/
theorem readTlv_iff
    {input : Bytes}
    {tag : UInt8}
    {content rest : Bytes} :
    readTlv input = .ok (tag, content, rest) ↔
      ∃ octets, LengthForm octets content.length ∧
        input = tag :: (octets ++ (content ++ rest)) := by
  constructor
  · intro hRead
    rcases readTlv_ok hRead with
      ⟨hTag, len, header, hLength, hContent, hRest⟩
    rcases form_of_readLength hLength with
      ⟨first, octets, tail, rfl, hForm, rfl⟩
    have hParts := getRange_eq_some hContent
    have hLen : content.length = len := by omega
    cases hTag
    have hTake : (tag :: (octets ++ tail)).take
        (1 + octets.length) = tag :: octets := by
      rw [Nat.add_comm, List.take_succ_cons, List.take_left]
    have hSplit := hParts.1
    rw [hTake, ← hRest, List.append_assoc] at hSplit
    exact ⟨octets, hLen ▸ hForm, hSplit⟩
  · rintro ⟨octets, hForm, rfl⟩
    have hLength := readLength_form tag hForm (content ++ rest)
    have hRange := getRange_append (tag :: octets) content rest
    have hAll : tag :: octets ++ content ++ rest =
        tag :: (octets ++ (content ++ rest)) := by
      simp
    have hWidth : (tag :: octets).length =
        1 + octets.length := by
      rw [List.length_cons, Nat.add_comm]
    rw [hAll, hWidth] at hRange
    have hDrop : (tag :: (octets ++ (content ++ rest))).drop
        (1 + octets.length + content.length) = rest := by
      rw [← hAll, ← hWidth, ← List.length_append,
        List.drop_left]
    simp only [readTlv, List.getElem?_cons_zero, hLength,
      hRange, hDrop]

theorem readTlv_whole
    (tag : UInt8)
    {content : Bytes}
    (hLen : content.length < 2 ^ 32) :
    readTlv (tlv tag content) = .ok (tag, content, []) := by
  have hRead := readTlv_tlv tag content hLen []
  rwa [List.append_nil] at hRead

/- A value is read alike whatever follows it. -/
theorem readTlv_prefix
    {input : Bytes}
    {tag : UInt8}
    {content rest : Bytes}
    (hRead : readTlv input = .ok (tag, content, rest)) :
    ∃ whole, input = whole ++ rest ∧
      readTlv whole = .ok (tag, content, []) := by
  rcases readTlv_iff.mp hRead with ⟨octets, hForm, rfl⟩
  refine ⟨tag :: (octets ++ content), by simp, ?_⟩
  exact readTlv_iff.mpr ⟨octets, hForm, by simp⟩

theorem readTlv_append
    {whole : Bytes}
    {tag : UInt8}
    {content : Bytes}
    (hRead : readTlv whole = .ok (tag, content, []))
    (rest : Bytes) :
    readTlv (whole ++ rest) = .ok (tag, content, rest) := by
  rcases readTlv_iff.mp hRead with ⟨octets, hForm, rfl⟩
  exact readTlv_iff.mpr ⟨octets, hForm, by simp⟩

theorem ne_nil_of_readTlv
    {whole : Bytes}
    {tag : UInt8}
    {content rest : Bytes}
    (hRead : readTlv whole = .ok (tag, content, rest)) :
    whole ≠ [] := by
  rintro rfl
  cases hRead

/- The loop where it meets a value, and where it does not. -/
theorem derLoop_read
    (accepts : UInt8 → Bool)
    {remaining content next : Bytes}
    {t : UInt8}
    (hRead : readTlv remaining = .ok (t, content, next)) :
    derLoop accepts remaining =
      if accepts t then
        (derLoop accepts next).map (remaining.take
          (remaining.length - next.length) :: ·)
      else .error .failed := by
  rw [derLoop, if_neg (ne_nil_of_readTlv hRead)]
  split
  · rename_i hError
    rw [hRead] at hError
    cases hError
  · rename_i hOk
    rw [hRead] at hOk
    cases hOk
    dsimp only
    split_ifs
    · cases derLoop accepts next with
      | error e => rfl
      | ok out => rfl
    · rfl

theorem derLoop_failed
    (accepts : UInt8 → Bool)
    {remaining : Bytes}
    {e : DerError}
    (hSome : remaining ≠ [])
    (hRead : readTlv remaining = .error e) :
    derLoop accepts remaining = .error e := by
  rw [derLoop, if_neg hSome]
  split
  · rename_i hError
    rw [hRead] at hError
    cases hError
    rfl
  · rename_i hOk
    rw [hRead] at hOk
    cases hOk

@[simp] theorem derLoop_nil (accepts : UInt8 → Bool) :
    derLoop accepts [] = .ok [] := by
  rw [derLoop, if_pos rfl]

/- What the loop gives, if anything: nothing or a value first. -/
theorem derLoop_cases
    {accepts : UInt8 → Bool}
    {remaining : Bytes}
    {out : List Bytes}
    (hLoop : derLoop accepts remaining = .ok out) :
    remaining = [] ∧ out = [] ∨
      ∃ tag content next whole later,
        remaining = whole ++ next ∧
          readTlv whole = .ok (tag, content, []) ∧
          accepts tag = true ∧
          derLoop accepts next = .ok later ∧
          out = whole :: later := by
  by_cases hNil : remaining = []
  · subst hNil
    rw [derLoop_nil] at hLoop
    cases hLoop
    exact Or.inl ⟨rfl, rfl⟩
  · right
    cases hRead : readTlv remaining with
    | error e =>
        rw [derLoop_failed accepts hNil hRead] at hLoop
        cases hLoop
    | ok parts =>
        rcases parts with ⟨tag, content, next⟩
        rw [derLoop_read accepts hRead] at hLoop
        split_ifs at hLoop with hAccepts
        rcases readTlv_prefix hRead with ⟨whole, rfl, hWhole⟩
        cases hNext : derLoop accepts next with
        | error e =>
            rw [hNext] at hLoop
            cases hLoop
        | ok later =>
            rw [hNext] at hLoop
            cases hLoop
            refine ⟨tag, content, next, whole, later, rfl,
              hWhole, hAccepts, hNext, ?_⟩
            simp

/- One value by itself, with a tag that is accepted. -/
def IsElement (accepts : UInt8 → Bool) (e : Bytes) : Prop :=
  ∃ tag content, readTlv e = .ok (tag, content, []) ∧
    accepts tag = true

/-
  Exactly what the loop gives: the elements that make up what
  it is given.
-/
theorem derLoop_iff
    {accepts : UInt8 → Bool}
    {remaining : Bytes}
    {out : List Bytes} :
    derLoop accepts remaining = .ok out ↔
      out.flatten = remaining ∧
        ∀ e ∈ out, IsElement accepts e := by
  constructor
  · intro hLoop
    induction out generalizing remaining with
    | nil =>
        rcases derLoop_cases hLoop with ⟨rfl, -⟩ | hCons
        · simp
        · rcases hCons with ⟨_, _, _, _, _, _, _, _, _, hOut⟩
          cases hOut
    | cons e out ih =>
        rcases derLoop_cases hLoop with ⟨-, hOut⟩ | hCons
        · cases hOut
        · rcases hCons with ⟨tag, content, next, whole, later,
            rfl, hRead, hAccepts, hNext, hOut⟩
          cases hOut
          rcases ih hNext with ⟨hFlat, hElements⟩
          rw [List.flatten_cons, hFlat, List.forall_mem_cons]
          exact ⟨rfl, ⟨tag, content, hRead, hAccepts⟩,
            hElements⟩
  · rintro ⟨rfl, hElements⟩
    induction out with
    | nil => simp
    | cons e out ih =>
        rcases hElements e List.mem_cons_self with
          ⟨tag, content, hRead, hAccepts⟩
        have hRest := ih (fun x hx =>
          hElements x (List.mem_cons_of_mem _ hx))
        rw [List.flatten_cons,
          derLoop_read accepts (readTlv_append hRead _),
          if_pos hAccepts, hRest]
        simp [Except.map]

end Cert

end Trustd

------------------------------------------------------------
-- The Machine's Arithmetic
------------------------------------------------------------

namespace Trustd

namespace Cert

/-
  The same functions over 64-bit numbers, where an addition or
  a subtraction that overflows and an index outside of a slice
  panic: then there is no result at all.
-/
def addUsize (a b : Nat) : Option Nat :=
  if a + b < 2 ^ 64 then some (a + b) else none

def subUsize (a b : Nat) : Option Nat :=
  if b ≤ a then some (a - b) else none

/- `&input[n..]`. -/
def indexFrom (input : Bytes) (n : Nat) : Option Bytes :=
  if n ≤ input.length then some (input.drop n) else none

/- `&input[..n]`. -/
def indexTo (input : Bytes) (n : Nat) : Option Bytes :=
  if n ≤ input.length then some (input.take n) else none

/- `(acc << 8) | usize::from(b)`. -/
def pushByte (acc : Nat) (b : UInt8) : Nat :=
  ((acc <<< 8) % 2 ^ 64) ||| b.toNat

def machineReadLength (input : Bytes) :
    Option (Except DerError (Nat × Nat)) :=
  match input[1]? with
  | none => some (.error .failed)
  | some firstLen =>
      if firstLen.toNat < 0x80 then
        some (.ok (firstLen.toNat, 2))
      else
        let count := firstLen.toNat &&& 0x7F
        if count = 0 ∨ count > 4 then some (.error .failed)
        else do
          let header ← addUsize 2 count
          match getRange input 2 header with
          | none => return .error .failed
          | some bytes =>
              return .ok (bytes.foldl pushByte 0, header)

def machineReadTlv (input : Bytes) :
    Option (Except DerError (UInt8 × Bytes × Bytes)) :=
  match input[0]? with
  | none => some (.error .failed)
  | some tag => do
      match ← machineReadLength input with
      | .error e => return .error e
      | .ok (len, header) =>
          let stop ← addUsize header len
          match getRange input header stop with
          | none => return .error .failed
          | some content =>
              let rest ← indexFrom input stop
              return .ok (tag, content, rest)

/- The loop, which may take so many turns. -/
def machineLoop (accepts : UInt8 → Bool) :
    Nat → Bytes → Option (Except DerError (List Bytes))
  | 0, _ => none
  | turns + 1, remaining =>
      if remaining = [] then some (.ok [])
      else do
        match ← machineReadTlv remaining with
        | .error e => return .error e
        | .ok (t, _, next) =>
            if accepts t then
              let consumed ← subUsize remaining.length
                next.length
              let element ← indexTo remaining consumed
              match ← machineLoop accepts turns next with
              | .error e => return .error e
              | .ok out => return .ok (element :: out)
            else return .error .failed

def machineContents
    (turns : Nat)
    (input : Bytes)
    (elementTag : UInt8) :
    Option (Except DerError (List Bytes)) := do
  match ← machineReadTlv input with
  | .error e => return .error e
  | .ok (tag, content, rest) =>
      if tag ≠ 0x30 ∨ rest ≠ [] then return .error .failed
      else machineLoop (· == elementTag) turns content

def machineElements
    (turns : Nat)
    (input : Bytes) :
    Option (Except DerError (List Bytes)) := do
  match ← machineReadTlv input with
  | .error e => return .error e
  | .ok (_, content, _) =>
      machineLoop (fun _ => true) turns content

/- Eight bytes fit, and nothing is shifted out. -/
theorem foldl_pushByte
    {bytes : Bytes}
    (hFew : bytes.length ≤ 8) :
    bytes.foldl pushByte 0 = fromBeBytes bytes := by
  induction bytes using List.reverseRecOn with
  | nil => rfl
  | append_singleton bytes b ih =>
      rw [List.length_append, List.length_singleton] at hFew
      have hSmall : fromBeBytes bytes <<< 8 < 2 ^ 64 := by
        have hBytes := fromBeBytes_lt bytes
        have hWidth : 256 ^ bytes.length ≤ 256 ^ 7 :=
          Nat.pow_le_pow_right (by omega) (by omega)
        rw [Nat.shiftLeft_eq]
        omega
      rw [List.foldl_append, ih (by omega), List.foldl_cons,
        List.foldl_nil, pushByte, Nat.mod_eq_of_lt hSmall,
        ← Nat.shiftLeft_add_eq_or_of_lt b.toNat_lt,
        Nat.shiftLeft_eq, fromBeBytes_concat]

theorem machineReadLength_eq (input : Bytes) :
    machineReadLength input = some (readLength input) := by
  unfold machineReadLength readLength
  cases input[1]? with
  | none => rfl
  | some firstLen =>
      dsimp only
      by_cases hShort : firstLen.toNat < 0x80
      · rw [if_pos hShort, if_pos hShort]
      rw [if_neg hShort, if_neg hShort]
      by_cases hCount : firstLen.toNat &&& 0x7F = 0 ∨
          firstLen.toNat &&& 0x7F > 4
      · rw [if_pos hCount, if_pos hCount]
      rw [if_neg hCount, if_neg hCount, addUsize,
        if_pos (by omega)]
      cases hRange : getRange input 2
          (2 + (firstLen.toNat &&& 0x7F)) with
      | none => simp [hRange]
      | some bytes =>
          have hWidth := (getRange_eq_some hRange).2.2.1
          have hFold := @foldl_pushByte bytes (by omega)
          simp [hRange, hFold]

/- A length and a header that are read are small. -/
theorem length_lt_of_readLength
    {input : Bytes}
    {len header : Nat}
    (hRead : readLength input = .ok (len, header)) :
    header + len < 2 ^ 64 := by
  rcases form_of_readLength hRead with
    ⟨_, octets, _, _, hForm, rfl⟩
  have hLen := hForm.lt
  have hOctets := hForm.length_octets
  omega

theorem machineReadTlv_eq (input : Bytes) :
    machineReadTlv input = some (readTlv input) := by
  unfold machineReadTlv readTlv
  cases input[0]? with
  | none => rfl
  | some tag =>
      rw [machineReadLength_eq]
      dsimp only [Option.bind_eq_bind, Option.bind_some]
      cases hLength : readLength input with
      | error e => rfl
      | ok parts =>
          rcases parts with ⟨len, header⟩
          have hSum := length_lt_of_readLength hLength
          dsimp only
          rw [addUsize, if_pos hSum, Option.bind_some]
          cases hRange : getRange input header
              (header + len) with
          | none => rfl
          | some content =>
              have hBound : header + len ≤ input.length := by
                unfold getRange at hRange
                split_ifs at hRange with hBounds
                exact hBounds.2
              dsimp only
              rw [indexFrom, if_pos hBound]
              rfl

/- As many turns as there are bytes are enough. -/
theorem machineLoop_eq
    (accepts : UInt8 → Bool)
    {turns : Nat}
    {remaining : Bytes}
    (hTurns : remaining.length < turns) :
    machineLoop accepts turns remaining =
      some (derLoop accepts remaining) := by
  induction turns generalizing remaining with
  | zero => omega
  | succ turns ih =>
      rw [machineLoop, machineReadTlv_eq]
      by_cases hNil : remaining = []
      · rw [if_pos hNil, hNil, derLoop_nil]
      rw [if_neg hNil]
      cases hRead : readTlv remaining with
      | error e =>
          rw [derLoop_failed accepts hNil hRead]
          rfl
      | ok parts =>
          rcases parts with ⟨t, content, next⟩
          have hShorter := readTlv_rest_length hRead
          rw [derLoop_read accepts hRead]
          dsimp only [Option.bind_eq_bind, Option.bind_some]
          by_cases hAccepts : accepts t = true
          · rw [if_pos hAccepts, if_pos hAccepts, subUsize,
              if_pos hShorter.le, Option.bind_some, indexTo,
              if_pos (Nat.sub_le _ _), Option.bind_some,
              ih (by omega), Option.bind_some]
            cases derLoop accepts next with
            | error e => rfl
            | ok out => rfl
          · rw [if_neg hAccepts, if_neg hAccepts]
            rfl

end Cert

end Trustd

------------------------------------------------------------
-- The Walker
------------------------------------------------------------

namespace Trustd

namespace Cert

/-
  A value is walked if and only if its content is made up of
  elements, and to those.
-/
theorem derContents_iff
    {input : Bytes}
    {elementTag : UInt8}
    {out : List Bytes} :
    derContents input elementTag = .ok out ↔
      readTlv input = .ok (0x30, out.flatten, []) ∧
        ∀ e ∈ out, ∃ content,
          readTlv e = .ok (elementTag, content, []) := by
  have hTag : ∀ e, IsElement (· == elementTag) e ↔
      ∃ content, readTlv e = .ok (elementTag, content, []) := by
    intro e
    simp only [IsElement, beq_iff_eq]
    constructor
    · rintro ⟨tag, content, hRead, rfl⟩
      exact ⟨content, hRead⟩
    · rintro ⟨content, hRead⟩
      exact ⟨elementTag, content, hRead, rfl⟩
  simp only [← hTag]
  unfold derContents
  cases hRead : readTlv input with
  | error e => simp
  | ok parts =>
      rcases parts with ⟨tag, content, rest⟩
      dsimp only
      split_ifs with hOther
      · refine iff_of_false (by simp) ?_
        rintro ⟨hSame, -⟩
        cases hSame
        simp at hOther
      · rw [not_or, not_not, not_not] at hOther
        rcases hOther with ⟨rfl, rfl⟩
        rw [derLoop_iff, Except.ok.injEq, Prod.mk.injEq,
          Prod.mk.injEq]
        simp [eq_comm]

theorem derElements_iff
    {input : Bytes}
    {out : List Bytes} :
    derElements input = .ok out ↔
      (∃ tag rest,
        readTlv input = .ok (tag, out.flatten, rest)) ∧
        ∀ e ∈ out, ∃ tag content,
          readTlv e = .ok (tag, content, []) := by
  unfold derElements
  cases hRead : readTlv input with
  | error e => simp
  | ok parts =>
      rcases parts with ⟨tag, content, rest⟩
      dsimp only
      rw [derLoop_iff]
      have hContent : (∃ t r, (.ok (tag, content, rest) :
          Except DerError (UInt8 × Bytes × Bytes)) =
            .ok (t, out.flatten, r)) ↔
          out.flatten = content := by
        simp [eq_comm]
      rw [hContent]
      simp only [IsElement, and_true]

/- The content of a value is shorter than the value. -/
theorem length_content_lt
    {input : Bytes}
    {tag : UInt8}
    {content rest : Bytes}
    (hRead : readTlv input = .ok (tag, content, rest)) :
    content.length < input.length := by
  rcases readTlv_iff.mp hRead with ⟨octets, -, rfl⟩
  simp only [List.length_cons, List.length_append]
  omega

theorem machineContents_eq
    {turns : Nat}
    {input : Bytes}
    (hTurns : input.length < turns)
    (elementTag : UInt8) :
    machineContents turns input elementTag =
      some (derContents input elementTag) := by
  unfold machineContents derContents
  rw [machineReadTlv_eq]
  cases hRead : readTlv input with
  | error e => rfl
  | ok parts =>
      rcases parts with ⟨tag, content, rest⟩
      have hShorter := length_content_lt hRead
      dsimp only [Option.bind_eq_bind, Option.bind_some]
      split_ifs
      · rfl
      · exact machineLoop_eq _ (by omega)

theorem machineElements_eq
    {turns : Nat}
    {input : Bytes}
    (hTurns : input.length < turns) :
    machineElements turns input =
      some (derElements input) := by
  unfold machineElements derElements
  rw [machineReadTlv_eq]
  cases hRead : readTlv input with
  | error e => rfl
  | ok parts =>
      rcases parts with ⟨tag, content, rest⟩
      have hShorter := length_content_lt hRead
      exact machineLoop_eq _ (by omega)

/-
  Reading undoes writing; the functions come to an end on any
  input, within the machine's arithmetic; and what is read is
  all of the input, its elements all of the content.
-/
theorem walker_exact :
    (∀ tag content rest, content.length < 2 ^ 32 →
      readTlv (tlv tag content ++ rest) =
        .ok (tag, content, rest)) ∧
    ∀ input : Bytes,
      (machineReadTlv input = some (readTlv input) ∧
        ∀ turns, input.length < turns →
          (∀ elementTag,
            machineContents turns input elementTag =
              some (derContents input elementTag)) ∧
          machineElements turns input =
            some (derElements input)) ∧
      (∀ tag content rest,
        readTlv input = .ok (tag, content, rest) ↔
          ∃ octets, LengthForm octets content.length ∧
            input = tag :: (octets ++ (content ++ rest))) ∧
      (∀ elementTag out,
        derContents input elementTag = .ok out ↔
          readTlv input = .ok (0x30, out.flatten, []) ∧
            ∀ e ∈ out, ∃ content,
              readTlv e = .ok (elementTag, content, [])) ∧
      ∀ out, derElements input = .ok out ↔
        (∃ tag rest,
          readTlv input = .ok (tag, out.flatten, rest)) ∧
          ∀ e ∈ out, ∃ tag content,
            readTlv e = .ok (tag, content, []) := by
  refine ⟨fun tag content rest hLen =>
    readTlv_tlv tag content hLen rest, fun input => ?_⟩
  refine ⟨⟨machineReadTlv_eq input, fun turns hTurns => ?_⟩,
    ?_, ?_, ?_⟩
  · exact ⟨machineContents_eq hTurns,
      machineElements_eq hTurns⟩
  · intro tag content rest
    exact readTlv_iff
  · intro elementTag out
    exact derContents_iff
  · intro out
    exact derElements_iff

/- A length may take more octets than it has to. -/
example :
    readTlv ([0x04, 0x81, 0x02, 0xAB, 0xCD] ++ [0xEF]) =
      .ok (0x04, [0xAB, 0xCD], [0xEF]) := by
  decide

end Cert

end Trustd
