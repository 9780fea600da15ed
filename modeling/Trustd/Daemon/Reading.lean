import Trustd.Core.MessagePack
import Trustd.Daemon.Control

/-
  A request over the life of its connection.

  The bytes a peer sends, and whether it then closes, reach
  the daemon in wake-ups of any number and reads of any size.

  Key definitions include:
    * `Trustd.Control.Client.life`
    * `Trustd.Control.Delivery`
    * `Trustd.Control.Agree`

  Key theorems include:
    * `Trustd.Control.drain_body`
    * `Trustd.Control.life_agrees_iff`
-/

------------------------------------------------------------
-- Deliveries
------------------------------------------------------------

namespace Trustd

namespace Control

open Wire

/- The size of the buffer a client is read into. -/
def chunkBytes : Nat := 4096

/- The most that a client's buffer may hold. -/
def bufferLimit : Nat := 4 + maxMessageBytes

/-
  What becomes of a connection: each wake-up reads it, until
  one of them does not leave it incomplete.
-/
def Client.life
    (mp : MsgPack)
    (debug : Text → Text)
    (client : Client) :
    List (List ReadResult) → Progress
  | [] => .incomplete
  | reads :: wakes =>
      match client.read mp debug reads with
      | (.incomplete, client) => life mp debug client wakes
      | (progress, _) => progress

/- A read that brings bytes, or that a signal interrupts. -/
def Plain : ReadResult → Prop
  | .data bytes => bytes ≠ [] ∧ bytes.length ≤ chunkBytes
  | .interrupted => True
  | _ => False

instance : DecidablePred Plain
  | .data _ => inferInstanceAs (Decidable (_ ∧ _))
  | .interrupted => inferInstanceAs (Decidable True)
  | .endOfStream => inferInstanceAs (Decidable False)
  | .failed => inferInstanceAs (Decidable False)

/- The bytes that some reads bring. -/
def broughtBy : List ReadResult → Bytes
  | [] => []
  | .data bytes :: rest => bytes ++ broughtBy rest
  | _ :: rest => broughtBy rest

/- What a peer that closes is read as at last. -/
def ending (closes : Bool) : List ReadResult :=
  if closes then [.endOfStream] else []

/- One way to deliver some bytes, and an end after them. -/
def Delivery
    (bytes : Bytes)
    (closes : Bool)
    (wakes : List (List ReadResult)) : Prop :=
  ∃ body, wakes.flatten = body ++ ending closes ∧
    (∀ r ∈ body, Plain r) ∧ broughtBy body = bytes

/- The same request is obtained, or it is refused twice. -/
def Agree (a b : Progress) : Prop :=
  (∃ request, a = .request request ∧
    b = .request request) ∨
  ∃ x y, a = .closed x ∧ b = .closed y

@[simp] theorem broughtBy_append
    (a b : List ReadResult) :
    broughtBy (a ++ b) = broughtBy a ++ broughtBy b := by
  induction a with
  | nil => rfl
  | cons r a ih =>
      cases r with
      | data bytes =>
          simp [broughtBy, ih]
      | endOfStream => exact ih
      | interrupted => exact ih
      | failed => exact ih

/- Reading on until the buffer is too large. -/
theorem drain_body
    {buf : Bytes}
    {reads : List ReadResult}
    (hPlain : ∀ r ∈ reads, Plain r)
    (hBuf : buf.length ≤ bufferLimit)
    (rest : List ReadResult) :
    drain buf (reads ++ rest) =
      if (buf ++ broughtBy reads).length ≤ bufferLimit then
        drain (buf ++ broughtBy reads) rest
      else .error tooLarge := by
  induction reads generalizing buf with
  | nil =>
      rw [broughtBy, List.append_nil, if_pos hBuf]
      rfl
  | cons r reads ih =>
      have hTail : ∀ x ∈ reads, Plain x := fun x hx =>
        hPlain x (List.mem_cons_of_mem _ hx)
      have hHead := hPlain r List.mem_cons_self
      cases r with
      | interrupted => exact ih hTail hBuf
      | endOfStream => cases hHead
      | failed => cases hHead
      | data bytes =>
          rw [List.cons_append, drain, broughtBy,
            ← List.append_assoc]
          by_cases hLarge : (buf ++ bytes).length >
              4 + maxMessageBytes
          · rw [if_pos hLarge, if_neg]
            rw [List.length_append]
            unfold bufferLimit
            omega
          · rw [if_neg hLarge, ih hTail (Nat.not_lt.mp hLarge)]

/- A wake-up ends before the end is read, or with it. -/
theorem split_ending
    {reads rest body : List ReadResult}
    {closes : Bool}
    (hSplit : reads ++ rest = body ++ ending closes) :
    (∃ later, body = reads ++ later ∧
      rest = later ++ ending closes) ∨
    (closes = true ∧ reads = body ++ [.endOfStream]) := by
  rcases List.append_eq_append_iff.mp hSplit with
    ⟨later, hBody, hRest⟩ | ⟨last, hReads, hEnding⟩
  · exact Or.inl ⟨later, hBody, hRest⟩
  · cases last with
    | nil =>
        rw [List.append_nil] at hReads
        rw [List.nil_append] at hEnding
        exact Or.inl ⟨[], by rw [hReads, List.append_nil],
          hEnding.symm⟩
    | cons r last =>
        cases closes with
        | false => cases hEnding
        | true =>
            have hParts := List.cons.inj hEnding
            have hNil := (List.append_eq_nil_iff.mp
              hParts.2.symm).1
            exact Or.inr ⟨rfl, by rw [hReads, hNil, hParts.1]⟩

/- What the first frame of some bytes says. -/
structure FirstFrame (bytes : Bytes) : Prop where
  header : 4 ≤ bytes.length
  small : frameLength bytes ≤ maxMessageBytes
  whole : 4 + frameLength bytes ≤ bytes.length

section

variable (mp : MsgPack)
variable (debug : Text → Text)

/- Before the frame is all there it is incomplete. -/
theorem examine_short
    {bytes buf more : Bytes}
    (hFirst : FirstFrame bytes)
    (hBytes : bytes = buf ++ more)
    (hShort : buf.length < 4 + frameLength bytes) :
    examine mp debug buf = .incomplete := by
  rw [examine]
  by_cases hFour : buf.length < 4
  · rw [if_pos hFour]
  · rw [if_neg hFour]
    have hLength := frameLength_append
      (Nat.not_lt.mp hFour) more
    rw [← hBytes] at hLength
    dsimp only
    rw [← hLength, if_neg (Nat.not_lt.mpr hFirst.small),
      if_pos hShort]

/- A first frame that is all there is decoded. -/
theorem examine_first
    {bytes : Bytes}
    (hFirst : FirstFrame bytes) :
    examine mp debug bytes =
      match Request.decode mp ((bytes.drop 4).take
        (frameLength bytes)) with
      | .ok request => .request request
      | .error e => .closed (some (.error (e.text debug))) := by
  rw [examine, if_neg (Nat.not_lt.mpr hFirst.header)]
  dsimp only
  rw [if_neg (Nat.not_lt.mpr hFirst.small)]
  exact if_neg (Nat.not_lt.mpr hFirst.whole)

/- It is a request, or it is refused. -/
theorem examine_outcome
    {bytes : Bytes}
    (hFirst : FirstFrame bytes) :
    (∃ request, examine mp debug bytes =
      .request request) ∨
    ∃ x, examine mp debug bytes = .closed x := by
  rw [examine_first mp debug hFirst]
  cases Request.decode mp ((bytes.drop 4).take
      (frameLength bytes)) with
  | ok request => exact Or.inl ⟨request, rfl⟩
  | error e => exact Or.inr ⟨_, rfl⟩

/- Once it is all there, nothing after it matters. -/
theorem examine_whole
    {bytes buf more : Bytes}
    (hFirst : FirstFrame bytes)
    (hBytes : bytes = buf ++ more)
    (hWhole : 4 + frameLength bytes ≤ buf.length) :
    examine mp debug buf = examine mp debug bytes := by
  have hFour : 4 ≤ buf.length :=
    (Nat.le_add_right _ _).trans hWhole
  have hLength := frameLength_append hFour more
  rw [← hBytes] at hLength
  have hBuf : FirstFrame buf :=
    ⟨hFour, hLength ▸ hFirst.small, hLength ▸ hWhole⟩
  have hTake : (bytes.drop 4).take (frameLength bytes) =
      (buf.drop 4).take (frameLength bytes) := by
    rw [hBytes, List.drop_append_of_le_length hFour,
      List.take_append_of_le_length]
    rw [List.length_drop, ← hBytes]
    omega
  rw [examine_first mp debug hFirst,
    examine_first mp debug hBuf, ← hLength, hTake]

/- A wake-up that leaves room in the buffer. -/
theorem read_within
    (client : Client)
    {reads : List ReadResult}
    (hPlain : ∀ r ∈ reads, Plain r)
    (hBuf : client.buf.length ≤ bufferLimit)
    (hFits : (client.buf ++ broughtBy reads).length ≤
      bufferLimit) :
    client.read mp debug reads =
      (examine mp debug (client.buf ++ broughtBy reads),
        { client with
          buf := client.buf ++ broughtBy reads }) := by
  have hDrain := drain_body hPlain hBuf []
  rw [List.append_nil, if_pos hFits] at hDrain
  rw [Client.read, hDrain]
  rfl

/- A wake-up that brings too much, or an end. -/
theorem read_closed
    (client : Client)
    {reads : List ReadResult}
    (hPlain : ∀ r ∈ reads, Plain r)
    (hBuf : client.buf.length ≤ bufferLimit)
    {rest : List ReadResult}
    (hClosed : rest = [.endOfStream] ∨
      bufferLimit < (client.buf ++ broughtBy reads).length) :
    ∃ x, (client.read mp debug (reads ++ rest)).1 =
      .closed x := by
  have hDrain := drain_body hPlain hBuf rest
  by_cases hFits : (client.buf ++ broughtBy reads).length ≤
      bufferLimit
  · rcases hClosed with rfl | hLarge
    · rw [if_pos hFits] at hDrain
      exact ⟨none, by rw [Client.read, hDrain]; rfl⟩
    · exact absurd hFits (Nat.not_le.mpr hLarge)
  · rw [if_neg hFits] at hDrain
    exact ⟨_, by rw [Client.read, hDrain]; rfl⟩

theorem life_of_closed
    {client : Client}
    {reads : List ReadResult}
    {x : Option Reply}
    (hClosed : (client.read mp debug reads).1 = .closed x)
    (wakes : List (List ReadResult)) :
    client.life mp debug (reads :: wakes) = .closed x := by
  rw [Client.life]
  rcases hRead : client.read mp debug reads with
    ⟨progress, after⟩
  rw [hRead] at hClosed
  cases hClosed
  rfl

/-
  Every delivery ends in what the first frame says, or in a
  refusal; in the latter only for what comes after the frame.
-/
theorem life_cases
    {bytes buf : Bytes}
    {closes : Bool}
    {wakes : List (List ReadResult)}
    {body : List ReadResult}
    {client : Client}
    (hFirst : FirstFrame bytes)
    (hClient : client.buf = buf)
    (hShort : buf.length < 4 + frameLength bytes)
    (hWakes : wakes.flatten = body ++ ending closes)
    (hPlain : ∀ r ∈ body, Plain r)
    (hBytes : bytes = buf ++ broughtBy body) :
    client.life mp debug wakes = examine mp debug bytes ∨
      ((∃ x, client.life mp debug wakes = .closed x) ∧
        (closes = true ∨ bufferLimit < bytes.length)) := by
  induction wakes generalizing buf body client with
  | nil =>
      have hNil := (List.append_eq_nil_iff.mp
        hWakes.symm).1
      rw [hNil, broughtBy, List.append_nil] at hBytes
      have hWhole := hFirst.whole
      rw [hBytes] at hWhole hShort
      omega
  | cons reads wakes ih =>
      have hSmall := hFirst.small
      have hBuf : buf.length ≤ bufferLimit := by
        unfold bufferLimit
        omega
      rw [List.flatten_cons] at hWakes
      subst hClient
      rcases split_ending hWakes with
        ⟨later, rfl, hLater⟩ | ⟨rfl, rfl⟩
      · have hHere : ∀ r ∈ reads, Plain r := fun r hr =>
          hPlain r (List.mem_append_left _ hr)
        rw [broughtBy_append, ← List.append_assoc] at hBytes
        by_cases hFits : (client.buf ++
            broughtBy reads).length ≤ bufferLimit
        · rw [Client.life,
            read_within mp debug client hHere hBuf hFits]
          by_cases hWhole : 4 + frameLength bytes ≤
              (client.buf ++ broughtBy reads).length
          · rw [examine_whole mp debug hFirst hBytes hWhole]
            rcases examine_outcome mp debug hFirst with
              ⟨request, hRequest⟩ | ⟨x, hClosed⟩
            · rw [hRequest]
              exact Or.inl rfl
            · rw [hClosed]
              exact Or.inl rfl
          · rw [examine_short mp debug hFirst hBytes
              (Nat.not_le.mp hWhole)]
            exact ih rfl (Nat.not_le.mp hWhole) hLater
              (fun r hr => hPlain r
                (List.mem_append_right _ hr)) hBytes
        · have hLarge := Nat.not_le.mp hFits
          rcases read_closed mp debug client hHere hBuf
            (Or.inr hLarge) with ⟨x, hClosed⟩
          rw [List.append_nil] at hClosed
          refine Or.inr ⟨⟨x, life_of_closed mp debug hClosed
            wakes⟩, Or.inr ?_⟩
          rw [hBytes, List.length_append]
          omega
      · rcases read_closed mp debug client hPlain hBuf
          (Or.inl rfl) with ⟨x, hClosed⟩
        exact Or.inr ⟨⟨x, life_of_closed mp debug hClosed
          wakes⟩, Or.inl rfl⟩

/- Some bytes, as reads that fill the chunk. -/
def piecesOf (bytes : Bytes) : List ReadResult :=
  (General.chunks chunkBytes bytes).map ReadResult.data

theorem broughtBy_data (parts : List Bytes) :
    broughtBy (parts.map ReadResult.data) =
      parts.flatten := by
  induction parts with
  | nil => rfl
  | cons bytes parts ih =>
      rw [List.map_cons, broughtBy, ih, List.flatten_cons]

theorem broughtBy_piecesOf (bytes : Bytes) :
    broughtBy (piecesOf bytes) = bytes := by
  rw [piecesOf, broughtBy_data, General.flatten_chunks]

theorem plain_piecesOf
    (bytes : Bytes) :
    ∀ r ∈ piecesOf bytes, Plain r := by
  intro r hMem
  rcases List.mem_map.mp hMem with ⟨part, hPart, rfl⟩
  have hLength := General.length_of_mem_chunks chunkBytes
    (by decide) bytes part hPart
  exact ⟨List.length_pos_iff.mp hLength.1, hLength.2⟩

/- A first frame brought by itself is what is answered. -/
theorem life_apart
    {bytes : Bytes}
    (hFirst : FirstFrame bytes)
    (stream : Stream)
    (wakes : List (List ReadResult)) :
    ({ stream } : Client).life mp debug
        (piecesOf (bytes.take (4 + frameLength bytes)) ::
          wakes) =
      examine mp debug bytes := by
  have hSmall := hFirst.small
  have hWhole := hFirst.whole
  have hTake : (bytes.take (4 + frameLength bytes)).length =
      4 + frameLength bytes := by
    rw [List.length_take]
    omega
  have hSplit := (List.take_append_drop
    (4 + frameLength bytes) bytes).symm
  have hRead := read_within mp debug { stream }
    (plain_piecesOf (bytes.take (4 + frameLength bytes)))
    (Nat.zero_le _) (by
      rw [broughtBy_piecesOf, List.nil_append, hTake]
      unfold bufferLimit
      omega)
  rw [broughtBy_piecesOf, List.nil_append,
    examine_whole mp debug hFirst hSplit hTake.ge] at hRead
  rw [Client.life, hRead]
  rcases examine_outcome mp debug hFirst with
    ⟨request, hRequest⟩ | ⟨x, hClosed⟩
  · rw [hRequest]
  · rw [hClosed]

/- Brought all at once, what comes after it closes. -/
theorem life_together
    {bytes : Bytes}
    {closes : Bool}
    (hClosed : closes = true ∨ bufferLimit < bytes.length)
    (stream : Stream) :
    ∃ x, ({ stream } : Client).life mp debug
      [piecesOf bytes ++ ending closes] = .closed x := by
  have hClient : ({ stream } : Client).buf.length ≤
      bufferLimit := Nat.zero_le _
  by_cases hLarge : bufferLimit < bytes.length
  · rcases read_closed mp debug { stream }
      (plain_piecesOf bytes) hClient (Or.inr (by
        rwa [broughtBy_piecesOf, List.nil_append])) with
      ⟨x, hRead⟩
    exact ⟨x, life_of_closed mp debug hRead []⟩
  · have hEnd := hClosed.resolve_right hLarge
    rcases read_closed mp debug { stream }
      (plain_piecesOf bytes) hClient (Or.inl rfl) with
      ⟨x, hRead⟩
    refine ⟨x, life_of_closed mp debug ?_ []⟩
    rw [hEnd]
    exact hRead

/- All at once is a delivery. -/
theorem delivery_together
    (bytes : Bytes)
    (closes : Bool) :
    Delivery bytes closes
      [piecesOf bytes ++ ending closes] :=
  ⟨piecesOf bytes, by simp, plain_piecesOf bytes,
    broughtBy_piecesOf bytes⟩

/- So are the first bytes, and then the others. -/
theorem delivery_apart
    (bytes : Bytes)
    (closes : Bool)
    (n : Nat) :
    Delivery bytes closes
      [piecesOf (bytes.take n),
        piecesOf (bytes.drop n) ++ ending closes] := by
  refine ⟨piecesOf (bytes.take n) ++ piecesOf (bytes.drop n),
    by simp, ?_, ?_⟩
  · intro r hMem
    rcases List.mem_append.mp hMem with hMem | hMem
    · exact plain_piecesOf _ r hMem
    · exact plain_piecesOf _ r hMem
  · rw [broughtBy_append, broughtBy_piecesOf,
      broughtBy_piecesOf, List.take_append_drop]

end

/-
  The outcome of a connection whose first frame is all there
  and of an allowed length does not depend on how the bytes
  and an end after them are delivered, if and only if that
  frame is no request, or the peer sends no end and no more
  bytes than the buffer may hold.
-/
theorem life_agrees_iff
    (mp : MsgPack)
    (debug : Text → Text)
    (stream : Stream)
    {bytes : Bytes}
    (hFirst : FirstFrame bytes)
    (closes : Bool) :
    (∀ a b, Delivery bytes closes a →
      Delivery bytes closes b →
        Agree (({ stream } : Client).life mp debug a)
          (({ stream } : Client).life mp debug b)) ↔
      (∀ request, Request.decode mp ((bytes.drop 4).take
          (frameLength bytes)) ≠ .ok request) ∨
        (closes = false ∧
          bytes.length ≤ 4 + maxMessageBytes) := by
  have hCases : ∀ wakes, Delivery bytes closes wakes →
      ({ stream } : Client).life mp debug wakes =
          examine mp debug bytes ∨
        ((∃ x, ({ stream } : Client).life mp debug wakes =
            .closed x) ∧
          (closes = true ∨
            bufferLimit < bytes.length)) := by
    rintro wakes ⟨body, hWakes, hPlain, hBytes⟩
    have hFour := hFirst.header
    exact life_cases mp debug hFirst rfl
      (Nat.add_pos_left (by decide) _) hWakes hPlain
      hBytes.symm
  constructor
  · intro hAgree
    by_cases hFits : closes = false ∧
        bytes.length ≤ 4 + maxMessageBytes
    · exact Or.inr hFits
    refine Or.inl fun request hDecode => ?_
    have hExamine := examine_first mp debug hFirst
    rw [hDecode] at hExamine
    have hLate : closes = true ∨
        bufferLimit < bytes.length := by
      by_cases hEnd : closes = true
      · exact Or.inl hEnd
      · refine Or.inr (Nat.not_le.mp fun hLe => hFits
          ⟨Bool.not_eq_true _ ▸ hEnd, hLe⟩)
    rcases life_together mp debug hLate stream with
      ⟨x, hTogether⟩
    have hSame := hAgree _ _
      (delivery_apart bytes closes
        (4 + frameLength bytes))
      (delivery_together bytes closes)
    rw [life_apart mp debug hFirst, hTogether, hExamine]
      at hSame
    rcases hSame with ⟨_, _, hOther⟩ | ⟨_, _, hOther, _⟩
    · cases hOther
    · cases hOther
  · rintro (hNone | ⟨rfl, hFits⟩) a b hA hB
    · have hRefused : ∀ wakes,
          Delivery bytes closes wakes →
          ∃ x, ({ stream } : Client).life mp debug wakes =
            .closed x := by
        intro wakes hWakes
        rcases hCases wakes hWakes with hLife | ⟨hLife, _⟩
        · rw [hLife, examine_first mp debug hFirst]
          cases hDecode : Request.decode mp ((bytes.drop
              4).take (frameLength bytes)) with
          | ok request => exact absurd hDecode (hNone request)
          | error e => exact ⟨_, rfl⟩
        · exact hLife
      rcases hRefused a hA with ⟨x, hX⟩
      rcases hRefused b hB with ⟨y, hY⟩
      exact Or.inr ⟨x, y, hX, hY⟩
    · have hLife : ∀ wakes, Delivery bytes false wakes →
          ({ stream } : Client).life mp debug wakes =
            examine mp debug bytes := by
        intro wakes hWakes
        rcases hCases wakes hWakes with hLife | ⟨_, hLate⟩
        · exact hLife
        · rcases hLate with hEnd | hLarge
          · cases hEnd
          · exact absurd hFits (Nat.not_le.mpr hLarge)
      rw [hLife a hA, hLife b hB]
      rcases examine_outcome mp debug hFirst with
        ⟨request, hRequest⟩ | ⟨x, hClosed⟩
      · exact Or.inl ⟨request, hRequest, hRequest⟩
      · exact Or.inr ⟨x, x, hClosed, hClosed⟩

/- A request for the status, and nothing after it. -/
def statusBytes : Bytes :=
  frame (Request.status.encode messagePack)

theorem firstFrame_statusBytes : FirstFrame statusBytes := by
  have hAll : 4 ≤ statusBytes.length ∧
      frameLength statusBytes ≤ maxMessageBytes ∧
      4 + frameLength statusBytes ≤ statusBytes.length := by
    decide +kernel
  exact ⟨hAll.1, hAll.2.1, hAll.2.2⟩

/- A peer that sends no more gets its answer either way. -/
theorem life_agrees_open :
    Agree
      (({ stream := 0 } : Client).life messagePack
        (fun text => text)
        [[.data statusBytes]])
      (({ stream := 0 } : Client).life messagePack
        (fun text => text)
        [[.data (statusBytes.take 3)], [.interrupted],
          [.data (statusBytes.drop 3)]]) :=
  (life_agrees_iff messagePack (fun text => text) 0
    firstFrame_statusBytes false).mpr
    (Or.inr ⟨rfl, by decide +kernel⟩) _ _
    ⟨[.data statusBytes], rfl, by decide +kernel,
      by decide +kernel⟩
    ⟨[.data (statusBytes.take 3), .interrupted,
        .data (statusBytes.drop 3)], rfl, by decide +kernel,
      by decide +kernel⟩

/- The same bytes and end, apart and together. -/
theorem life_half_closed :
    FirstFrame statusBytes ∧ ∃ apart together,
      Delivery statusBytes true apart ∧
      Delivery statusBytes true together ∧
      ({ stream := 0 } : Client).life messagePack
        (fun text => text) apart = .request .status ∧
      ({ stream := 0 } : Client).life messagePack
        (fun text => text) together = .closed none :=
  ⟨firstFrame_statusBytes,
    [[.data statusBytes], [.endOfStream]],
    [[.data statusBytes, .endOfStream]],
    ⟨[.data statusBytes], rfl, by decide +kernel,
      by decide +kernel⟩,
    ⟨[.data statusBytes], rfl, by decide +kernel,
      by decide +kernel⟩,
    by decide +kernel, by decide +kernel⟩

end Control

end Trustd
