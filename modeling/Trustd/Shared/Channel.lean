import Trustd.Daemon.Control

/-
  The client's end of the socket: receiving one reply, over
  however many reads.

  The peer's bytes are those it has sent or will send, in
  order; a schedule says how much each read takes of them and
  what else can happen. When a schedule ends the deadline of
  the operation has expired.

  Key definitions include:
    * `Trustd.Shared.Channel`
    * `Trustd.Shared.Turn`
    * `Trustd.Shared.Channel.receive`
    * `Trustd.Shared.nextFrame`

  Key theorems include:
    * `Trustd.Shared.Channel.receive_spec`
    * `Trustd.Shared.Channel.receive_took`
-/

------------------------------------------------------------
-- Reading
------------------------------------------------------------

namespace Trustd

namespace Shared

open Control Wire

/-
  `Channel`: the bytes of the peer that have not been read,
  whether it closes after them, and what `incoming` holds.
-/
structure Channel where
  stream : Bytes
  closes : Bool := false
  incoming : Bytes := []
deriving DecidableEq, Repr

/-
  What one pass of the loop meets, the deadline not having
  expired: a read that takes at most so many bytes and one
  more, a signal, nothing there yet, or an error.
-/
inductive Turn where
  | read (count : Nat)
  | interrupted
  | blocked
  | failed (e : IoError)
deriving DecidableEq, Repr

/- `invalid`. -/
def invalid (message : Text) : IoError :=
  { kind := .invalidInput
    rawOsError := none
    text := message }

/- What `remaining` says of a deadline that has expired. -/
def timedOut : IoError :=
  { kind := .timedOut
    rawOsError := none
    text := "trust operation timed out".toList }

def closedMidReply : IoError :=
  { kind := .unexpectedEof
    rawOsError := none
    text := "trust closed mid-reply".toList }

def replyTooLarge : IoError :=
  invalid "reply exceeds the protocol message limit".toList

/- A `WireError` as `receive` hands it on. -/
def undecodable (debug : Text → Text) (e : WireError) :
    IoError :=
  { kind := .invalidData
    rawOsError := none
    text := e.text debug }

/- The largest read. -/
def readBytes : Nat := 4096

/- One read towards so many bytes, as its turn has it. -/
def Channel.fill (ch : Channel) (needed : Nat) :
    Turn → Except IoError Channel
  | .interrupted => .ok ch
  | .blocked => .ok ch
  | .failed e => .error e
  | .read count =>
      let capacity :=
        min readBytes (needed - ch.incoming.length)
      let n := min (count + 1) capacity
      if capacity = 0 then .error closedMidReply
      else if ch.stream = [] then
        if ch.closes then .error closedMidReply else .ok ch
      else
        .ok { ch with
          stream := ch.stream.drop n
          incoming := ch.incoming ++ ch.stream.take n }

/- `receive`, and the turns it left. -/
def Channel.receive
    (mp : MsgPack)
    (debug : Text → Text)
    (ch : Channel) :
    List Turn → Except IoError Reply × Channel × List Turn
  | [] => (.error timedOut, ch, [])
  | turn :: turns =>
      if ch.incoming.length < 4 then
        match ch.fill 4 turn with
        | .error e => (.error e, ch, turns)
        | .ok ch => receive mp debug ch turns
      else
        let length := frameLength ch.incoming
        if length > maxMessageBytes then
          (.error replyTooLarge, ch, turns)
        else if ch.incoming.length = 4 + length then
          ((Reply.decode mp (ch.incoming.drop 4)).mapError
              (undecodable debug),
            { ch with incoming := [] }, turns)
        else
          match ch.fill (4 + length) turn with
          | .error e => (.error e, ch, turns)
          | .ok ch => receive mp debug ch turns

end Shared

end Trustd

------------------------------------------------------------
-- Frames Of A Stream
------------------------------------------------------------

namespace Trustd

namespace Shared

open Control Wire

/- What a stream begins with. -/
inductive Next where
  | incomplete
  | refused
  | frame (payload rest : Bytes)
deriving DecidableEq, Repr

/- The first frame of a stream that is all there. -/
def nextFrame (bytes : Bytes) : Next :=
  if bytes.length < 4 then .incomplete
  else
    let length := frameLength bytes
    if length > maxMessageBytes then .refused
    else if bytes.length < 4 + length then .incomplete
    else .frame ((bytes.drop 4).take length)
      (bytes.drop (4 + length))

/- The bytes a channel has and those that are to come. -/
def Channel.ahead (ch : Channel) : Bytes :=
  ch.incoming ++ ch.stream

/- Never more than a frame has been taken in. -/
def Channel.Partial (ch : Channel) : Prop :=
  ch.incoming.length ≤ 4 ∨
    (frameLength ch.incoming ≤ maxMessageBytes ∧
      ch.incoming.length ≤ 4 + frameLength ch.incoming)

theorem Channel.partial_start
    (stream : Bytes)
    (closes : Bool) :
    ({ stream, closes } : Channel).Partial :=
  Or.inl (by simp)

/- A read moves bytes over, in order, up to what is needed. -/
theorem Channel.fill_ok
    {ch ch' : Channel}
    {needed : Nat}
    {turn : Turn}
    (hNeeded : ch.incoming.length ≤ needed)
    (hFill : ch.fill needed turn = .ok ch') :
    ch'.ahead = ch.ahead ∧ ch'.closes = ch.closes ∧
      (∃ more, ch'.incoming = ch.incoming ++ more) ∧
      ch'.incoming.length ≤ needed := by
  cases turn with
  | interrupted =>
      cases hFill
      exact ⟨rfl, rfl, ⟨[], by simp⟩, hNeeded⟩
  | blocked =>
      cases hFill
      exact ⟨rfl, rfl, ⟨[], by simp⟩, hNeeded⟩
  | failed e => cases hFill
  | read count =>
      simp only [fill] at hFill
      split_ifs at hFill with hCapacity hEmpty hCloses
      · cases hFill
        exact ⟨rfl, rfl, ⟨[], by simp⟩, hNeeded⟩
      · cases hFill
        refine ⟨?_, rfl, ⟨_, rfl⟩, ?_⟩
        · simp [ahead]
        · simp only [List.length_append, List.length_take]
          omega

/- What a read that does not go on says. -/
theorem Channel.fill_error
    {ch : Channel}
    {needed : Nat}
    {turn : Turn}
    {e : IoError}
    (hNeeded : ch.incoming.length < needed)
    (hFill : ch.fill needed turn = .error e) :
    turn = .failed e ∨
      (e = closedMidReply ∧ ch.closes = true ∧
        ch.stream = []) := by
  cases turn with
  | interrupted => cases hFill
  | blocked => cases hFill
  | failed e' =>
      cases hFill
      exact Or.inl rfl
  | read count =>
      simp only [fill] at hFill
      split_ifs at hFill with hCapacity hEmpty hCloses
      · unfold readBytes at hCapacity
        omega
      · cases hFill
        exact Or.inr ⟨rfl, hCloses, hEmpty⟩

end Shared

end Trustd

------------------------------------------------------------
-- One Reply
------------------------------------------------------------

namespace Trustd

namespace Shared

open Control Wire

/- What one receiving call can come to. -/
inductive Received
    (mp : MsgPack)
    (debug : Text → Text)
    (turns : List Turn)
    (ch : Channel) :
    Except IoError Reply → Channel → Prop where
  | decoded
      (payload : Bytes)
      (rest : Bytes)
      (hFrame : nextFrame ch.ahead = .frame payload rest) :
      Received mp debug turns ch
        ((Reply.decode mp payload).mapError
          (undecodable debug))
        { stream := rest, closes := ch.closes }
  | refused
      (ch' : Channel)
      (hRefused : nextFrame ch.ahead = .refused) :
      Received mp debug turns ch (.error replyTooLarge) ch'
  | waiting
      (ch' : Channel)
      (hAhead : ch'.ahead = ch.ahead)
      (hCloses : ch'.closes = ch.closes)
      (hPartial : ch'.Partial) :
      Received mp debug turns ch (.error timedOut) ch'
  | failed
      (e : IoError)
      (hTurn : .failed e ∈ turns)
      (ch' : Channel)
      (hAhead : ch'.ahead = ch.ahead)
      (hCloses : ch'.closes = ch.closes)
      (hPartial : ch'.Partial) :
      Received mp debug turns ch (.error e) ch'
  | ended
      (ch' : Channel)
      (hCloses : ch.closes = true)
      (hNext : nextFrame ch.ahead = .incomplete) :
      Received mp debug turns ch (.error closedMidReply) ch'

/- What holds of a channel with the same bytes ahead. -/
theorem Received.of_ahead
    {mp : MsgPack}
    {debug : Text → Text}
    {turn : Turn}
    {turns : List Turn}
    {ch mid ch' : Channel}
    {r : Except IoError Reply}
    (hAhead : mid.ahead = ch.ahead)
    (hCloses : mid.closes = ch.closes)
    (hReceived : Received mp debug turns mid r ch') :
    Received mp debug (turn :: turns) ch r ch' := by
  cases hReceived with
  | decoded payload rest hFrame =>
      rw [hAhead] at hFrame
      rw [hCloses]
      exact Received.decoded payload rest hFrame
  | refused _ hRefused =>
      rw [hAhead] at hRefused
      exact Received.refused ch' hRefused
  | waiting _ hAhead' hCloses' hPartial =>
      exact Received.waiting ch' (hAhead'.trans hAhead)
        (hCloses'.trans hCloses) hPartial
  | failed e hTurn _ hAhead' hCloses' hPartial =>
      exact Received.failed e (List.mem_cons_of_mem _ hTurn)
        ch' (hAhead'.trans hAhead) (hCloses'.trans hCloses)
        hPartial
  | ended _ hCloses' hNext =>
      rw [hAhead] at hNext
      rw [hCloses] at hCloses'
      exact Received.ended ch' hCloses' hNext

section

variable (mp : MsgPack)
variable (debug : Text → Text)

/- The bytes ahead of an incomplete channel that has ended. -/
theorem nextFrame_incomplete
    {ch : Channel}
    (hStream : ch.stream = [])
    (hShort : ch.incoming.length < 4 ∨
      (frameLength ch.incoming ≤ maxMessageBytes ∧
        ch.incoming.length <
          4 + frameLength ch.incoming)) :
    nextFrame ch.ahead = .incomplete := by
  rw [Channel.ahead, hStream, List.append_nil, nextFrame]
  by_cases hFour : ch.incoming.length < 4
  · rw [if_pos hFour]
  · rcases hShort with hShort | ⟨hLength, hShort⟩
    · exact absurd hShort hFour
    · rw [if_neg hFour]
      dsimp only
      rw [if_neg (Nat.not_lt.mpr hLength), if_pos hShort]

/- A length that is too large is seen from four bytes. -/
theorem nextFrame_refused
    {a b : Bytes}
    (hFour : 4 ≤ a.length)
    (hLarge : maxMessageBytes < frameLength a) :
    nextFrame (a ++ b) = .refused := by
  rw [nextFrame, frameLength_append hFour,
    if_neg (by rw [List.length_append]; omega)]
  dsimp only
  rw [if_pos hLarge]

/- A frame is taken off the front of what follows it. -/
theorem nextFrame_whole
    {a b : Bytes}
    (hFour : 4 ≤ a.length)
    (hLength : frameLength a ≤ maxMessageBytes)
    (hWhole : a.length = 4 + frameLength a) :
    nextFrame (a ++ b) = .frame (a.drop 4) b := by
  have hAll : (a ++ b).length = a.length + b.length :=
    List.length_append
  have hDrop : (a.drop 4).length = frameLength a := by
    rw [List.length_drop]
    omega
  rw [nextFrame, frameLength_append hFour,
    if_neg (by omega)]
  dsimp only
  rw [if_neg (Nat.not_lt.mpr hLength), if_neg (by omega),
    List.drop_append_of_le_length hFour, ← hDrop,
    List.take_left, hDrop, ← hWhole, List.drop_left]

/- A channel that is not complete stays so over a read. -/
theorem Channel.partial_fill
    {ch ch' : Channel}
    {turn : Turn}
    (hFour : 4 ≤ ch.incoming.length)
    (hLength : frameLength ch.incoming ≤ maxMessageBytes)
    (hNeeded : ch.incoming.length ≤
      4 + frameLength ch.incoming)
    (hFill : ch.fill (4 + frameLength ch.incoming) turn =
      .ok ch') :
    ch'.Partial := by
  rcases Channel.fill_ok hNeeded hFill with
    ⟨_, _, ⟨more, hMore⟩, hUpTo⟩
  have hSame : frameLength ch'.incoming =
      frameLength ch.incoming := by
    rw [hMore, frameLength_append hFour]
  rw [← hSame] at hLength hUpTo
  exact Or.inr ⟨hLength, hUpTo⟩

/- The same, once the length is there. -/
theorem Channel.receive_body
    (turn : Turn)
    (turns : List Turn)
    {ch : Channel}
    (hFour : ¬ ch.incoming.length < 4) :
    ch.receive mp debug (turn :: turns) =
      if frameLength ch.incoming > maxMessageBytes then
        (.error replyTooLarge, ch, turns)
      else if ch.incoming.length =
          4 + frameLength ch.incoming then
        ((Reply.decode mp (ch.incoming.drop 4)).mapError
            (undecodable debug),
          { ch with incoming := [] }, turns)
      else
        match ch.fill (4 + frameLength ch.incoming) turn with
        | .error e => (.error e, ch, turns)
        | .ok ch => ch.receive mp debug turns := by
  rw [receive, if_neg hFour]

/- Reading a frame's length, then the rest. -/
theorem Channel.receive_head
    {turn : Turn}
    {turns : List Turn}
    {ch : Channel}
    (hPartial : ch.Partial)
    (hFour : ch.incoming.length < 4)
    (ih : ∀ mid : Channel, mid.Partial →
      Received mp debug turns mid
        (mid.receive mp debug turns).1
        (mid.receive mp debug turns).2.1) :
    Received mp debug (turn :: turns) ch
      (ch.receive mp debug (turn :: turns)).1
      (ch.receive mp debug (turn :: turns)).2.1 := by
  rw [receive, if_pos hFour]
  rcases hFill : ch.fill 4 turn with e | mid
  · rcases Channel.fill_error hFour hFill with
      hTurn | ⟨rfl, hCloses, hStream⟩
    · exact Received.failed e (by simp [hTurn]) ch rfl
        rfl hPartial
    · exact Received.ended ch hCloses
        (nextFrame_incomplete hStream (Or.inl hFour))
  · rcases Channel.fill_ok hFour.le hFill with
      ⟨hAhead, hCloses, _, hUpTo⟩
    exact (ih mid (Or.inl hUpTo)).of_ahead hAhead hCloses

/- Reading the rest of a frame that is not all there. -/
theorem Channel.receive_rest
    {turn : Turn}
    {turns : List Turn}
    {ch : Channel}
    (hPartial : ch.Partial)
    (hFour : ¬ ch.incoming.length < 4)
    (hLength : frameLength ch.incoming ≤ maxMessageBytes)
    (hShort : ch.incoming.length <
      4 + frameLength ch.incoming)
    (ih : ∀ mid : Channel, mid.Partial →
      Received mp debug turns mid
        (mid.receive mp debug turns).1
        (mid.receive mp debug turns).2.1) :
    Received mp debug (turn :: turns) ch
      (ch.receive mp debug (turn :: turns)).1
      (ch.receive mp debug (turn :: turns)).2.1 := by
  rw [receive_body mp debug turn turns hFour,
    if_neg (Nat.not_lt.mpr hLength), if_neg hShort.ne]
  rcases hFill : ch.fill (4 + frameLength ch.incoming) turn
    with e | mid
  · rcases Channel.fill_error hShort hFill with
      hTurn | ⟨rfl, hCloses, hStream⟩
    · exact Received.failed e (by simp [hTurn]) ch rfl
        rfl hPartial
    · exact Received.ended ch hCloses
        (nextFrame_incomplete hStream
          (Or.inr ⟨hLength, hShort⟩))
  · rcases Channel.fill_ok hShort.le hFill with
      ⟨hAhead, hCloses, _, _⟩
    exact (ih mid (Channel.partial_fill
      (Nat.not_lt.mp hFour) hLength hShort.le hFill)).of_ahead
        hAhead hCloses

/- What has been taken in is at most the frame. -/
theorem Channel.Partial.upTo
    {ch : Channel}
    (hPartial : ch.Partial) :
    ch.incoming.length ≤ 4 + frameLength ch.incoming := by
  rcases hPartial with hSmall | ⟨_, hUpTo⟩
  · exact hSmall.trans (Nat.le_add_right _ _)
  · exact hUpTo

/- Every receiving call comes to one of these. -/
theorem Channel.receive_spec
    (turns : List Turn)
    {ch : Channel}
    (hPartial : ch.Partial) :
    Received mp debug turns ch
      (ch.receive mp debug turns).1
      (ch.receive mp debug turns).2.1 := by
  induction turns generalizing ch with
  | nil => exact Received.waiting ch rfl rfl hPartial
  | cons turn turns ih =>
      by_cases hFour : ch.incoming.length < 4
      · exact Channel.receive_head mp debug hPartial hFour
          (fun _ => ih)
      by_cases hLarge :
          frameLength ch.incoming > maxMessageBytes
      · rw [receive_body mp debug turn turns hFour,
          if_pos hLarge]
        exact Received.refused ch
          (nextFrame_refused (Nat.not_lt.mp hFour) hLarge)
      by_cases hWhole : ch.incoming.length =
          4 + frameLength ch.incoming
      · rw [receive_body mp debug turn turns hFour,
          if_neg hLarge, if_pos hWhole]
        exact Received.decoded _ _ (nextFrame_whole
          (Nat.not_lt.mp hFour) (Nat.not_lt.mp hLarge)
          hWhole)
      · exact Channel.receive_rest mp debug hPartial hFour
          (Nat.not_lt.mp hLarge)
          (lt_of_le_of_ne hPartial.upTo hWhole)
          (fun _ => ih)

/- The turns a call leaves are the last of those it had. -/
theorem Channel.receive_suffix
    (turns : List Turn)
    (ch : Channel) :
    (ch.receive mp debug turns).2.2 <:+ turns := by
  induction turns generalizing ch with
  | nil => exact List.suffix_rfl
  | cons turn turns ih =>
      have hTail : turns <:+ turn :: turns :=
        List.suffix_cons turn turns
      by_cases hFour : ch.incoming.length < 4
      · rw [receive, if_pos hFour]
        rcases ch.fill 4 turn with e | mid
        · exact hTail
        · exact (ih mid).trans hTail
      · rw [receive_body mp debug turn turns hFour]
        split_ifs with hLarge hWhole
        · exact hTail
        · exact hTail
        · rcases ch.fill (4 + frameLength ch.incoming) turn
            with e | mid
          · exact hTail
          · exact (ih mid).trans hTail

/- A reply takes at least one pass of the loop. -/
theorem Channel.receive_shrinks
    (turns : List Turn)
    {ch : Channel}
    {reply : Reply}
    (hOk : (ch.receive mp debug turns).1 = .ok reply) :
    (ch.receive mp debug turns).2.2.length <
      turns.length := by
  induction turns generalizing ch with
  | nil => cases hOk
  | cons turn turns ih =>
      by_cases hFour : ch.incoming.length < 4
      · rw [receive, if_pos hFour] at hOk ⊢
        rcases hFill : ch.fill 4 turn with e | mid
        · exact Nat.lt_succ_self _
        · rw [hFill] at hOk
          exact (ih hOk).trans (Nat.lt_succ_self _)
      · rw [receive_body mp debug turn turns hFour] at hOk ⊢
        split_ifs at hOk ⊢ with hLarge hWhole
        · exact Nat.lt_succ_self _
        · rcases hFill : ch.fill
              (4 + frameLength ch.incoming) turn with e | mid
          · exact Nat.lt_succ_self _
          · rw [hFill] at hOk
            exact (ih hOk).trans (Nat.lt_succ_self _)

end

end Shared

end Trustd

------------------------------------------------------------
-- Enough Reads
------------------------------------------------------------

namespace Trustd

namespace Shared

open Control Wire

def Turn.isRead : Turn → Bool
  | .read _ => true
  | _ => false

/- How often a schedule reads. -/
def reads (turns : List Turn) : Nat :=
  turns.countP Turn.isRead

/- A schedule in which no call fails. -/
def Smooth (turns : List Turn) : Prop :=
  ∀ e, .failed e ∉ turns

theorem Smooth.tail
    {turn : Turn}
    {turns : List Turn}
    (hSmooth : Smooth (turn :: turns)) :
    Smooth turns :=
  fun e hMem => hSmooth e (List.mem_cons_of_mem _ hMem)

theorem reads_cons
    (turn : Turn)
    (turns : List Turn) :
    reads (turn :: turns) ≤ reads turns + 1 := by
  unfold reads
  rw [List.countP_cons]
  split <;> omega

/- A turn of a frame that is still to come is a step on. -/
theorem Channel.fill_progress
    {ch : Channel}
    {needed : Nat}
    {turn : Turn}
    {turns : List Turn}
    (hNeeded : ch.incoming.length < needed)
    (hStream : ch.stream ≠ [])
    (hSmooth : Smooth (turn :: turns)) :
    ∃ mid, ch.fill needed turn = .ok mid ∧
      mid.stream.length ≤ ch.stream.length ∧
      reads (turn :: turns) + mid.stream.length ≤
        reads turns + ch.stream.length := by
  have hPos : 0 < ch.stream.length :=
    List.length_pos_iff.mpr hStream
  cases turn with
  | interrupted => exact ⟨ch, rfl, le_rfl, le_rfl⟩
  | blocked => exact ⟨ch, rfl, le_rfl, le_rfl⟩
  | failed e => exact absurd List.mem_cons_self (hSmooth e)
  | read count =>
      have hCapacity :
          min readBytes (needed - ch.incoming.length) ≠ 0 := by
        unfold readBytes
        omega
      refine ⟨_, by rw [fill, if_neg hCapacity,
        if_neg hStream], ?_, ?_⟩
      · exact (List.length_drop ..).le.trans (Nat.sub_le _ _)
      · have hReads := reads_cons (.read count) turns
        rw [List.length_drop]
        omega

section

variable (mp : MsgPack)
variable (debug : Text → Text)

/-
  What a call does on a stream with a whole frame ahead, each
  read a step towards it: the frame is decoded, and the reads
  it took are no more than its bytes and one.
-/
structure Took
    (turns : List Turn)
    (ch : Channel)
    (payload rest : Bytes)
    (out : Except IoError Reply × Channel × List Turn) :
    Prop where
  reply : out.1 =
    (Reply.decode mp payload).mapError (undecodable debug)
  channel : out.2.1 = { stream := rest, closes := ch.closes }
  smooth : Smooth out.2.2
  reads : reads turns + rest.length ≤
    reads out.2.2 + ch.stream.length + 1

/- What a frame ahead says of the bytes that are missing. -/
theorem stream_ne_nil
    {ch : Channel}
    {payload rest : Bytes}
    (hFrame : nextFrame ch.ahead = .frame payload rest)
    (hShort : ch.incoming.length < 4 ∨
      (frameLength ch.incoming ≤ maxMessageBytes ∧
        ch.incoming.length <
          4 + frameLength ch.incoming)) :
    ch.stream ≠ [] := by
  intro hNil
  rw [nextFrame_incomplete hNil hShort] at hFrame
  cases hFrame

/- With enough reads the frame ahead is decoded. -/
theorem Channel.receive_took
    (turns : List Turn)
    {ch : Channel}
    {payload rest : Bytes}
    (hPartial : ch.Partial)
    (hFrame : nextFrame ch.ahead = .frame payload rest)
    (hSmooth : Smooth turns)
    (hReads : ch.stream.length < reads turns) :
    Took mp debug turns ch payload rest
      (ch.receive mp debug turns) := by
  induction turns generalizing ch with
  | nil => exact absurd hReads (Nat.not_lt_zero _)
  | cons turn turns ih =>
      have hStep : ∀ needed mid,
          ch.incoming.length ≤ needed →
          ch.fill needed turn = .ok mid → mid.Partial →
          reads (turn :: turns) + mid.stream.length ≤
            reads turns + ch.stream.length →
          Took mp debug (turn :: turns) ch payload rest
            (mid.receive mp debug turns) := by
        intro needed mid hNeeded hFill hMid hLess
        rcases Channel.fill_ok hNeeded hFill with
          ⟨hAhead, hCloses, _, _⟩
        rw [← hAhead] at hFrame
        have hTook := ih hMid hFrame hSmooth.tail (by omega)
        have hMore := hTook.reads
        exact ⟨hTook.reply, by rw [hTook.channel, hCloses],
          hTook.smooth, by omega⟩
      by_cases hFour : ch.incoming.length < 4
      · rcases Channel.fill_progress hFour
          (stream_ne_nil hFrame (Or.inl hFour)) hSmooth with
          ⟨mid, hFill, _, hLess⟩
        rw [receive, if_pos hFour, hFill]
        exact hStep 4 mid hFour.le hFill
          (Or.inl (Channel.fill_ok hFour.le hFill).2.2.2)
          hLess
      by_cases hLarge :
          frameLength ch.incoming > maxMessageBytes
      · rw [Channel.ahead, nextFrame_refused
          (Nat.not_lt.mp hFour) hLarge] at hFrame
        cases hFrame
      by_cases hWhole : ch.incoming.length =
          4 + frameLength ch.incoming
      · rw [receive_body mp debug turn turns hFour,
          if_neg hLarge, if_pos hWhole]
        rw [Channel.ahead, nextFrame_whole
          (Nat.not_lt.mp hFour) (Nat.not_lt.mp hLarge)
          hWhole] at hFrame
        cases hFrame
        have hReads := reads_cons turn turns
        exact ⟨rfl, rfl, hSmooth.tail, by dsimp only; omega⟩
      · have hShort := lt_of_le_of_ne hPartial.upTo hWhole
        have hLength := Nat.not_lt.mp hLarge
        rcases Channel.fill_progress hShort
          (stream_ne_nil hFrame (Or.inr ⟨hLength, hShort⟩))
          hSmooth with ⟨mid, hFill, _, hLess⟩
        rw [receive_body mp debug turn turns hFour,
          if_neg hLarge, if_neg hWhole, hFill]
        exact hStep _ mid hShort.le hFill
          (Channel.partial_fill (Nat.not_lt.mp hFour) hLength
            hShort.le hFill) hLess

end

end Shared

end Trustd
