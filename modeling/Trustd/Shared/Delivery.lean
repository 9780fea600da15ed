import Trustd.Shared.Snapshot

/-
  From the daemon's writer to the clients: what a root set is
  written as is read back as that set, however it is cut into
  reads, and nothing shorter is.

  Key definitions include:
    * `Trustd.Shared.Frames`
    * `Trustd.Shared.channelSource`

  Key theorems include:
    * `Trustd.Shared.Frames.unique`
    * `Trustd.Shared.yields_frames`
    * `Trustd.Shared.roots_delivered`
-/

------------------------------------------------------------
-- Frames And Replies
------------------------------------------------------------

namespace Trustd

namespace Shared

open Control Wire

/- The replies that a stream's first frames decode to. -/
inductive Frames (mp : MsgPack) :
    Bytes → List Reply → Bytes → Prop where
  | nil (bytes : Bytes) : Frames mp bytes [] bytes
  | cons
      {bytes payload rest left : Bytes}
      {reply : Reply}
      {replies : List Reply}
      (hFrame : nextFrame bytes = .frame payload rest)
      (hDecode : Reply.decode mp payload = .ok reply)
      (hRest : Frames mp rest replies left) :
      Frames mp bytes (reply :: replies) left

/- A frame is found whatever comes after it. -/
theorem nextFrame_append
    {bytes payload rest : Bytes}
    (hFrame : nextFrame bytes = .frame payload rest)
    (more : Bytes) :
    nextFrame (bytes ++ more) =
      .frame payload (rest ++ more) := by
  rw [nextFrame] at hFrame
  by_cases hFour : bytes.length < 4
  · rw [if_pos hFour] at hFrame
    cases hFrame
  rw [if_neg hFour] at hFrame
  dsimp only at hFrame
  have hLength := frameLength_append
    (Nat.not_lt.mp hFour) more
  have hAll : (bytes ++ more).length =
      bytes.length + more.length := List.length_append
  split_ifs at hFrame with hLarge hShort
  have hDrop : (bytes.drop 4).length = bytes.length - 4 :=
    List.length_drop
  rw [nextFrame, if_neg (by omega), hLength]
  dsimp only
  rw [if_neg hLarge, if_neg (by omega),
    List.drop_append_of_le_length (by omega),
    List.drop_append_of_le_length (by omega),
    List.take_append_of_le_length (by omega)]
  cases hFrame
  rfl

theorem Frames.append
    {mp : MsgPack}
    {bytes left : Bytes}
    {replies : List Reply}
    (hFrames : Frames mp bytes replies left)
    (more : Bytes) :
    Frames mp (bytes ++ more) replies (left ++ more) := by
  induction hFrames with
  | nil bytes => exact Frames.nil _
  | cons hFrame hDecode _ ih =>
      exact Frames.cons (nextFrame_append hFrame more)
        hDecode ih

/- A stream begins with one run of replies at most. -/
theorem Frames.unique
    {mp : MsgPack}
    {bytes left left' : Bytes}
    {run run' : List Reply}
    (hFrames : Frames mp bytes run left)
    (hFrames' : Frames mp bytes run' left')
    (hRun : Run run)
    (hRun' : Run run') :
    run = run' ∧ left = left' := by
  induction hFrames generalizing run' with
  | nil bytes => cases hRun
  | @cons bytes payload rest left reply replies hFrame
      hDecode hRest ih =>
      cases hFrames' with
      | nil => cases hRun'
      | cons hFrame' hDecode' hRest' =>
          rw [hFrame] at hFrame'
          cases hFrame'
          rw [hDecode] at hDecode'
          cases hDecode'
          cases hMore : hasMore reply with
          | false =>
              cases hRun.of_last hMore
              cases hRun'.of_last hMore
              cases hRest
              cases hRest'
              exact ⟨rfl, rfl⟩
          | true =>
              rcases ih hRest' (hRun.of_more hMore)
                (hRun'.of_more hMore) with ⟨rfl, rfl⟩
              exact ⟨rfl, rfl⟩

end Shared

end Trustd

------------------------------------------------------------
-- A Channel As A Source
------------------------------------------------------------

namespace Trustd

namespace Shared

open Control Wire

/- A connection and the schedule of what it meets. -/
def channelSource
    (mp : MsgPack)
    (debug : Text → Text) :
    Source (Channel × List Turn) where
  receive s := s.1.receive mp debug s.2
  size s := s.2.length
  shrinks s reply s' hReceive := by
    have hOk : (s.1.receive mp debug s.2).1 = .ok reply := by
      rw [hReceive]
    have hLess := Channel.receive_shrinks mp debug s.2 hOk
    rwa [hReceive] at hLess

section

variable {mp : MsgPack}
variable {debug : Text → Text}

/- A reply that is received is the next frame's. -/
theorem receive_ok
    {ch ch' : Channel}
    {turns turns' : List Turn}
    {reply : Reply}
    (hPartial : ch.Partial)
    (hReceive : ch.receive mp debug turns =
      (.ok reply, ch', turns')) :
    ∃ payload rest,
      nextFrame ch.ahead = .frame payload rest ∧
      Reply.decode mp payload = .ok reply ∧
      ch' = { stream := rest, closes := ch.closes } := by
  have hSpec := Channel.receive_spec mp debug turns hPartial
  rw [hReceive] at hSpec
  dsimp only at hSpec
  generalize hResult : (Except.ok reply :
    Except IoError Reply) = result at hSpec
  cases hSpec with
  | decoded payload rest hFrame =>
      refine ⟨payload, rest, hFrame, ?_, rfl⟩
      cases hDecode : Reply.decode mp payload with
      | error e =>
          rw [hDecode] at hResult
          cases hResult
      | ok decoded =>
          rw [hDecode] at hResult
          cases hResult
          rfl
  | refused => cases hResult
  | waiting => cases hResult
  | failed => cases hResult
  | ended => cases hResult

/- What a connection yields are the frames of its stream. -/
theorem yields_frames
    {s s' : Channel × List Turn}
    {run : List Reply}
    (hPartial : s.1.Partial)
    (hYields : Yields (channelSource mp debug) s run s') :
    Frames mp s.1.ahead run s'.1.ahead ∧
      (run ≠ [] → s'.1 =
        { stream := s'.1.ahead, closes := s.1.closes }) := by
  induction hYields with
  | nil s => exact ⟨Frames.nil _, fun h => absurd rfl h⟩
  | @cons s mid s' reply rest hReceive hRest ih =>
      rcases receive_ok hPartial hReceive with
        ⟨payload, left, hFrame, hDecode, hMid⟩
      have hAhead : mid.1.ahead = left := by
        rw [hMid]
        rfl
      have hNext : mid.1.Partial := by
        rw [hMid]
        exact Channel.partial_start _ _
      rcases ih hNext with ⟨hFrames, hLast⟩
      rw [hAhead] at hFrames
      refine ⟨Frames.cons hFrame hDecode hFrames, fun _ => ?_⟩
      cases rest with
      | nil =>
          cases hRest
          rw [hAhead, hMid]
      | cons next rest =>
          rw [hLast (List.cons_ne_nil _ _), hMid]
          rfl

/-
  With enough reads and no failure a connection yields every
  frame of its stream.
-/
theorem Frames.yields
    (debug : Text → Text)
    {bytes left : Bytes}
    {run : List Reply}
    (hFrames : Frames mp bytes run left)
    {ch : Channel}
    {turns : List Turn}
    (hAhead : ch.ahead = bytes)
    (hPartial : ch.Partial)
    (hSmooth : Smooth turns)
    (hReads : ch.stream.length + run.length < reads turns) :
    ∃ s', Yields (channelSource mp debug) (ch, turns) run
      s' := by
  induction hFrames generalizing ch turns with
  | nil bytes => exact ⟨_, Yields.nil _⟩
  | @cons bytes payload rest left reply replies hFrame
      hDecode _ ih =>
      rw [← hAhead] at hFrame
      have hTook := Channel.receive_took mp debug turns
        hPartial hFrame hSmooth (by omega)
      have hLess := hTook.reads
      rw [List.length_cons] at hReads
      have hEnough : rest.length + replies.length <
          reads (ch.receive mp debug turns).2.2 := by
        omega
      rcases ih rfl (Channel.partial_start rest ch.closes)
        hTook.smooth hEnough with ⟨s', hYields⟩
      refine ⟨s', Yields.cons ?_ hYields⟩
      have hReply := hTook.reply
      rw [hDecode] at hReply
      exact Prod.ext hReply (Prod.ext hTook.channel rfl)

end

end Shared

end Trustd

------------------------------------------------------------
-- What Is Written
------------------------------------------------------------

namespace Trustd

namespace Shared

open Control General Wire

/- `from_le_bytes` undoes `to_le_bytes`. -/
theorem frameLength_leBytes
    {n : Nat}
    (hFits : n < 2 ^ 32)
    (rest : Bytes) :
    frameLength (leBytes n ++ rest) = n := by
  simp only [leBytes, frameLength, List.cons_append,
    List.getD_cons_zero, List.getD_cons_succ,
    UInt8.toNat_ofNat']
  omega

/- A frame that was written is a frame of the stream. -/
theorem nextFrame_frame
    {payload : Bytes}
    (hFits : payload.length ≤ maxMessageBytes)
    (rest : Bytes) :
    nextFrame (frame payload ++ rest) =
      .frame payload rest := by
  have hWidth : (leBytes payload.length).length = 4 := rfl
  have hLength : frameLength (frame payload) =
      payload.length :=
    frameLength_leBytes
      (hFits.trans_lt (by decide)) payload
  have hAll : (frame payload).length =
      4 + payload.length := by
    rw [frame, List.length_append, hWidth]
  rw [nextFrame_whole (by omega) (hLength.symm ▸ hFits)
    (by rw [hLength, hAll]), frame,
    List.drop_left' hWidth]

section

variable {mp : MsgPack}
variable {generation : Nat}

theorem writeFrame_some
    {room left : Nat}
    {payload bytes : Bytes}
    (hWrite : writeFrame room payload = (bytes, some left)) :
    bytes = frame payload := by
  rw [writeFrame] at hWrite
  by_cases hLong : payload.length ≥ 2 ^ 32
  · rw [if_pos hLong] at hWrite
    cases hWrite
  rw [if_neg hLong] at hWrite
  dsimp only at hWrite
  by_cases hRoom : (frame payload).length ≤ room
  · rw [if_pos hRoom] at hWrite
    cases hWrite
    rfl
  · rw [if_neg hRoom] at hWrite
    cases hWrite

/- Replies that were written whole. -/
def WrittenWhole (mp : MsgPack) (written : List Written) :
    Prop :=
  ∀ w ∈ written, w.bytes = frame (w.reply.encode mp)

/- Chunks that were all written make up their roots. -/
theorem sendChunks_whole
    {room : Nat}
    {parts : List (List Root)}
    {written : List Written}
    (hParts : parts ≠ [])
    (hSent : sendChunks mp generation room parts =
      (written, true)) :
    Snapshot generation (written.map Written.reply)
        parts.flatten ∧
      WrittenWhole mp written := by
  induction parts generalizing room written with
  | nil => exact absurd rfl hParts
  | cons chunk rest ih =>
      rw [sendChunks] at hSent
      dsimp only at hSent
      rcases hWrite : writeFrame room ((Reply.roots generation
          chunk (rest ≠ [])).encode mp) with
        ⟨bytes, _ | left⟩
      · rw [hWrite] at hSent
        cases hSent
      rw [hWrite] at hSent
      dsimp only at hSent
      rcases hRest : sendChunks mp generation left rest with
        ⟨others, whole⟩
      rw [hRest] at hSent
      cases hSent
      have hBytes := writeFrame_some hWrite
      by_cases hNil : rest = []
      · cases hNil
        cases hRest
        refine ⟨?_, fun w hMem => ?_⟩
        · rw [List.flatten_cons, List.flatten_nil,
            List.append_nil]
          exact Snapshot.last chunk
        · cases List.mem_singleton.mp hMem
          exact hBytes
      · rcases ih hNil hRest with ⟨hSnapshot, hOthers⟩
        refine ⟨?_, fun w hMem => ?_⟩
        · rw [List.flatten_cons, List.map_cons]
          dsimp only
          rw [decide_eq_true hNil]
          exact Snapshot.more chunk hSnapshot
        · rcases List.mem_cons.mp hMem with rfl | hMem
          · exact hBytes
          · exact hOthers w hMem

/- A root set that was all written. -/
theorem sendRoots_whole
    {room : Nat}
    {roots : List Root}
    {written : List Written}
    (hSent : sendRoots mp room generation roots =
      (written, true)) :
    Snapshot generation (written.map Written.reply) roots ∧
      WrittenWhole mp written := by
  rw [sendRoots] at hSent
  by_cases hNil : roots = []
  · rw [if_pos hNil, respond] at hSent
    rcases hWrite : writeFrame room
        ((Reply.roots generation [] false).encode mp) with
      ⟨bytes, _ | left⟩
    · rw [hWrite] at hSent
      cases hSent
    · rw [hWrite] at hSent
      cases hSent
      cases hNil
      refine ⟨Snapshot.last [], fun w hMem => ?_⟩
      cases List.mem_singleton.mp hMem
      exact writeFrame_some hWrite
  · rw [if_neg hNil] at hSent
    have hParts : chunks rootsPerChunk roots ≠ [] := by
      intro hEmpty
      have hFlat := flatten_chunks rootsPerChunk roots
      rw [hEmpty] at hFlat
      exact hNil hFlat.symm
    have hWhole := sendChunks_whole hParts hSent
    rwa [flatten_chunks] at hWhole

/- What was written whole is read as it was meant. -/
theorem frames_of_written
    {written : List Written}
    (hWhole : WrittenWhole mp written)
    (hFits : ∀ w ∈ written,
      (w.reply.encode mp).length ≤ maxMessageBytes)
    (hDecode : ∀ w ∈ written,
      Reply.decode mp (w.reply.encode mp) = .ok w.reply)
    (tail : Bytes) :
    Frames mp (written.flatMap Written.bytes ++ tail)
      (written.map Written.reply) tail := by
  induction written with
  | nil => exact Frames.nil tail
  | cons w written ih =>
      have hRest := ih
        (fun x hx => hWhole x (List.mem_cons_of_mem _ hx))
        (fun x hx => hFits x (List.mem_cons_of_mem _ hx))
        (fun x hx => hDecode x (List.mem_cons_of_mem _ hx))
      rw [List.flatMap_cons, List.append_assoc,
        hWhole w List.mem_cons_self, List.map_cons]
      exact Frames.cons
        (nextFrame_frame (hFits w List.mem_cons_self) _)
        (hDecode w List.mem_cons_self) hRest

end

end Shared

end Trustd

------------------------------------------------------------
-- What Is Short Is Countable
------------------------------------------------------------

namespace Trustd

namespace Shared

open Control Wire

/- A root whose time is one that fits its type. -/
def Typed (root : Root) : Prop :=
  -2 ^ 63 ≤ root.notAfter ∧ root.notAfter < 2 ^ 63

instance (root : Root) : Decidable (Typed root) :=
  inferInstanceAs (Decidable (_ ∧ _))

section

variable {mp : MsgPack}

theorem length_write_le
    (mp : MsgPack)
    {item : Item}
    {items : List Item}
    (hMem : item ∈ items) :
    (mp.write item).length ≤ (mp.toBytes items).length := by
  rcases List.append_of_mem hMem with ⟨before, after, rfl⟩
  rw [toBytes_append, toBytes_cons, List.length_append,
    List.length_append]
  omega

theorem le_strSize (n : Nat) : n ≤ strSize n := by
  unfold strSize
  split_ifs <;> omega

theorem le_binSize (n : Nat) : n ≤ binSize n := by
  unfold binSize
  split_ifs <;> omega

/- A string of a short message is short. -/
theorem strFits_of_mem
    (hSized : Sized mp)
    {text : Text}
    (items : List Item)
    (hMem : .str text ∈ items)
    (hShort : (mp.toBytes items).length < 2 ^ 32) :
    StrFits text := by
  have hWrite := length_write_le mp hMem
  have hSize := le_strSize (Text.utf8 text).length
  rw [hSized] at hWrite
  exact (hSize.trans hWrite).trans_lt hShort

theorem Root.mem_items_name
    {root : Root}
    {name : Text}
    (hName : root.name = some name) :
    .str name ∈ root.items := by
  simp [Root.items, optStrItems, optItem, hName]

theorem length_purposes_le (root : Root) :
    root.purposes.length ≤ root.items.length := by
  simp only [Root.items, strListItems, List.length_append,
    List.length_map]
  omega

/- A root of a short message. -/
theorem Root.fits_of_short
    (hLawful : Lawful mp)
    (hSized : Sized mp)
    {root : Root}
    (hTyped : Typed root)
    (hShort : (mp.toBytes root.items).length < 2 ^ 32) :
    root.Fits where
  fingerprint := strFits_of_mem hSized root.items
    (by simp [Root.items]) hShort
  subject := strFits_of_mem hSized root.items
    (by simp [Root.items]) hShort
  purposes := by
    refine ⟨?_, fun purpose hPurpose => ?_⟩
    · exact ((length_purposes_le root).trans
        (length_le_toBytes hLawful _)).trans_lt hShort
    · exact strFits_of_mem hSized root.items
        (by simp [Root.items, strListItems, hPurpose]) hShort
  name := fun name hName => strFits_of_mem hSized _
    (Root.mem_items_name hName) hShort
  notAfter := hTyped
  der := by
    have hMem : .bin root.der ∈ root.items := by
      simp [Root.items]
    have hWrite := length_write_le mp hMem
    have hSize := le_binSize root.der.length
    rw [hSized] at hWrite
    exact (hSize.trans hWrite).trans_lt hShort

theorem length_batch_le (batch : List Root) :
    batch.length ≤ (batch.flatMap Root.items).length := by
  induction batch with
  | nil => exact Nat.le_refl _
  | cons root batch ih =>
      have hOne : 1 ≤ root.items.length := by
        simp only [Root.items, List.length_append,
          List.length_cons]
        omega
      rw [List.flatMap_cons, List.length_append,
        List.length_cons]
      omega

/- A chunk that is short is one that headers can count. -/
theorem chunk_fits
    (hLawful : Lawful mp)
    (hSized : Sized mp)
    {generation : Nat}
    (hGeneration : generation < 2 ^ 64)
    {batch : List Root}
    (hTyped : ∀ root ∈ batch, Typed root)
    {more : Bool}
    (hShort : ((Reply.roots generation batch more).encode
      mp).length < 2 ^ 32) :
    (Reply.roots generation batch more).Fits := by
  have hBatch : (mp.toBytes (batch.flatMap
      Root.items)).length < 2 ^ 32 := by
    refine lt_of_le_of_lt ?_ hShort
    rw [Reply.encode, Reply.items, toBytes_append,
      List.length_append]
    exact Nat.le_add_left _ _
  refine ⟨hGeneration, ?_, fun root hRoot => ?_⟩
  · exact ((length_batch_le batch).trans
      (length_le_toBytes hLawful _)).trans_lt hBatch
  · refine Root.fits_of_short hLawful hSized
      (hTyped root hRoot) (lt_of_le_of_lt ?_ hBatch)
    rcases List.append_of_mem hRoot with ⟨before, after, rfl⟩
    rw [List.flatMap_append, List.flatMap_cons,
      toBytes_append, toBytes_append, List.length_append,
      List.length_append]
    omega

end

end Shared

end Trustd

------------------------------------------------------------
-- A Root Set, Delivered
------------------------------------------------------------

namespace Trustd

namespace Shared

open Control Wire

/-
  What the two libraries make of a connection and a schedule:
  what they take is the one root set, and only its bytes are
  gone; and with enough reads they do take it.
-/
structure Delivers
    (mp : MsgPack)
    (debug : Text → Text)
    (request : Request)
    (generation : Nat)
    (roots : List Root)
    (ch left : Channel)
    (turns : List Turn)
    (count : Nat) : Prop where
  exact : ∀ reply pending ch' turns',
    receiveComplete (channelSource mp debug) mp request []
        (ch, turns) = (.ok reply, pending, ch', turns') →
      reply = .roots generation roots false ∧
        pending = [] ∧ ch' = left
  enough : Smooth turns →
    ch.stream.length + count < reads turns →
      ∃ turns', receiveComplete (channelSource mp debug) mp
          request [] (ch, turns) =
        (.ok (.roots generation roots false), [], left,
          turns')
  exactCall : ∀ replies ch' turns',
    boundedLoop (channelSource mp debug) mp 0 []
        (ch, turns) = (.ok replies, ch', turns') →
      rootsOf replies = .ok (generation, roots) ∧
        ch' = left
  enoughCall : Smooth turns →
    ch.stream.length + count < reads turns →
      ∃ replies turns', boundedLoop (channelSource mp debug)
          mp 0 [] (ch, turns) =
        (.ok replies, left, turns') ∧
          rootsOf replies = .ok (generation, roots)

section

variable {mp : MsgPack}
variable {debug : Text → Text}
variable {request : Request}
variable {generation : Nat}
variable {roots : List Root}
variable {run : List Reply}

theorem Snapshot.ne_nil
    (hSnapshot : Snapshot generation run roots) :
    run ≠ [] := by
  rintro rfl
  cases hSnapshot

/- What a stream yields when its frames are a snapshot. -/
theorem Snapshot.yielded
    (hSnapshot : Snapshot generation run roots)
    {stream tail : Bytes}
    {closes : Bool}
    (hFrames : Frames mp stream run tail)
    {run' : List Reply}
    (hRun' : Run run')
    {turns : List Turn}
    {s' : Channel × List Turn}
    (hYields : Yields (channelSource mp debug)
      ({ stream, closes }, turns) run' s') :
    run' = run ∧
      s'.1 = { stream := tail, closes } := by
  rcases yields_frames (Channel.partial_start _ _) hYields
    with ⟨hFrames', hLast⟩
  rcases hFrames.unique hFrames' hSnapshot.run.1 hRun' with
    ⟨rfl, hTail⟩
  refine ⟨rfl, ?_⟩
  rw [hLast hSnapshot.ne_nil, ← hTail]

/- Frames that are a snapshot of bounded size deliver it. -/
theorem Snapshot.delivers
    (debug : Text → Text)
    (hTakes : TakesRoots request)
    (hSnapshot : Snapshot generation run roots)
    (hTotal : totalWeight mp run ≤ maxSnapshotBytes)
    {stream tail : Bytes}
    (hFrames : Frames mp stream run tail)
    (closes : Bool)
    (turns : List Turn) :
    Delivers mp debug request generation roots
      { stream, closes } { stream := tail, closes } turns
      run.length := by
  have hNone : Chunks [] := fun _ h => by cases h
  have hEnough : Smooth turns →
      stream.length + run.length < reads turns →
      ∃ turns', Yields (channelSource mp debug)
        ({ stream, closes }, turns) run
          ({ stream := tail, closes }, turns') := by
    intro hSmooth hReads
    rcases hFrames.yields debug rfl
      (Channel.partial_start stream closes) hSmooth hReads
      with ⟨s', hYields⟩
    have hLeft := (hSnapshot.yielded hFrames hSnapshot.run.1
      hYields).2
    refine ⟨s'.2, ?_⟩
    rw [← hLeft]
    exact hYields
  refine ⟨?_, ?_, ?_, ?_⟩
  · intro reply pending ch' turns' hOk
    rcases receiveComplete_cases hTakes hNone hOk with
      ⟨hNil, ⟨e, rfl, run', hRun', hYields, hMem⟩ |
        ⟨g, all, run', rfl, hSnapshot', hYields, _⟩⟩
    · rcases hSnapshot.yielded hFrames hRun' hYields with
        ⟨rfl, _⟩
      rcases hSnapshot.generation _ hMem with ⟨_, _, hError⟩
      cases hError
    · rcases hSnapshot.yielded hFrames hSnapshot'.run.1
        hYields with ⟨rfl, hLeft⟩
      rcases hSnapshot'.unique hSnapshot with ⟨rfl, rfl⟩
      exact ⟨rfl, hNil, hLeft⟩
  · intro hSmooth hReads
    rcases hEnough hSmooth hReads with ⟨turns', hYields⟩
    exact ⟨turns', receiveComplete_roots hTakes hNone
      hSnapshot hYields hTotal⟩
  · intro replies ch' turns' hOk
    rcases boundedLoop_ok_iff.mp hOk with
      ⟨run', hRun', hYields, _, rfl⟩
    rcases hSnapshot.yielded hFrames hRun' hYields with
      ⟨rfl, hLeft⟩
    exact ⟨(rootsOfFrom_ok_iff _ _ _ _ _).mpr
      ⟨(fun _ h => by cases h), roots, hSnapshot, rfl⟩,
      hLeft⟩
  · intro hSmooth hReads
    rcases hEnough hSmooth hReads with ⟨turns', hYields⟩
    refine ⟨run, turns', boundedLoop_ok_iff.mpr ⟨run,
      hSnapshot.run.1, hYields, by rwa [Nat.zero_add], rfl⟩,
      ?_⟩
    exact (rootsOfFrom_ok_iff _ _ _ _ _).mpr
      ⟨(fun _ h => by cases h), roots, hSnapshot, rfl⟩

/- No run begins a stream that is cut short. -/
theorem Frames.not_of_part
    {stream part missing : Bytes}
    (hFrames : Frames mp stream run [])
    (hRun : Run run)
    (hSplit : stream = part ++ missing)
    (hMissing : missing ≠ [])
    {closes : Bool}
    {turns : List Turn}
    {run' : List Reply}
    (hRun' : Run run')
    {s' : Channel × List Turn} :
    ¬ Yields (channelSource mp debug)
      ({ stream := part, closes }, turns) run' s' := by
  intro hYields
  have hPart := (yields_frames (Channel.partial_start _ _)
    hYields).1.append missing
  rw [hSplit] at hFrames
  have hLeft := (hFrames.unique hPart hRun hRun').2
  exact hMissing (List.append_eq_nil_iff.mp hLeft.symm).2

/- Of a stream that is cut short nothing is taken. -/
theorem Snapshot.not_delivered
    (hTakes : TakesRoots request)
    (hSnapshot : Snapshot generation run roots)
    {stream part missing : Bytes}
    (hFrames : Frames mp stream run [])
    (hSplit : stream = part ++ missing)
    (hMissing : missing ≠ [])
    (closes : Bool)
    (turns : List Turn) :
    (∃ e, (receiveComplete (channelSource mp debug) mp
        request [] ({ stream := part, closes },
          turns)).1 = .error e) ∧
      ∃ e, clientRoots (channelSource mp debug) mp
        ({ stream := part, closes }, turns) = .error e := by
  have hNone : Chunks [] := fun _ h => by cases h
  have hNot : ∀ run', Run run' → ∀ s', ¬ Yields
      (channelSource mp debug)
      ({ stream := part, closes }, turns) run' s' :=
    fun _ hRun' _ => hFrames.not_of_part hSnapshot.run.1
      hSplit hMissing hRun'
  constructor
  · rcases hReceive : receiveComplete
        (channelSource mp debug) mp request []
        ({ stream := part, closes }, turns) with
      ⟨e | reply, pending, s'⟩
    · exact ⟨e, rfl⟩
    · rcases receiveComplete_cases hTakes hNone hReceive with
        ⟨_, ⟨_, _, run', hRun', hYields, _⟩ |
          ⟨_, _, run', _, hSnapshot', hYields, _⟩⟩
      · exact absurd hYields (hNot run' hRun' s')
      · exact absurd hYields
          (hNot run' hSnapshot'.run.1 s')
  · rcases hClient : clientRoots (channelSource mp debug) mp
        ({ stream := part, closes }, turns) with e | set
    · exact ⟨e, rfl⟩
    · rcases (clientRoots_ok_iff set.1 set.2 _).mp hClient
        with ⟨run', s', hSnapshot', hYields, _⟩
      exact absurd hYields (hNot run' hSnapshot'.run.1 s')

/-
  A root set that was written whole, in frames the readers
  accept and of a size they accept, is what every connection
  it is read from delivers, whatever follows it; and if some
  of its bytes are missing nothing is delivered.
-/
theorem roots_delivered
    (debug : Text → Text)
    (hLawful : Lawful mp)
    (hSized : Sized mp)
    (hTakes : TakesRoots request)
    (hGeneration : generation < 2 ^ 64)
    (hTyped : ∀ root ∈ roots, Typed root)
    {room : Nat}
    {written : List Written}
    (hSent : sendRoots mp room generation roots =
      (written, true))
    (hFits : ∀ w ∈ written,
      (w.reply.encode mp).length ≤ maxMessageBytes)
    (hTotal : totalWeight mp (written.map Written.reply) ≤
      maxSnapshotBytes) :
    (∀ tail closes turns,
      Delivers mp debug request generation roots
        { stream := written.flatMap Written.bytes ++ tail,
          closes }
        { stream := tail, closes } turns written.length) ∧
    ∀ part missing closes turns,
      written.flatMap Written.bytes = part ++ missing →
      missing ≠ [] →
      (∃ e, (receiveComplete (channelSource mp debug) mp
          request [] ({ stream := part, closes },
            turns)).1 = .error e) ∧
        ∃ e, clientRoots (channelSource mp debug) mp
          ({ stream := part, closes }, turns) =
            .error e := by
  rcases sendRoots_whole hSent with ⟨hSnapshot, hWhole⟩
  have hDecode : ∀ w ∈ written,
      Reply.decode mp (w.reply.encode mp) = .ok w.reply := by
    intro w hMem
    have hAmong : w ∈
        (sendRoots mp room generation roots).1 := by
      rw [hSent]
      exact hMem
    rcases mem_sendRoots hAmong with
      ⟨chunk, more, hReply, hChunk⟩
    have hShort := (hFits w hMem).trans_lt
      (show maxMessageBytes < 2 ^ 32 by decide)
    rw [hReply] at hShort ⊢
    exact Reply.decode_written hLawful (chunk_fits hLawful
      hSized hGeneration
      (fun root hRoot => hTyped root (hChunk root hRoot))
      hShort)
  have hFrames := frames_of_written hWhole hFits hDecode
  constructor
  · intro tail closes turns
    have hDelivers := hSnapshot.delivers debug
      hTakes hTotal (hFrames tail) closes turns
    rwa [List.length_map] at hDelivers
  · intro part missing closes turns hSplit hMissing
    have hAll := hFrames []
    rw [List.append_nil] at hAll
    exact hSnapshot.not_delivered hTakes hAll hSplit
      hMissing closes turns

end

/- Two roots, read two bytes at a time. -/
theorem roots_delivered_sample :
    (∃ turns', receiveComplete
      (channelSource messagePack (fun text => text))
      messagePack (.subscribe true) []
      ({ stream := (sendRoots messagePack 1000 7
          [sampleRoot, {}]).1.flatMap Written.bytes },
        List.replicate 1000 (.read 1)) =
      (.ok (.roots 7 [sampleRoot, {}] false), [],
        { stream := [] }, turns')) := by
  have hSent : sendRoots messagePack 1000 7
      [sampleRoot, {}] =
      ((sendRoots messagePack 1000 7 [sampleRoot, {}]).1,
        true) := by
    decide +kernel
  have hDelivers := (roots_delivered (fun text => text)
    lawful_messagePack sized_messagePack (takesRoots_subscribe true) (by decide)
    (by decide +kernel) hSent (by decide +kernel)
    (by decide +kernel)).1 [] false
      (List.replicate 1000 (.read 1))
  rw [List.append_nil] at hDelivers
  refine hDelivers.enough ?_ (by decide +kernel)
  intro e hMem
  cases (List.mem_replicate.mp hMem).2

end Shared

end Trustd
