import Trustd.Daemon.Connections
import Trustd.Daemon.Reading
import Trustd.Library.Transparent
import Trustd.Shared.Delivery

/-
  The safe client at the daemon's socket, end to end.

  An exchange is wired to the daemon: the connection is taken
  in, the main loop goes on, the request is read a part at a
  time and answered, and the client reads what was written.
  What the client returns is what the daemon serves where it
  reads the last of the request.

  Key definitions include:
    * `Trustd.Daemon.Act.Leaves`
    * `Trustd.Daemon.Act.brings`
    * `Trustd.TrustClient.Meeting`
    * `Trustd.TrustClient.Met`
    * `Trustd.TrustClient.wired`

  Key theorems include:
    * `Trustd.Shared.Snapshot.of_sendRoots`
    * `Trustd.Daemon.run_leaves`
    * `Trustd.TrustClient.Met.exchange`
    * `Trustd.TrustClient.roots_served`
-/

------------------------------------------------------------
-- Whole Replies
------------------------------------------------------------

namespace Trustd

namespace Shared

open Control Wire

/- Every error a call fails with has a code, if any. -/
def HasCodes (turns : List Turn) : Prop :=
  ∀ e, .failed e ∈ turns → e.rawOsError ≠ some 0

section

variable {mp : MsgPack}
variable {debug : Text → Text}
variable {request : Request}

/- The turns that are left are of those that there were. -/
theorem Channel.receive_later
    (turns : List Turn)
    {ch : Channel} :
    (ch.receive mp debug turns).2.2 ⊆ turns := by
  induction turns generalizing ch with
  | nil => exact List.Subset.refl _
  | cons turn turns ih =>
      rw [receive]
      dsimp only
      split_ifs
      · rcases ch.fill 4 turn with e | mid
        · exact List.subset_cons_self _ _
        · exact List.subset_cons_of_subset _ ih
      · exact List.subset_cons_self _ _
      · exact List.subset_cons_self _ _
      · rcases ch.fill (4 + frameLength ch.incoming) turn with
          e | mid
        · exact List.subset_cons_self _ _
        · exact List.subset_cons_of_subset _ ih

theorem HasCodes.later
    {turns : List Turn}
    (hCodes : HasCodes turns)
    (ch : Channel) :
    HasCodes (ch.receive mp debug turns).2.2 := by
  intro e hTurn
  exact hCodes e (Channel.receive_later turns hTurn)

theorem receive_code
    {turns : List Turn}
    {ch : Channel}
    {e : IoError}
    (hPartial : ch.Partial)
    (hCodes : HasCodes turns)
    (hError : (ch.receive mp debug turns).1 = .error e) :
    e.rawOsError ≠ some 0 := by
  have hSpec := Channel.receive_spec mp debug turns hPartial
  rw [hError] at hSpec
  generalize (ch.receive mp debug turns).2.1 = ch' at hSpec
  generalize hResult : (Except.error e :
    Except IoError Reply) = result at hSpec
  cases hSpec with
  | decoded payload rest _ =>
      cases hDecode : Reply.decode mp payload with
      | ok reply =>
          rw [hDecode] at hResult
          cases hResult
      | error why =>
          rw [hDecode] at hResult
          cases hResult
          exact nofun
  | refused _ _ =>
      cases hResult
      exact nofun
  | waiting _ _ _ _ =>
      cases hResult
      exact nofun
  | failed why hTurn _ _ _ _ =>
      cases hResult
      exact hCodes _ hTurn
  | ended _ _ _ =>
      cases hResult
      exact nofun

/- What fails is a call, or has no code. -/
theorem collect_code
    {size : Nat}
    {pending pending' : List Reply}
    {s s' : Channel × List Turn}
    {e : IoError}
    (hPartial : s.1.Partial)
    (hCodes : HasCodes s.2)
    (hError : collect (channelSource mp debug) mp request size
      pending s = (.error e, pending', s')) :
    e.rawOsError ≠ some 0 := by
  induction hSize : s.2.length using Nat.strong_induction_on
    generalizing s size pending with
  | _ n ih =>
  rcases hReceive : (channelSource mp debug).receive s with
    ⟨why | reply, mid⟩
  · rw [collect_error hReceive] at hError
    cases hError
    exact receive_code hPartial hCodes
      (congrArg Prod.fst hReceive)
  by_cases hExpected : expected request reply = false
  · rw [collect_unexpected hReceive hExpected] at hError
    cases hError
    exact nofun
  rw [Bool.not_eq_false] at hExpected
  by_cases hChunk : ∃ generation batch more,
      reply = .roots generation batch more
  swap
  · push Not at hChunk
    rw [collect_other hReceive hExpected hChunk] at hError
    cases hError
  rcases hChunk with ⟨generation, batch, more, rfl⟩
  rw [collect_roots hReceive hExpected] at hError
  dsimp only at hError
  split_ifs at hError
  · cases hError
    exact nofun
  · rcases receive_ok hPartial hReceive with
      ⟨_, rest, _, _, hMid⟩
    have hNext : mid.1.Partial := by
      rw [hMid]
      exact Channel.partial_start rest s.1.closes
    have hLater : HasCodes
        ((channelSource mp debug).receive s).2.2 :=
      hCodes.later s.1
    rw [hReceive] at hLater
    have hShorter := (channelSource mp debug).shrinks _ _ _
      hReceive
    exact ih _ (hSize ▸ hShorter) hNext hLater hError rfl
  · cases hError

theorem receiveComplete_code
    {ch : Channel}
    {turns : List Turn}
    {e : IoError}
    (hPartial : ch.Partial)
    (hCodes : HasCodes turns)
    (hError : (receiveComplete (channelSource mp debug) mp
      request [] (ch, turns)).1 = .error e) :
    e.rawOsError ≠ some 0 := by
  rw [receiveComplete] at hError
  rcases hCollect : collect (channelSource mp debug) mp
      request (totalWeight mp []) [] (ch, turns) with
    ⟨why | _ | reply, left, mid⟩
  · rw [hCollect] at hError
    cases hError
    exact collect_code hPartial hCodes hCollect
  · rw [hCollect] at hError
    cases combine_error hError
    intro hCode
    cases hCode
  · rw [hCollect] at hError
    cases hError

end

section

variable {σ : Type}
variable {src : Source σ}
variable {mp : MsgPack}
variable {request : Request}

/- Which chunk it is does not matter. -/
theorem expected_roots
    {generation : Nat}
    {batch : List Root}
    {more : Bool}
    (hExpected : expected request
      (.roots generation batch more) = true)
    (generation' : Nat)
    (batch' : List Root)
    (more' : Bool) :
    expected request (.roots generation' batch' more') =
      true := by
  cases request with
  | roots withDer purpose => rfl
  | subscribe withDer => rfl
  | status => cases hExpected
  | reload => cases hExpected

theorem combine_roots
    {generation : Option Nat}
    {roots : List Root}
    {replies : List Reply}
    {reply : Reply}
    (hOk : combine generation roots replies = .ok reply) :
    ∃ current all, reply = .roots current all false := by
  induction replies generalizing generation roots with
  | nil =>
      cases hOk
      exact ⟨_, _, rfl⟩
  | cons first rest ih =>
      cases first with
      | roots current batch more =>
          rw [combine] at hOk
          split_ifs at hOk
          exact ih hOk
      | ok => exact ih hOk
      | error _ => exact ih hOk
      | status _ => exact ih hOk

/- What is collected was asked for. -/
theorem collect_expected
    {size : Nat}
    {pending pending' : List Reply}
    {s s' : σ}
    {found : Option Reply}
    (hOk : collect src mp request size pending s =
      (.ok found, pending', s')) :
    ∀ reply, found.getD (.roots 0 [] false) = reply →
      expected request reply = true := by
  induction hSize : src.size s using Nat.strong_induction_on
    generalizing s size pending with
  | _ n ih =>
  rcases hReceive : src.receive s with ⟨why | reply, mid⟩
  · rw [collect_error hReceive] at hOk
    cases hOk
  by_cases hExpected : expected request reply = false
  · rw [collect_unexpected hReceive hExpected] at hOk
    cases hOk
  rw [Bool.not_eq_false] at hExpected
  by_cases hChunk : ∃ generation batch more,
      reply = .roots generation batch more
  swap
  · push Not at hChunk
    rw [collect_other hReceive hExpected hChunk] at hOk
    cases hOk
    rintro reply rfl
    exact hExpected
  rcases hChunk with ⟨generation, batch, more, rfl⟩
  rw [collect_roots hReceive hExpected] at hOk
  dsimp only at hOk
  split_ifs at hOk
  · cases hOk
  · have hShorter := src.shrinks _ _ _ hReceive
    exact ih _ (hSize ▸ hShorter) hOk rfl
  · cases hOk
    rintro reply rfl
    exact expected_roots hExpected _ _ _

/- A whole reply is of a kind that was asked for. -/
theorem receiveComplete_expected
    {pending : List Reply}
    {s : σ}
    {reply : Reply}
    (hOk : (receiveComplete src mp request pending s).1 =
      .ok reply) :
    expected request reply = true := by
  rw [receiveComplete] at hOk
  rcases hCollect : collect src mp request
      (totalWeight mp pending) pending s with
    ⟨why | _ | first, left, mid⟩
  · rw [hCollect] at hOk
    cases hOk
  · rw [hCollect] at hOk
    rcases combine_roots hOk with ⟨generation, roots, rfl⟩
    exact expected_roots (collect_expected hCollect _ rfl)
      _ _ _
  · rw [hCollect] at hOk
    cases hOk
    exact collect_expected hCollect _ rfl

end

end Shared

end Trustd

------------------------------------------------------------
-- What Is Read Of What Was Sent
------------------------------------------------------------

namespace Trustd

namespace Shared

open Control General Wire

/- What is found of a frame is what it was made of. -/
theorem nextFrame_of_frame
    {payload rest found left : Bytes}
    (hLess : payload.length < 2 ^ 32)
    (hFrame : nextFrame (frame payload ++ rest) =
      .frame found left) :
    found = payload ∧ left = rest := by
  by_cases hShort : payload.length ≤ maxMessageBytes
  · rw [nextFrame_frame hShort] at hFrame
    cases hFrame
    exact ⟨rfl, rfl⟩
  · -- a length that is above the limit is refused
    have hAll : (frame payload).length =
        4 + payload.length := by
      rw [frame, List.length_append]
      rfl
    have hHeader : 4 ≤ (frame payload).length :=
      hAll ▸ Nat.le_add_right _ _
    have hFour : ¬ (frame payload ++ rest).length < 4 := by
      rw [List.length_append]
      omega
    have hLength : frameLength (frame payload ++ rest) =
        payload.length := by
      rw [frameLength_append hHeader]
      exact frameLength_leBytes hLess payload
    rw [nextFrame, if_neg hFour] at hFrame
    dsimp only at hFrame
    rw [hLength, if_pos (Nat.not_le.mp hShort)] at hFrame
    cases hFrame

/-
  What is found in what was written of a frame, however much
  room there was, is all of it. Something may come after it
  where all of it was written.
-/
theorem nextFrame_written
    {payload rest found left : Bytes}
    {room : Nat}
    (hRest : (writeFrame room payload).2 = none → rest = [])
    (hFrame : nextFrame ((writeFrame room payload).1 ++ rest) =
      .frame found left) :
    payload.length < 2 ^ 32 ∧
      (writeFrame room payload).2 ≠ none ∧
        found = payload ∧ left = rest := by
  unfold writeFrame at hRest hFrame ⊢
  by_cases hHuge : payload.length ≥ 2 ^ 32
  · rw [if_pos hHuge] at hRest hFrame
    rw [hRest rfl] at hFrame
    cases hFrame
  have hLess := Nat.not_le.mp hHuge
  rw [if_neg hHuge] at hRest hFrame ⊢
  dsimp only at hRest hFrame ⊢
  by_cases hRoom : (frame payload).length ≤ room
  · rw [if_pos hRoom] at hFrame ⊢
    exact ⟨hLess, Option.some_ne_none _,
      nextFrame_of_frame hLess hFrame⟩
  · -- a part of it is not found, whatever part it is
    rw [if_neg hRoom] at hRest hFrame
    rw [hRest rfl, List.append_nil] at hFrame
    have hMore := nextFrame_append hFrame
      ((frame payload).drop room)
    rw [List.take_append_drop,
      ← List.append_nil (frame payload)] at hMore
    have hNone := (List.append_eq_nil_iff.mp
      (nextFrame_of_frame hLess hMore).2).2
    rw [List.append_nil, List.drop_eq_nil_iff] at hNone
    exact absurd hNone hRoom

section

variable {mp : MsgPack}
variable {debug : Text → Text}
variable {generation : Nat}

/- A single reply. -/
theorem respond_head
    {reply first : Reply}
    {room : Nat}
    {run : List Reply}
    {left : Bytes}
    (hFrames : Frames mp (respond mp room reply).1.bytes
      (first :: run) left) :
    Reply.decode mp (reply.encode mp) = .ok first ∧
      (reply.encode mp).length < 2 ^ 32 := by
  change Frames mp (writeFrame room (reply.encode mp)).1 _ _
    at hFrames
  cases hFrames with
  | cons hFrame hDecode hRest =>
      rw [← List.append_nil (writeFrame _ _).1] at hFrame
      rcases nextFrame_written (fun _ => rfl) hFrame with
        ⟨hLess, -, rfl, -⟩
      exact ⟨hDecode, hLess⟩

/- The first reply that is read is the first chunk. -/
theorem sendChunks_head
    (hLawful : Lawful mp)
    (hSized : Sized mp)
    (hGeneration : generation < 2 ^ 64)
    {chunk : List Root}
    {parts : List (List Root)}
    (hTyped : ∀ root ∈ chunk, Typed root)
    {room : Nat}
    {first : Reply}
    {run : List Reply}
    {left : Bytes}
    (hFrames : Frames mp
      ((sendChunks mp generation room (chunk :: parts)).1.flatMap
        Written.bytes) (first :: run) left) :
    first = .roots generation chunk (parts ≠ []) ∧
      ∃ room', Frames mp
        ((sendChunks mp generation room' parts).1.flatMap
          Written.bytes) run left := by
  have hOwn : ∀ {rest found after : Bytes},
      ((writeFrame room ((Reply.roots generation chunk
        (parts ≠ [])).encode mp)).2 = none → rest = []) →
      nextFrame ((writeFrame room ((Reply.roots generation chunk
        (parts ≠ [])).encode mp)).1 ++ rest) =
          .frame found after →
      Reply.decode mp found = .ok first →
      first = .roots generation chunk (parts ≠ []) ∧
        (writeFrame room ((Reply.roots generation chunk
          (parts ≠ [])).encode mp)).2 ≠ none ∧
          after = rest := by
    intro rest found after hRest hFrame hDecode
    rcases nextFrame_written hRest hFrame with
      ⟨hLess, hSome, rfl, hAfter⟩
    rw [Reply.decode_written hLawful (chunk_fits hLawful hSized
      hGeneration hTyped hLess)] at hDecode
    cases hDecode
    exact ⟨rfl, hSome, hAfter⟩
  rcases hWrite : writeFrame room ((Reply.roots generation
      chunk (parts ≠ [])).encode mp) with ⟨bytes, _ | after⟩
  · simp only [sendChunks, hWrite, List.flatMap_cons,
      List.flatMap_nil] at hFrames
    rw [hWrite] at hOwn
    cases hFrames with
    | cons hFrame hDecode hRest =>
        exact absurd rfl (hOwn (fun _ => rfl) hFrame hDecode).2.1
  · simp only [sendChunks, hWrite, List.flatMap_cons] at hFrames
    rw [hWrite] at hOwn
    cases hFrames with
    | cons hFrame hDecode hRest =>
        rcases hOwn (fun h => by cases h) hFrame hDecode with
          ⟨hFirst, -, rfl⟩
        exact ⟨hFirst, after, hRest⟩

/-
  A root set that is read off what was sent is what was sent,
  whatever room there was: a chunk that is cut short, or is
  too large, ends what is read before the last.
-/
theorem Snapshot.of_sendChunks
    (hLawful : Lawful mp)
    (hSized : Sized mp)
    (hGeneration : generation < 2 ^ 64)
    {parts : List (List Root)}
    (hTyped : ∀ chunk ∈ parts, ∀ root ∈ chunk, Typed root)
    {current room : Nat}
    {run : List Reply}
    {roots : List Root}
    (hSnapshot : Snapshot current run roots)
    {left : Bytes}
    (hFrames : Frames mp
      ((sendChunks mp generation room parts).1.flatMap
        Written.bytes) run left) :
    roots = parts.flatten := by
  induction parts generalizing room run roots with
  | nil =>
      cases hSnapshot with
      | last batch =>
          cases hFrames with
          | cons hFrame _ _ => cases hFrame
      | more batch hRest =>
          cases hFrames with
          | cons hFrame _ _ => cases hFrame
  | cons chunk parts ih =>
      rcases List.forall_mem_cons.mp hTyped with
        ⟨hHere, hThere⟩
      cases hSnapshot with
      | last batch =>
          rcases sendChunks_head hLawful hSized hGeneration
            hHere hFrames with ⟨hFirst, -⟩
          injection hFirst with _ hBatch hMore
          have hNone : parts = [] :=
            not_not.mp (of_decide_eq_false hMore.symm)
          rw [hBatch, hNone, List.flatten_cons,
            List.flatten_nil, List.append_nil]
      | more batch hRest =>
          rcases sendChunks_head hLawful hSized hGeneration
            hHere hFrames with ⟨hFirst, room', hLater⟩
          injection hFirst with _ hBatch _
          rw [hBatch, List.flatten_cons,
            ih hThere hRest hLater]

/- The same of all that is sent of a root set. -/
theorem Snapshot.of_sendRoots
    (hLawful : Lawful mp)
    (hSized : Sized mp)
    (hGeneration : generation < 2 ^ 64)
    {sent : List Root}
    (hTyped : ∀ root ∈ sent, Typed root)
    {current room : Nat}
    {run : List Reply}
    {roots : List Root}
    (hSnapshot : Snapshot current run roots)
    {left : Bytes}
    (hFrames : Frames mp
      ((sendRoots mp room generation sent).1.flatMap
        Written.bytes) run left) :
    roots = sent := by
  unfold sendRoots at hFrames
  by_cases hNil : sent = []
  · -- no roots are sent as one chunk that is empty
    rw [if_pos hNil, List.flatMap_cons, List.flatMap_nil,
      List.append_nil] at hFrames
    have hFirst : ∀ {first : Reply} {rest : List Reply},
        run = first :: rest →
        first = .roots generation [] false := by
      rintro first rest rfl
      rcases respond_head hFrames with ⟨hDecode, hLess⟩
      rw [Reply.decode_written hLawful (chunk_fits hLawful
        hSized hGeneration (fun _ h => by cases h) hLess)]
        at hDecode
      cases hDecode
      rfl
    cases hSnapshot with
    | last batch =>
        cases hFirst rfl
        exact hNil.symm
    | more batch hRest => cases hFirst rfl
  · rw [if_neg hNil] at hFrames
    rw [hSnapshot.of_sendChunks hLawful hSized hGeneration ?_
      hFrames, flatten_chunks]
    intro chunk hChunk root hRoot
    apply hTyped
    rw [← flatten_chunks rootsPerChunk sent]
    exact List.mem_flatten_of_mem hChunk hRoot

/- Chunks that are sent and fit read back as themselves. -/
theorem decode_sent
    (hLawful : Lawful mp)
    (hSized : Sized mp)
    (hGeneration : generation < 2 ^ 64)
    {roots : List Root}
    (hTyped : ∀ root ∈ roots, Typed root)
    {room : Nat}
    (hFit : ∀ x ∈ (sendRoots mp room generation roots).1,
      Fits mp x) :
    ∀ x ∈ (sendRoots mp room generation roots).1,
      Reply.decode mp (x.reply.encode mp) = .ok x.reply := by
  intro x hx
  have hLess := (hFit x hx).trans_lt
    (show maxMessageBytes < 2 ^ 32 by decide)
  rcases mem_sendRoots hx with ⟨chunk, more, hReply, hChunk⟩
  rw [hReply] at hLess ⊢
  exact Reply.decode_written hLawful (chunk_fits hLawful
    hSized hGeneration
    (fun root hRoot => hTyped root (hChunk root hRoot)) hLess)

end

end Shared

end Trustd

------------------------------------------------------------
-- A Connection That Waits
------------------------------------------------------------

namespace Trustd

namespace Daemon

open Control General Registry Shared Wire

/-
  An act that does not end a connection that waits: what is
  read of it, if anything, are bytes of its request.
-/
def Act.Leaves
    {κ : Type}
    (id since : Nat) :
    Act κ → Prop
  | .attend _ arrival =>
      arrival.id = id → ∀ r ∈ arrival.reads, Plain r
  | .expire now => now - since < clientTimeout
  | _ => True

/- The bytes that an act reads of a connection that waits. -/
def Act.brings {κ : Type} (id : Nat) : Act κ → Bytes
  | .accept _ _ => []
  | .attend polled arrival =>
      if arrival.id = id ∧ id ∈ polled then
        broughtBy arrival.reads
      else []
  | .sweep _ => []
  | .wake _ _ _ => []
  | .expire _ => []

section

variable {κ : Type}
variable [Reader (Except IoError) κ]
variable {out : Outside}
variable {id : Nat}
variable {client : Client}
variable {w w' : World}

theorem lookup_filter
    {clients : List (Nat × Client)}
    {p : Nat × Client → Bool}
    (hFound : clients.lookup id = some client)
    (hKept : p (id, client) = true) :
    (clients.filter p).lookup id = some client := by
  rcases List.lookup_eq_some_iff.mp hFound with
    ⟨before, after, rfl, hBefore⟩
  apply List.lookup_eq_some_iff.mpr
  refine ⟨before.filter p, after.filter p, ?_, ?_⟩
  · rw [List.filter_append, List.filter_cons_of_pos hKept]
  · intro c hc
    exact hBefore c (List.mem_filter.mp hc).1

theorem lookup_map
    {clients : List (Nat × Client)}
    {f : Nat × Client → Nat × Client}
    (hFound : clients.lookup id = some client)
    (hSame : f (id, client) = (id, client))
    (hOthers : ∀ c, c.1 ≠ id → (f c).1 ≠ id) :
    (clients.map f).lookup id = some client := by
  rcases List.lookup_eq_some_iff.mp hFound with
    ⟨before, after, rfl, hBefore⟩
  apply List.lookup_eq_some_iff.mpr
  refine ⟨before.map f, after.map f, ?_, ?_⟩
  · rw [List.map_append, List.map_cons, hSame]
  · intro c hc
    rcases List.mem_map.mp hc with ⟨old, hOld, rfl⟩
    have hNot := (bne_iff_ne.mp (hBefore old hOld)).symm
    exact bne_iff_ne.mpr (hOthers old hNot).symm

/- Another one that is removed is not this one. -/
theorem lookup_withoutClient
    {other : Nat}
    (hOther : other ≠ id)
    (hFound : w.daemon.clients.lookup id = some client) :
    (w.withoutClient other).daemon.clients.lookup id =
      some client := by
  apply lookup_filter hFound
  exact decide_eq_true hOther.symm

theorem lookup_updateClient
    {other : Nat}
    (after : Client)
    (hOther : other ≠ id)
    (hFound : w.daemon.clients.lookup id = some client) :
    (w.updateClient other after).daemon.clients.lookup id =
      some client := by
  apply lookup_map hFound
  · exact if_neg hOther.symm
  · intro c hc
    split_ifs
    · exact hOther
    · exact hc

/- One that reads on is there with what it has read. -/
theorem lookup_updateClient_self
    (after : Client)
    (hFound : w.daemon.clients.lookup id = some client) :
    (w.updateClient id after).daemon.clients.lookup id =
      some after := by
  rcases List.lookup_eq_some_iff.mp hFound with
    ⟨front, back, hClients, hFront⟩
  change (w.daemon.clients.map _).lookup id = _
  apply List.lookup_eq_some_iff.mpr
  rw [hClients, List.map_append, List.map_cons]
  refine ⟨_, _, congrArg (_ ++ · :: _) (if_pos rfl), ?_⟩
  intro c hc
  rcases List.mem_map.mp hc with ⟨old, hOld, rfl⟩
  have hNot := hFront old hOld
  rw [if_neg (bne_iff_ne.mp hNot).symm]
  exact hNot

theorem length_frame (payload : Bytes) :
    (frame payload).length = 4 + payload.length := by
  rw [frame, List.length_append]
  rfl

section

variable {payload : Bytes}

/- Its head tells how long it is. -/
theorem frameLength_frame
    (hShort : payload.length ≤ maxMessageBytes) :
    frameLength (frame payload) = payload.length :=
  frameLength_leBytes (hShort.trans_lt (by decide)) payload

/- A frame that is short is the first frame of itself. -/
theorem firstFrame_frame
    (hShort : payload.length ≤ maxMessageBytes) :
    FirstFrame (frame payload) := by
  have hLength := frameLength_frame hShort
  refine ⟨?_, ?_, ?_⟩
  · rw [length_frame]
    exact Nat.le_add_right _ _
  · rw [hLength]
    exact hShort
  · rw [hLength, length_frame]

/- Until all of a frame is read the rest is waited for. -/
theorem read_incomplete
    (hShort : payload.length ≤ maxMessageBytes)
    {reads : List ReadResult}
    (hPlain : ∀ r ∈ reads, Plain r)
    {more : Bytes}
    (hMore : more ≠ [])
    (hFrame : frame payload =
      client.buf ++ broughtBy reads ++ more) :
    client.read out.msgpack out.debug reads =
      (.incomplete, { client with
        buf := client.buf ++ broughtBy reads }) := by
  have hLength := frameLength_frame hShort
  have hAll := length_frame payload
  have hSome := List.length_pos_of_ne_nil hMore
  have hSplit := congrArg List.length hFrame
  simp only [List.length_append] at hSplit
  have hRead := read_within out.msgpack out.debug client hPlain
    (by
      unfold bufferLimit
      omega)
    (by
      rw [List.length_append]
      unfold bufferLimit
      omega)
  rw [hRead, examine_short _ _ (firstFrame_frame hShort) hFrame
    (by
      rw [List.length_append, hLength]
      omega)]

theorem attend_leaves
    (hShort : payload.length ≤ maxMessageBytes)
    {polled : List Nat}
    {arrival : Arrival κ}
    (hLeaves : (Act.attend polled arrival).Leaves id
      client.since)
    (hWaits : w.daemon.clients.lookup id = some client)
    {more : Bytes}
    (hMore : more ≠ [])
    (hFrame : frame payload = client.buf ++
      (Act.attend polled arrival).brings id ++ more) :
    (attend out polled arrival w).daemon.clients.lookup id =
      some { client with buf := client.buf ++
        (Act.attend polled arrival).brings id } := by
  by_cases hPolled : arrival.id ∉ polled
  · -- it is not read
    have hNone : (Act.attend polled arrival).brings id = [] :=
      if_neg (by
        rintro ⟨rfl, hHere⟩
        exact hPolled hHere)
    rw [hNone, List.append_nil, attend, if_pos hPolled]
    exact hWaits
  rw [not_not] at hPolled
  by_cases hOwn : arrival.id = id
  · subst hOwn
    have hBrings : (Act.attend polled arrival).brings
        arrival.id = broughtBy arrival.reads :=
      if_pos ⟨rfl, hPolled⟩
    rw [hBrings] at hFrame ⊢
    rw [attend, if_neg (not_not.mpr hPolled), hWaits]
    dsimp only
    rw [read_incomplete hShort (hLeaves rfl) hMore hFrame]
    exact lookup_updateClient_self _ hWaits
  have hNone : (Act.attend polled arrival).brings id = [] :=
    if_neg (fun h => hOwn h.1)
  rw [hNone, List.append_nil]
  have hLeft := lookup_withoutClient hOwn hWaits
  rw [attend, if_neg (not_not.mpr hPolled)]
  rcases w.daemon.clients.lookup arrival.id with _ | other
  · exact hWaits
  dsimp only
  rcases other.read out.msgpack out.debug arrival.reads with
    ⟨_ | request | (_ | message), after⟩
  · exact lookup_updateClient after hOwn hWaits
  · have hTable : SameTable _ (handle out arrival.env
        other.stream request (w.withoutClient arrival.id)) :=
      handle_table arrival.env other.stream request _
    dsimp only
    rw [hTable.clients]
    exact hLeft
  · exact hLeft
  · exact hLeft

/- It goes on waiting, with what was read of its request. -/
theorem act_leaves
    (hShort : payload.length ≤ maxMessageBytes)
    {a : Act κ}
    (hLeaves : a.Leaves id client.since)
    (hWaits : w.daemon.clients.lookup id = some client)
    {more : Bytes}
    (hMore : more ≠ [])
    (hFrame : frame payload =
      client.buf ++ a.brings id ++ more)
    (hAct : act out w a = some w') :
    w'.daemon.clients.lookup id = some { client with
      buf := client.buf ++ a.brings id } := by
  cases a with
  | attend polled arrival =>
      cases hAct
      exact attend_leaves hShort hLeaves hWaits hMore hFrame
  | accept now usable =>
      cases hAct
      rw [Act.brings, List.append_nil]
      unfold accept
      split_ifs
      · exact hWaits
      · change (w.daemon.clients ++ _).lookup id = _
        rw [List.lookup_append, hWaits, Option.some_or]
      · exact hWaits
  | sweep closed =>
      rcases Option.map_eq_some_iff.mp hAct with ⟨left, -, rfl⟩
      rw [Act.brings, List.append_nil]
      exact hWaits
  | wake told stamp env =>
      cases hAct
      rw [Act.brings, List.append_nil]
      unfold wake
      split_ifs
      · rw [(refresh_table env w).clients]
        exact hWaits
      · exact hWaits
  | expire now =>
      cases hAct
      rw [Act.brings, List.append_nil]
      apply lookup_filter hWaits
      exact decide_eq_true hLeaves

theorem run_leaves
    (hShort : payload.length ≤ maxMessageBytes)
    {acts : List (Act κ)}
    (hLeaves : ∀ a ∈ acts, a.Leaves id client.since)
    (hWaits : w.daemon.clients.lookup id = some client)
    {more : Bytes}
    (hMore : more ≠ [])
    (hFrame : frame payload = client.buf ++
      acts.flatMap (Act.brings id) ++ more)
    (hRun : run (actOn out) (some w) acts = some w') :
    w'.daemon.clients.lookup id = some { client with
      buf := client.buf ++ acts.flatMap (Act.brings id) } := by
  induction acts generalizing w client with
  | nil =>
      cases hRun
      rw [List.flatMap_nil, List.append_nil]
      exact hWaits
  | cons a rest ih =>
      rw [run_cons] at hRun
      rw [List.flatMap_cons] at hFrame ⊢
      rcases hStep : actOn out (some w) a with _ | v
      · rw [hStep, run_none] at hRun
        cases hRun
      · rw [hStep] at hRun
        rcases List.forall_mem_cons.mp hLeaves with
          ⟨hHere, hThere⟩
        have hLater : rest.flatMap (Act.brings id) ++ more ≠
            [] :=
          List.append_ne_nil_of_right_ne_nil _ hMore
        have hStays := act_leaves hShort hHere hWaits hLater
          (by rw [hFrame]; simp only [List.append_assoc]) hStep
        have hEnd := ih (by exact hThere) hStays
          (by rw [hFrame]; simp only [List.append_assoc]) hRun
        rw [← List.append_assoc]
        exact hEnd

end

/- A frame that is all there by now is read as its request. -/
theorem read_frame
    (hLawful : Lawful out.msgpack)
    {request : Request}
    (hFits : request.Fits)
    (hShort : (request.encode out.msgpack).length ≤
      maxMessageBytes)
    {reads : List ReadResult}
    (hPlain : ∀ r ∈ reads, Plain r)
    (hBrought : client.buf ++ broughtBy reads =
      frame (request.encode out.msgpack)) :
    (client.read out.msgpack out.debug reads).1 =
      .request request := by
  have hLength := frameLength_frame hShort
  have hAll := length_frame (request.encode out.msgpack)
  have hPayload : ((frame (request.encode
      out.msgpack)).drop 4).take
        (request.encode out.msgpack).length =
          request.encode out.msgpack :=
    List.take_length
  have hSplit := congrArg List.length hBrought
  rw [List.length_append] at hSplit
  have hRead := read_within out.msgpack out.debug client hPlain
    (by
      unfold bufferLimit
      omega)
    (by
      rw [hBrought]
      unfold bufferLimit
      omega)
  rw [hRead, hBrought,
    examine_first _ _ (firstFrame_frame hShort), hLength,
    hPayload, Request.decode_written hLawful hFits]

/- A request that is all there is handled. -/
theorem attend_frame
    (hLawful : Lawful out.msgpack)
    {request : Request}
    (hFits : request.Fits)
    (hShort : (request.encode out.msgpack).length ≤
      maxMessageBytes)
    {polled : List Nat}
    {reads : List ReadResult}
    {env : Env κ}
    (hPolled : id ∈ polled)
    (hWaits : w.daemon.clients.lookup id = some client)
    (hPlain : ∀ r ∈ reads, Plain r)
    (hBrought : client.buf ++ broughtBy reads =
      frame (request.encode out.msgpack)) :
    attend out polled { id, reads, env } w =
      handle out env client.stream request
        (w.withoutClient id) := by
  have hRead := read_frame hLawful hFits hShort hPlain
    hBrought
  unfold attend
  rw [if_neg (not_not.mpr hPolled), hWaits]
  dsimp only
  rcases hProgress : client.read out.msgpack out.debug
      reads with ⟨progress, after⟩
  rw [hProgress] at hRead
  cases hRead
  rfl

end

end Daemon

end Trustd

------------------------------------------------------------
-- Meetings
------------------------------------------------------------

namespace Trustd

namespace TrustClient

open Control Daemon General LibTrust Registry Shared Wire

/-
  How one exchange goes: when the daemon takes the connection
  in, if it can use it, what it does with what was sent until
  it reads the last of it, how it reads that, what the request
  meets, and what the client meets when it reads the reply.
-/
structure Meeting (κ : Type) where
  now : Nat
  usable : Bool := true
  meanwhile : Bytes → List (Act κ) := fun _ => []
  reads : Bytes → List ReadResult
  env : Env κ
  turns : List Turn
  codes : HasCodes turns

/- What a peer can read of its connection. -/
def channelOf (id : Stream) (w : World) : Channel where
  stream := (w.writtenTo id).flatMap Written.bytes
  closes := id ∉ w.daemon.clients.map Prod.fst ∧
    id ∉ w.daemon.subscribers.map Prod.fst

/- A connection that is dropped. -/
def dropped : Channel :=
  { stream := [], closes := true }

section

variable {κ : Type}
variable [Reader (Except IoError) κ]
variable (out : Outside)
variable (meeting : Meeting κ)

/- The world where the daemon reads the last that was sent. -/
def Meeting.before (sent : Bytes) (w : World) : Option World :=
  run (actOn out)
    (some (Daemon.accept meeting.now meeting.usable w))
    (meeting.meanwhile sent)

/- The world in which it has been read. -/
def Meeting.attended (sent : Bytes) (w : World) :
    Option World :=
  let id := w.daemon.nextId + 1
  (meeting.before out sent w).map (attend out [id] {
    id
    reads := meeting.reads sent
    env := meeting.env })

/- What there is to read then. A daemon that panics is gone. -/
def Meeting.answer (sent : Bytes) (w : World) :
    Channel × World :=
  if admittedIn meeting.now meeting.usable w = [] then
    (dropped, w)
  else
    match meeting.attended out sent w with
    | none => (dropped, w)
    | some w' => (channelOf (w.daemon.nextId + 1) w', w')

/- `exchange`, with the daemon at the other end. -/
def Meeting.exchange
    (path : Bytes)
    (timeout : Nat)
    (request : Request) :
    Work World IoError Reply :=
  fun w =>
    let payload := request.encode out.msgpack
    if timeout = 0 then
      (.error (Shared.invalid
        "timeout_ms must be positive".toList), w)
    else if ¬ IsSocketPath path then
      (.error (Shared.invalid ("expected a nonempty ".toList ++
        "filesystem socket path shorter than ".toList ++
          "108 bytes".toList)), w)
    else if payload.length > maxMessageBytes then
      (.error (Shared.invalid ("request exceeds the ".toList ++
          "protocol message limit".toList)),
        Daemon.accept meeting.now meeting.usable w)
    else
      let (ch, w') := meeting.answer out (frame payload) w
      ((receiveComplete (channelSource out.msgpack out.debug)
        out.msgpack request [] (ch, meeting.turns)).1, w')

theorem answer_fresh (sent : Bytes) (w : World) :
    (meeting.answer out sent w).1.Partial := by
  unfold Meeting.answer
  split_ifs
  · exact Channel.partial_start _ _
  · rcases meeting.attended out sent w with _ | w'
    · exact Channel.partial_start _ _
    · exact Channel.partial_start _ _

/- An error of the system has a code that is not zero. -/
theorem exchange_code
    (path : Bytes)
    (timeout : Nat)
    (request : Request)
    (w : World)
    (e : IoError)
    (hError : (meeting.exchange out path timeout request w).1 =
      .error e) :
    e.rawOsError ≠ some 0 := by
  unfold Meeting.exchange at hError
  dsimp only at hError
  split_ifs at hError
  · cases hError
    exact nofun
  · cases hError
    exact nofun
  · exact receiveComplete_code
      (answer_fresh out meeting _ w) meeting.codes hError
  · cases hError
    exact nofun

/- A reply is of a kind that was asked for. -/
theorem exchange_expected
    (path : Bytes)
    (timeout : Nat)
    (request : Request)
    (w : World)
    (reply : Reply)
    (hOk : (meeting.exchange out path timeout request w).1 =
      .ok reply) :
    expected request reply = true := by
  unfold Meeting.exchange at hOk
  dsimp only at hOk
  split_ifs at hOk
  exact receiveComplete_expected hOk

/- The core whose exchanges are with the daemon. -/
def wired (outside : Core World) : Core World :=
  { outside with
    exchange := meeting.exchange out
    exchange_code := exchange_code out meeting
    exchange_expected := exchange_expected out meeting }

end

end TrustClient

end Trustd

------------------------------------------------------------
-- The Roots A Client Gets
------------------------------------------------------------

namespace Trustd

namespace TrustClient

open Control Daemon General LibTrust Registry Shared Wire

/- What a request for roots is answered. -/
def answerOf
    (out : Outside)
    (room : Nat)
    (id : Stream)
    (withDer : Bool)
    (purpose : Option Text)
    (w : World) :
    List Written :=
  if permits out w id (.roots withDer purpose) then
    (sendRoots out.msgpack room w.daemon.generation
      (w.daemon.roots withDer purpose)).1
  else
    [(respond out.msgpack room
      (.error "access denied".toList)).1]

/- The numbers are of the types that the source has. -/
structure Sendable
    (withDer : Bool)
    (purpose : Option Text)
    (w : World) :
    Prop where
  generation : w.daemon.generation < 2 ^ 64
  typed : ∀ root ∈ w.daemon.roots withDer purpose, Typed root

/-
  A reply gets through: the peer may have it and takes all of
  it before the daemon's deadline, neither a chunk nor all of
  it is too large for the client, and the client's reads are
  enough and do not fail.
-/
structure GetsThrough
    (out : Outside)
    (room : Nat)
    (turns : List Turn)
    (id : Stream)
    (withDer : Bool)
    (purpose : Option Text)
    (w : World) :
    Prop where
  permitted : permits out w id (.roots withDer purpose) = true
  whole : (sendRoots out.msgpack room w.daemon.generation
    (w.daemon.roots withDer purpose)).2 = true
  chunks : ChunksFit w.daemon.generation
    (w.daemon.roots withDer purpose)
  total : totalWeight out.msgpack
    ((answerOf out room id withDer purpose w).map
      Written.reply) ≤ maxSnapshotBytes
  smooth : Smooth turns
  enough :
    ((answerOf out room id withDer purpose w).flatMap
        Written.bytes).length +
      (answerOf out room id withDer purpose w).length <
        reads turns

section

variable {κ : Type}
variable [Reader (Except IoError) κ]
variable {out : Outside}
variable {withDer : Bool}
variable {purpose : Option Text}
variable {w v : World}

/- A text that a short request carries is short. -/
theorem purpose_fits
    (hSized : Sized out.msgpack)
    (hShort : ((Request.roots withDer purpose).encode
      out.msgpack).length ≤ maxMessageBytes) :
    (Request.roots withDer purpose).Fits ∧
      Inputs.maybeTextOf purpose = .ok purpose := by
  cases purpose with
  | none => exact ⟨nofun, rfl⟩
  | some text =>
      have hMem : .str text ∈
          (Request.roots withDer (some text)).items := by
        simp [Request.items, optStrItems, optItem]
      have hWrite := length_write_le out.msgpack hMem
      have hSize := le_strSize (Text.utf8 text).length
      rw [hSized] at hWrite
      have hText : (Text.utf8 text).length ≤ maxMessageBytes :=
        (hSize.trans hWrite).trans hShort
      constructor
      · intro other hOther
        cases hOther
        exact hText.trans_lt (by decide)
      · have hNot : ¬ Inputs.maxTextBytes <
            (Text.utf8 text).length :=
          Nat.not_lt.mpr (hText.trans (by decide))
        rw [Inputs.maybeTextOf, Inputs.textOf,
          Inputs.bytesOf, if_neg hNot]
        rfl

/- Roots that are read off an answer are those it is of. -/
theorem answer_exact
    (hLawful : Lawful out.msgpack)
    (hSized : Sized out.msgpack)
    (hSendable : Sendable withDer purpose w)
    {room : Nat}
    {id : Stream}
    {closes : Bool}
    {turns : List Turn}
    {generation : Nat}
    {list : List Root}
    {more : Bool}
    (hOk : (receiveComplete (channelSource out.msgpack
      out.debug) out.msgpack (.roots withDer purpose) []
        ({ stream := (answerOf out room id withDer
            purpose w).flatMap Written.bytes
           closes }, turns)).1 =
      .ok (.roots generation list more)) :
    permits out w id (.roots withDer purpose) = true ∧
      list = w.daemon.roots withDer purpose := by
  have hNone : Chunks [] := fun _ h => by cases h
  generalize hAnswer : answerOf out room id withDer purpose w =
    answer at hOk
  rcases hReceive : receiveComplete (channelSource out.msgpack
      out.debug) out.msgpack (.roots withDer purpose) []
        ({ stream := answer.flatMap Written.bytes
           closes }, turns) with
    ⟨result, pending, s'⟩
  rw [hReceive] at hOk
  cases hOk
  rcases receiveComplete_cases (takesRoots_roots withDer purpose)
      hNone hReceive with
    ⟨-, ⟨e, hError, -⟩ |
      ⟨current, all, run, hSame, hSnapshot, hYields, -⟩⟩
  · cases hError
  cases hSame
  have hFrames := (yields_frames
    (Channel.partial_start _ _) hYields).1
  change Frames _ (answer.flatMap Written.bytes) _ _ at hFrames
  rw [List.nil_append] at hSnapshot
  subst hAnswer
  unfold answerOf at hFrames
  by_cases hPermits : permits out w id
      (.roots withDer purpose) = true
  · rw [if_pos hPermits] at hFrames
    exact ⟨hPermits, hSnapshot.of_sendRoots hLawful hSized
      hSendable.generation hSendable.typed hFrames⟩
  · -- a refusal is read as nothing else
    rw [if_neg hPermits, List.flatMap_cons, List.flatMap_nil,
      List.append_nil] at hFrames
    have hFits : (Reply.error "access denied".toList).Fits := by
      change (Text.utf8 "access denied".toList).length < _
      decide
    have hRead := Reply.decode_written hLawful hFits
    cases hSnapshot with
    | last batch =>
        have hFirst := (respond_head hFrames).1
        rw [hRead] at hFirst
        cases hFirst
    | more batch hRest =>
        have hFirst := (respond_head hFrames).1
        rw [hRead] at hFirst
        cases hFirst

/- What gets through is taken, whoever closes after it. -/
theorem GetsThrough.received
    (hLawful : Lawful out.msgpack)
    (hSized : Sized out.msgpack)
    (hSendable : Sendable withDer purpose w)
    {room : Nat}
    {id : Stream}
    {turns : List Turn}
    (hThrough : GetsThrough out room turns id withDer
      purpose w)
    (closes : Bool) :
    (receiveComplete (channelSource out.msgpack out.debug)
      out.msgpack (.roots withDer purpose) []
        ({ stream := (answerOf out room id withDer
            purpose w).flatMap Written.bytes
           closes }, turns)).1 =
      .ok (.roots w.daemon.generation
        (w.daemon.roots withDer purpose) false) := by
  have hAnswer : answerOf out room id withDer purpose w =
      (sendRoots out.msgpack room w.daemon.generation
        (w.daemon.roots withDer purpose)).1 :=
    if_pos hThrough.permitted
  have hTotal := hThrough.total
  have hEnough := hThrough.enough
  rw [hAnswer] at hTotal hEnough ⊢
  rcases sendRoots_whole (Prod.ext rfl hThrough.whole) with
    ⟨hSnapshot, hWhole⟩
  have hFit := (sendRoots_fits_iff hSized _ _).mpr
    hThrough.chunks room
  have hFrames := frames_of_written hWhole hFit
    (decode_sent hLawful hSized hSendable.generation
      hSendable.typed hFit) []
  rw [List.append_nil] at hFrames
  have hDelivers := hSnapshot.delivers out.debug
    (takesRoots_roots withDer purpose) hTotal hFrames
    closes turns
  rw [List.length_map] at hDelivers
  rcases hDelivers.enough hThrough.smooth hEnough with
    ⟨turns', hReceive⟩
  exact congrArg Prod.fst hReceive

/- A connection that is taken in waits, with nothing read. -/
theorem accept_waits
    {shown : List (Nat × List Store.Entry)}
    (hSeated : Seated out.msgpack shown w)
    (now : Nat)
    (hRoom : w.daemon.clients.length < maxClients) :
    (Daemon.accept now true w).daemon.clients.lookup
        (w.daemon.nextId + 1) =
      some { stream := w.daemon.nextId + 1, since := now } := by
  have hNone : w.daemon.clients.lookup
      (w.daemon.nextId + 1) = none := by
    apply List.lookup_eq_none_iff.mpr
    intro c hc
    apply bne_iff_ne.mpr
    intro hSame
    have hKnown := hSeated.informed.known c.1
      (mem_names_of_waiting (List.mem_map_of_mem hc))
    rw [← hSame] at hKnown
    exact Nat.not_succ_le_self _ hKnown
  unfold Daemon.accept
  rw [if_neg (Nat.not_le.mpr hRoom), if_pos rfl]
  change (w.daemon.clients ++ _).lookup _ = _
  rw [List.lookup_append, hNone, Option.none_or]
  exact List.lookup_cons_self

/- Nothing was written to a connection whose request is read. -/
theorem waits_silent
    {config : Config}
    {host : Render.Host}
    {env : Env κ}
    {acts : List (Act κ)}
    (hRun : run (actOn out)
      (some (start out config host env)) acts = some v)
    {id : Stream}
    {client : Control.Client}
    (hWaits : v.daemon.clients.lookup id = some client) :
    (v.withoutClient id).writtenTo id = [] := by
  have hStart : Seated out.msgpack _
      (start out config host env) :=
    start_seated config host env
  have hSeated := run_seated hStart hRun
  have hAttended := run_attended hStart
    (start_attended config host env) hRun
  exact (next_of_waiting hAttended hSeated.informed
    (List.mem_map_of_mem (mem_of_lookup hWaits))).silent

/- A request for roots that is read whole is answered. -/
theorem attend_roots
    (hLawful : Lawful out.msgpack)
    (hSized : Sized out.msgpack)
    {id now : Nat}
    {reads : List ReadResult}
    {env : Env κ}
    (hShort : ((Request.roots withDer purpose).encode
      out.msgpack).length ≤ maxMessageBytes)
    {buf : Bytes}
    (hWaits : v.daemon.clients.lookup id =
      some { stream := id, buf, since := now })
    (hPlain : ∀ r ∈ reads, Control.Plain r)
    (hBrought : buf ++ broughtBy reads = frame
      ((Request.roots withDer purpose).encode out.msgpack)) :
    attend out [id] { id, reads, env } v =
      (v.withoutClient id).send id
        (answerOf out (env.room id) id withDer purpose v) := by
  have hFits := (purpose_fits hSized hShort).1
  rw [attend_frame hLawful hFits hShort
    (List.mem_singleton.mpr rfl) hWaits hPlain hBrought]
  change handle out env id (.roots withDer purpose) _ = _
  unfold handle answerOf
  change (if permits out v id _ = false then _ else _) = _
  cases permits out v id (.roots withDer purpose) with
  | false => rfl
  | true => rfl

end

/-
  A connection that is taken in and left waiting until the last
  of its request is read, in the world `v`: the bytes of it are
  read in as many wake-ups and reads as there may be.
-/
structure Met
    {κ : Type}
    [Reader (Except IoError) κ]
    (out : Outside)
    (meeting : Meeting κ)
    (payload : Bytes)
    (w v : World) :
    Prop where
  usable : meeting.usable = true
  room : w.daemon.clients.length < maxClients
  leaves : ∀ a ∈ meeting.meanwhile (frame payload),
    a.Leaves (w.daemon.nextId + 1) meeting.now
  before : meeting.before out (frame payload) w = some v
  plain : ∀ r ∈ meeting.reads (frame payload), Control.Plain r
  brought : (meeting.meanwhile (frame payload)).flatMap
      (Act.brings (w.daemon.nextId + 1)) ++
    broughtBy (meeting.reads (frame payload)) = frame payload
  unfinished : broughtBy (meeting.reads (frame payload)) ≠ []

section

variable {κ : Type}
variable [Reader (Except IoError) κ]
variable {out : Outside}
variable {meeting : Meeting κ}
variable {payload : Bytes}
variable {w v : World}

/- It still waits in that world, and nothing was written. -/
theorem Met.waits
    {config : Config}
    {host : Render.Host}
    {env : Env κ}
    {acts : List (Act κ)}
    (hMet : Met out meeting payload w v)
    (hShort : payload.length ≤ maxMessageBytes)
    (hRun : run (actOn out)
      (some (start out config host env)) acts = some w) :
    let id := w.daemon.nextId + 1
    v.daemon.clients.lookup id = some {
        stream := id
        buf := (meeting.meanwhile (frame payload)).flatMap
          (Act.brings id)
        since := meeting.now } ∧
      (v.withoutClient id).writtenTo id = [] := by
  intro id
  have hSeated := run_seated
    (start_seated config host env) hRun
  have hAccepted : run (actOn out) (some w)
      (.accept meeting.now true ::
        meeting.meanwhile (frame payload)) = some v := by
    have hBefore := hMet.before
    rw [Meeting.before, hMet.usable] at hBefore
    exact hBefore
  have hReach : run (actOn out)
      (some (start out config host env))
      (acts ++ .accept meeting.now true ::
        meeting.meanwhile (frame payload)) = some v := by
    rw [run_append, hRun]
    exact hAccepted
  have hWaits := run_leaves hShort hMet.leaves
    (accept_waits hSeated meeting.now hMet.room)
    hMet.unfinished hMet.brought.symm hAccepted
  exact ⟨hWaits, waits_silent hReach hWaits⟩

/- The roots that the client makes of a reply. -/
def rootsIn :
    Except IoError Reply → Except Results.Failure (List Root)
  | .error e => .error { error := e }
  | .ok reply => (picked rootsReply reply).map Prod.snd

theorem rootsIn_ok
    {result : Except IoError Reply}
    {list : List Root}
    (hOk : (rootsIn result).mapError Results.Failure.crossed =
      .ok list) :
    ∃ generation more,
      result = .ok (.roots generation list more) := by
  cases result with
  | error e => cases hOk
  | ok reply =>
      cases reply with
      | roots generation batch more =>
          cases hOk
          exact ⟨generation, more, rfl⟩
      | ok => cases hOk
      | error message => cases hOk
      | status status => cases hOk

/- What there is to read of what was just written. -/
theorem channelOf_sent
    {id : Stream}
    {messages : List Written}
    (hSilent : w.writtenTo id = []) :
    channelOf id (w.send id messages) = {
      stream := messages.flatMap Written.bytes
      closes := (channelOf id (w.send id messages)).closes
    } := by
  rw [channelOf, writtenTo_send_self, hSilent,
    List.nil_append]

/-
  The exchange of a request for roots: if roots are received
  they are those that are served where it is read.
-/
theorem Met.exchange
    {config : Config}
    {host : Render.Host}
    {env : Env κ}
    {acts : List (Act κ)}
    {withDer : Bool}
    {purpose : Option Text}
    (hMet : Met out meeting
      ((Request.roots withDer purpose).encode out.msgpack) w v)
    (hRun : run (actOn out)
      (some (start out config host env)) acts = some w)
    (hLawful : Lawful out.msgpack)
    (hSized : Sized out.msgpack)
    (client : Client)
    (hShort : ((Request.roots withDer purpose).encode
      out.msgpack).length ≤ maxMessageBytes)
    (hSendable : Sendable withDer purpose v) :
    let id := w.daemon.nextId + 1
    let request := Request.roots withDer purpose
    ∃ result w',
      meeting.attended out
          (frame (request.encode out.msgpack)) w = some w' ∧
      meeting.exchange out client.path client.timeoutMs
          request w = (result, w') ∧
      (∀ generation list more,
        result = .ok (.roots generation list more) →
          permits out v id request = true ∧
            list = v.daemon.roots withDer purpose) ∧
      (GetsThrough out (meeting.env.room id) meeting.turns id
          withDer purpose v →
        result = .ok (.roots v.daemon.generation
          (v.daemon.roots withDer purpose) false)) := by
  intro id request
  rcases hMet.waits hShort hRun with ⟨hWaits, hSilent⟩
  let answer := answerOf out (meeting.env.room id) id withDer
    purpose v
  have hAttended : meeting.attended out
      (frame (request.encode out.msgpack)) w =
        some ((v.withoutClient id).send id answer) := by
    rw [Meeting.attended, hMet.before]
    exact congrArg some (attend_roots hLawful hSized hShort
      hWaits hMet.plain hMet.brought)
  have hIn : ¬ admittedIn meeting.now meeting.usable w =
      [] := by
    rw [admittedIn, if_neg (Nat.not_le.mpr hMet.room),
      hMet.usable]
    exact List.cons_ne_nil _ _
  have hTimeout : ¬ client.timeoutMs = 0 :=
    Nat.pos_iff_ne_zero.mp client.timeout_pos
  have hExchange : meeting.exchange out client.path
      client.timeoutMs request w =
        ((receiveComplete (channelSource out.msgpack out.debug)
          out.msgpack request [] (channelOf id
            ((v.withoutClient id).send id answer),
              meeting.turns)).1,
          (v.withoutClient id).send id answer) := by
    unfold Meeting.exchange
    dsimp only
    rw [if_neg hTimeout,
      if_neg (not_not.mpr client.socketPath),
      if_neg (Nat.not_lt.mpr hShort), Meeting.answer,
      if_neg hIn, hAttended]
  rw [channelOf_sent hSilent] at hExchange
  refine ⟨_, _, hAttended, hExchange, ?_, ?_⟩
  · intro generation list more hOk
    exact answer_exact hLawful hSized hSendable hOk
  · intro hThrough
    exact hThrough.received hLawful hSized hSendable _

/-
  The safe client at the daemon's socket. When its connection
  is taken in the daemon may do anything that leaves it
  waiting, and read any part of its request in any wake-ups;
  the last of it is read in the world `v`. If the client is
  given roots then it may have them and they are the ones
  served in `v`, whatever becomes of the reply underway and
  however large its chunks are; if the reply gets through it is
  given them. The memory is afterwards what it was before.
-/
theorem roots_served
    (A : Allocator)
    (outside : Core World)
    (config : Config)
    (host : Render.Host)
    (env : Env κ)
    {acts : List (Act κ)}
    (hRun : run (actOn out)
      (some (start out config host env)) acts = some w)
    (hLawful : Lawful out.msgpack)
    (hSized : Sized out.msgpack)
    (client : Client)
    (path : Ref)
    (withDer : Bool)
    (purpose : Option Ref)
    (value : Option Text)
    (hMet : Met out meeting
      ((Request.roots withDer value).encode out.msgpack) w v)
    (hShort : ((Request.roots withDer value).encode
      out.msgpack).length ≤ maxMessageBytes)
    (hSendable : Sendable withDer value v)
    {heap : Heap Abi.Block}
    (hPath : Borrowed heap path client.path)
    (hPurpose : BorrowedMaybe heap purpose value) :
    let id := w.daemon.nextId + 1
    let request := Request.roots withDer value
    ∃ outcome w',
      meeting.attended out
          (frame (request.encode out.msgpack)) w = some w' ∧
      client.roots A (wired out meeting outside) path withDer
          purpose heap w = some (outcome, heap, w') ∧
      (∀ list, outcome = .ok list →
        permits out v id request = true ∧
          list = v.daemon.roots withDer value) ∧
      (GetsThrough out (meeting.env.room id) meeting.turns id
          withDer value v →
        outcome = .ok (v.daemon.roots withDer value)) := by
  intro id request
  rcases hMet.exchange hRun hLawful hSized client hShort
    hSendable with
    ⟨result, w', hAttended, hExchange, hExact, hGiven⟩
  have hCarries := carries_roots A (wired out meeting outside)
    client path withDer purpose value heap w ⟨hPath, hPurpose⟩
  rw [(purpose_fits hSized hShort).2] at hCarries
  have hWork : (Work.reply rootsReply (meeting.exchange out
      client.path client.timeoutMs request)).map Prod.snd w =
        (rootsIn result, w') := by
    rw [Work.map, Work.reply, hExchange]
    cases result with
    | error e => rfl
    | ok reply => rfl
  have hCall : client.roots A (wired out meeting outside) path
      withDer purpose heap w = some ((rootsIn result).mapError
        Results.Failure.crossed, heap, w') := by
    rw [hCarries]
    change some ((((Work.reply rootsReply (meeting.exchange out
      client.path client.timeoutMs request)).map Prod.snd)
        w).1.mapError _, heap, (((Work.reply rootsReply
          (meeting.exchange out client.path client.timeoutMs
            request)).map Prod.snd) w).2) = _
    rw [hWork]
  refine ⟨_, w', hAttended, hCall, ?_, ?_⟩
  · intro list hOk
    rcases rootsIn_ok hOk with ⟨generation, more, hResult⟩
    exact hExact generation list more hResult
  · intro hThrough
    rw [hGiven hThrough]
    rfl

end

/- A core that does nothing but what is asked of the daemon. -/
def idleCore : Core World where
  exchange _ _ _ w := (.error timedOut, w)
  exchange_code := by
    rintro _ _ _ _ _ ⟨⟩
    exact nofun
  exchange_expected := by
    rintro _ _ _ _ _ ⟨⟩
  vet _ w := (.error (.malformed []), w)
  mayReload w := (false, w)
  mayChange w := (.ok (), w)
  maySetCompat w := (.ok (), w)
  setCompat _ w := (.ok (), w)
  add _ _ _ w := (.error (.failed []), w)
  remove _ w := (.ok (), w)
  distrusted w := (.ok [], w)
  distrust _ _ w := (.ok none, w)
  restore text w := (.ok text, w)
  resolve text w := (.ok text, w)

/-
  The daemon reads the first bytes of the request, another
  connection comes and the bundle is gone, and it reads on.
-/
def busyMeeting : Meeting Key where
  now := 0
  meanwhile sent := [
    .attend [1] {
      id := 1
      reads := .interrupted :: piecesOf (sent.take 3)
      env := bundleMissing },
    .accept 1 true,
    .sweep [],
    .wake true none bundleMissing,
    .expire 2]
  reads sent := piecesOf (sent.drop 3)
  env := announcing []
  turns := List.replicate 1024 (.read 1)
  codes e hTurn := by cases (List.mem_replicate.mp hTurn).2

/- The world where it reads the last of the request. -/
theorem busy_gives
    {first : World}
    (hFirst : first = start purposeOutside {} Render.sampleHost
      (announcing [])) :
    ∃ v, busyMeeting.before purposeOutside
        (frame ((Request.roots true none).encode messagePack))
        first = some v ∧
      (v.daemon.roots true none).length = 1 ∧
      Sendable true none v ∧
      GetsThrough purposeOutside 4096 busyMeeting.turns 1 true
        none v := by
  have hAny : (busyMeeting.before purposeOutside
      (frame ((Request.roots true none).encode messagePack))
      first).any (fun v => decide (
        (v.daemon.roots true none).length = 1 ∧
        (v.daemon.generation < 2 ^ 64 ∧
          ∀ root ∈ v.daemon.roots true none, Typed root) ∧
        permits purposeOutside v 1 (.roots true none) = true ∧
        (sendRoots messagePack 4096 v.daemon.generation
          (v.daemon.roots true none)).2 = true ∧
        (∀ chunk ∈ chunks rootsPerChunk
            (v.daemon.roots true none),
          chunkSize v.daemon.generation chunk ≤
            maxMessageBytes) ∧
        totalWeight messagePack ((answerOf purposeOutside 4096 1
          true none v).map Written.reply) ≤ maxSnapshotBytes ∧
        ((answerOf purposeOutside 4096 1 true none v).flatMap
            Written.bytes).length +
          (answerOf purposeOutside 4096 1 true none v).length <
            reads busyMeeting.turns)) = true := by
    rw [hFirst, start, @refresh_announcing [] []
      (by decide +kernel) (by decide +kernel)]
    decide +kernel
  rcases (Option.any_eq_true _ _).mp hAny with
    ⟨v, hBefore, hHere⟩
  rcases of_decide_eq_true hHere with
    ⟨hOne, ⟨hGeneration, hTyped⟩, hPermits, hWhole, hChunks,
      hTotal, hEnough⟩
  refine ⟨v, hBefore, hOne, ⟨hGeneration, hTyped⟩, hPermits,
    hWhole, hChunks, hTotal, ?_, hEnough⟩
  intro e hTurn
  cases (List.mem_replicate.mp hTurn).2

def socketClient : Client where
  path := Text.utf8 "/trust.sock".toList
  timeoutMs := 10000
  socketPath := by decide
  timeout_pos := by decide
  timeout_lt := by decide

theorem roots_served_busy :
    let first := start purposeOutside {} Render.sampleHost
      (announcing [])
    let lent := Heap.empty.alloc Allocator.bump
      (Abi.Block.octets socketClient.path)
    let payload := (Request.roots true none).encode messagePack
    ∃ v w', busyMeeting.before purposeOutside (frame payload)
        first = some v ∧
      (v.daemon.roots true none).length = 1 ∧
      socketClient.roots Allocator.bump
          (wired purposeOutside busyMeeting idleCore)
          ⟨lent.1, socketClient.path.length⟩ true none
          lent.2 first =
        some (.ok (v.daemon.roots true none), lent.2, w') := by
  intro first lent payload
  rcases @busy_gives first rfl with
    ⟨v, hBefore, hOne, hSendable, hThrough⟩
  have hTable : SameTable
      (boot purposeOutside {} Render.sampleHost) first :=
    refresh_table (announcing []) _
  have hId : first.daemon.nextId = 0 := hTable.nextId
  have hMet : Met purposeOutside busyMeeting payload first
      v := by
    refine ⟨rfl, ?_, ?_, hBefore, ?_, ?_, ?_⟩
    · rw [hTable.clients]
      decide
    · intro a ha
      rcases List.mem_cons.mp ha with rfl | ha
      · intro _
        exact List.forall_mem_cons.mpr
          ⟨trivial, plain_piecesOf _⟩
      rcases List.mem_cons.mp ha with rfl | ha
      · trivial
      rcases List.mem_cons.mp ha with rfl | ha
      · trivial
      rcases List.mem_cons.mp ha with rfl | ha
      · trivial
      rw [List.mem_singleton.mp ha]
      change 2 - 0 < clientTimeout
      decide
    · exact plain_piecesOf _
    · rw [hId]
      decide +kernel
    · decide +kernel
  have hPath : TrustClient.Borrowed lent.2
      ⟨lent.1, socketClient.path.length⟩ socketClient.path :=
    ⟨Allocator.bump.fresh_ne_null _, rfl,
      Heap.slice_of_read (Heap.read_alloc_self _ _ _)⟩
  have hRun : run (actOn purposeOutside) (some first)
      ([] : List (Act Key)) = some first := rfl
  rcases roots_served Allocator.bump idleCore {}
    Render.sampleHost (announcing []) hRun
    lawful_messagePack sized_messagePack socketClient _ true
    none none hMet (by decide +kernel) hSendable hPath trivial
    with
    ⟨outcome, w', -, hCall, -, hGiven⟩
  rw [hId] at hGiven
  rw [hGiven hThrough] at hCall
  exact ⟨v, w', hBefore, hOne, hCall⟩

end TrustClient

end Trustd
