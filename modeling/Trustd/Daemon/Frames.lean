import Mathlib.Algebra.Order.BigOperators.Group.List
import Trustd.Core.Reference
import Trustd.Core.Sizes
import Trustd.Daemon.Subscribers

/-
  How long the frames are that the daemon writes.

  The writer splits a root set by the number of its roots, and
  the readers refuse a frame by its bytes.

  Key definitions include:
    * `Trustd.Control.Fits`
    * `Trustd.Control.ChunksFit`
    * `Trustd.Daemon.FramesFit`
    * `Trustd.Daemon.Sparing`

  Key theorems include:
    * `Trustd.Control.sendRoots_fits_iff`
    * `Trustd.Daemon.frames_fit_iff`
    * `Trustd.Daemon.run_fits`
-/

------------------------------------------------------------
-- One Reply
------------------------------------------------------------

namespace Trustd

namespace Control

open General Wire

variable {mp : MsgPack}

/- A reply whose payload the readers take. -/
def Fits (mp : MsgPack) (written : Written) : Prop :=
  (written.reply.encode mp).length ≤ maxMessageBytes

theorem fits_iff
    (hSized : Sized mp)
    {written : Written} :
    Fits mp written ↔
      written.reply.size ≤ maxMessageBytes := by
  rw [Fits, length_encode hSized]

/- Every chunk of a root set is small enough. -/
def ChunksFit (generation : Nat) (roots : List Root) : Prop :=
  ∀ chunk ∈ chunks rootsPerChunk roots,
    chunkSize generation chunk ≤ maxMessageBytes

/- With room for it a frame is written whole. -/
theorem writeFrame_room
    {payload : Bytes}
    (hShort : payload.length ≤ maxMessageBytes)
    (room : Nat) :
    writeFrame (room + (frame payload).length) payload =
      (frame payload, some room) := by
  have hLimit : ¬ payload.length ≥ 2 ^ 32 := by
    unfold maxMessageBytes at hShort
    omega
  rw [writeFrame, if_neg hLimit]
  dsimp only
  rw [if_pos (Nat.le_add_left _ _), Nat.add_sub_cancel]

/-
  Whatever room a peer leaves, the chunks that are written to
  it fit if and only if all of them do.
-/
theorem sendChunks_fits_iff
    (hSized : Sized mp)
    (generation : Nat)
    (parts : List (List Root)) :
    (∀ room, ∀ x ∈ (sendChunks mp generation room parts).1,
      Fits mp x) ↔
      ∀ chunk ∈ parts,
        chunkSize generation chunk ≤ maxMessageBytes := by
  constructor
  · intro hAll
    induction parts with
    | nil => simp
    | cons chunk rest ih =>
        have hHead : chunkSize generation chunk ≤
            maxMessageBytes := by
          have hFirst := hAll 0
          simp only [sendChunks] at hFirst
          rcases hWrite : writeFrame 0 ((Reply.roots generation
              chunk (rest ≠ [])).encode mp) with
            ⟨bytes, _ | left⟩
          · rw [hWrite] at hFirst
            exact (fits_iff hSized).mp (hFirst _
              (List.mem_singleton_self _))
          · rw [hWrite] at hFirst
            exact (fits_iff hSized).mp (hFirst _
              List.mem_cons_self)
        rw [List.forall_mem_cons]
        refine ⟨hHead, ih (fun room x hx => ?_)⟩
        have hShort : ((Reply.roots generation chunk
            (rest ≠ [])).encode mp).length ≤
              maxMessageBytes := by
          rw [length_encode hSized]
          exact hHead
        have hNext := hAll (room + (frame ((Reply.roots
          generation chunk (rest ≠ [])).encode mp)).length) x
        simp only [sendChunks, writeFrame_room hShort] at hNext
        exact hNext (List.mem_cons_of_mem _ hx)
  · intro hAll room x hx
    rcases mem_sendChunks hx with ⟨chunk, more, hChunk, hReply⟩
    rw [fits_iff hSized, hReply]
    exact hAll chunk hChunk

/- The reply that there are no roots is short. -/
theorem empty_size_le (generation : Nat) :
    (Reply.roots generation [] false).size ≤
      maxMessageBytes := by
  have hCount : uintSize generation ≤ 9 := by
    unfold uintSize
    split_ifs <;> omega
  have hNone : countSize (([] : List Root).length % 2 ^ 32) =
      1 := by
    decide
  rw [Reply.size, chunkSize, hNone, List.map_nil, List.sum_nil]
  unfold maxMessageBytes
  omega

/- A root set is written so. -/
theorem sendRoots_fits_iff
    (hSized : Sized mp)
    (generation : Nat)
    (roots : List Root) :
    (∀ room, ∀ x ∈ (sendRoots mp room generation roots).1,
      Fits mp x) ↔
      ChunksFit generation roots := by
  unfold sendRoots ChunksFit
  by_cases hNil : roots = []
  · subst hNil
    simp only [if_pos]
    refine iff_of_true (fun room x hx => ?_) (by simp)
    rw [List.mem_singleton.mp hx, fits_iff hSized]
    exact empty_size_le generation
  · simp only [if_neg hNil]
    exact sendChunks_fits_iff hSized generation _

/- A connection is closed without a reply or with an error. -/
def Closing : Progress → Prop
  | .closed (some reply) => ∃ message, reply = .error message
  | _ => True

theorem drain_closing
    {buf : Bytes}
    {reads : List ReadResult}
    {progress : Progress}
    (hError : drain buf reads = .error progress) :
    Closing progress := by
  induction reads generalizing buf with
  | nil => cases hError
  | cons r reads ih =>
      cases r with
      | data bytes =>
          rw [drain] at hError
          split_ifs at hError with hLarge
          · cases hError
            exact ⟨_, rfl⟩
          · exact ih hError
      | endOfStream =>
          cases hError
          trivial
      | interrupted => exact ih hError
      | failed =>
          cases hError
          trivial

theorem examine_closing
    (debug : Text → Text)
    (buf : Bytes) :
    Closing (examine mp debug buf) := by
  unfold examine
  dsimp only
  split_ifs
  · trivial
  · exact ⟨_, rfl⟩
  · trivial
  · cases Request.decode mp ((buf.drop 4).take
        (frameLength buf)) with
    | ok request => trivial
    | error e => exact ⟨_, rfl⟩

theorem read_closing
    (debug : Text → Text)
    (client : Client)
    (reads : List ReadResult) :
    Closing (client.read mp debug reads).1 := by
  unfold Client.read
  cases hDrain : drain client.buf reads with
  | error progress => exact drain_closing hDrain
  | ok buf => exact examine_closing debug buf

end Control

end Trustd

------------------------------------------------------------
-- One Act Of The Loop
------------------------------------------------------------

namespace Trustd

namespace Daemon

open Cert Control General Registry Shared Store Wire

/- What an event meets, with so much room at each peer. -/
def Env.withRoom
    {κ : Type}
    (env : Env κ)
    (room : Stream → Nat) :
    Env κ :=
  { env with room }

/- An act where each peer takes so many bytes. -/
def Act.withRoom
    {κ : Type}
    (room : Stream → Nat) :
    Act κ → Act κ
  | .attend polled arrival => .attend polled
      { arrival with env := arrival.env.withRoom room }
  | .wake told stamp env =>
      .wake told stamp (env.withRoom room)
  | a => a

/- What an act adds to what is written. -/
def added (w w' : World) : List Sent :=
  w'.outbox.drop w.outbox.length

section

variable {κ : Type}
variable [Reader (Except IoError) κ]
variable (out : Outside)

/-
  Whatever room the peers leave, every reply that an act sets
  out to write has a payload the readers take.
-/
def FramesFit (w : World) (a : Act κ) : Prop :=
  ∀ room w', act out w (a.withRoom room) = some w' →
    ∀ x ∈ added w w', Fits out.msgpack x.written

/- What a refresh announces is small enough to be sent. -/
def AnnouncedFits (env : Env κ) (s : State) : Prop :=
  ∀ composed, announcedBy out env s = some composed →
    ∀ subscriber ∈ s.subscribers,
      ChunksFit (s.generation + 1)
        (composed.roots.map (toRoot subscriber.2))

/- An error whose text is short enough to be sent. -/
def ErrorFits (reply : Reply) : Prop :=
  ∀ message, reply = .error message →
    (Text.utf8 message).length ≤ 65522

/- The answer to a request that is allowed. -/
def AnswerFits
    (env : Env κ)
    (w : World) :
    Request → Prop
  | .status => w.daemon.status.size ≤ maxMessageBytes
  | .roots withDer purpose =>
      ChunksFit w.daemon.generation
        (w.daemon.roots withDer purpose)
  | .subscribe withDer =>
      ChunksFit w.daemon.generation
        (w.daemon.roots withDer none)
  | .reload => AnnouncedFits out env w.daemon ∧
      ErrorFits (degradedReply (refresh out env w).daemon)

/-
  All that an act may have to write is small enough: the text
  of an error, a status, and the chunks of a root set.
-/
def Sparing (w : World) : Act κ → Prop
  | .attend polled arrival =>
      arrival.id ∈ polled →
      ∀ client, w.daemon.clients.lookup arrival.id =
          some client →
        (∀ reply, (client.read out.msgpack out.debug
            arrival.reads).1 = .closed (some reply) →
          ErrorFits reply) ∧
        ∀ request, (client.read out.msgpack out.debug
            arrival.reads).1 = .request request →
          permits out w client.stream request = true →
            AnswerFits out arrival.env
              (w.withoutClient arrival.id) request
  | .wake told stamp env =>
      told = true ∨ stamp ≠ w.daemon.bundleStamp →
        AnnouncedFits out env w.daemon
  | _ => True

variable {out}

theorem added_of_append
    {w w' : World}
    {sent : List Sent}
    (hOutbox : w'.outbox = w.outbox ++ sent) :
    added w w' = sent := by
  rw [added, hOutbox, List.drop_left]

/- Of an error its text is what counts. -/
theorem error_fits_iff
    {message : Text} :
    ErrorFits (.error message) ↔
      (Reply.error message).size ≤ maxMessageBytes := by
  rw [error_size_le_iff]
  constructor
  · intro hFits
    exact hFits message rfl
  · rintro hShort _ hSame
    cases hSame
    exact hShort

theorem degradedReply_fits_iff (s : State) :
    ErrorFits (degradedReply s) ↔
      (degradedReply s).size ≤ maxMessageBytes := by
  unfold degradedReply
  split_ifs
  · exact error_fits_iff
  · refine iff_of_true (fun message hError => ?_) (by decide)
    cases hError

section

variable (hSized : Sized out.msgpack)

include hSized

/- A single reply. -/
omit [Reader (Except IoError) κ] in
theorem reply_fits_iff
    (env : Env κ)
    (stream : Stream)
    (message : Reply)
    (w : World) :
    (∀ room, ∀ x ∈ added w (reply out (env.withRoom room)
      stream message w), Fits out.msgpack x.written) ↔
      message.size ≤ maxMessageBytes := by
  have hAdded : ∀ room, added w (reply out
      (env.withRoom room) stream message w) =
        [⟨stream, (respond out.msgpack (room stream)
          message).1⟩] :=
    fun room => added_of_append rfl
  simp only [hAdded, List.mem_singleton, forall_eq]
  constructor
  · intro hAll
    exact (fits_iff hSized).mp (hAll (fun _ => 0))
  · intro hSize room
    exact (fits_iff hSized).mpr hSize

/- A root set that is sent to one peer. -/
theorem send_fits_iff
    (stream : Stream)
    (generation : Nat)
    (roots : List Root) :
    (∀ room : Stream → Nat, ∀ x ∈ (sendRoots out.msgpack
      (room stream) generation roots).1.map
        (fun x => (⟨stream, x⟩ : Sent)),
      Fits out.msgpack x.written) ↔
      ChunksFit generation roots := by
  rw [← sendRoots_fits_iff hSized]
  simp only [List.forall_mem_map]
  constructor
  · intro hAll room
    exact hAll (fun _ => room)
  · intro hAll room
    exact hAll (room stream)

/- What a refresh sends to the subscribers. -/
theorem refresh_fits_iff
    (env : Env κ)
    (w : World) :
    (∀ room, ∀ x ∈ added w (refresh out (env.withRoom room) w),
      Fits out.msgpack x.written) ↔
      AnnouncedFits out env w.daemon := by
  have hSame : ∀ room, announcedBy out (env.withRoom room)
      w.daemon = announcedBy out env w.daemon := fun _ => rfl
  unfold AnnouncedFits
  cases hAnnounced : announcedBy out env w.daemon with
  | none =>
      refine iff_of_true (fun room x hx => ?_)
        (fun composed hSome => by cases hSome)
      have hQuiet := refresh_quiet out
        ((hSame room).trans hAnnounced)
      have hNone : added w (refresh out (env.withRoom room)
          w) = [] := by
        apply added_of_append
        rw [List.append_nil]
        exact hQuiet.2.2.2.2
      rw [hNone] at hx
      cases hx
  | some composed =>
      have hAdded : ∀ room, added w (refresh out
          (env.withRoom room) w) =
            w.daemon.subscribers.flatMap (fun s =>
              (sendRoots out.msgpack (room s.1)
                (w.daemon.generation + 1)
                (composed.roots.map (toRoot s.2))).1.map
                  (fun x => ⟨s.1, x⟩)) :=
        fun room => added_of_append (refresh_announces out
          ((hSame room).trans hAnnounced)).2.2.2.2
      simp only [hAdded, List.mem_flatMap, Option.some.injEq,
        forall_eq']
      constructor
      · intro hAll s hs
        rw [← send_fits_iff hSized s.1]
        exact fun room x hx => hAll room x ⟨s, hs, hx⟩
      · rintro hAll room x ⟨s, hs, hx⟩
        exact (send_fits_iff hSized s.1 _ _).mpr (hAll s hs)
          room x hx

end

/- A refresh takes nothing back. -/
theorem outbox_refresh
    (env : Env κ)
    (w : World) :
    ∃ sent, (refresh out env w).outbox =
      w.outbox ++ sent := by
  cases hAnnounced : announcedBy out env w.daemon with
  | none =>
      refine ⟨[], ?_⟩
      rw [List.append_nil]
      exact (refresh_quiet out hAnnounced).2.2.2.2
  | some composed =>
      exact ⟨_, (refresh_announces out hAnnounced).2.2.2.2⟩

/- What a refresh says of itself does not depend on rooms. -/
theorem degradedReply_withRoom
    (env : Env κ)
    (room : Stream → Nat)
    (w : World) :
    degradedReply (refresh out (env.withRoom room) w).daemon =
      degradedReply (refresh out env w).daemon := by
  have hLoad : (env.withRoom room).load = env.load := rfl
  have hBundle : (env.withRoom room).bundle =
      env.bundle := rfl
  have hNow : (env.withRoom room).now = env.now := rfl
  have hStamp : (env.withRoom room).stamp = env.stamp := rfl
  have hAnnounce : ∀ w : World,
      degradedReply (announce out (env.withRoom room)
        w).daemon =
      degradedReply (announce out env w).daemon := by
    intro w
    unfold announce
    rw [publish_eq, publish_eq]
    rfl
  unfold refresh
  rw [hLoad, hBundle, hNow, hStamp]
  cases env.load with
  | error e => rfl
  | ok fresh =>
      cases env.bundle with
      | error e => rfl
      | ok shipped =>
          dsimp only
          cases compose out.crates shipped
              (adopt out fresh env.stamp
                w).daemon.config.additions
              (adopt out fresh env.stamp
                w).daemon.config.distrust env.now with
          | error e => rfl
          | ok composed =>
              dsimp only
              split_ifs
              · rfl
              · exact hAnnounce _

section

variable (hSized : Sized out.msgpack)

include hSized

/- A reload sends what its refresh does, and then answers. -/
theorem reload_fits_iff
    (env : Env κ)
    (stream : Stream)
    (w : World) :
    (∀ room, ∀ x ∈ added w (reply out (env.withRoom room)
      stream (degradedReply (refresh out (env.withRoom room)
        w).daemon) (refresh out (env.withRoom room) w)),
      Fits out.msgpack x.written) ↔
      AnswerFits out env w .reload := by
  have hAdded : ∀ room, added w (reply out (env.withRoom room)
      stream (degradedReply (refresh out (env.withRoom room)
        w).daemon) (refresh out (env.withRoom room) w)) =
      added w (refresh out (env.withRoom room) w) ++
        added (refresh out (env.withRoom room) w)
          (reply out (env.withRoom room) stream
            (degradedReply (refresh out env w).daemon)
            (refresh out (env.withRoom room) w)) := by
    intro room
    rcases outbox_refresh (env.withRoom room) w with
      ⟨sent, hSent⟩
    rw [degradedReply_withRoom, added_of_append hSent]
    refine (added_of_append (?_ : _ = _ ++ (sent ++
      [⟨stream, (respond out.msgpack (room stream)
        (degradedReply (refresh out env
          w).daemon)).1⟩]))).trans ?_
    · rw [← List.append_assoc, ← hSent]
      rfl
    · rw [added_of_append rfl]
      rfl
  rw [AnswerFits, ← refresh_fits_iff hSized,
    degradedReply_fits_iff]
  simp only [hAdded, List.forall_mem_append, forall_and]
  refine and_congr_right fun _ => ?_
  constructor
  · intro hAll
    have hOne := hAll (fun _ => 0)
    rw [added_of_append rfl] at hOne
    exact (fits_iff hSized).mp
      (hOne _ (List.mem_singleton_self _))
  · intro hSize room x hx
    rw [added_of_append rfl] at hx
    rw [List.mem_singleton.mp hx, fits_iff hSized]
    exact hSize

/- An answer, to a request that is allowed or is not. -/
theorem handle_fits_iff
    (env : Env κ)
    (stream : Stream)
    (request : Request)
    (w : World) :
    (∀ room, ∀ x ∈ added w (handle out (env.withRoom room)
      stream request w), Fits out.msgpack x.written) ↔
      (permits out w stream request = true →
        AnswerFits out env w request) := by
  by_cases hPermits : permits out w stream request = true
  · simp only [handle, hPermits, Bool.true_eq_false, if_false,
      forall_const]
    cases request with
    | status => exact reply_fits_iff hSized env stream _ w
    | roots withDer purpose =>
        rw [AnswerFits, ← send_fits_iff hSized stream]
        refine forall_congr' fun room => ?_
        rw [added_of_append rfl]
        rfl
    | subscribe withDer =>
        rw [AnswerFits, ← send_fits_iff hSized stream]
        refine forall_congr' fun room => ?_
        rw [added_of_append]
        dsimp only
        split_ifs
        · rfl
        · rfl
    | reload => exact reload_fits_iff hSized env stream w
  · have hDenied := Bool.eq_false_iff.mpr hPermits
    simp only [handle, if_pos hDenied]
    refine iff_of_true ?_ (fun hAllowed =>
      absurd hAllowed hPermits)
    exact (reply_fits_iff hSized env stream _ w).mpr
      (by decide)

/- A connection that is reported. -/
theorem attend_fits_iff
    (polled : List Nat)
    (arrival : Arrival κ)
    (w : World) :
    (∀ room, ∀ x ∈ added w (attend out polled
      { arrival with env := arrival.env.withRoom room } w),
      Fits out.msgpack x.written) ↔
      Sparing out w (.attend polled arrival) := by
  have hNothing : ∀ w' : World, w'.outbox = w.outbox →
      added w w' = [] := by
    intro w' hSame
    apply added_of_append
    rw [hSame, List.append_nil]
  unfold Sparing attend
  dsimp only
  by_cases hPolled : arrival.id ∉ polled
  · simp only [if_pos hPolled, hNothing w rfl]
    refine iff_of_true (fun room x hx => by cases hx)
      (fun hIn => absurd hIn hPolled)
  rw [not_not] at hPolled
  simp only [hPolled, not_true_eq_false, if_false,
    forall_const]
  cases hFound : w.daemon.clients.lookup arrival.id with
  | none =>
      simp only [hNothing w rfl]
      exact iff_of_true (fun room x hx => by cases hx)
        (fun client hSome => by cases hSome)
  | some client =>
      simp only [Option.some.injEq, forall_eq']
      have hClosing := @read_closing out.msgpack out.debug
        client arrival.reads
      rcases hRead : client.read out.msgpack out.debug
        arrival.reads with ⟨progress, after⟩
      rw [hRead] at hClosing
      cases progress with
      | incomplete =>
          simp only [hNothing (w.updateClient arrival.id after)
            rfl]
          exact iff_of_true (fun room x hx => by cases hx)
            ⟨fun reply hClosed => (by cases hClosed),
              fun request hRequest => by cases hRequest⟩
      | request request =>
          refine (handle_fits_iff hSized arrival.env
            client.stream request
            (w.withoutClient arrival.id)).trans ?_
          constructor
          · intro hAnswer
            refine ⟨fun reply hClosed => (by cases hClosed),
              fun other hOther => ?_⟩
            cases hOther
            exact hAnswer
          · rintro ⟨-, hAnswer⟩
            exact hAnswer request rfl
      | closed closing =>
          cases closing with
          | none =>
              simp only [hNothing (w.withoutClient arrival.id)
                rfl]
              exact iff_of_true (fun room x hx => by cases hx)
                ⟨fun reply hClosed => (by cases hClosed),
                  fun request hRequest => by cases hRequest⟩
          | some refusal =>
              rcases hClosing with ⟨message, rfl⟩
              refine (reply_fits_iff hSized arrival.env
                client.stream (.error message)
                (w.withoutClient arrival.id)).trans ?_
              rw [← error_fits_iff]
              constructor
              · intro hError
                refine ⟨fun reply hClosed => ?_,
                  fun request hRequest => by cases hRequest⟩
                cases hClosed
                exact hError
              · rintro ⟨hError, -⟩
                exact hError _ rfl

/- Every other act of the loop. -/
theorem act_fits_iff
    (w : World)
    (a : Act κ) :
    FramesFit out w a ↔ Sparing out w a := by
  have hNothing : ∀ w' : World, w'.outbox = w.outbox →
      added w w' = [] := by
    intro w' hSame
    apply added_of_append
    rw [hSame, List.append_nil]
  unfold FramesFit
  cases a with
  | accept now usable =>
      refine iff_of_true (fun room w' hAct x hx => ?_) trivial
      cases hAct
      rw [hNothing] at hx
      · cases hx
      · unfold accept
        split_ifs
        · rfl
        · rfl
        · rfl
  | attend polled arrival =>
      rw [← attend_fits_iff hSized]
      simp only [Act.withRoom, act, Option.some.injEq,
        forall_eq']
  | sweep closed =>
      refine iff_of_true (fun room w' hAct x hx => ?_) trivial
      rcases Option.map_eq_some_iff.mp hAct with
        ⟨subscribers, -, rfl⟩
      rw [hNothing (w.withSubscribers subscribers) rfl] at hx
      cases hx
  | wake told stamp env =>
      simp only [Act.withRoom, act, Option.some.injEq,
        forall_eq', Sparing, wake]
      by_cases hWakes : told = true ∨
          stamp ≠ w.daemon.bundleStamp
      · simp only [hWakes, if_true, forall_const]
        exact refresh_fits_iff hSized env w
      · simp only [if_neg hWakes, hNothing w rfl]
        exact iff_of_true (fun room x hx => by cases hx)
          (fun hOther => absurd hOther hWakes)
  | expire now =>
      refine iff_of_true (fun room w' hAct x hx => ?_) trivial
      cases hAct
      rw [hNothing (expire now w) rfl] at hx
      cases hx


end

end

end Daemon

end Trustd

------------------------------------------------------------
-- A Run Of The Loop
------------------------------------------------------------

namespace Trustd

namespace Daemon

open Cert Control General Registry Render Shared Store Wire

section

variable {κ : Type}
variable [Reader (Except IoError) κ]
variable {out : Outside}

/- What is written stays written. -/
theorem handle_extends
    (env : Env κ)
    (stream : Stream)
    (request : Request)
    (w : World) :
    ∃ sent, (handle out env stream request w).outbox =
      w.outbox ++ sent := by
  unfold handle
  by_cases hDenied : permits out w stream request = false
  · rw [if_pos hDenied]
    exact ⟨_, rfl⟩
  rw [if_neg hDenied]
  cases request with
  | status => exact ⟨_, rfl⟩
  | roots withDer purpose => exact ⟨_, rfl⟩
  | subscribe withDer =>
      dsimp only
      split_ifs
      · exact ⟨_, rfl⟩
      · exact ⟨_, rfl⟩
  | reload =>
      rcases @outbox_refresh _ _ out env w with
        ⟨sent, hSent⟩
      dsimp only
      rw [reply, World.send, hSent, List.append_assoc]
      exact ⟨_, rfl⟩

theorem act_extends
    {w w' : World}
    {a : Act κ}
    (hAct : act out w a = some w') :
    ∃ sent, w'.outbox = w.outbox ++ sent := by
  have hSame : ∀ w' : World, w'.outbox = w.outbox →
      ∃ sent, w'.outbox = w.outbox ++ sent :=
    fun w' hOutbox => ⟨[], by rw [hOutbox, List.append_nil]⟩
  cases a with
  | accept now usable =>
      cases hAct
      apply hSame
      unfold accept
      split_ifs
      · rfl
      · rfl
      · rfl
  | attend polled arrival =>
      cases hAct
      unfold attend
      by_cases hPolled : arrival.id ∉ polled
      · rw [if_pos hPolled]
        exact hSame w rfl
      rw [if_neg hPolled]
      cases w.daemon.clients.lookup arrival.id with
      | none => exact hSame w rfl
      | some client =>
          dsimp only
          rcases client.read out.msgpack out.debug
            arrival.reads with
            ⟨_ | request | (_ | message), after⟩
          · exact hSame (w.updateClient arrival.id after) rfl
          · exact handle_extends arrival.env client.stream
              request (w.withoutClient arrival.id)
          · exact hSame (w.withoutClient arrival.id) rfl
          · exact ⟨_, rfl⟩
  | sweep closed =>
      rcases Option.map_eq_some_iff.mp hAct with
        ⟨subscribers, -, rfl⟩
      exact hSame (w.withSubscribers subscribers) rfl
  | wake told stamp env =>
      cases hAct
      unfold wake
      split_ifs
      · exact outbox_refresh env w
      · exact hSame w rfl
  | expire now =>
      cases hAct
      exact hSame (expire now w) rfl

theorem run_extends
    {acts : List (Act κ)}
    {w w' : World}
    (hRun : run (actOn out) (some w) acts = some w') :
    ∃ sent, w'.outbox = w.outbox ++ sent := by
  induction acts generalizing w with
  | nil =>
      cases hRun
      exact ⟨[], (List.append_nil _).symm⟩
  | cons a acts ih =>
      rw [run_cons] at hRun
      have hStep : actOn out (some w) a = act out w a := rfl
      cases hAct : act out w a with
      | none =>
          rw [hStep, hAct, run_none] at hRun
          cases hRun
      | some w₁ =>
          rw [hStep, hAct] at hRun
          rcases act_extends hAct with ⟨sent, hSent⟩
          rcases ih hRun with ⟨later, hLater⟩
          refine ⟨sent ++ later, ?_⟩
          rw [hLater, hSent, List.append_assoc]

/- An act as it is, with the room its own peers leave. -/
theorem FramesFit.own
    {w w' : World}
    {a : Act κ}
    (hFits : FramesFit out w a)
    (hAct : act out w a = some w') :
    ∀ x ∈ added w w', Fits out.msgpack x.written := by
  cases a with
  | accept now usable => exact hFits (fun _ => 0) w' hAct
  | attend polled arrival =>
      exact hFits arrival.env.room w' hAct
  | sweep closed => exact hFits (fun _ => 0) w' hAct
  | wake told stamp env => exact hFits env.room w' hAct
  | expire now => exact hFits (fun _ => 0) w' hAct

/- Every act of a run, in the state it is done in. -/
def SparingAlong
    (out : Outside)
    (w : World)
    (acts : List (Act κ)) :
    Prop :=
  Along (actOn out)
    (fun s a => ∀ w, s = some w → Sparing out w a)
    (some w) acts

/- All that is written in a run of such acts. -/
theorem run_fits
    (hSized : Sized out.msgpack)
    {acts : List (Act κ)}
    {w w' : World}
    (hRun : run (actOn out) (some w) acts = some w')
    (hSparing : SparingAlong out w acts) :
    ∀ x ∈ added w w', Fits out.msgpack x.written := by
  induction acts generalizing w with
  | nil =>
      cases hRun
      intro x hx
      rw [added_of_append (List.append_nil _).symm] at hx
      cases hx
  | cons a acts ih =>
      rw [run_cons] at hRun
      have hStep : actOn out (some w) a = act out w a := rfl
      cases hAct : act out w a with
      | none =>
          rw [hStep, hAct, run_none] at hRun
          cases hRun
      | some w₁ =>
          rw [hStep, hAct] at hRun
          have hRest : SparingAlong out w₁ acts := by
            have hTail := hSparing.2
            rw [hStep, hAct] at hTail
            exact hTail
          have hFirst := ((act_fits_iff hSized _ a).mpr
            (hSparing.1 _ rfl)).own hAct
          have hLater := ih hRun hRest
          rcases act_extends hAct with ⟨sent, hSent⟩
          rcases run_extends hRun with ⟨later, hLast⟩
          rw [added_of_append hSent] at hFirst
          rw [added_of_append hLast] at hLater
          rw [hSent, List.append_assoc] at hLast
          rw [added_of_append hLast]
          intro x hx
          rcases List.mem_append.mp hx with hx | hx
          · exact hFirst x hx
          · exact hLater x hx

end

/-
  An act writes frames that the readers take, whatever room
  the peers leave, if and only if what it has to write is small
  enough, and then so does a run of such acts.
-/
theorem frames_fit_iff
    {κ : Type}
    [Reader (Except IoError) κ]
    (out : Outside)
    (hSized : Sized out.msgpack)
    (w : World) :
    (∀ a : Act κ, FramesFit out w a ↔ Sparing out w a) ∧
      ∀ acts : List (Act κ), ∀ w',
        run (actOn out) (some w) acts = some w' →
        SparingAlong out w acts →
        ∀ x ∈ added w w', Fits out.msgpack x.written := by
  refine ⟨act_fits_iff hSized w, fun acts w' hRun hSparing => ?_⟩
  exact run_fits hSized hRun hSparing

/- A peer that is connected and has sent a request. -/
def askingWorld (composed : Composed) : World :=
  { daemon :=
      { config := {}
        control := []
        composed
        clients := [(1, { stream := 1 })] }
    host := sampleHost }

def asking (request : Request) : Act Key :=
  .attend [1] (arriving (purposeEnv (.mk [] []) (fun _ => {})
    (fun _ => 0)) 1 request)

/- The bundle makes a store, whose roots fit a chunk. -/
theorem compose_chunksFit :
    ∃ composed, compose purposeCrates purposeBundle [] [] none =
        .ok composed ∧
      composed.roots ≠ [] ∧
      ChunksFit 0 (composed.roots.map (toRoot true)) := by
  have hAny : (composeFrom purposeCrates
      (List.replicate minimumShipped purposeShipped) [] []
        none).toOption.any (fun composed =>
          decide (composed.roots ≠ []) &&
          (chunks rootsPerChunk
            (composed.roots.map (toRoot true))).all
              (fun chunk =>
                chunkSize 0 chunk ≤ maxMessageBytes)) =
        true := by
    decide +kernel
  rcases exists_compose_purposeBundle hAny with
    ⟨composed, hCompose, hBoth⟩
  rcases Bool.and_eq_true_iff.mp hBoth with ⟨hSome, hFit⟩
  refine ⟨composed, hCompose, of_decide_eq_true hSome, ?_⟩
  intro chunk hChunk
  exact of_decide_eq_true (List.all_eq_true.mp hFit chunk
    hChunk)

/- The roots of a daemon that serves some. -/
theorem frames_fit_roots :
    ∃ composed, compose purposeCrates purposeBundle [] [] none =
        .ok composed ∧
      composed.roots ≠ [] ∧
      FramesFit purposeOutside (askingWorld composed)
        (asking (.roots true none)) := by
  rcases compose_chunksFit with ⟨composed, hCompose, hSome, hFit⟩
  have hRead : (({ stream := 1 } : Client).read messagePack
      purposeOutside.debug [.data (frame
        ((Request.roots true none).encode messagePack))]).1 =
      .request (.roots true none) := by
    decide +kernel
  refine ⟨composed, hCompose, hSome, ((frames_fit_iff
    purposeOutside sized_messagePack (askingWorld composed)).1
      (asking (.roots true none))).mpr ?_⟩
  intro _ client hClient
  cases hClient
  refine ⟨fun reply hClosed => ?_, fun request hRequest _ => ?_⟩
  · cases hRead.symm.trans hClosed
  · cases hRead.symm.trans hRequest
    exact hFit

/- An addition with one purpose, of 65,536 letters. -/
def longAddition : Addition :=
  { name := "corp-ca".toList
    der := purposeAdded
    purposes := [List.replicate 65536 'a'] }

theorem length_utf8_replicate (n : Nat) :
    (Text.utf8 (List.replicate n 'a')).length = n := by
  induction n with
  | zero => rfl
  | succ n ih =>
      have hOne : (String.utf8EncodeChar 'a').length = 1 := by
        decide
      rw [List.replicate_succ, Text.utf8_cons,
        List.length_append, ih, hOne]
      omega

/- A chunk is larger than a text of one of its roots. -/
theorem textSize_le_of_chunksFit
    {generation : Nat}
    {roots : List Root}
    {root : Root}
    {purpose : Text}
    (hFit : ChunksFit generation roots)
    (hRoot : root ∈ roots)
    (hPurpose : purpose ∈ root.purposes) :
    textSize purpose ≤ maxMessageBytes := by
  rw [← flatten_chunks rootsPerChunk roots,
    List.mem_flatten] at hRoot
  rcases hRoot with ⟨chunk, hChunk, hRoot⟩
  have hTexts : textSize purpose ≤
      (root.purposes.map textSize).sum :=
    List.single_le_sum (by simp) _
      (List.mem_map_of_mem hPurpose)
  have hOne : textSize purpose ≤ root.size := by
    unfold Root.size textsSize
    omega
  have hSizes : root.size ≤ (chunk.map Root.size).sum :=
    List.single_le_sum (by simp) _ (List.mem_map_of_mem hRoot)
  have hAll := hFit chunk hChunk
  unfold chunkSize at hAll
  omega

/- The bundle and that addition make a store. -/
theorem compose_longAddition :
    ∃ composed, compose purposeCrates purposeBundle
        [longAddition] [] none = .ok composed ∧
      ∃ r ∈ composed.roots,
        List.replicate 65536 'a' ∈ r.purposes := by
  have hParsed : ∃ parsed,
      parse purposeCrates purposeAdded none = .ok parsed := by
    have hAny : (parse purposeCrates purposeAdded none).isOk =
        true := by
      decide +kernel
    cases hParse : parse purposeCrates purposeAdded none with
    | error e =>
        rw [hParse] at hAny
        cases hAny
    | ok parsed => exact ⟨parsed, rfl⟩
  rcases hParsed with ⟨parsed, hParse⟩
  have hEntry : addedEntry longAddition parsed ∈
      effective (parse purposeCrates)
        (fromPem purposeBundle) [longAddition] [] none := by
    refine mem_effective_iff.mpr ⟨⟨shippedEntries
      (parse purposeCrates) (fromPem purposeBundle), [], ?_,
      ?_⟩, List.not_mem_nil⟩
    · rw [candidates, addedEntries, List.filterMap_cons]
      have hSame : parse purposeCrates longAddition.der none =
          .ok parsed := hParse
      rw [hSame]
      rfl
    · intro b hb hSame
      rcases List.mem_filterMap.mp hb with ⟨der, hDer, hb⟩
      rw [fromPem_purposeBundle] at hDer
      rcases Option.map_eq_some_iff.mp hb with ⟨p, hp, rfl⟩
      rw [List.eq_of_mem_replicate hDer] at hp
      have hRead : parse purposeCrates purposeShipped none =
          .ok p := by
        cases hShipped : parse purposeCrates purposeShipped
          none with
        | error e =>
            rw [hShipped] at hp
            cases hp
        | ok q =>
            rw [hShipped] at hp
            cases hp
            rfl
      have hOther : fingerprint purposeCrates purposeShipped ≠
          fingerprint purposeCrates purposeAdded := by
        decide +kernel
      have hShipped : p.fingerprint =
          fingerprint purposeCrates purposeShipped :=
        (parse_ok purposeCrates hRead).2.1
      have hAdded : parsed.fingerprint =
          fingerprint purposeCrates purposeAdded :=
        (parse_ok purposeCrates hParse).2.1
      exact hOther (hShipped.symm.trans (hSame.trans hAdded))
  have hCases := @composeWith_cases (parse purposeCrates)
    (fromPem purposeBundle) [longAddition] [] none
  generalize hResult : composeWith (parse purposeCrates)
    (fromPem purposeBundle) [longAddition] [] none = result
    at hCases
  cases hCases with
  | implausible why hFew =>
      rw [fromPem_purposeBundle, List.length_replicate] at hFew
      exact absurd hFew (Nat.lt_irrefl _)
  | empty why hMany hNone =>
      rw [hNone] at hEntry
      cases hEntry
  | composed composed hMany hSome hRoots hShipped =>
      refine ⟨composed, hResult,
        addedEntry longAddition parsed, ?_,
        List.mem_singleton_self _⟩
      rw [hRoots]
      exact (sortRoots_perm _).mem_iff.mpr hEntry

/- What is served then is a frame no reader takes. -/
theorem frames_overlong :
    ∃ composed, compose purposeCrates purposeBundle
        [longAddition] [] none = .ok composed ∧
      ¬ FramesFit purposeOutside (askingWorld composed)
        (asking (.roots true none)) := by
  have hRead : (({ stream := 1 } : Client).read messagePack
      purposeOutside.debug [.data (frame
        ((Request.roots true none).encode messagePack))]).1 =
      .request (.roots true none) := by
    decide +kernel
  rcases compose_longAddition with
    ⟨composed, hOk, r, hRoot, hPurpose⟩
  refine ⟨composed, hOk, fun hFits => ?_⟩
  have hSparing := (act_fits_iff sized_messagePack _ _).mp hFits
  have hChunks := (hSparing (List.mem_singleton_self _) _ rfl).2
    _ hRead rfl
  have hSize := textSize_le_of_chunksFit hChunks
    (List.mem_map_of_mem (f := toRoot true) hRoot) hPurpose
  rw [textSize, length_utf8_replicate] at hSize
  revert hSize
  decide

end Daemon

end Trustd
