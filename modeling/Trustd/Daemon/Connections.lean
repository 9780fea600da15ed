import Trustd.Daemon.Frames

/-
  One connection after another.

  A connection waits until its request is complete, and is
  then answered and let go of, unless it subscribes. Nothing
  is written to it before, what is written is what it asked
  for, and it does not wait for longer than the time it has.

  Key definitions include:
    * `Trustd.Daemon.asks`
    * `Trustd.Daemon.Fitting`
    * `Trustd.Daemon.Attended`

  Key theorems include:
    * `Trustd.Daemon.handle_spec`
    * `Trustd.Daemon.act_attended`
    * `Trustd.Daemon.run_connections`
-/

------------------------------------------------------------
-- Requests And Replies
------------------------------------------------------------

namespace Trustd

namespace Daemon

open Cert Control General Registry Render Shared Store Wire

/- What is asked for, or `none` where it cannot be told. -/
abbrev Asked : Type :=
  Stream × Option Request

/- A reply of the kind that is asked for, or a refusal. -/
def Fitting : Option Request → Reply → Prop
  | none, reply => ∃ message, reply = .error message
  | some request, reply => expected request reply = true

/- One frame, or those of one set of roots. -/
def OneReply (mp : MsgPack) (messages : List Written) : Prop :=
  (∃ x, messages = [x]) ∨
    ∃ room generation roots,
      messages = (sendRoots mp room generation roots).1

theorem fitting_error
    (asked : Option Request)
    (message : Text) :
    Fitting asked (.error message) := by
  cases asked with
  | none => exact ⟨message, rfl⟩
  | some request => cases request <;> rfl

/- Roots are for whoever asks for roots. -/
theorem fitting_roots
    {request : Request}
    (hAsks : TakesRoots request)
    {mp : MsgPack}
    {room generation : Nat}
    {roots : List Root}
    {x : Written}
    (hMem : x ∈ (sendRoots mp room generation roots).1) :
    Fitting (some request) x.reply := by
  rcases mem_sendRoots hMem with ⟨chunk, more, hReply, -⟩
  exact (hAsks x.reply).mpr
    (Or.inl ⟨generation, chunk, more, hReply⟩)

section

variable {κ : Type}
variable [Reader (Except IoError) κ]
variable (out : Outside)

/- What is asked for where one connection is read. -/
def askedIn
    (polled : List Nat)
    (arrival : Arrival κ)
    (w : World) :
    List Asked :=
  if arrival.id ∉ polled then []
  else
    match w.daemon.clients.lookup arrival.id with
    | none => []
    | some client =>
        match (client.read out.msgpack out.debug
            arrival.reads).1 with
        | .incomplete => []
        | .closed none => []
        | .closed (some _) => [(client.stream, none)]
        | .request request =>
            [(client.stream, some request)]

/- Who makes which request in one act. -/
def asks (w : World) : Act κ → List Asked
  | .accept _ _ => []
  | .attend polled arrival => askedIn out polled arrival w
  | .sweep _ => []
  | .wake _ _ _ => []
  | .expire _ => []

def askedBy (s : Option World) (a : Act κ) : List Asked :=
  s.elim [] (fun w => asks out w a)

/- All the requests that are made along a run. -/
def askedAlong
    (s : Option World)
    (acts : List (Act κ)) :
    List Asked :=
  observed (actOn out) (askedBy out) s acts

/- Who is taken in where one connection is accepted. -/
def admittedIn
    (now : Nat)
    (usable : Bool)
    (w : World) :
    List (Stream × Nat) :=
  if w.daemon.clients.length ≥ maxClients then []
  else if usable then [(w.daemon.nextId + 1, now)]
  else []

/- Who is taken in in one act, and when. -/
def admits (w : World) : Act κ → List (Stream × Nat)
  | .accept now usable => admittedIn now usable w
  | .attend _ _ => []
  | .sweep _ => []
  | .wake _ _ _ => []
  | .expire _ => []

def admittedBy
    (s : Option World)
    (a : Act κ) :
    List (Stream × Nat) :=
  s.elim [] (fun w => admits w a)

def admittedAlong
    (s : Option World)
    (acts : List (Act κ)) :
    List (Stream × Nat) :=
  observed (actOn out) admittedBy s acts

end

end Daemon

end Trustd

------------------------------------------------------------
-- What One Request Writes
------------------------------------------------------------

namespace Trustd

namespace Daemon

open Cert Control General Registry Render Shared Store Wire

section

variable {κ : Type}
variable [Reader (Except IoError) κ]
variable (out : Outside)

/- A refresh writes roots to subscribers, and only to them. -/
theorem refresh_writes
    (env : Env κ)
    (w : World) :
    (refresh out env w).daemon.subscribers.Sublist
        w.daemon.subscribers ∧
      ∃ new, (refresh out env w).outbox = w.outbox ++ new ∧
        ∀ x ∈ new, ∃ s ∈ w.daemon.subscribers,
          x.stream = s.1 ∧
            Fitting (some (.subscribe s.2)) x.written.reply := by
  rcases hAnnounced : announcedBy out env w.daemon with
    _ | composed
  · rcases refresh_quiet out hAnnounced with
      ⟨-, -, -, hSubscribers, hOutbox⟩
    refine ⟨by rw [hSubscribers], [], ?_, ?_⟩
    · rw [hOutbox, List.append_nil]
    · intro x hx
      cases hx
  · rcases refresh_announces out hAnnounced with
      ⟨-, -, -, hSubscribers, hOutbox⟩
    refine ⟨?_, _, hOutbox, ?_⟩
    · rw [hSubscribers]
      exact List.filter_sublist
    · intro x hx
      rcases List.mem_flatMap.mp hx with ⟨s, hs, hCopy⟩
      rcases List.mem_map.mp hCopy with ⟨y, hy, rfl⟩
      exact ⟨s, hs, rfl,
        fitting_roots (takesRoots_subscribe s.2) hy⟩

/-
  A request is answered by one reply of its kind, after a
  refresh if it asks for one, and only one that subscribes
  is kept.
-/
theorem handle_spec
    (env : Env κ)
    (stream : Stream)
    (request : Request)
    (w : World) :
    ∃ v messages,
      (v = w ∨ v = refresh out env w) ∧
      (∀ x ∈ messages, Fitting (some request) x.reply) ∧
      OneReply out.msgpack messages ∧
      (handle out env stream request w = v.send stream messages ∨
        ∃ withDer, request = .subscribe withDer ∧
          handle out env stream request w =
            (v.send stream messages).withSubscribers
              (v.daemon.subscribers ++ [(stream, withDer)])) := by
  unfold handle
  by_cases hPermits : permits out w stream request = false
  · rw [if_pos hPermits]
    refine ⟨w, _, Or.inl rfl, ?_, Or.inl ⟨_, rfl⟩, Or.inl rfl⟩
    intro x hx
    rw [List.mem_singleton.mp hx]
    exact fitting_error _ _
  rw [if_neg hPermits]
  cases request with
  | status =>
      refine ⟨w, _, Or.inl rfl, ?_, Or.inl ⟨_, rfl⟩, Or.inl rfl⟩
      intro x hx
      rw [List.mem_singleton.mp hx]
      rfl
  | roots withDer purpose =>
      refine ⟨w, _, Or.inl rfl, ?_, Or.inr ⟨_, _, _, rfl⟩,
        Or.inl rfl⟩
      intro x hx
      exact fitting_roots (takesRoots_roots withDer purpose) hx
  | reload =>
      refine ⟨refresh out env w, _, Or.inr rfl, ?_,
        Or.inl ⟨_, rfl⟩, Or.inl rfl⟩
      intro x hx
      rw [List.mem_singleton.mp hx]
      change Fitting _ (degradedReply _)
      unfold degradedReply
      split_ifs
      · exact fitting_error _ _
      · rfl
  | subscribe withDer =>
      have hFits : ∀ x ∈ (sendRoots out.msgpack
          (env.room stream) w.daemon.generation
          (w.daemon.roots withDer none)).1,
          Fitting (some (.subscribe withDer)) x.reply := by
        intro x hx
        exact fitting_roots (takesRoots_subscribe withDer) hx
      rcases hSend : sendRoots out.msgpack (env.room stream)
          w.daemon.generation (w.daemon.roots withDer none) with
        ⟨written, whole⟩
      rw [hSend] at hFits
      have hOne : OneReply out.msgpack written :=
        Or.inr ⟨_, _, _, by rw [hSend]⟩
      refine ⟨w, written, Or.inl rfl, hFits, hOne, ?_⟩
      dsimp only
      rw [hSend]
      cases whole with
      | false => exact Or.inl rfl
      | true => exact Or.inr ⟨withDer, rfl, rfl⟩

end

end Daemon

end Trustd

------------------------------------------------------------
-- What Stays True
------------------------------------------------------------

namespace Trustd

namespace Daemon

open Cert Control General Registry Render Shared Store Wire

/- What holds of the requests there have been. -/
structure Attended
    (mp : MsgPack)
    (asked : List Asked)
    (w : World) :
    Prop where
  once : (asked.map Prod.fst).Nodup
  gone : ∀ a ∈ asked, a.1 ≤ w.daemon.nextId ∧
    a.1 ∉ w.daemon.clients.map Prod.fst
  held : ∀ s ∈ w.daemon.subscribers,
    (s.1, some (.subscribe s.2)) ∈ asked
  fitting : ∀ x ∈ w.outbox, ∃ request,
    (x.stream, request) ∈ asked ∧
      Fitting request x.written.reply
  single : ∀ a ∈ asked,
    (∀ withDer, a.2 ≠ some (.subscribe withDer)) →
      OneReply mp (w.writtenTo a.1)

/- A connection whose request has just been read. -/
structure Next
    (asked : List Asked)
    (id : Stream)
    (w : World) :
    Prop where
  absent : id ∉ w.daemon.clients.map Prod.fst
  known : id ≤ w.daemon.nextId
  unasked : id ∉ asked.map Prod.fst
  silent : w.writtenTo id = []
  apart : ∀ s ∈ w.daemon.subscribers, s.1 ≠ id

section

variable {κ : Type}
variable [Reader (Except IoError) κ]
variable {out : Outside}
variable {asked : List Asked}
variable {w w' : World}

/- One stream makes one request. -/
theorem Attended.unique
    {mp : MsgPack}
    (hAttended : Attended mp asked w)
    {a b : Asked}
    (ha : a ∈ asked)
    (hb : b ∈ asked)
    (hSame : a.1 = b.1) :
    a = b :=
  List.inj_on_of_nodup_map hAttended.once ha hb hSame

/- What is written adds to what was written. -/
theorem writtenTo_append
    {new : List Sent}
    (hOutbox : w'.outbox = w.outbox ++ new)
    (stream : Stream) :
    w'.writtenTo stream = w.writtenTo stream ++
      (new.filter (fun x => x.stream = stream)).map
        Sent.written := by
  unfold World.writtenTo
  rw [hOutbox, List.filter_append, List.map_append]

theorem writtenTo_others
    {new : List Sent}
    (hOutbox : w'.outbox = w.outbox ++ new)
    {stream : Stream}
    (hOthers : ∀ x ∈ new, x.stream ≠ stream) :
    w'.writtenTo stream = w.writtenTo stream := by
  rw [writtenTo_append hOutbox, List.filter_eq_nil_iff.mpr,
    List.map_nil, List.append_nil]
  intro x hx hSame
  exact hOthers x hx (of_decide_eq_true hSame)

theorem writtenTo_send_self
    (stream : Stream)
    (messages : List Written) :
    (w.send stream messages).writtenTo stream =
      w.writtenTo stream ++ messages := by
  rw [writtenTo_append rfl, List.filter_eq_self.mpr]
  · rw [List.map_map]
    exact congrArg _ (List.map_id messages)
  · intro x hx
    rcases List.mem_map.mp hx with ⟨m, -, rfl⟩
    exact decide_eq_true rfl

theorem writtenTo_send_other
    {stream other : Stream}
    (hOther : other ≠ stream)
    (messages : List Written) :
    (w.send other messages).writtenTo stream =
      w.writtenTo stream := by
  apply writtenTo_others rfl
  intro x hx
  rcases List.mem_map.mp hx with ⟨m, -, rfl⟩
  exact hOther

/- A refresh does not concern those who do not subscribe. -/
theorem Attended.refresh
    (env : Env κ)
    (hAttended : Attended out.msgpack asked w) :
    Attended out.msgpack asked (refresh out env w) := by
  rcases refresh_writes out env w with
    ⟨hSublist, new, hOutbox, hNew⟩
  have hTable : SameTable w (Daemon.refresh out env w) :=
    refresh_table env w
  refine ⟨hAttended.once, ?_, ?_, ?_, ?_⟩
  · rw [hTable.clients, hTable.nextId]
    exact hAttended.gone
  · intro s hs
    exact hAttended.held s (hSublist.subset hs)
  · intro x hx
    rw [hOutbox] at hx
    rcases List.mem_append.mp hx with hOld | hHere
    · exact hAttended.fitting x hOld
    · rcases hNew x hHere with ⟨s, hs, hStream, hFits⟩
      rw [hStream]
      exact ⟨_, hAttended.held s hs, hFits⟩
  · intro a ha hPlain
    rw [writtenTo_others hOutbox]
    · exact hAttended.single a ha hPlain
    · intro x hx hSame
      rcases hNew x hx with ⟨s, hs, hStream, -⟩
      have hOne := hAttended.unique ha (hAttended.held s hs)
        (hSame.symm.trans hStream)
      exact hPlain s.2 (congrArg Prod.snd hOne)

theorem Next.refresh
    {id : Stream}
    (env : Env κ)
    (hNext : Next asked id w) :
    Next asked id (refresh out env w) := by
  rcases refresh_writes out env w with
    ⟨hSublist, new, hOutbox, hNew⟩
  have hTable : SameTable w (Daemon.refresh out env w) :=
    refresh_table env w
  refine ⟨?_, ?_, hNext.unasked, ?_, ?_⟩
  · rw [hTable.clients]
    exact hNext.absent
  · rw [hTable.nextId]
    exact hNext.known
  · rw [writtenTo_others hOutbox]
    · exact hNext.silent
    · intro x hx hSame
      rcases hNew x hx with ⟨s, hs, hStream, -⟩
      exact hNext.apart s hs (hStream.symm.trans hSame)
  · intro s hs
    exact hNext.apart s (hSublist.subset hs)

/- Its answer is the one reply it gets. -/
theorem Attended.send
    {id : Stream}
    {request : Option Request}
    {messages : List Written}
    (hAttended : Attended out.msgpack asked w)
    (hNext : Next asked id w)
    (hFits : ∀ x ∈ messages, Fitting request x.reply)
    (hOne : OneReply out.msgpack messages) :
    Attended out.msgpack (asked ++ [(id, request)])
      (w.send id messages) := by
  refine ⟨?_, ?_, ?_, ?_, ?_⟩
  · rw [List.map_append, List.map_singleton,
      ← List.concat_eq_append, List.nodup_concat]
    exact ⟨hNext.unasked, hAttended.once⟩
  · intro a ha
    rcases List.mem_append.mp ha with hOld | hHere
    · exact hAttended.gone a hOld
    · rw [List.mem_singleton.mp hHere]
      exact ⟨hNext.known, hNext.absent⟩
  · intro s hs
    exact List.mem_append_left _ (hAttended.held s hs)
  · intro x hx
    rcases List.mem_append.mp hx with hOld | hHere
    · rcases hAttended.fitting x hOld with
        ⟨asks, hMem, hFit⟩
      exact ⟨asks, List.mem_append_left _ hMem, hFit⟩
    · rcases List.mem_map.mp hHere with ⟨m, hm, rfl⟩
      exact ⟨request, List.mem_append_right _
        List.mem_cons_self, hFits m hm⟩
  · intro a ha hPlain
    rcases List.mem_append.mp ha with hOld | hHere
    · rw [writtenTo_send_other]
      · exact hAttended.single a hOld hPlain
      · intro hSame
        apply hNext.unasked
        rw [hSame]
        exact List.mem_map_of_mem hOld
    · rw [List.mem_singleton.mp hHere, writtenTo_send_self,
        hNext.silent, List.nil_append]
      exact hOne

/- And it is held from then on if it subscribes. -/
theorem Attended.subscribe
    {mp : MsgPack}
    {subscriber : Stream × Bool}
    (hAttended : Attended mp asked w)
    (hAsked : (subscriber.1, some (.subscribe subscriber.2)) ∈
      asked) :
    Attended mp asked (w.withSubscribers
      (w.daemon.subscribers ++ [subscriber])) := by
  refine ⟨hAttended.once, hAttended.gone, ?_,
    hAttended.fitting, hAttended.single⟩
  intro s hs
  rcases List.mem_append.mp hs with hOld | hHere
  · exact hAttended.held s hOld
  · rw [List.mem_singleton.mp hHere]
    exact hAsked

theorem Attended.handle
    {id : Stream}
    (env : Env κ)
    (request : Request)
    (hAttended : Attended out.msgpack asked w)
    (hNext : Next asked id w) :
    Attended out.msgpack (asked ++ [(id, some request)])
      (handle out env id request w) := by
  rcases handle_spec out env id request w with
    ⟨v, messages, hState, hFits, hOne, hHandle⟩
  have hSent : Attended out.msgpack
      (asked ++ [(id, some request)]) (v.send id messages) := by
    rcases hState with rfl | rfl
    · exact hAttended.send hNext hFits hOne
    · exact (hAttended.refresh env).send (hNext.refresh env)
        hFits hOne
  rcases hHandle with hSend | ⟨withDer, rfl, hSubscribe⟩
  · rw [hSend]
    exact hSent
  · rw [hSubscribe]
    exact hSent.subscribe
      (List.mem_append_right _ List.mem_cons_self)

end

end Daemon

end Trustd

------------------------------------------------------------
-- What Each Act Leaves
------------------------------------------------------------

namespace Trustd

namespace Daemon

open Cert Control General Registry Render Shared Store Wire

section

variable {κ : Type}
variable [Reader (Except IoError) κ]
variable {out : Outside}
variable {asked : List Asked}
variable {shown : List (Nat × List Entry)}
variable {w w' : World}

/- Fewer clients change nothing. -/
theorem Attended.leave
    {mp : MsgPack}
    {clients : List (Nat × Client)}
    (hAttended : Attended mp asked w)
    (hPart : (clients.map Prod.fst).Sublist
      (w.daemon.clients.map Prod.fst)) :
    Attended mp asked (w.withClients clients) := by
  refine ⟨hAttended.once, ?_, hAttended.held,
    hAttended.fitting, hAttended.single⟩
  intro a ha
  rcases hAttended.gone a ha with ⟨hKnown, hAbsent⟩
  exact ⟨hKnown, fun hMem => hAbsent (hPart.subset hMem)⟩

/- A client that is taken out of the table is next. -/
theorem next_of_waiting
    {mp : MsgPack}
    {id : Stream}
    (hAttended : Attended mp asked w)
    (hInformed : Informed (Copied mp) w.board shown)
    (hWaits : id ∈ w.board.waiting) :
    Next asked id (w.withoutClient id) := by
  have hGone := hInformed.absent_of_left hWaits
  rw [← board_withoutClient] at hGone
  have hSilent := hInformed.silent id hWaits
  rw [toldTo_board] at hSilent
  refine ⟨?_, ?_, ?_, hSilent, ?_⟩
  · intro hMem
    exact hGone (mem_names_of_waiting hMem)
  · exact hInformed.known id (mem_names_of_waiting hWaits)
  · intro hMem
    rcases List.mem_map.mp hMem with ⟨a, ha, rfl⟩
    exact (hAttended.gone a ha).2 hWaits
  · rintro s hs rfl
    exact hGone (mem_names_of_listener hs)

theorem accept_attended
    {mp : MsgPack}
    (now : Nat)
    (usable : Bool)
    (hAttended : Attended mp asked w) :
    Attended mp asked (accept now usable w) := by
  unfold accept
  split_ifs
  · exact hAttended
  · refine ⟨hAttended.once, ?_, hAttended.held,
      hAttended.fitting, hAttended.single⟩
    intro a ha
    rcases hAttended.gone a ha with ⟨hKnown, hAbsent⟩
    refine ⟨Nat.le_succ_of_le hKnown, ?_⟩
    dsimp only
    rw [List.map_append, List.mem_append]
    rintro (hOld | hNew)
    · exact hAbsent hOld
    · have hSame : a.1 = w.daemon.nextId + 1 :=
        List.mem_singleton.mp hNew
      rw [hSame] at hKnown
      exact Nat.not_succ_le_self _ hKnown
  · exact hAttended

theorem attend_attended
    (polled : List Nat)
    (arrival : Arrival κ)
    (hSeated : Seated out.msgpack shown w)
    (hAttended : Attended out.msgpack asked w) :
    Attended out.msgpack
      (asked ++ askedIn out polled arrival w)
      (attend out polled arrival w) := by
  unfold attend askedIn
  by_cases hPolled : arrival.id ∉ polled
  · rw [if_pos hPolled, if_pos hPolled, List.append_nil]
    exact hAttended
  rw [if_neg hPolled, if_neg hPolled]
  rcases hFound : w.daemon.clients.lookup arrival.id with
    _ | client
  · dsimp only
    rw [List.append_nil]
    exact hAttended
  have hMem := mem_of_lookup hFound
  have hStream : client.stream = arrival.id :=
    hSeated.named _ hMem
  have hWaits : arrival.id ∈ w.board.waiting :=
    List.mem_map_of_mem hMem
  have hNext := next_of_waiting hAttended hSeated.informed
    hWaits
  have hLeft : Attended out.msgpack asked
      (w.withoutClient arrival.id) :=
    hAttended.leave (List.filter_sublist.map Prod.fst)
  have hClosing : Closing (client.read out.msgpack out.debug
      arrival.reads).1 :=
    read_closing out.debug client arrival.reads
  dsimp only
  rcases hRead : client.read out.msgpack out.debug
      arrival.reads with
    ⟨_ | request | (_ | message), after⟩
  · -- the request is not complete
    rw [List.append_nil]
    apply hAttended.leave
    change (w.updateClient arrival.id after).board.waiting.Sublist
      w.board.waiting
    rw [board_updateClient]
  · rw [hStream]
    exact hLeft.handle arrival.env request hNext
  · dsimp only
    rw [List.append_nil]
    exact hLeft
  · -- it is refused, whatever it was
    rw [hRead] at hClosing
    dsimp only
    rw [hStream]
    apply hLeft.send hNext _ (Or.inl ⟨_, rfl⟩)
    intro x hx
    rw [List.mem_singleton.mp hx]
    exact hClosing

/- Every act keeps what holds of the requests. -/
theorem act_attended
    (a : Act κ)
    (hSeated : Seated out.msgpack shown w)
    (hAttended : Attended out.msgpack asked w)
    (hAct : act out w a = some w') :
    Attended out.msgpack (asked ++ asks out w a) w' := by
  cases a with
  | accept now usable =>
      cases hAct
      rw [asks, List.append_nil]
      exact accept_attended now usable hAttended
  | attend polled arrival =>
      cases hAct
      exact attend_attended polled arrival hSeated hAttended
  | sweep closed =>
      rcases Option.map_eq_some_iff.mp hAct with
        ⟨left, hSweep, rfl⟩
      rw [asks, List.append_nil]
      exact ⟨hAttended.once, hAttended.gone,
        fun s hs => hAttended.held s
          ((sweep_sublist hSweep).subset hs),
        hAttended.fitting, hAttended.single⟩
  | wake told stamp env =>
      cases hAct
      rw [asks, List.append_nil]
      unfold wake
      split_ifs
      · exact hAttended.refresh env
      · exact hAttended
  | expire now =>
      cases hAct
      rw [asks, List.append_nil]
      exact hAttended.leave (List.filter_sublist.map Prod.fst)

end

end Daemon

end Trustd

------------------------------------------------------------
-- How Long A Connection Waits
------------------------------------------------------------

namespace Trustd

namespace Daemon

open Cert Control General Registry Render Shared Store Wire

/- A client has waited since it was taken in, once. -/
structure Timed
    (admitted : List (Stream × Nat))
    (w : World) :
    Prop where
  once : (admitted.map Prod.fst).Nodup
  known : ∀ a ∈ admitted, a.1 ≤ w.daemon.nextId
  since : ∀ c ∈ w.daemon.clients, (c.1, c.2.since) ∈ admitted

section

variable {κ : Type}
variable [Reader (Except IoError) κ]
variable {out : Outside}
variable {admitted : List (Stream × Nat)}
variable {w w' : World}

/- No read makes a client any younger. -/
theorem read_since
    (mp : MsgPack)
    (debug : Text → Text)
    (client : Client)
    (reads : List ReadResult) :
    (client.read mp debug reads).2.since = client.since := by
  unfold Client.read
  rcases drain client.buf reads with progress | buf
  · rfl
  · rfl

theorem Timed.table
    (hTimed : Timed admitted w)
    (hTable : SameTable w w') :
    Timed admitted w' := by
  refine ⟨hTimed.once, ?_, ?_⟩
  · rw [hTable.nextId]
    exact hTimed.known
  · rw [hTable.clients]
    exact hTimed.since

theorem Timed.leave
    {clients : List (Nat × Client)}
    (hTimed : Timed admitted w)
    (hPart : ∀ c ∈ clients, c ∈ w.daemon.clients) :
    Timed admitted (w.withClients clients) :=
  ⟨hTimed.once, hTimed.known,
    fun c hc => hTimed.since c (hPart c hc)⟩

theorem attend_timed
    (polled : List Nat)
    (arrival : Arrival κ)
    (hTimed : Timed admitted w) :
    Timed admitted (attend out polled arrival w) := by
  have hLeft : Timed admitted (w.withoutClient arrival.id) :=
    hTimed.leave (fun c hc => (List.mem_filter.mp hc).1)
  unfold attend
  by_cases hPolled : arrival.id ∉ polled
  · rw [if_pos hPolled]
    exact hTimed
  rw [if_neg hPolled]
  rcases hFound : w.daemon.clients.lookup arrival.id with
    _ | client
  · exact hTimed
  have hMem := mem_of_lookup hFound
  have hSince := read_since out.msgpack out.debug client
    arrival.reads
  dsimp only
  rcases hRead : client.read out.msgpack out.debug
      arrival.reads with
    ⟨_ | request | (_ | message), after⟩
  · rw [hRead] at hSince
    refine ⟨hTimed.once, hTimed.known, ?_⟩
    intro c hc
    rcases List.mem_map.mp hc with ⟨old, hOld, rfl⟩
    split_ifs
    · dsimp only
      rw [hSince]
      exact hTimed.since _ hMem
    · exact hTimed.since old hOld
  · exact hLeft.table (handle_table arrival.env client.stream
      request _)
  · exact hLeft
  · exact ⟨hLeft.once, hLeft.known, hLeft.since⟩

theorem accept_timed
    (now : Nat)
    (usable : Bool)
    (hTimed : Timed admitted w) :
    Timed (admitted ++ admittedIn now usable w)
      (accept now usable w) := by
  unfold accept admittedIn
  split_ifs
  · rw [List.append_nil]
    exact hTimed
  · have hFresh : w.daemon.nextId + 1 ∉
        admitted.map Prod.fst := by
      intro hMem
      rcases List.mem_map.mp hMem with ⟨a, ha, hSame⟩
      have hKnown := hTimed.known a ha
      rw [hSame] at hKnown
      exact Nat.not_succ_le_self _ hKnown
    refine ⟨?_, ?_, ?_⟩
    · rw [List.map_append, List.map_singleton,
        ← List.concat_eq_append, List.nodup_concat]
      exact ⟨hFresh, hTimed.once⟩
    · intro a ha
      rcases List.mem_append.mp ha with hOld | hNew
      · exact Nat.le_succ_of_le (hTimed.known a hOld)
      · rw [List.mem_singleton.mp hNew]
    · intro c hc
      rcases List.mem_append.mp hc with hOld | hNew
      · exact List.mem_append_left _ (hTimed.since c hOld)
      · rw [List.mem_singleton.mp hNew]
        exact List.mem_append_right _ List.mem_cons_self
  · rw [List.append_nil]
    exact hTimed

theorem act_timed
    (a : Act κ)
    (hTimed : Timed admitted w)
    (hAct : act out w a = some w') :
    Timed (admitted ++ admits w a) w' := by
  cases a with
  | accept now usable =>
      cases hAct
      exact accept_timed now usable hTimed
  | attend polled arrival =>
      cases hAct
      rw [admits, List.append_nil]
      exact attend_timed polled arrival hTimed
  | sweep closed =>
      rcases Option.map_eq_some_iff.mp hAct with ⟨left, -, rfl⟩
      rw [admits, List.append_nil]
      exact ⟨hTimed.once, hTimed.known, hTimed.since⟩
  | wake told stamp env =>
      cases hAct
      rw [admits, List.append_nil]
      unfold wake
      split_ifs
      · exact hTimed.table (refresh_table env w)
      · exact hTimed
  | expire now =>
      cases hAct
      rw [admits, List.append_nil]
      exact hTimed.leave (fun c hc => (List.mem_filter.mp hc).1)

/- Whoever waits after an iteration has not waited long. -/
theorem iterate_young
    {poll : Poll κ}
    (hStep : iterate out (some w) poll = some w') :
    ∀ c ∈ w'.daemon.clients,
      poll.now - c.2.since < clientTimeout := by
  have hActs : poll.acts w =
      (poll.before w ++ [.sweep (poll.closed
        w.daemon.subscribers), .wake poll.told poll.stamp
          poll.env]) ++ [.expire poll.now] := by
    rw [Poll.acts, List.append_assoc]
    rfl
  rw [iterate, Option.bind_some, hActs, run_snoc] at hStep
  rcases Option.bind_eq_some_iff.mp hStep with ⟨v, -, hAct⟩
  cases hAct
  intro c hc
  exact of_decide_eq_true (List.mem_filter.mp hc).2

end

end Daemon

end Trustd

------------------------------------------------------------
-- Every Connection
------------------------------------------------------------

namespace Trustd

namespace Daemon

open Cert Control General Registry Render Shared Store Wire

section

variable {κ : Type}
variable [Reader (Except IoError) κ]
variable {out : Outside}

theorem start_attended
    (config : Config)
    (host : Host)
    (env : Env κ) :
    Attended out.msgpack [] (start out config host env) := by
  have hBoot : Attended out.msgpack []
      (boot out config host) := by
    refine ⟨List.nodup_nil, ?_, ?_, ?_, ?_⟩
    · intro a ha
      cases ha
    · intro s hs
      cases hs
    · intro x hx
      cases hx
    · intro a ha
      cases ha
  exact hBoot.refresh env

theorem start_timed
    (config : Config)
    (host : Host)
    (env : Env κ) :
    Timed [] (start out config host env) := by
  have hBoot : Timed [] (boot out config host) := by
    refine ⟨List.nodup_nil, ?_, ?_⟩
    · intro a ha
      cases ha
    · intro c hc
      cases hc
  exact hBoot.table (refresh_table env _)

/-
  What holds at the start and is kept by every act, of the
  world and of what was observed so far, holds in the end.
-/
theorem run_keeps
    {ω : Type}
    {observe : Option World → Act κ → List ω}
    {I : World → List ω → Prop}
    {w w' : World}
    (hStart : I w [])
    (hKeeps : ∀ u v log a, I u log → act out u a = some v →
      I v (log ++ observe (some u) a))
    {acts : List (Act κ)}
    (hRun : run (actOn out) (some w) acts = some w') :
    I w' (observed (actOn out) observe (some w) acts) := by
  suffices hAll : ∀ v, run (actOn out) (some w) acts =
      some v →
        I v (observed (actOn out) observe (some w) acts)
    from hAll w' hRun
  refine run_invariant
    (I := fun s log => ∀ v, s = some v → I v log) ?_ ?_ acts
  · intro v hv
    cases hv
    exact hStart
  · intro s log a hBefore v hv
    rcases Option.bind_eq_some_iff.mp hv with ⟨u, rfl, hAct⟩
    exact hKeeps u v log a (hBefore u rfl) hAct

/- After any acts the requests are as they should be. -/
theorem run_attended
    {shown : List (Nat × List Entry)}
    {w w' : World}
    (hSeated : Seated out.msgpack shown w)
    (hAttended : Attended out.msgpack [] w)
    {acts : List (Act κ)}
    (hRun : run (actOn out) (some w) acts = some w') :
    Attended out.msgpack (askedAlong out (some w) acts) w' := by
  have hBoth : (∃ shown, Seated out.msgpack shown w') ∧
      Attended out.msgpack
        (askedAlong out (some w) acts) w' := by
    apply run_keeps (I := fun v log =>
      (∃ shown, Seated out.msgpack shown v) ∧
        Attended out.msgpack log v) _ _ hRun
    · exact ⟨⟨shown, hSeated⟩, hAttended⟩
    · intro u v log a hBefore hAct
      rcases hBefore with ⟨⟨shown, hOld⟩, hKept⟩
      have hNext : Seated out.msgpack
          (shown ++ [v.served]) v :=
        ⟨act_named a hOld.named hAct,
          act_informed a hOld.named hOld.informed hAct⟩
      exact ⟨⟨_, hNext⟩, act_attended a hOld hKept hAct⟩
  exact hBoth.2

theorem run_timed
    {w w' : World}
    (hTimed : Timed [] w)
    {acts : List (Act κ)}
    (hRun : run (actOn out) (some w) acts = some w') :
    Timed (admittedAlong out (some w) acts) w' := by
  refine run_keeps (I := fun v log => Timed log v)
    hTimed ?_ hRun
  intro u v log a hBefore hAct
  exact act_timed a hBefore hAct

/-
  Along every run of the main loop one request of each
  connection is acted on, if any. All that is written to a
  connection is of the kind it asked for, and at no act is
  anything written before it asks; unless it subscribes it is
  one reply. Whoever subscribes asked to. Whoever waits was taken
  in less than the timeout before the latest poll, however
  slowly its request arrives.
-/
theorem run_connections
    (out : Outside)
    (config : Config)
    (host : Host)
    (env : Env κ)
    (polls : List (Poll κ))
    {w : World}
    (hRun : run (iterate out)
      (some (start out config host env)) polls = some w) :
    let first := start out config host env
    let acts := actsAlong out (some first) polls
    let asked := askedAlong out (some first) acts
    let admitted := admittedAlong out (some first) acts
    (asked.map Prod.fst).Nodup ∧
      (∀ x ∈ w.outbox, ∃ request,
        (x.stream, request) ∈ asked ∧
          Fitting request x.written.reply) ∧
      (∀ before later v, acts = before ++ later →
        run (actOn out) (some first) before = some v →
        ∀ x ∈ v.outbox, ∃ request,
          (x.stream, request) ∈
              askedAlong out (some first) before ∧
            Fitting request x.written.reply) ∧
      (∀ a ∈ asked,
        (∀ withDer, a.2 ≠ some (.subscribe withDer)) →
          OneReply out.msgpack (w.writtenTo a.1)) ∧
      (∀ s ∈ w.daemon.subscribers,
        (s.1, some (.subscribe s.2)) ∈ asked) ∧
      (admitted.map Prod.fst).Nodup ∧
      ∀ c ∈ w.daemon.clients,
        c.1 ∉ asked.map Prod.fst ∧
          (c.1, c.2.since) ∈ admitted ∧
          ∀ poll, polls.getLast? = some poll →
            poll.now - c.2.since < clientTimeout := by
  intro first acts asked admitted
  have hActs : run (actOn out) (some first) acts = some w := by
    rw [← run_iterate]
    exact hRun
  have hEach : ∀ {before : List (Act κ)} {v : World},
      run (actOn out) (some first) before = some v →
      Attended out.msgpack
        (askedAlong out (some first) before) v :=
    fun hBefore => run_attended (start_seated config host env)
      (start_attended config host env) hBefore
  have hAttended : Attended out.msgpack asked w := hEach hActs
  have hTimed : Timed admitted w :=
    run_timed (start_timed config host env) hActs
  refine ⟨hAttended.once, hAttended.fitting,
    fun before later v _ hBefore => (hEach hBefore).fitting,
    hAttended.single, hAttended.held, hTimed.once, ?_⟩
  intro c hc
  refine ⟨?_, hTimed.since c hc, ?_⟩
  · intro hMem
    rcases List.mem_map.mp hMem with ⟨a, ha, hSame⟩
    apply (hAttended.gone a ha).2
    rw [hSame]
    exact List.mem_map_of_mem hc
  · intro poll hLast
    rcases List.getLast?_eq_some_iff.mp hLast with
      ⟨before, rfl⟩
    rw [run_snoc] at hRun
    rcases Option.bind_eq_some_iff.mp hRun with
      ⟨v, hBefore, -⟩
    rw [hBefore] at hRun
    exact iterate_young hRun c hc

end

/- One connection that is answered, and one that is slow. -/
def slowPolls : List (Poll Key) :=
  [{ now := 0, accepts := [true, true], env := bundleMissing },
    { now := 1
      arrivals :=
        [arriving bundleMissing 1 .status,
          { id := 2, reads := [.data [0]], env := bundleMissing }]
      env := bundleMissing }]

theorem run_connections_slow :
    ∃ w, run (iterate purposeOutside)
        (some (start purposeOutside {} sampleHost
          bundleMissing)) slowPolls = some w ∧
      w.outbox ≠ [] ∧ w.daemon.clients ≠ [] ∧
      (∀ x ∈ w.outbox, ∃ request,
        (x.stream, request) ∈ askedAlong purposeOutside
          (some (start purposeOutside {} sampleHost
            bundleMissing))
          (actsAlong purposeOutside
            (some (start purposeOutside {} sampleHost
              bundleMissing)) slowPolls) ∧
          Fitting request x.written.reply) ∧
      ∀ c ∈ w.daemon.clients,
        1 - c.2.since < clientTimeout := by
  have hBoth : (run (iterate purposeOutside)
      (some (start purposeOutside {} sampleHost
        bundleMissing)) slowPolls).any (fun w =>
          !w.outbox.isEmpty && !w.daemon.clients.isEmpty) =
            true := by
    decide +kernel
  rcases (Option.any_eq_true _ _).mp hBoth with ⟨w, hRun, hHere⟩
  rcases Bool.and_eq_true_iff.mp hHere with ⟨hSent, hWaits⟩
  rcases run_connections purposeOutside {} sampleHost
    bundleMissing slowPolls hRun with
    ⟨-, hFitting, -, -, -, -, hClients⟩
  refine ⟨w, hRun, ?_, ?_, hFitting, ?_⟩
  · intro hNil
    rw [hNil] at hSent
    cases hSent
  · intro hNil
    rw [hNil] at hWaits
    cases hWaits
  · intro c hc
    exact (hClients c hc).2.2 _ rfl

end Daemon

end Trustd
