import Trustd.General.Broadcast
import Trustd.Daemon.Install
import Trustd.Daemon.Loop
import Trustd.Shared.Delivery

/-
  What subscribers are told along a run of the main loop.

  The daemon is a board that shows its root set: the clients
  wait, the subscribers listen, and the generation counts the
  changes.

  Key definitions include:
    * `Trustd.Daemon.announcedBy`
    * `Trustd.Daemon.World.board`
    * `Trustd.Daemon.servedAlong`

  Key theorems include:
    * `Trustd.Daemon.refresh_announces`
    * `Trustd.Daemon.act_informed`
    * `Trustd.Daemon.run_informs`
-/

------------------------------------------------------------
-- What A Refresh Announces
------------------------------------------------------------

namespace Trustd

namespace Daemon

open Cert Control General Registry Render Store Wire

section

variable (out : Outside)
variable (room : Stream → Nat)

/- What one subscriber is written of some entries. -/
def copyFor
    (generation : Nat)
    (entries : List Entry)
    (subscriber : Stream × Bool) :
    List Written × Bool :=
  sendRoots out.msgpack (room subscriber.1) generation
    (entries.map (toRoot subscriber.2))

end

section

variable {κ : Type}
variable [Reader (Except IoError) κ]
variable (out : Outside)

/- What a refresh composes, if it is to be announced. -/
def announcedBy (env : Env κ) (s : State) :
    Option Composed :=
  match compositionOf out env with
  | none => none
  | some (fresh, composed) =>
      if (composed.roots = s.composed.roots ∧
          s.health = .ok) ∧ fresh = s.config then none
      else some composed

/- A degraded daemon announces whatever it composes. -/
theorem announcedBy_of_degraded
    {env : Env κ}
    {fresh : Config}
    {composed : Composed}
    (hMade : compositionOf out env = some (fresh, composed))
    {s : State}
    (hHealth : s.health = .degraded) :
    announcedBy out env s = some composed := by
  unfold announcedBy
  rw [hMade]
  apply if_neg
  intro hSame
  have hOk := hSame.1.2
  rw [hHealth] at hOk
  cases hOk

/- What neither a refresh nor a reply touches. -/
structure SameTable (w w' : World) : Prop where
  clients : w'.daemon.clients = w.daemon.clients
  nextId : w'.daemon.nextId = w.daemon.nextId

/- A refresh that announces nothing. -/
theorem refresh_quiet
    {env : Env κ}
    {w : World}
    (hNone : announcedBy out env w.daemon = none) :
    let w' := refresh out env w
    SameTable w w' ∧
      w'.daemon.generation = w.daemon.generation ∧
      w'.daemon.composed.roots = w.daemon.composed.roots ∧
      w'.daemon.subscribers = w.daemon.subscribers ∧
      w'.outbox = w.outbox := by
  unfold announcedBy at hNone
  rcases hMade : compositionOf out env with
    _ | ⟨fresh, composed⟩
  · rcases refresh_of_none out hMade w with
      ⟨why, hEq | ⟨fresh, _, hEq⟩⟩
    · rw [hEq]
      exact ⟨⟨rfl, rfl⟩, rfl, rfl, rfl, rfl⟩
    · rw [hEq]
      exact ⟨⟨rfl, rfl⟩, rfl, rfl, rfl, rfl⟩
  · rw [hMade] at hNone
    dsimp only at hNone
    rw [refresh_of_some out hMade]
    split_ifs at hNone with hSame
    rw [if_pos hSame]
    exact ⟨⟨rfl, rfl⟩, rfl, hSame.1.1, rfl, rfl⟩

/- One that announces what it composes. -/
theorem refresh_announces
    {env : Env κ}
    {w : World}
    {composed : Composed}
    (hSome : announcedBy out env w.daemon = some composed) :
    let w' := refresh out env w
    let copy := copyFor out env.room
      (w.daemon.generation + 1) composed.roots
    SameTable w w' ∧
      w'.daemon.generation = w.daemon.generation + 1 ∧
      w'.daemon.composed = composed ∧
      w'.daemon.subscribers =
        w.daemon.subscribers.filter (fun s => (copy s).2) ∧
      w'.outbox = w.outbox ++ w.daemon.subscribers.flatMap
        (fun s => (copy s).1.map (fun x => ⟨s.1, x⟩)) := by
  unfold announcedBy at hSome
  rcases hMade : compositionOf out env with
    _ | ⟨fresh, made⟩
  · rw [hMade] at hSome
    cases hSome
  rw [hMade] at hSome
  dsimp only at hSome
  split_ifs at hSome with hSame
  cases hSome
  rw [refresh_of_new out hMade hSame]
  rcases announce_spec out env
      (commit composed (adopt out fresh env.stamp w)) with
    ⟨_, _, _, hEq, _⟩
  rw [hEq, publish_eq]
  exact ⟨⟨rfl, rfl⟩, rfl, rfl, rfl, rfl⟩

end

end Daemon

end Trustd

------------------------------------------------------------
-- The Board
------------------------------------------------------------

namespace Trustd

namespace Daemon

open Cert Control General Registry Render Shared Store Wire

/- The daemon as a board of its root set. -/
def World.board (w : World) :
    Board (List Entry) Bool Written where
  version := w.daemon.generation
  value := w.daemon.composed.roots
  next := w.daemon.nextId
  waiting := w.daemon.clients.map Prod.fst
  listeners := w.daemon.subscribers
  told := w.outbox.map (fun x => (x.stream, x.written))

/-
  A complete run of chunks that carries some entries, with
  or without their DER.
-/
def Copied
    (mp : MsgPack)
    (generation : Nat)
    (entries : List Entry)
    (withDer : Bool)
    (written : List Written) :
    Prop :=
  Snapshot generation (written.map Written.reply)
      (entries.map (toRoot withDer)) ∧
    WrittenWhole mp written

/- Whoever takes a copy has been written all of it. -/
theorem copied_of_taken
    {out : Outside}
    {room : Stream → Nat}
    {generation : Nat}
    {entries : List Entry}
    {subscriber : Stream × Bool}
    (hTaken : (copyFor out room generation entries
      subscriber).2 = true) :
    Copied out.msgpack generation entries subscriber.2
      (copyFor out room generation entries subscriber).1 := by
  have hSent : sendRoots out.msgpack (room subscriber.1)
      generation (entries.map (toRoot subscriber.2)) =
      ((copyFor out room generation entries subscriber).1,
        true) := by
    rw [← hTaken]
    rfl
  exact sendRoots_whole hSent

section

variable (w : World)

theorem board_withSubscribers
    (subscribers : List (Stream × Bool)) :
    (w.withSubscribers subscribers).board =
      { w.board with listeners := subscribers } := rfl

theorem board_send
    (stream : Stream)
    (written : List Written) :
    (w.send stream written).board =
      { w.board with
        told := w.board.told ++
          addressed stream written } := by
  unfold World.board World.send addressed
  dsimp only
  rw [List.map_append, List.map_map]
  rfl

theorem board_withoutClient (id : Nat) :
    (w.withoutClient id).board =
      { w.board with
        waiting := w.board.waiting.filter
          (fun x => x ≠ id) } := by
  unfold World.board World.withoutClient World.withClients
  dsimp only
  rw [List.filter_map]
  rfl

theorem board_updateClient
    (id : Nat)
    (client : Client) :
    (w.updateClient id client).board = w.board := by
  have hIds : (w.daemon.clients.map
      (fun c => if c.1 = id then (id, client) else c)).map
        Prod.fst = w.daemon.clients.map Prod.fst := by
    rw [List.map_map]
    apply List.map_congr_left
    intro c _
    rw [Function.comp_apply]
    split_ifs with hSame
    · exact hSame.symm
    · rfl
  unfold World.board World.updateClient World.withClients
  dsimp only
  rw [hIds]

end

section

variable {κ : Type}
variable [Reader (Except IoError) κ]
variable (out : Outside)

/- A refresh shows what it shows already, or something new. -/
theorem refresh_board
    (env : Env κ)
    (w : World) :
    (refresh out env w).board = w.board ∨
      Changes (Copied out.msgpack) w.board
        (refresh out env w).board := by
  rcases hAnnounced : announcedBy out env w.daemon with
    _ | composed
  · rcases refresh_quiet out hAnnounced with
      ⟨hTable, hGeneration, hRoots, hSubscribers, hOutbox⟩
    apply Or.inl
    unfold World.board
    rw [hTable.clients, hTable.nextId, hGeneration, hRoots,
      hSubscribers, hOutbox]
  · rcases refresh_announces out hAnnounced with
      ⟨hTable, hGeneration, hComposed, hSubscribers, hOutbox⟩
    apply Or.inr
    exact {
      version := hGeneration
      next := hTable.nextId
      waiting := congrArg (List.map Prod.fst) hTable.clients
      listeners := by
        change (refresh out env w).daemon.subscribers.Sublist
          w.daemon.subscribers
        rw [hSubscribers]
        exact List.filter_sublist
      told := by
        refine ⟨fun s => (copyFor out env.room
          (w.daemon.generation + 1) composed.roots s).1,
          ?_, ?_⟩
        · change (refresh out env w).outbox.map _ = _
          rw [hOutbox, List.map_append, List.map_flatMap]
          congr 2
          funext s
          rw [List.map_map]
          rfl
        · intro l hMem
          change Copied _ (refresh out env w).daemon.generation
            (refresh out env w).daemon.composed.roots _ _
          change l ∈ (refresh out env w).daemon.subscribers
            at hMem
          rw [hSubscribers] at hMem
          rw [hGeneration, hComposed]
          exact copied_of_taken (List.mem_filter.mp hMem).2 }

/- What a request makes of the board. -/
inductive Answers
    (env : Env κ)
    (w : World)
    (stream : Stream) :
    Board (List Entry) Bool Written → Prop where
  | told (messages : List Written) :
      Answers env w stream { w.board with
        told := w.board.told ++ addressed stream messages }
  | subscribed
      (withDer : Bool)
      {messages : List Written}
      (hCopy : Copied out.msgpack w.board.version
        w.board.value withDer messages) :
      Answers env w stream { w.board with
        listeners := w.board.listeners ++ [(stream, withDer)]
        told := w.board.told ++ addressed stream messages }
  | reloaded (messages : List Written) :
      Answers env w stream { (refresh out env w).board with
        told := (refresh out env w).board.told ++
          addressed stream messages }

theorem handle_answers
    (env : Env κ)
    (stream : Stream)
    (request : Request)
    (w : World) :
    Answers out env w stream
      (handle out env stream request w).board := by
  unfold handle
  by_cases hPermits : permits out w stream request = false
  · rw [if_pos hPermits, reply, board_send]
    exact Answers.told _
  rw [if_neg hPermits]
  cases request with
  | status =>
      dsimp only
      rw [reply, board_send]
      exact Answers.told _
  | roots withDer purpose =>
      dsimp only
      rw [board_send]
      exact Answers.told _
  | reload =>
      dsimp only
      rw [reply, board_send]
      exact Answers.reloaded _
  | subscribe withDer =>
      rcases hSend : sendRoots out.msgpack (env.room stream)
          w.daemon.generation (w.daemon.roots withDer none) with
        ⟨written, whole⟩
      dsimp only
      rw [hSend]
      dsimp only
      cases whole with
      | false =>
          rw [if_neg Bool.false_ne_true, board_send]
          exact Answers.told _
      | true =>
          have hCopy : Copied out.msgpack w.board.version
              w.board.value withDer written :=
            sendRoots_whole hSend
          rw [if_pos rfl, board_withSubscribers, board_send]
          exact Answers.subscribed withDer hCopy

end

end Daemon

end Trustd

------------------------------------------------------------
-- What The Board Has Shown
------------------------------------------------------------

namespace Trustd

namespace Daemon

open Cert Control General Registry Render Shared Store Wire

/- Every client is kept under the number of its stream. -/
def World.Named (w : World) : Prop :=
  ∀ c ∈ w.daemon.clients, c.2.stream = c.1

/- The generation and the roots that are served. -/
def World.served (w : World) : Nat × List Entry :=
  (w.daemon.generation, w.daemon.composed.roots)

section

variable {κ : Type}
variable [Reader (Except IoError) κ]
variable {out : Outside}
variable {w : World}
variable {shown : List (Nat × List Entry)}

theorem refresh_informed
    (env : Env κ)
    (hInformed : Informed (Copied out.msgpack) w.board shown) :
    Informed (Copied out.msgpack) (refresh out env w).board
      (shown ++ [(refresh out env w).served]) := by
  rcases refresh_board out env w with hSame | hChanges
  · have hServed : (refresh out env w).served =
        (w.board.version, w.board.value) := by
      rw [← hSame]
      rfl
    rw [hSame, hServed]
    exact hInformed.again
  · exact hInformed.change hChanges

/- A client that made a request is gone, or subscribes. -/
theorem handle_informed
    (env : Env κ)
    {id : Nat}
    (hWaits : id ∈ w.board.waiting)
    (request : Request)
    (hInformed : Informed (Copied out.msgpack) w.board shown) :
    let w' := handle out env id request (w.withoutClient id)
    Informed (Copied out.msgpack) w'.board
      (shown ++ [w'.served]) := by
  have hLeft := hInformed.keep (Keeps.leave
    (List.filter_sublist (p := fun x => x ≠ id)
      (l := w.board.waiting)))
  have hAbsent := hInformed.absent_of_left hWaits
  have hKnown := hInformed.known id
    (mem_names_of_waiting hWaits)
  rw [← board_withoutClient] at hLeft hAbsent
  intro w'
  have hAnswers := handle_answers out env id request
    (w.withoutClient id)
  change Answers out env _ id w'.board at hAnswers
  have hServed : w'.served =
      (w'.board.version, w'.board.value) := rfl
  rw [hServed]
  generalize w'.board = b at hAnswers
  cases hAnswers with
  | told messages =>
      exact (hLeft.keep (Keeps.farewell hAbsent hKnown
        messages)).again
  | subscribed withDer hCopy =>
      have hJoin := hInformed.keep (Keeps.join hWaits hCopy)
      rw [board_withoutClient]
      exact hJoin.again
  | reloaded messages =>
      have hRefresh := refresh_informed env hLeft
      have hThere : ∀ b', (b' = (w.withoutClient id).board ∨
          Changes (Copied out.msgpack)
            (w.withoutClient id).board b') →
          id ∉ b'.names ∧ id ≤ b'.next := by
        rintro b' (rfl | hChanges)
        · exact ⟨hAbsent, hKnown⟩
        · refine ⟨fun hMem => ?_, ?_⟩
          · exact hAbsent (hChanges.names.subset hMem)
          · rw [hChanges.next]
            exact hKnown
      rcases hThere _ (refresh_board out env _) with
        ⟨hAbsent, hKnown⟩
      exact hRefresh.keep (Keeps.farewell hAbsent hKnown
        messages)

/- The client that is found under a number. -/
theorem mem_of_lookup
    {clients : List (Nat × Client)}
    {id : Nat}
    {client : Client}
    (hFound : clients.lookup id = some client) :
    (id, client) ∈ clients := by
  rcases List.lookup_eq_some_iff.mp hFound with
    ⟨before, after, hEq, _⟩
  rw [hEq]
  exact List.mem_append_right _ List.mem_cons_self

theorem attend_informed
    (polled : List Nat)
    (arrival : Arrival κ)
    (hNamed : w.Named)
    (hInformed : Informed (Copied out.msgpack) w.board shown) :
    let w' := attend out polled arrival w
    Informed (Copied out.msgpack) w'.board
      (shown ++ [w'.served]) := by
  unfold attend
  by_cases hPolled : arrival.id ∉ polled
  · rw [if_pos hPolled]
    exact hInformed.again
  rw [if_neg hPolled]
  rcases hFound : w.daemon.clients.lookup arrival.id with
    _ | client
  · exact hInformed.again
  have hMem := mem_of_lookup hFound
  have hStream : client.stream = arrival.id := hNamed _ hMem
  have hWaits : arrival.id ∈ w.board.waiting :=
    List.mem_map_of_mem hMem
  have hLeft := hInformed.keep (Keeps.leave
    (List.filter_sublist (p := fun x => x ≠ arrival.id)
      (l := w.board.waiting)))
  rw [← board_withoutClient] at hLeft
  dsimp only
  rcases client.read out.msgpack out.debug arrival.reads with
    ⟨_ | request | (_ | message), after⟩
  · have hSame := hInformed.again
    rw [← board_updateClient w arrival.id after] at hSame
    exact hSame
  · rw [hStream]
    exact handle_informed arrival.env hWaits request hInformed
  · exact hLeft.again
  · have hAbsent := hInformed.absent_of_left hWaits
    rw [← board_withoutClient] at hAbsent
    have hTold := (hLeft.keep (Keeps.farewell hAbsent
      (hInformed.known _ (mem_names_of_waiting hWaits))
      [(respond out.msgpack (arrival.env.room client.stream)
        message).1])).again
    dsimp only
    rw [hStream] at hTold ⊢
    rw [← board_send] at hTold
    exact hTold

theorem accept_informed
    (now : Nat)
    (usable : Bool)
    (hInformed : Informed (Copied out.msgpack) w.board shown) :
    Informed (Copied out.msgpack) (accept now usable w).board
      shown := by
  unfold accept
  split_ifs
  · exact hInformed
  · have hAdmit := hInformed.keep Keeps.arrive
    unfold World.board
    dsimp only
    rw [List.map_append]
    exact hAdmit
  · exact hInformed

/- Every act leaves the board as it should be. -/
theorem act_informed
    {w' : World}
    (a : Act κ)
    (hNamed : w.Named)
    (hInformed : Informed (Copied out.msgpack) w.board shown)
    (hAct : act out w a = some w') :
    Informed (Copied out.msgpack) w'.board
      (shown ++ [w'.served]) := by
  cases a with
  | accept now usable =>
      cases hAct
      exact (accept_informed now usable hInformed).again
  | attend polled arrival =>
      cases hAct
      exact attend_informed polled arrival hNamed hInformed
  | sweep closed =>
      rcases Option.map_eq_some_iff.mp hAct with
        ⟨left, hSweep, rfl⟩
      exact (hInformed.keep (Keeps.depart
        (sweep_sublist hSweep))).again
  | wake told stamp env =>
      cases hAct
      unfold wake
      split_ifs
      · exact refresh_informed env hInformed
      · exact hInformed.again
  | expire now =>
      cases hAct
      exact (hInformed.keep (Keeps.leave
        (List.filter_sublist.map Prod.fst))).again

end

end Daemon

end Trustd

------------------------------------------------------------
-- Runs
------------------------------------------------------------

namespace Trustd

namespace Daemon

open Cert Control General Registry Render Shared
open Store Wire

section

variable {κ : Type}
variable [Reader (Except IoError) κ]
variable {out : Outside}

theorem refresh_table
    (env : Env κ)
    (w : World) :
    SameTable w (refresh out env w) := by
  rcases hAnnounced : announcedBy out env w.daemon with
    _ | composed
  · exact (refresh_quiet out hAnnounced).1
  · exact (refresh_announces out hAnnounced).1

theorem handle_table
    (env : Env κ)
    (stream : Stream)
    (request : Request)
    (w : World) :
    SameTable w (handle out env stream request w) := by
  unfold handle
  by_cases hPermits : permits out w stream request = false
  · rw [if_pos hPermits]
    exact ⟨rfl, rfl⟩
  rw [if_neg hPermits]
  cases request with
  | status => exact ⟨rfl, rfl⟩
  | roots withDer purpose => exact ⟨rfl, rfl⟩
  | reload =>
      have hTable : SameTable w (refresh out env w) :=
        refresh_table env w
      exact ⟨hTable.clients, hTable.nextId⟩
  | subscribe withDer =>
      dsimp only
      split_ifs
      · exact ⟨rfl, rfl⟩
      · exact ⟨rfl, rfl⟩

theorem read_stream
    (mp : MsgPack)
    (debug : Text → Text)
    (client : Client)
    (reads : List ReadResult) :
    (client.read mp debug reads).2.stream =
      client.stream := by
  unfold Client.read
  rcases drain client.buf reads with progress | buf
  · rfl
  · rfl

/- Each client keeps its number. -/
theorem attend_named
    (polled : List Nat)
    (arrival : Arrival κ)
    {w : World}
    (hNamed : w.Named) :
    (attend out polled arrival w).Named := by
  have hLeft : (w.withoutClient arrival.id).Named :=
    fun c hMem => hNamed c (List.mem_filter.mp hMem).1
  unfold attend
  by_cases hPolled : arrival.id ∉ polled
  · rw [if_pos hPolled]
    exact hNamed
  rw [if_neg hPolled]
  rcases hFound : w.daemon.clients.lookup arrival.id with
    _ | client
  · exact hNamed
  have hStream := hNamed _ (mem_of_lookup hFound)
  have hRead := read_stream out.msgpack out.debug client
    arrival.reads
  dsimp only
  rcases hProgress : client.read out.msgpack out.debug
      arrival.reads with
    ⟨_ | request | (_ | message), after⟩
  · rw [hProgress] at hRead
    intro c hMem
    rcases List.mem_map.mp hMem with ⟨old, hOld, rfl⟩
    split_ifs
    · exact hRead.trans hStream
    · exact hNamed old hOld
  · have hTable : SameTable _ (handle out arrival.env
        client.stream request (w.withoutClient arrival.id)) :=
      handle_table arrival.env client.stream request _
    unfold World.Named
    dsimp only
    rw [hTable.clients]
    exact hLeft
  · exact hLeft
  · exact hLeft

theorem act_named
    {w w' : World}
    (a : Act κ)
    (hNamed : w.Named)
    (hAct : act out w a = some w') :
    w'.Named := by
  cases a with
  | accept now usable =>
      cases hAct
      unfold accept
      split_ifs
      · exact hNamed
      · intro c hMem
        rcases List.mem_append.mp hMem with hOld | hNew
        · exact hNamed c hOld
        · rw [List.mem_singleton.mp hNew]
      · exact hNamed
  | attend polled arrival =>
      cases hAct
      exact attend_named polled arrival hNamed
  | sweep closed =>
      rcases Option.map_eq_some_iff.mp hAct with
        ⟨left, _, rfl⟩
      exact hNamed
  | wake told stamp env =>
      cases hAct
      unfold wake
      split_ifs
      · unfold World.Named
        rw [(refresh_table env w).clients]
        exact hNamed
      · exact hNamed
  | expire now =>
      cases hAct
      intro c hMem
      exact hNamed c (List.mem_filter.mp hMem).1

/- What is served after an act, if it still runs. -/
def servedBy (out : Outside) (s : Option World) (a : Act κ) :
    List (Nat × List Entry) :=
  ((actOn out s a).map World.served).toList

/- All that is served along a run, from the start. -/
def servedAlong
    (out : Outside)
    (w : World)
    (acts : List (Act κ)) :
    List (Nat × List Entry) :=
  w.served :: observed (actOn out) (servedBy out) (some w) acts

/- What has been written to one stream. -/
def World.writtenTo (w : World) (stream : Stream) :
    List Written :=
  (w.outbox.filter (fun x => x.stream = stream)).map
    Sent.written

theorem toldTo_board
    (w : World)
    (stream : Stream) :
    toldTo stream w.board.told = w.writtenTo stream := by
  unfold toldTo World.writtenTo World.board
  dsimp only
  rw [List.filter_map, List.map_map]
  rfl

/- Everything the loop relies on about who is connected. -/
structure Seated
    (mp : MsgPack)
    (shown : List (Nat × List Entry))
    (w : World) :
    Prop where
  named : w.Named
  informed : Informed (Copied mp) w.board shown

/- The daemon that comes to the loop has no one connected. -/
theorem start_seated
    (config : Config)
    (host : Host)
    (env : Env κ) :
    let w := start out config host env
    Seated out.msgpack [w.served] w := by
  intro w
  have hEmpty : w.daemon.clients = [] ∧
      w.daemon.subscribers = [] ∧ w.outbox = [] := by
    refine ⟨(refresh_table env _).clients, ?_⟩
    rcases hAnnounced : announcedBy out env
        (boot out config host).daemon with _ | composed
    · rcases refresh_quiet out hAnnounced with
        ⟨_, _, _, hSubscribers, hOutbox⟩
      exact ⟨hSubscribers, hOutbox⟩
    · rcases refresh_announces out hAnnounced with
        ⟨_, _, _, hSubscribers, hOutbox⟩
      exact ⟨hSubscribers, hOutbox⟩
  rcases hEmpty with ⟨hClients, hSubscribers, hOutbox⟩
  refine ⟨fun c hMem => ?_, ?_⟩
  · rw [hClients] at hMem
    cases hMem
  · apply informed_fresh
    · exact congrArg (List.map Prod.fst) hClients
    · exact hSubscribers
    · exact congrArg (List.map _) hOutbox

/- After any acts everything is as it should be. -/
theorem run_seated
    {shown : List (Nat × List Entry)}
    {w w' : World}
    (hSeated : Seated out.msgpack shown w)
    {acts : List (Act κ)}
    (hRun : run (actOn out) (some w) acts = some w') :
    Seated out.msgpack (shown ++
      observed (actOn out) (servedBy out) (some w) acts) w'
    := by
  suffices hAll : ∀ v, run (actOn out) (some w) acts =
      some v → Seated out.msgpack (shown ++
        observed (actOn out) (servedBy out) (some w) acts) v
    from hAll w' hRun
  refine run_invariant
    (I := fun s log => ∀ v, s = some v →
      Seated out.msgpack (shown ++ log) v) ?_ ?_ acts
  · intro v hv
    cases hv
    rw [List.append_nil]
    exact hSeated
  · intro s log a hBefore v hv
    rcases Option.bind_eq_some_iff.mp hv with ⟨u, rfl, hAct⟩
    have hOld := hBefore u rfl
    have hLog : servedBy out (some u) a = [v.served] := by
      unfold servedBy
      rw [hv]
      rfl
    rw [hLog, ← List.append_assoc]
    exact ⟨act_named a hOld.named hAct,
      act_informed a hOld.named hOld.informed hAct⟩

/-
  Along every run of the main loop a generation is of one root
  set, and what was written to a subscriber that is still held
  are complete runs of chunks, of one generation after the
  other, each of the roots that were served then in the form
  it asked for, the last of them of what is served now.
-/
theorem run_informs
    (out : Outside)
    (config : Config)
    (host : Host)
    (env : Env κ)
    (polls : List (Poll κ))
    {w : World}
    (hRun : run (iterate out)
      (some (start out config host env)) polls = some w) :
    let first := start out config host env
    let shown := servedAlong out first
      (actsAlong out (some first) polls)
    (∀ x ∈ shown, ∀ y ∈ shown, x.1 = y.1 → x = y) ∧
      ∀ subscriber ∈ w.daemon.subscribers,
        ∃ copies : List (Given (List Entry) Written),
          w.writtenTo subscriber.1 =
              copies.flatMap Given.messages ∧
            copies.IsChain
              (fun c d => d.version = c.version + 1) ∧
            (∀ c ∈ copies, (c.version, c.value) ∈ shown ∧
              Snapshot c.version
                (c.messages.map Written.reply)
                (c.value.map (toRoot subscriber.2)) ∧
              WrittenWhole out.msgpack c.messages) ∧
            ∃ last, copies.getLast? = some last ∧
              (last.version, last.value) = w.served := by
  intro first shown
  rw [run_iterate] at hRun
  have hInformed := (run_seated
    (start_seated config host env) hRun).informed
  refine ⟨hInformed.unique, ?_⟩
  intro subscriber hMem
  rcases hInformed.listeners subscriber hMem with
    ⟨earlier, last, hWritten, hChain, hCopies, hVersion,
      hValue⟩
  rw [toldTo_board] at hWritten
  refine ⟨earlier ++ [last], hWritten, hChain, hCopies, last,
    List.getLast?_concat, ?_⟩
  rw [hVersion, hValue]
  rfl

end

/- A request that arrives all at once. -/
def arriving
    {κ : Type}
    (env : Env κ)
    (id : Nat)
    (request : Request) :
    Arrival κ :=
  { id
    reads := [.data (frame (request.encode messagePack))]
    env }

/- What a refresh meets that finds no bundle. -/
def bundleMissing : Env Key :=
  { registry := .ok none
    stamp := none
    bundle := .error {
    kind := .notFound
    rawOsError := some 2
    text := "No such file or directory".toList }
    now := none
    faults := fun _ => {}
    room := fun _ => 100 }

/- A registry without files, with these keys below `Add`. -/
def announcedRegistry (keys : List (Bytes × Key)) : Key :=
  .mk [(Text.utf8 compatValue,
      { ty := .dword, data := [0, 0, 0, 0] })]
    [(Text.utf8 certificatesKey,
      .mk [] [(Text.utf8 addKey, .mk [] keys)])]

/- What a refresh meets, with room for what it announces. -/
def announcing (keys : List (Bytes × Key)) : Env Key :=
  purposeEnv (announcedRegistry keys) (fun _ => {})
    (fun _ => 4096)

/- What the bundle and some additions compose to. -/
def composedWith (additions : List Addition) : Composed :=
  (composeFrom purposeCrates
    (List.replicate minimumShipped purposeShipped) additions []
      none).toOption.getD {}

/- Such a refresh, without reading the bundle's text. -/
theorem refresh_announcing
    {keys : List (Bytes × Key)}
    {additions : List Addition}
    (hLoad : (announcing keys).load =
      .ok { compat := .none, additions })
    (hMade : (composeFrom purposeCrates
      (List.replicate minimumShipped purposeShipped) additions
        [] none).toOption.isSome = true)
    (w : World) :
    let fresh : Config := { compat := .none, additions }
    let composed := composedWith additions
    let adopted := adopt purposeOutside fresh none w
    refresh purposeOutside (announcing keys) w =
      if (composed.roots = w.daemon.composed.roots ∧
          w.daemon.health = .ok) ∧ fresh = w.daemon.config then
        commit composed adopted
      else
        announce purposeOutside (announcing keys)
          (commit composed adopted) := by
  have hCompose : compose purposeCrates purposeBundle
      additions [] none = .ok (composedWith additions) := by
    rw [compose, fromPem_purposeBundle, composedWith]
    cases hComposed : composeFrom purposeCrates
        (List.replicate minimumShipped purposeShipped)
          additions [] none with
    | error e =>
        rw [hComposed] at hMade
        cases hMade
    | ok composed => rfl
  exact refresh_of_some purposeOutside
    (compositionOf_of_ok purposeOutside hLoad rfl hCompose) w

/- A poll by which the daemon is only told to refresh. -/
def telling (now : Nat) (env : Env Key) : Poll Key :=
  { now, told := true, env }

theorem iterate_telling
    (now : Nat)
    (env : Env Key)
    (s : Option World) :
    iterate purposeOutside s (telling now env) =
      s.map (fun w =>
        expire now (refresh purposeOutside env w)) := by
  cases s with
  | none => rfl
  | some w =>
      have hClosed : (telling now env).closed
          w.daemon.subscribers = [] :=
        List.filter_false _
      change run (actOn purposeOutside) (some w)
        ((telling now env).acts w) = _
      rw [Poll.acts, hClosed]
      rfl

/- Two connections that subscribe. -/
def listeningPolls : List (Poll Key) :=
  [{ now := 0, accepts := [true, true], env := bundleMissing },
    { now := 1
      arrivals :=
        [arriving (announcing []) 1 (.subscribe true),
          arriving (announcing []) 2 (.subscribe false)]
      env := bundleMissing }]

/- The certificate that is then added. -/
def announcedKey : Bytes × Key :=
  (Text.utf8 "corp-ca".toList, .mk [(Text.utf8 certificateValue,
    { ty := .binary, data := purposeAdded })] [])

def announcedAddition : Addition :=
  { name := "corp-ca".toList
    der := purposeAdded
    purposes := [] }

/- A set is composed for them, and has one more root then. -/
def subscribingPolls : List (Poll Key) :=
  listeningPolls ++ [telling 2 (announcing []),
    telling 3 (announcing [announcedKey])]

/- Both are held, and were written the set of each change. -/
theorem run_informs_subscriber :
    ∃ w, run (iterate purposeOutside)
        (some (start purposeOutside {} sampleHost
          bundleMissing)) subscribingPolls = some w ∧
      w.daemon.subscribers = [(1, true), (2, false)] ∧
      w.daemon.generation = 2 ∧
      w.daemon.composed.roots.length = 2 ∧
      ∀ subscriber ∈ w.daemon.subscribers,
        ∃ copies : List (Given (List Entry) Written),
          w.writtenTo subscriber.1 =
              copies.flatMap Given.messages ∧
            copies.IsChain
              (fun c d => d.version = c.version + 1) ∧
            ∃ last, copies.getLast? = some last ∧
              (last.version, last.value) = w.served := by
  have hFirst := @refresh_announcing [] []
    (by decide +kernel) (by decide +kernel)
  have hSecond := @refresh_announcing [announcedKey]
    [announcedAddition] (by decide +kernel) (by decide +kernel)
  have hHeld : (run (iterate purposeOutside)
      (some (start purposeOutside {} sampleHost
        bundleMissing)) subscribingPolls).any (fun w =>
          w.daemon.subscribers = [(1, true), (2, false)] ∧
            w.daemon.generation = 2 ∧
            w.daemon.composed.roots.length = 2) = true := by
    rw [subscribingPolls, run_append, run_cons, run_cons,
      run_nil, iterate_telling, iterate_telling]
    simp only [hFirst, hSecond]
    decide +kernel
  rcases (Option.any_eq_true _ _).mp hHeld with ⟨w, hRun, hHere⟩
  rcases of_decide_eq_true hHere with
    ⟨hSubscribers, hGeneration, hRoots⟩
  refine ⟨w, hRun, hSubscribers, hGeneration, hRoots, ?_⟩
  intro subscriber hMem
  rcases (run_informs purposeOutside {} sampleHost
      bundleMissing subscribingPolls hRun).2 _ hMem with
    ⟨copies, hWritten, hChain, _, hLast⟩
  exact ⟨copies, hWritten, hChain, hLast⟩

end Daemon

end Trustd
