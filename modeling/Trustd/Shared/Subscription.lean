import Trustd.Shared.Delivery

/-
  A subscription: one connection read by call after call, each
  with its own deadline.

  One uninterrupted pass over a stream says what updates it
  holds; what the calls have returned, and what a pass over
  the rest still holds, are together that.

  Key definitions include:
    * `Trustd.Shared.Subscription`
    * `Trustd.Shared.Subscription.next`
    * `Trustd.Shared.updates`
    * `Trustd.Shared.Subscription.rest`

  Key theorems include:
    * `Trustd.Shared.Subscription.next_step`
    * `Trustd.Shared.calls_parse`
-/

------------------------------------------------------------
-- Calls
------------------------------------------------------------

namespace Trustd

namespace Shared

open Control Wire

/- `Subscription`. -/
structure Subscription where
  channel : Option Channel
  request : Request
  pending : List Reply := []
deriving DecidableEq, Repr

/-
  One call: its timeout, whether the clock can hold that
  deadline, and what the connection meets until then.
-/
structure Call where
  timeoutMs : Nat
  overflows : Bool := false
  turns : List Turn
deriving DecidableEq, Repr

/- `deadline`. -/
def Call.deadline (call : Call) : Except IoError Unit :=
  if call.timeoutMs = 0 then
    .error (invalid "timeout_ms must be positive".toList)
  else if call.overflows then
    .error (invalid "timeout is too large".toList)
  else .ok ()

def notConnected : IoError :=
  { kind := .notConnected
    rawOsError := none
    text := "subscription is closed".toList }

/- A failure that is no timeout. -/
def failsFor (outcome : Except IoError ResultHandle) :
    Bool :=
  match outcome with
  | .ok _ => false
  | .error e => e.kind ≠ .timedOut

/- `peios_trust_subscription_next`. -/
def Subscription.next
    (mp : MsgPack)
    (debug : Text → Text)
    (sub : Subscription)
    (call : Call) :
    Except IoError ResultHandle × Subscription :=
  match call.deadline with
  | .error e => (.error e, sub)
  | .ok () =>
      match sub.channel with
      | none => (.error notConnected, sub)
      | some channel =>
          let (received, pending, channel, _) :=
            receiveComplete (channelSource mp debug) mp
              sub.request sub.pending (channel, call.turns)
          let outcome := received.bind replyResult
          if failsFor outcome then
            (outcome,
              { sub with channel := none, pending := [] })
          else
            (outcome,
              { sub with channel := some channel, pending })

/- One call after the other. -/
def Subscription.calls
    (mp : MsgPack)
    (debug : Text → Text)
    (sub : Subscription) :
    List Call →
      List (Except IoError ResultHandle) × Subscription
  | [] => ([], sub)
  | call :: rest =>
      let (outcome, sub) := sub.next mp debug call
      let (outcomes, sub) := calls mp debug sub rest
      (outcome :: outcomes, sub)

end Shared

end Trustd

------------------------------------------------------------
-- One Uninterrupted Pass
------------------------------------------------------------

namespace Trustd

namespace Shared

open Control Wire

theorem nextFrame_shorter
    {bytes payload rest : Bytes}
    (hFrame : nextFrame bytes = .frame payload rest) :
    rest.length < bytes.length := by
  rw [nextFrame] at hFrame
  by_cases hFour : bytes.length < 4
  · rw [if_pos hFour] at hFrame
    cases hFrame
  rw [if_neg hFour] at hFrame
  dsimp only at hFrame
  split_ifs at hFrame
  cases hFrame
  rw [List.length_drop]
  omega

/- The frames a stream begins with. -/
def payloads (bytes : Bytes) : List Bytes :=
  match _hFrame : nextFrame bytes with
  | .frame payload rest => payload :: payloads rest
  | _ => []
termination_by bytes.length
decreasing_by exact nextFrame_shorter _hFrame

/- The root set that chunks of one generation make up. -/
def joined : List Reply → Option (Nat × List Root)
  | [.roots generation batch _] => some (generation, batch)
  | .roots generation batch _ :: rest =>
      match joined rest with
      | some (other, roots) =>
          if generation = other then
            some (generation, batch ++ roots)
          else none
      | none => none
  | _ => none

/-
  The updates in some frames, after chunks that are pending:
  a frame that is no chunk, a set that is too large and one
  of two generations end them.
-/
def updatesFrom (mp : MsgPack) :
    List Reply → List Bytes → List (Nat × List Root)
  | _, [] => []
  | pending, payload :: rest =>
      match Reply.decode mp payload with
      | .ok (.roots generation batch more) =>
          let run := pending ++ [.roots generation batch more]
          if totalWeight mp run > maxSnapshotBytes then []
          else if more then updatesFrom mp run rest
          else
            match joined run with
            | some update => update :: updatesFrom mp [] rest
            | none => []
      | _ => []

/- The updates of a stream, in one pass. -/
def updates
    (mp : MsgPack)
    (pending : List Reply)
    (bytes : Bytes) :
    List (Nat × List Root) :=
  updatesFrom mp pending (payloads bytes)

/- The updates a subscription can still give. -/
def Subscription.rest
    (mp : MsgPack)
    (sub : Subscription) :
    List (Nat × List Root) :=
  match sub.channel with
  | none => []
  | some channel => updates mp sub.pending channel.ahead

/- The root sets among the outcomes of calls. -/
def returned (outcomes : List (Except IoError ResultHandle)) :
    List (Nat × List Root) :=
  outcomes.filterMap (fun outcome =>
    match outcome with
    | .ok { generation, payload := .rootList roots } =>
        some (generation, roots)
    | _ => none)

theorem payloads_frame
    {bytes payload rest : Bytes}
    (hFrame : nextFrame bytes = .frame payload rest) :
    payloads bytes = payload :: payloads rest := by
  rw [payloads]
  split
  · rename_i h
    rw [hFrame] at h
    cases h
    rfl
  · rename_i h
    exact absurd hFrame (h _ _)

theorem payloads_none
    {bytes : Bytes}
    (hNone : ∀ payload rest,
      nextFrame bytes ≠ .frame payload rest) :
    payloads bytes = [] := by
  rw [payloads]
  split
  · rename_i h
    exact absurd h (hNone _ _)
  · rfl

/- Chunks make up a set exactly when they are a snapshot. -/
theorem joined_iff
    {run : List Reply}
    (hRun : Run run)
    (hRoots : AllRoots run)
    (generation : Nat)
    (roots : List Root) :
    joined run = some (generation, roots) ↔
      Snapshot generation run roots := by
  induction hRun generalizing generation roots with
  | @last reply hLast =>
      rcases hRoots reply List.mem_cons_self with
        ⟨current, batch, more, rfl⟩
      cases (hLast : more = false)
      constructor
      · intro hJoined
        cases hJoined
        exact Snapshot.last _
      · intro hSnapshot
        cases hSnapshot
        rfl
  | @more reply rest hMore hRest ih =>
      rcases hRoots reply List.mem_cons_self with
        ⟨current, batch, more, rfl⟩
      cases (hMore : more = true)
      have hTail := (allRoots_cons _ _ _ _).mp hRoots
      have hStep : joined (.roots current batch true :: rest) =
          match joined rest with
          | some (other, all) =>
              if current = other then
                some (current, batch ++ all)
              else none
          | none => none := by
        cases hRest with
        | last => rfl
        | more => rfl
      rw [hStep]
      constructor
      · intro hJoined
        rcases hOther : joined rest with _ | ⟨other, all⟩
        · rw [hOther] at hJoined
          cases hJoined
        · rw [hOther] at hJoined
          dsimp only at hJoined
          split_ifs at hJoined with hSame
          cases hJoined
          cases hSame
          exact Snapshot.more batch ((ih hTail _ _).mp hOther)
      · intro hSnapshot
        cases hSnapshot with
        | more _ hOthers =>
            rw [(ih hTail _ _).mpr hOthers]
            exact if_pos rfl

end Shared

end Trustd

------------------------------------------------------------
-- Frames Of The Pass
------------------------------------------------------------

namespace Trustd

namespace Shared

open Control Wire

section

variable {mp : MsgPack}
variable {pending : List Reply}
variable {bytes payload left : Bytes}

theorem updates_roots
    {generation : Nat}
    {batch : List Root}
    {more : Bool}
    (hFrame : nextFrame bytes = .frame payload left)
    (hDecode : Reply.decode mp payload =
      .ok (.roots generation batch more)) :
    updates mp pending bytes =
      let run := pending ++ [.roots generation batch more]
      if totalWeight mp run > maxSnapshotBytes then []
      else if more then updates mp run left
      else
        match joined run with
        | some update => update :: updates mp [] left
        | none => [] := by
  rw [updates, payloads_frame hFrame, updatesFrom, hDecode]
  rfl

theorem updates_none
    (hNone : ∀ payload left,
      nextFrame bytes ≠ .frame payload left) :
    updates mp pending bytes = [] := by
  rw [updates, payloads_none hNone]
  rfl

/- A frame that is no chunk ends the updates. -/
theorem updates_other
    (hFrame : nextFrame bytes = .frame payload left)
    (hOther : ∀ generation batch more,
      Reply.decode mp payload ≠
        .ok (.roots generation batch more)) :
    updates mp pending bytes = [] := by
  rw [updates, payloads_frame hFrame, updatesFrom]
  split
  · rename_i h
    exact absurd h (hOther _ _ _)
  · rfl

/- A set's chunks are its update, or end the updates. -/
theorem updates_frames
    {run : List Reply}
    (hFrames : Frames mp bytes run left)
    (hRun : Run run)
    (hRoots : AllRoots run)
    (hFits : totalWeight mp (pending ++ run) ≤
      maxSnapshotBytes) :
    updates mp pending bytes =
      match joined (pending ++ run) with
      | some update => update :: updates mp [] left
      | none => [] := by
  induction hFrames generalizing pending with
  | nil bytes => cases hRun
  | @cons bytes payload rest left reply replies hFrame
      hDecode hRest ih =>
      rcases hRoots reply List.mem_cons_self with
        ⟨generation, batch, more, rfl⟩
      have hSplit : pending ++ .roots generation batch more ::
          replies = (pending ++
            [.roots generation batch more]) ++ replies := by
        rw [List.append_assoc, List.singleton_append]
      have hHead : ¬ totalWeight mp (pending ++
          [.roots generation batch more]) >
            maxSnapshotBytes := by
        rw [hSplit, totalWeight_append] at hFits
        omega
      rw [updates_roots hFrame hDecode]
      dsimp only
      rw [if_neg hHead]
      cases more with
      | false =>
          cases hRun.of_last rfl
          cases hRest
          rw [if_neg Bool.false_ne_true]
      | true =>
          rw [if_pos rfl, ih (hRun.of_more rfl)
            ((allRoots_cons _ _ _ _).mp hRoots)
            (by rwa [← hSplit]), ← hSplit]

/- An error ends the updates. -/
theorem updates_refusal
    {run : List Reply}
    {e : Text}
    (hFrames : Frames mp bytes run left)
    (hRun : Run run)
    (hMem : .error e ∈ run) :
    updates mp pending bytes = [] := by
  induction hFrames generalizing pending with
  | nil bytes => cases hRun
  | @cons bytes payload rest left reply replies hFrame
      hDecode _ ih =>
      rcases List.mem_cons.mp hMem with rfl | hLater
      · refine updates_other hFrame fun _ _ _ hRoots => ?_
        rw [hDecode] at hRoots
        cases hRoots
      · cases hMore : hasMore reply with
        | false =>
            cases hRun.of_last hMore
            cases hLater
        | true =>
            cases reply with
            | roots generation batch more =>
                cases (hMore : more = true)
                rw [updates_roots hFrame hDecode]
                dsimp only
                rw [if_pos rfl, ih (hRun.of_more rfl) hLater,
                  ite_self]
            | ok => cases hMore
            | error _ => cases hMore
            | status _ => cases hMore

end

end Shared

end Trustd

------------------------------------------------------------
-- Calls That Stop Early
------------------------------------------------------------

namespace Trustd

namespace Shared

open Control Wire

/- Chunks gone from the stream to what is pending. -/
inductive Moved (mp : MsgPack) :
    List Reply → Bytes → List Reply → Bytes → Prop where
  | refl
      (pending : List Reply)
      (bytes : Bytes) :
      Moved mp pending bytes pending bytes
  | chunk
      {pending pending' : List Reply}
      {bytes payload rest bytes' : Bytes}
      {generation : Nat}
      {batch : List Root}
      (hFrame : nextFrame bytes = .frame payload rest)
      (hDecode : Reply.decode mp payload =
        .ok (.roots generation batch true))
      (hFits : totalWeight mp
        (pending ++ [.roots generation batch true]) ≤
          maxSnapshotBytes)
      (hRest : Moved mp
        (pending ++ [.roots generation batch true]) rest
          pending' bytes') :
      Moved mp pending bytes pending' bytes'

/- What a call that gives an error has done. -/
inductive Stopped
    (mp : MsgPack)
    (turns : List Turn)
    (pending : List Reply)
    (ch : Channel) :
    IoError → List Reply → Channel → Prop where
  | waiting
      {e : IoError}
      {pending' : List Reply}
      {ch' : Channel}
      (hMoved : Moved mp pending ch.ahead pending' ch'.ahead)
      (hCloses : ch'.closes = ch.closes)
      (hPartial : ch'.Partial)
      (hError : e = timedOut ∨ .failed e ∈ turns) :
      Stopped mp turns pending ch e pending' ch'
  | ended
      {e : IoError}
      {pending' : List Reply}
      {ch' : Channel}
      (hUpdates : updates mp pending ch.ahead = [])
      (hKind : e.kind ≠ .timedOut) :
      Stopped mp turns pending ch e pending' ch'

section

variable {mp : MsgPack}
variable {debug : Text → Text}
variable {request : Request}

section

variable {pending pending' : List Reply}
variable {bytes bytes' : Bytes}

theorem Moved.updates
    (hMoved : Moved mp pending bytes pending' bytes') :
    updates mp pending bytes = updates mp pending' bytes' := by
  induction hMoved with
  | refl => rfl
  | chunk hFrame hDecode hFits _ ih =>
      rw [updates_roots hFrame hDecode]
      dsimp only
      rw [if_neg (Nat.not_lt.mpr hFits), if_pos rfl, ih]

theorem Moved.chunks
    (hMoved : Moved mp pending bytes pending' bytes')
    (hChunks : Chunks pending) :
    Chunks pending' := by
  induction hMoved with
  | refl => exact hChunks
  | chunk _ _ _ _ ih =>
      refine ih fun reply hReply => ?_
      rcases List.mem_append.mp hReply with hReply | hReply
      · exact hChunks reply hReply
      · exact ⟨_, _, List.mem_singleton.mp hReply⟩

theorem Moved.onward
    (hMoved : Moved mp pending bytes pending' bytes') :
    pending <+: pending' := by
  induction hMoved with
  | refl => exact List.prefix_rfl
  | chunk _ _ _ _ ih =>
      exact (List.prefix_append _ _).trans ih

theorem Moved.fits
    (hMoved : Moved mp pending bytes pending' bytes')
    (hFits : totalWeight mp pending ≤ maxSnapshotBytes) :
    totalWeight mp pending' ≤ maxSnapshotBytes := by
  induction hMoved with
  | refl => exact hFits
  | chunk _ _ hMore _ ih => exact ih hMore

end

/- What a receiving call that gives an error has done. -/
theorem receive_stopped
    {turns turns' : List Turn}
    {pending : List Reply}
    {ch ch' : Channel}
    {e : IoError}
    (hPartial : ch.Partial)
    (hReceive : ch.receive mp debug turns =
      (.error e, ch', turns')) :
    Stopped mp turns pending ch e pending ch' := by
  have hSpec := Channel.receive_spec mp debug turns hPartial
  rw [hReceive] at hSpec
  dsimp only at hSpec
  generalize hResult : (Except.error e :
    Except IoError Reply) = result at hSpec
  cases hSpec with
  | decoded payload rest hFrame =>
      cases hDecode : Reply.decode mp payload with
      | ok reply =>
          rw [hDecode] at hResult
          cases hResult
      | error why =>
          rw [hDecode] at hResult
          cases hResult
          refine Stopped.ended (updates_other hFrame ?_) ?_
          · intro _ _ _ hOk
            rw [hDecode] at hOk
            cases hOk
          · intro hKind
            cases hKind
  | refused _ hRefused =>
      cases hResult
      refine Stopped.ended (updates_none ?_) ?_
      · intro _ _ hFrame
        rw [hRefused] at hFrame
        cases hFrame
      · intro hKind
        cases hKind
  | waiting _ hAhead hCloses hPartial' =>
      cases hResult
      refine Stopped.waiting ?_ hCloses hPartial' (Or.inl rfl)
      rw [hAhead]
      exact Moved.refl _ _
  | failed _ hTurn _ hAhead hCloses hPartial' =>
      cases hResult
      refine Stopped.waiting ?_ hCloses hPartial'
        (Or.inr hTurn)
      rw [hAhead]
      exact Moved.refl _ _
  | ended _ _ hNext =>
      cases hResult
      refine Stopped.ended (updates_none ?_) ?_
      · intro _ _ hFrame
        rw [hNext] at hFrame
        cases hFrame
      · intro hKind
        cases hKind

/- The same of the loop of `receive_complete`. -/
theorem collect_stopped
    (hTakes : TakesRoots request)
    {turns turns' : List Turn}
    {pending pending' : List Reply}
    {ch ch' : Channel}
    {e : IoError}
    (hPartial : ch.Partial)
    (hError : collect (channelSource mp debug) mp request
      (totalWeight mp pending) pending (ch, turns) =
        (.error e, pending', ch', turns')) :
    Stopped mp turns pending ch e pending' ch' := by
  induction hLength : turns.length
    using Nat.strong_induction_on
    generalizing turns pending ch with
  | _ n ih =>
  rcases hReceive : ch.receive mp debug turns with
    ⟨why | reply, mid, later⟩
  · have hSource : (channelSource mp debug).receive
        (ch, turns) = (.error why, mid, later) := hReceive
    rw [collect_error hSource] at hError
    cases hError
    exact receive_stopped hPartial hReceive
  have hSource : (channelSource mp debug).receive
      (ch, turns) = (.ok reply, mid, later) := hReceive
  rcases receive_ok hPartial hReceive with
    ⟨payload, rest, hFrame, hDecode, rfl⟩
  by_cases hChunk : ∃ generation batch more,
      reply = .roots generation batch more
  swap
  · push Not at hChunk
    have hUpdates : updates mp pending ch.ahead = [] := by
      refine updates_other hFrame fun _ _ _ hOk => ?_
      rw [hDecode] at hOk
      cases hOk
      exact absurd rfl (hChunk _ _ _)
    by_cases hExpected : expected request reply = true
    · rw [collect_other hSource hExpected
        hChunk] at hError
      cases hError
    · rw [collect_unexpected hSource
        (Bool.not_eq_true _ ▸ hExpected)] at hError
      cases hError
      exact Stopped.ended hUpdates (fun h => by cases h)
  rcases hChunk with ⟨generation, batch, more, rfl⟩
  rw [collect_roots hSource
    (hTakes.chunk _ _ _)] at hError
  have hWeight : totalWeight mp pending + weight mp
      (.roots generation batch more) = totalWeight mp
        (pending ++ [.roots generation batch more]) := by
    rw [totalWeight_append, totalWeight_cons]
    rfl
  dsimp only at hError
  rw [hWeight] at hError
  by_cases hLarge : totalWeight mp (pending ++
      [.roots generation batch more]) > maxSnapshotBytes
  · rw [if_pos hLarge] at hError
    cases hError
    refine Stopped.ended ?_ (fun h => by cases h)
    rw [updates_roots hFrame hDecode]
    dsimp only
    rw [if_pos hLarge]
  rw [if_neg hLarge] at hError
  cases more with
  | false =>
      rw [if_neg Bool.false_ne_true] at hError
      cases hError
  | true =>
      rw [if_pos rfl] at hError
      have hSuffix := Channel.receive_suffix mp debug turns ch
      have hShorter := (channelSource mp debug).shrinks
        (ch, turns) _ _ hReceive
      rw [hReceive] at hSuffix
      have hStopped := ih _ (hLength ▸ hShorter)
        (Channel.partial_start _ _) hError rfl
      cases hStopped with
      | waiting hMoved hCloses hPartial' hWhy =>
          exact Stopped.waiting
            (Moved.chunk hFrame hDecode
              (Nat.not_lt.mp hLarge) hMoved)
            hCloses hPartial'
            (hWhy.imp_right (fun hMem => hSuffix.subset hMem))
      | ended hUpdates hKind =>
          refine Stopped.ended ?_ hKind
          rw [updates_roots hFrame hDecode]
          dsimp only
          rw [if_neg hLarge, if_pos rfl]
          exact hUpdates

end

end Shared

end Trustd

------------------------------------------------------------
-- One Call
------------------------------------------------------------

namespace Trustd

namespace Shared

open Control Wire

/- What holds of a subscription between calls. -/
structure Subscription.Sound
    (mp : MsgPack)
    (sub : Subscription) : Prop where
  takes : TakesRoots sub.request
  chunks : Chunks sub.pending
  fits : totalWeight mp sub.pending ≤ maxSnapshotBytes
  between : ∀ ch, sub.channel = some ch → ch.Partial

/- A schedule in which no call fails but by timing out. -/
def Patient (turns : List Turn) : Prop :=
  ∀ e, .failed e ∈ turns → e.kind = .timedOut

/- What one call comes to. -/
inductive Stepped
    (mp : MsgPack)
    (sub : Subscription)
    (call : Call) :
    Except IoError ResultHandle → Subscription → Prop where
  | refused
      {e : IoError}
      (hDeadline : call.deadline = .error e) :
      Stepped mp sub call (.error e) sub
  | closed
      (hDeadline : call.deadline = .ok ())
      (hChannel : sub.channel = none) :
      Stepped mp sub call (.error notConnected) sub
  | update
      {generation : Nat}
      {roots : List Root}
      {sub' : Subscription}
      (hOpen : sub'.channel ≠ none)
      (hRest : sub.rest mp =
        (generation, roots) :: sub'.rest mp) :
      Stepped mp sub call
        (.ok { generation, payload := .rootList roots }) sub'
  | timeout
      {e : IoError}
      {sub' : Subscription}
      (hKind : e.kind = .timedOut)
      (hOpen : sub'.channel ≠ none)
      (hOnward : sub.pending <+: sub'.pending)
      (hRest : sub.rest mp = sub'.rest mp) :
      Stepped mp sub call (.error e) sub'
  | failure
      {e : IoError}
      {sub' : Subscription}
      (hDeadline : call.deadline = .ok ())
      (hKind : e.kind ≠ .timedOut)
      (hClosed : sub'.channel = none)
      (hRest : Patient call.turns → sub.rest mp = []) :
      Stepped mp sub call (.error e) sub'

section

variable {mp : MsgPack}
variable {debug : Text → Text}

theorem deadline_kind
    {call : Call}
    {e : IoError}
    (hDeadline : call.deadline = .error e) :
    e.kind = .invalidInput := by
  unfold Call.deadline at hDeadline
  split_ifs at hDeadline
  · cases hDeadline
    rfl
  · cases hDeadline
    rfl

/- What an error of `receive_complete` comes to. -/
theorem receiveComplete_error
    {request : Request}
    (hTakes : TakesRoots request)
    {turns turns' : List Turn}
    {pending pending' : List Reply}
    (hChunks : Chunks pending)
    {ch ch' : Channel}
    {e : IoError}
    (hPartial : ch.Partial)
    (hError : receiveComplete (channelSource mp debug) mp
      request pending (ch, turns) =
        (.error e, pending', ch', turns')) :
    Stopped mp turns pending ch e pending' ch' := by
  rw [receiveComplete] at hError
  rcases hCollect : collect (channelSource mp debug) mp
      request (totalWeight mp pending) pending (ch, turns)
    with ⟨why | _ | reply, left, mid, later⟩
  · rw [hCollect] at hError
    cases hError
    exact collect_stopped hTakes hPartial hCollect
  · rcases (collect_none_iff hTakes).mp hCollect with
      ⟨run, hRun, hRoots, hYields, hFits, rfl⟩
    rcases hChunks.append hRun hRoots with ⟨hAll, hEvery⟩
    rw [hCollect] at hError
    dsimp only at hError
    have hCombine := (Prod.ext_iff.mp hError).1
    dsimp only at hCombine
    cases combine_error hCombine
    refine Stopped.ended ?_ (fun h => by cases h)
    rw [← totalWeight_append] at hFits
    rw [updates_frames (yields_frames hPartial hYields).1 hRun
      hRoots hFits]
    cases hJoined : joined (pending ++ run) with
    | none => rfl
    | some update =>
        have hSnapshot := (joined_iff hAll hEvery _ _).mp
          hJoined
        have hOk := (combine_ok_iff hAll hEvery none [] _).mpr
          ⟨update.1, update.2, (fun _ h => by cases h),
            hSnapshot, rfl⟩
        rw [hCombine] at hOk
        cases hOk
  · rw [hCollect] at hError
    cases hError

theorem Subscription.rest_open
    (mp : MsgPack)
    {sub : Subscription}
    {ch : Channel}
    (hChannel : sub.channel = some ch) :
    sub.rest mp = updates mp sub.pending ch.ahead := by
  rw [rest, hChannel]

/- A subscription that has been closed is in order. -/
theorem Subscription.sound_closed
    {sub : Subscription}
    (hTakes : TakesRoots sub.request) :
    ({ sub with channel := none, pending := [] } :
      Subscription).Sound mp where
  takes := hTakes
  chunks := fun _ h => by cases h
  fits := Nat.zero_le _
  between := fun _ h => by cases h

/- A call on an open subscription. -/
theorem Subscription.next_open
    {sub : Subscription}
    {call : Call}
    (hDeadline : call.deadline = .ok ())
    {ch ch' : Channel}
    (hChannel : sub.channel = some ch)
    {received : Except IoError Reply}
    {pending : List Reply}
    {turns : List Turn}
    (hReceive : receiveComplete (channelSource mp debug) mp
      sub.request sub.pending (ch, call.turns) =
        (received, pending, ch', turns)) :
    sub.next mp debug call =
      if failsFor (received.bind replyResult) then
        (received.bind replyResult,
          { sub with channel := none, pending := [] })
      else
        (received.bind replyResult,
          { sub with channel := some ch', pending }) := by
  rw [next, hDeadline]
  dsimp only
  rw [hChannel]
  dsimp only
  rw [hReceive]

/- A call on an open subscription that received an error. -/
theorem Subscription.next_error
    {sub : Subscription}
    (hSound : sub.Sound mp)
    {call : Call}
    (hDeadline : call.deadline = .ok ())
    {ch ch' : Channel}
    (hChannel : sub.channel = some ch)
    {e : IoError}
    {pending : List Reply}
    {turns : List Turn}
    (hReceive : receiveComplete (channelSource mp debug) mp
      sub.request sub.pending (ch, call.turns) =
        (.error e, pending, ch', turns)) :
    Stepped mp sub call (sub.next mp debug call).1
        (sub.next mp debug call).2 ∧
      (sub.next mp debug call).2.Sound mp := by
  have hRest := Subscription.rest_open mp hChannel
  have hStopped := receiveComplete_error hSound.takes
    hSound.chunks (hSound.between ch hChannel) hReceive
  have hNext := Subscription.next_open hDeadline hChannel
    hReceive
  by_cases hKind : e.kind = .timedOut
  · have hFails : ¬ failsFor
        ((Except.error e).bind replyResult) = true := by
      simp [Except.bind, failsFor, hKind]
    rw [hNext, if_neg hFails]
    cases hStopped with
    | waiting hMoved hCloses hPartial' _ =>
        refine ⟨Stepped.timeout hKind (by simp)
          hMoved.onward ?_, ?_⟩
        · rw [hRest, hMoved.updates]
          rfl
        · exact ⟨hSound.takes, hMoved.chunks hSound.chunks,
            hMoved.fits hSound.fits,
            fun _ h => by cases h; exact hPartial'⟩
    | ended _ hOther => exact absurd hKind hOther
  · have hFails : failsFor
        ((Except.error e).bind replyResult) = true := by
      simp [Except.bind, failsFor, hKind]
    rw [hNext, if_pos hFails]
    refine ⟨Stepped.failure hDeadline hKind rfl ?_,
      Subscription.sound_closed hSound.takes⟩
    intro hPatient
    cases hStopped with
    | waiting _ _ _ hWhy =>
        rcases hWhy with rfl | hMem
        · exact absurd rfl hKind
        · exact absurd (hPatient e hMem) hKind
    | ended hUpdates _ => rw [hRest, hUpdates]

/- A call on an open subscription that received a reply. -/
theorem Subscription.next_ok
    {sub : Subscription}
    (hSound : sub.Sound mp)
    {call : Call}
    (hDeadline : call.deadline = .ok ())
    {ch ch' : Channel}
    (hChannel : sub.channel = some ch)
    {reply : Reply}
    {pending : List Reply}
    {turns : List Turn}
    (hReceive : receiveComplete (channelSource mp debug) mp
      sub.request sub.pending (ch, call.turns) =
        (.ok reply, pending, ch', turns)) :
    Stepped mp sub call (sub.next mp debug call).1
        (sub.next mp debug call).2 ∧
      (sub.next mp debug call).2.Sound mp := by
  have hRest := Subscription.rest_open mp hChannel
  have hPartial := hSound.between ch hChannel
  have hNext := Subscription.next_open hDeadline hChannel
    hReceive
  rcases receiveComplete_cases hSound.takes hSound.chunks
    hReceive with ⟨rfl, ⟨e, rfl, run, hRun, hYields, hMem⟩ |
      ⟨generation, roots, run, rfl, hSnapshot, hYields,
        hFits⟩⟩
  · have hFails : failsFor ((Except.ok
        (Reply.error e)).bind replyResult) = true := rfl
    rw [hNext, if_pos hFails]
    refine ⟨Stepped.failure hDeadline (fun h => by cases h)
      rfl ?_, Subscription.sound_closed hSound.takes⟩
    intro _
    rw [hRest]
    exact updates_refusal (yields_frames hPartial hYields).1
      hRun hMem
  · have hFails : ¬ failsFor ((Except.ok (Reply.roots
        generation roots false)).bind replyResult) = true :=
      Bool.false_ne_true
    rw [hNext, if_neg hFails]
    rcases hSound.chunks.of_append hSnapshot.run.1
      hSnapshot.run.2 with ⟨hRun, hRoots⟩
    rcases yields_frames hPartial hYields with
      ⟨hFrames, hLast⟩
    refine ⟨Stepped.update (by simp) ?_, hSound.takes,
      (fun _ h => by cases h), Nat.zero_le _, ?_⟩
    · rw [hRest, updates_frames hFrames hRun hRoots hFits,
        (joined_iff hSnapshot.run.1 hSnapshot.run.2 _ _).mpr
          hSnapshot]
      rfl
    · intro left hLeft
      cases hLeft
      have hNil : run ≠ [] := by
        rintro rfl
        cases hRun
      have hEmpty : ch' =
          { stream := ch'.ahead, closes := ch.closes } :=
        hLast hNil
      rw [hEmpty]
      exact Channel.partial_start _ _

/- Every call is one of these, and leaves things in order. -/
theorem Subscription.next_step
    (debug : Text → Text)
    {sub : Subscription}
    (hSound : sub.Sound mp)
    (call : Call) :
    Stepped mp sub call (sub.next mp debug call).1
        (sub.next mp debug call).2 ∧
      (sub.next mp debug call).2.Sound mp := by
  cases hDeadline : call.deadline with
  | error e =>
      rw [next, hDeadline]
      exact ⟨Stepped.refused hDeadline, hSound⟩
  | ok _ =>
      rcases hChannel : sub.channel with _ | ch
      · rw [next, hDeadline]
        dsimp only
        rw [hChannel]
        exact ⟨Stepped.closed hDeadline hChannel, hSound⟩
      · rcases hReceive : receiveComplete
            (channelSource mp debug) mp sub.request
            sub.pending (ch, call.turns) with
          ⟨e | reply, pending, ch', turns⟩
        · exact Subscription.next_error hSound hDeadline
            hChannel hReceive
        · exact Subscription.next_ok hSound hDeadline
            hChannel hReceive

end

end Shared

end Trustd

------------------------------------------------------------
-- Call After Call
------------------------------------------------------------

namespace Trustd

namespace Shared

open Control Wire

/- What a call on a closed subscription says. -/
def Call.refusal (call : Call) :
    Except IoError ResultHandle :=
  match call.deadline with
  | .error e => .error e
  | .ok () => .error notConnected

section

variable {mp : MsgPack}
variable {debug : Text → Text}

theorem returned_cons
    (outcome : Except IoError ResultHandle)
    (outcomes : List (Except IoError ResultHandle)) :
    returned (outcome :: outcomes) =
      returned [outcome] ++ returned outcomes := by
  rw [returned, returned, returned, ← List.filterMap_append,
    List.singleton_append]

theorem Subscription.calls_cons
    (sub : Subscription)
    (call : Call)
    (rest : List Call) :
    sub.calls mp debug (call :: rest) =
      ((sub.next mp debug call).1 ::
          ((sub.next mp debug call).2.calls mp debug rest).1,
        ((sub.next mp debug call).2.calls mp debug rest).2) :=
  rfl

/- A closed subscription stays closed and returns nothing. -/
theorem Subscription.calls_closed
    {sub : Subscription}
    (hClosed : sub.channel = none)
    (calls : List Call) :
    sub.calls mp debug calls =
      (calls.map Call.refusal, sub) := by
  induction calls with
  | nil => rfl
  | cons call calls ih =>
      have hNext : sub.next mp debug call =
          (call.refusal, sub) := by
        rw [next, Call.refusal]
        cases call.deadline with
        | error e => rfl
        | ok _ =>
            dsimp only
            rw [hClosed]
      rw [calls_cons, hNext, ih, List.map_cons]

theorem Subscription.calls_sound
    {sub : Subscription}
    (hSound : sub.Sound mp)
    (calls : List Call) :
    (sub.calls mp debug calls).2.Sound mp := by
  induction calls generalizing sub with
  | nil => exact hSound
  | cons call calls ih =>
      rw [calls_cons]
      exact ih (next_step debug hSound call).2

/- What one call returns and what is left after it. -/
theorem Stepped.rest
    {sub sub' : Subscription}
    {call : Call}
    {outcome : Except IoError ResultHandle}
    (hStepped : Stepped mp sub call outcome sub')
    (hWhole : sub'.channel ≠ none ∨ Patient call.turns) :
    returned [outcome] ++ sub'.rest mp = sub.rest mp := by
  cases hStepped with
  | refused hDeadline => rfl
  | closed hDeadline hChannel => rfl
  | update hOpen hRest =>
      rw [hRest]
      rfl
  | timeout hKind hOpen hOnward hRest =>
      rw [hRest]
      rfl
  | failure hDeadline hKind hClosed hRest =>
      rcases hWhole with hOpen | hPatient
      · exact absurd hClosed hOpen
      · rw [hRest hPatient, Subscription.rest, hClosed]
        rfl

theorem Stepped.returned_prefix
    {sub sub' : Subscription}
    {call : Call}
    {outcome : Except IoError ResultHandle}
    (hStepped : Stepped mp sub call outcome sub') :
    returned [outcome] ++ sub'.rest mp <+: sub.rest mp := by
  by_cases hClosed : sub'.channel = none
  · cases hStepped with
    | refused hDeadline => exact List.prefix_rfl
    | closed hDeadline hChannel => exact List.prefix_rfl
    | update hOpen hRest => exact absurd hClosed hOpen
    | timeout hKind hOpen hOnward hRest =>
        exact absurd hClosed hOpen
    | failure hDeadline hKind hClosed hRest =>
        rw [Subscription.rest, hClosed]
        exact List.nil_prefix
  · have hSame := hStepped.rest (Or.inl hClosed)
    exact ⟨[], by rw [List.append_nil, hSame]⟩

/-
  What the calls have returned and what a pass would still
  find make up one pass; only a failure of the connection
  itself can cut that short.
-/
theorem Subscription.calls_rest
    {sub : Subscription}
    (hSound : sub.Sound mp)
    (calls : List Call)
    (hWhole : (sub.calls mp debug calls).2.channel ≠ none ∨
      ∀ call ∈ calls, Patient call.turns) :
    returned (sub.calls mp debug calls).1 ++
        (sub.calls mp debug calls).2.rest mp =
      sub.rest mp := by
  induction calls generalizing sub with
  | nil => rfl
  | cons call calls ih =>
      rcases next_step debug hSound call with
        ⟨hStepped, hSound'⟩
      rw [calls_cons] at hWhole ⊢
      have hLater := ih hSound' (hWhole.imp_right
        (fun hAll other hOther =>
          hAll other (List.mem_cons_of_mem _ hOther)))
      have hHere : (sub.next mp debug call).2.channel ≠
          none ∨ Patient call.turns := by
        refine hWhole.imp ?_
          (fun hAll => hAll call List.mem_cons_self)
        intro hOpen hClosed
        rw [calls_closed hClosed] at hOpen
        exact hOpen hClosed
      rw [returned_cons, List.append_assoc, hLater,
        hStepped.rest hHere]

theorem Subscription.calls_prefix
    {sub : Subscription}
    (hSound : sub.Sound mp)
    (calls : List Call) :
    returned (sub.calls mp debug calls).1 ++
        (sub.calls mp debug calls).2.rest mp <+:
      sub.rest mp := by
  induction calls generalizing sub with
  | nil => exact List.prefix_rfl
  | cons call calls ih =>
      rcases next_step debug hSound call with
        ⟨hStepped, hSound'⟩
      rw [calls_cons, returned_cons, List.append_assoc]
      exact ((List.prefix_append_right_inj _).mpr
        (ih hSound')).trans hStepped.returned_prefix

/- The frames of the first update of a pass. -/
theorem updates_eq_cons
    {pending : List Reply}
    {bytes : Bytes}
    {update : Nat × List Root}
    {others : List (Nat × List Root)}
    (hChunks : Chunks pending)
    (hUpdates : updates mp pending bytes =
      update :: others) :
    ∃ run left, Frames mp bytes run left ∧
      Snapshot update.1 (pending ++ run) update.2 ∧
      totalWeight mp (pending ++ run) ≤ maxSnapshotBytes ∧
      run.length ≤ bytes.length := by
  induction hLength : bytes.length
    using Nat.strong_induction_on
    generalizing pending bytes with
  | _ n ih =>
  rcases hNext : nextFrame bytes with _ | _ | ⟨payload, rest⟩
  · rw [updates_none (by simp [hNext])] at hUpdates
    cases hUpdates
  · rw [updates_none (by simp [hNext])] at hUpdates
    cases hUpdates
  by_cases hRoots : ∃ generation batch more,
      Reply.decode mp payload =
        .ok (.roots generation batch more)
  swap
  · rw [updates_other hNext (by simpa using hRoots)]
      at hUpdates
    cases hUpdates
  rcases hRoots with ⟨generation, batch, more, hDecode⟩
  have hShorter := nextFrame_shorter hNext
  rw [updates_roots hNext hDecode] at hUpdates
  dsimp only at hUpdates
  by_cases hLarge : totalWeight mp (pending ++
      [.roots generation batch more]) > maxSnapshotBytes
  · rw [if_pos hLarge] at hUpdates
    cases hUpdates
  rw [if_neg hLarge] at hUpdates
  cases more with
  | false =>
      rw [if_neg Bool.false_ne_true] at hUpdates
      cases hJoined : joined (pending ++
          [.roots generation batch false]) with
      | none =>
          rw [hJoined] at hUpdates
          cases hUpdates
      | some whole =>
          rw [hJoined] at hUpdates
          cases hUpdates
          have hEnd : AllRoots
              [.roots generation batch false] :=
            (allRoots_cons _ _ _ _).mpr
              (fun _ h => by cases h)
          have hLast := hChunks.append (Run.last rfl) hEnd
          refine ⟨[.roots generation batch false], rest,
            Frames.cons hNext hDecode (Frames.nil _),
            (joined_iff hLast.1 hLast.2 _ _).mp hJoined,
            Nat.not_lt.mp hLarge, ?_⟩
          rw [List.length_singleton]
          omega
  | true =>
      rw [if_pos rfl] at hUpdates
      have hMore : Chunks (pending ++
          [.roots generation batch true]) := by
        intro reply hReply
        rcases List.mem_append.mp hReply with h | h
        · exact hChunks reply h
        · exact ⟨_, _, List.mem_singleton.mp h⟩
      rcases ih _ (hLength ▸ hShorter) hMore hUpdates rfl with
        ⟨run, left, hFrames, hSnapshot, hFits, hCount⟩
      rw [List.append_assoc, List.singleton_append]
        at hSnapshot hFits
      refine ⟨_, left, Frames.cons hNext hDecode hFrames,
        hSnapshot, hFits, ?_⟩
      rw [List.length_cons]
      omega

/- With enough reads a call returns the next update. -/
theorem Subscription.next_enough
    {sub : Subscription}
    (hSound : sub.Sound mp)
    {call : Call}
    (hDeadline : call.deadline = .ok ())
    {ch : Channel}
    (hChannel : sub.channel = some ch)
    (hSmooth : Smooth call.turns)
    (hReads : 2 * ch.ahead.length < reads call.turns)
    {update : Nat × List Root}
    {others : List (Nat × List Root)}
    (hRest : sub.rest mp = update :: others) :
    (sub.next mp debug call).1 = .ok
      { generation := update.1
        payload := .rootList update.2 } := by
  rw [Subscription.rest_open mp hChannel] at hRest
  rcases updates_eq_cons hSound.chunks hRest with
    ⟨run, left, hFrames, hSnapshot, hFits, hCount⟩
  have hAhead : ch.ahead.length =
      ch.incoming.length + ch.stream.length :=
    List.length_append
  rcases hFrames.yields debug rfl
    (hSound.between ch hChannel) hSmooth (by omega) with
    ⟨⟨ch', turns⟩, hYields⟩
  have hReceive := receiveComplete_roots
    hSound.takes hSound.chunks hSnapshot hYields hFits
  have hNext := Subscription.next_open hDeadline hChannel
    hReceive
  have hFails : ¬ failsFor ((Except.ok (Reply.roots
      update.1 update.2 false)).bind replyResult) = true :=
    Bool.false_ne_true
  rw [hNext, if_neg hFails]
  rfl

/- What a call that timed out has left. -/
theorem Stepped.of_timeout
    {sub sub' : Subscription}
    {call : Call}
    {e : IoError}
    (hStepped : Stepped mp sub call (.error e) sub')
    (hKind : e.kind = .timedOut) :
    sub.pending <+: sub'.pending ∧
      sub'.rest mp = sub.rest mp := by
  cases hStepped with
  | refused hDeadline =>
      rw [deadline_kind hDeadline] at hKind
      cases hKind
  | closed => cases hKind
  | timeout _ _ hOnward hRest => exact ⟨hOnward, hRest.symm⟩
  | failure _ hOther => exact absurd hKind hOther

/- Any other failure but of the deadline's own closes. -/
theorem Stepped.of_failure
    {sub sub' : Subscription}
    {call : Call}
    {e : IoError}
    (hStepped : Stepped mp sub call (.error e) sub')
    (hKind : e.kind ≠ .timedOut)
    (hDeadline : call.deadline = .ok ()) :
    sub'.channel = none := by
  cases hStepped with
  | refused hRefused =>
      rw [hDeadline] at hRefused
      cases hRefused
  | closed _ hChannel => exact hChannel
  | timeout hTimeout => exact absurd hTimeout hKind
  | failure _ _ hClosed => exact hClosed

end

/-
  Whatever a daemon sends on a subscription, and however the
  calls, their deadlines and the reads cut it up: what has
  been returned and what a pass still finds are one pass over
  the stream, which a failure of the connection can end early.
  A call that times out loses nothing, pending chunks stay
  within the bound, after any other failure every call is
  refused, and a call with enough reads returns what is next.
-/
theorem calls_parse
    (mp : MsgPack)
    (debug : Text → Text)
    (withDer : Bool)
    (stream : Bytes)
    (closes : Bool)
    (calls : List Call) :
    let start : Subscription :=
      { channel := some { stream, closes }
        request := .subscribe withDer }
    let result := start.calls mp debug calls
    (result.2.channel ≠ none ∨
        (∀ call ∈ calls, Patient call.turns) →
      returned result.1 ++ result.2.rest mp =
        updates mp [] stream) ∧
    returned result.1 <+: updates mp [] stream ∧
    ∀ before call after, calls = before ++ call :: after →
      let sub := (start.calls mp debug before).2
      let next := sub.next mp debug call
      totalWeight mp sub.pending ≤ maxSnapshotBytes ∧
      (∀ e, next.1 = .error e → e.kind = .timedOut →
        sub.pending <+: next.2.pending ∧
          next.2.rest mp = sub.rest mp) ∧
      (∀ e, next.1 = .error e → e.kind ≠ .timedOut →
        call.deadline = .ok () →
          (next.2.calls mp debug after).1 =
            after.map Call.refusal) ∧
      ∀ ch update others, sub.channel = some ch →
        sub.rest mp = update :: others →
        call.deadline = .ok () → Smooth call.turns →
        2 * ch.ahead.length < reads call.turns →
          next.1 = .ok
            { generation := update.1
              payload := .rootList update.2 } := by
  intro start result
  have hSound : start.Sound mp :=
    { takes := takesRoots_subscribe withDer
      chunks := fun _ h => by cases h
      fits := Nat.zero_le _
      between := fun ch hChannel => by
        cases hChannel
        exact Channel.partial_start _ _ }
  refine ⟨Subscription.calls_rest hSound calls,
    (List.prefix_append _ _).trans
      (Subscription.calls_prefix hSound calls), ?_⟩
  intro before call after _ sub next
  have hSub : sub.Sound mp :=
    Subscription.calls_sound hSound before
  have hStepped : Stepped mp sub call next.1 next.2 :=
    (Subscription.next_step debug hSub call).1
  refine ⟨hSub.fits, ?_, ?_, ?_⟩
  · intro e hError hKind
    rw [hError] at hStepped
    exact hStepped.of_timeout hKind
  · intro e hError hKind hDeadline
    rw [hError] at hStepped
    rw [Subscription.calls_closed
      (hStepped.of_failure hKind hDeadline)]
  · intro ch update others hChannel hRest hDeadline hSmooth
      hReads
    exact Subscription.next_enough hSub hDeadline hChannel
      hSmooth hReads hRest

/- A subscription whose daemon closed before it wrote. -/
def silent : Subscription :=
  { channel := some { stream := [], closes := true }
    request := .subscribe false }

/-
  A call with no time at all fails, and that is no timeout;
  the next call is not refused for it.
-/
theorem calls_zero_timeout :
    ∃ first second, (silent.calls messagePack
        (fun text => text)
        [{ timeoutMs := 0, turns := [] },
          { timeoutMs := 1000, turns := [] }]).1 =
      [first, second] ∧
      failsFor first = true ∧
      second ≠ .error notConnected := by
  have hReceive : receiveComplete
      (channelSource messagePack (fun text => text))
      messagePack (.subscribe false) []
      ({ stream := [], closes := true }, []) =
      (.error timedOut, [],
        { stream := [], closes := true }, []) := by
    rw [receiveComplete, collect_error rfl]
  have hFirst : silent.next messagePack (fun text => text)
      { timeoutMs := 0, turns := [] } =
      (.error (invalid
        "timeout_ms must be positive".toList), silent) := rfl
  have hSecond : silent.next messagePack (fun text => text)
      { timeoutMs := 1000, turns := [] } =
      (.error timedOut, silent) := by
    have hOpen : silent.channel =
        some { stream := [], closes := true } := rfl
    rw [Subscription.next_open rfl hOpen hReceive]
    rfl
  refine ⟨.error (invalid
    "timeout_ms must be positive".toList),
    .error timedOut, ?_, rfl, fun hSame => by cases hSame⟩
  rw [Subscription.calls_cons, hFirst,
    Subscription.calls_cons, hSecond]
  rfl

end Shared

end Trustd
