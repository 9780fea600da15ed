import Trustd.Core.RoundTrip
import Trustd.Shared.Channel

/-
  Putting a root set together again from its chunks, in the
  two client libraries.

  Both take replies one after the other from somewhere, a
  source; what they make of them does not depend on which.

  Key definitions include:
    * `Trustd.Shared.Source`
    * `Trustd.Shared.receiveComplete`
    * `Trustd.Shared.boundedLoop`
    * `Trustd.Shared.rootsOf`
    * `Trustd.Shared.Snapshot`

  Key theorems include:
    * `Trustd.Shared.receiveComplete_roots_iff`
    * `Trustd.Shared.clientRoots_iff`
    * `Trustd.Shared.libraries_agree`
-/

------------------------------------------------------------
-- Receiving
------------------------------------------------------------

namespace Trustd

namespace Shared

open Control Wire

/-
  Where replies come from. The last one is followed by an
  error at the latest.
-/
structure Source (σ : Type) where
  receive : σ → Except IoError Reply × σ
  size : σ → Nat
  shrinks : ∀ s reply s', receive s = (.ok reply, s') →
    size s' < size s

/- `MAX_SNAPSHOT_BYTES`. -/
def maxSnapshotBytes : Nat := 16 * 1024 * 1024

/- How long a reply is when it is written. -/
def weight (mp : MsgPack) (reply : Reply) : Nat :=
  (reply.encode mp).length

def totalWeight (mp : MsgPack) (replies : List Reply) : Nat :=
  (replies.map (weight mp)).sum

/- `expected`. -/
def expected : Request → Reply → Bool
  | _, .error _ => true
  | .status, .status _ => true
  | .reload, .ok => true
  | .roots _ _, .roots _ _ _ => true
  | .subscribe _, .roots _ _ _ => true
  | _, _ => false

def unexpectedType : IoError :=
  invalid "unexpected reply type".toList

def snapshotTooLarge : IoError :=
  invalid "snapshot exceeds 16 MiB".toList

def generationChanged : IoError :=
  invalid "root generation changed between chunks".toList

section

variable {σ : Type}

/-
  The loop of `receive_complete`: a reply that is not of a
  root set, or none when the chunks are all there; and what is
  pending then.
-/
def collect
    (src : Source σ)
    (mp : MsgPack)
    (request : Request)
    (size : Nat)
    (pending : List Reply)
    (s : σ) :
    Except IoError (Option Reply) × List Reply × σ :=
  match _hReceive : src.receive s with
  | (.error e, s) => (.error e, pending, s)
  | (.ok reply, s) =>
      if expected request reply = false then
        (.error unexpectedType, pending, s)
      else
        match reply with
        | .roots generation batch more =>
            let reply := Reply.roots generation batch more
            let size := size + weight mp reply
            if size > maxSnapshotBytes then
              (.error snapshotTooLarge, pending, s)
            else if more then
              collect src mp request size
                (pending ++ [reply]) s
            else (.ok none, pending ++ [reply], s)
        | reply => (.ok (some reply), [], s)
termination_by src.size s
decreasing_by exact src.shrinks _ _ _ _hReceive

/- The chunks of a root set, drained into one. -/
def combine :
    Option Nat → List Root → List Reply →
      Except IoError Reply
  | generation, roots, [] =>
      .ok (.roots (generation.getD 0) roots false)
  | generation, roots, .roots current batch _ :: rest =>
      if generation.any (· ≠ current) then
        .error generationChanged
      else combine (some current) (roots ++ batch) rest
  | generation, roots, _ :: rest =>
      combine generation roots rest

/- `receive_complete`. -/
def receiveComplete
    (src : Source σ)
    (mp : MsgPack)
    (request : Request)
    (pending : List Reply)
    (s : σ) :
    Except IoError Reply × List Reply × σ :=
  match collect src mp request (totalWeight mp pending)
      pending s with
  | (.error e, pending, s) => (.error e, pending, s)
  | (.ok (some reply), pending, s) => (.ok reply, pending, s)
  | (.ok none, pending, s) => (combine none [] pending, [], s)

/- `Payload`, of a reply. -/
inductive Payload where
  | empty
  | status (status : Status)
  | rootList (roots : List Root)
deriving DecidableEq, Repr

/- `ResultHandle`. -/
structure ResultHandle where
  generation : Nat := 0
  payload : Payload := .empty
deriving DecidableEq, Repr

/- `io::Error::other`. -/
def otherError (message : Text) : IoError :=
  { kind := .other
    rawOsError := none
    text := message }

/- `reply_result`. -/
def replyResult : Reply → Except IoError ResultHandle
  | .ok => .ok {}
  | .error message => .error (otherError message)
  | .status status => .ok { payload := .status status }
  | .roots generation roots _ =>
      .ok { generation, payload := .rootList roots }

/- `exchange`, once the request has been sent. -/
def exchange
    (src : Source σ)
    (mp : MsgPack)
    (request : Request)
    (s : σ) :
    Except IoError ResultHandle :=
  match (receiveComplete src mp request [] s).1 with
  | .ok reply => replyResult reply
  | .error e => .error e

/- Whether a reply says that more follow. -/
def hasMore : Reply → Bool
  | .roots _ _ more => more
  | _ => false

/- The loop of `bounded_call`, and what it leaves. -/
def boundedLoop
    (src : Source σ)
    (mp : MsgPack)
    (bytes : Nat)
    (replies : List Reply)
    (s : σ) :
    Except IoError (List Reply) × σ :=
  match _hReceive : src.receive s with
  | (.error e, s) => (.error e, s)
  | (.ok reply, s) =>
      let bytes := bytes + weight mp reply
      if bytes > maxSnapshotBytes then
        (.error
          (invalid "trust snapshot exceeds 16 MiB".toList), s)
      else
        let replies := replies ++ [reply]
        if hasMore reply then
          boundedLoop src mp bytes replies s
        else (.ok replies, s)
termination_by src.size s
decreasing_by exact src.shrinks _ _ _ _hReceive

/- `roots_of`. The `expect` of its last line is an error. -/
def rootsOfFrom :
    Option Nat → List Root → Bool → List Reply →
      Except Text (Nat × List Root)
  | _, _, false, [] =>
      .error "incomplete root snapshot".toList
  | none, _, true, [] =>
      .error "a completed snapshot has a generation".toList
  | some generation, roots, true, [] =>
      .ok (generation, roots)
  | _, _, true, _ :: _ =>
      .error "reply after completed root snapshot".toList
  | generation, roots, false,
      .roots current batch more :: rest =>
      if generation.any (· ≠ current) then
        .error "root snapshot changed generation".toList
      else
        rootsOfFrom (some current) (roots ++ batch) (!more)
          rest
  | _, _, false, .error e :: _ => .error e
  | _, _, false, _ :: _ => .error "unexpected reply".toList

def rootsOf (replies : List Reply) :
    Except Text (Nat × List Root) :=
  rootsOfFrom none [] false replies

/- `call` and `roots_of`, once the request has been sent. -/
def clientRoots
    (src : Source σ)
    (mp : MsgPack)
    (s : σ) :
    Except Text (Nat × List Root) :=
  match (boundedLoop src mp 0 [] s).1 with
  | .ok replies => rootsOf replies
  | .error e => .error e.text

end

end Shared

end Trustd

------------------------------------------------------------
-- One Reply At A Time
------------------------------------------------------------

namespace Trustd

namespace Shared

open Control Wire

section

variable {σ : Type}
variable {src : Source σ}
variable {mp : MsgPack}
variable {request : Request}
variable {size : Nat}
variable {pending replies : List Reply}
variable {s s' : σ}

theorem collect_error
    {e : IoError}
    (hReceive : src.receive s = (.error e, s')) :
    collect src mp request size pending s =
      (.error e, pending, s') := by
  rw [collect]
  split
  · rename_i h
    rw [hReceive] at h
    cases h
    rfl
  · rename_i h
    rw [hReceive] at h
    cases h

/- A reply that was not asked for is refused. -/
theorem collect_unexpected
    {reply : Reply}
    (hReceive : src.receive s = (.ok reply, s'))
    (hExpected : expected request reply = false) :
    collect src mp request size pending s =
      (.error unexpectedType, pending, s') := by
  rw [collect]
  split
  · rename_i h
    rw [hReceive] at h
    cases h
  · rename_i h
    rw [hReceive] at h
    cases h
    rw [if_pos hExpected]

/- A chunk is taken up. -/
theorem collect_roots
    {generation : Nat}
    {batch : List Root}
    {more : Bool}
    (hReceive : src.receive s =
      (.ok (.roots generation batch more), s'))
    (hExpected :
      expected request (.roots generation batch more) =
        true) :
    collect src mp request size pending s =
      let reply := Reply.roots generation batch more
      if size + weight mp reply > maxSnapshotBytes then
        (.error snapshotTooLarge, pending, s')
      else if more then
        collect src mp request (size + weight mp reply)
          (pending ++ [reply]) s'
      else (.ok none, pending ++ [reply], s') := by
  rw [collect]
  split
  · rename_i h
    rw [hReceive] at h
    cases h
  · rename_i h
    rw [hReceive] at h
    cases h
    rw [if_neg (by simp [hExpected])]

/- Another reply that was asked for ends the matter. -/
theorem collect_other
    {reply : Reply}
    (hReceive : src.receive s = (.ok reply, s'))
    (hExpected : expected request reply = true)
    (hOther : ∀ generation batch more,
      reply ≠ .roots generation batch more) :
    collect src mp request size pending s =
      (.ok (some reply), [], s') := by
  rw [collect]
  split
  · rename_i h
    rw [hReceive] at h
    cases h
  · rename_i h
    rw [hReceive] at h
    cases h
    rw [if_neg (by simp [hExpected])]
    split
    · exact absurd rfl (hOther _ _ _)
    · rfl

theorem boundedLoop_error
    {e : IoError}
    (hReceive : src.receive s = (.error e, s')) :
    boundedLoop src mp size replies s = (.error e, s') := by
  rw [boundedLoop]
  split
  · rename_i h
    rw [hReceive] at h
    cases h
    rfl
  · rename_i h
    rw [hReceive] at h
    cases h

theorem boundedLoop_ok
    {reply : Reply}
    (hReceive : src.receive s = (.ok reply, s')) :
    boundedLoop src mp size replies s =
      if size + weight mp reply > maxSnapshotBytes then
        (.error
          (invalid "trust snapshot exceeds 16 MiB".toList),
          s')
      else if hasMore reply then
        boundedLoop src mp (size + weight mp reply)
          (replies ++ [reply]) s'
      else (.ok (replies ++ [reply]), s') := by
  rw [boundedLoop]
  split
  · rename_i h
    rw [hReceive] at h
    cases h
  · rename_i h
    rw [hReceive] at h
    cases h
    rfl

end

end Shared

end Trustd

------------------------------------------------------------
-- Snapshots
------------------------------------------------------------

namespace Trustd

namespace Shared

open Control Wire

/-
  The chunks of one complete root set: all of one generation,
  and only the last says that none follow.
-/
inductive Snapshot (generation : Nat) :
    List Reply → List Root → Prop where
  | last (batch : List Root) :
      Snapshot generation
        [.roots generation batch false] batch
  | more
      (batch : List Root)
      {rest : List Reply}
      {roots : List Root}
      (hRest : Snapshot generation rest roots) :
      Snapshot generation
        (.roots generation batch true :: rest)
        (batch ++ roots)

/- Replies of which only the last says that none follow. -/
inductive Run : List Reply → Prop where
  | last
      {reply : Reply}
      (hLast : hasMore reply = false) :
      Run [reply]
  | more
      {reply : Reply}
      {rest : List Reply}
      (hMore : hasMore reply = true)
      (hRest : Run rest) :
      Run (reply :: rest)

/- Only chunks. -/
def AllRoots (replies : List Reply) : Prop :=
  ∀ reply ∈ replies, ∃ generation batch more,
    reply = .roots generation batch more

/- The replies a source gives between two of its states. -/
inductive Yields {σ : Type} (src : Source σ) :
    σ → List Reply → σ → Prop where
  | nil (s : σ) : Yields src s [] s
  | cons
      {s mid s' : σ}
      {reply : Reply}
      {rest : List Reply}
      (hReceive : src.receive s = (.ok reply, mid))
      (hRest : Yields src mid rest s') :
      Yields src s (reply :: rest) s'

theorem Snapshot.run
    {generation : Nat}
    {replies : List Reply}
    {roots : List Root}
    (hSnapshot : Snapshot generation replies roots) :
    Run replies ∧ AllRoots replies := by
  induction hSnapshot with
  | last batch =>
      refine ⟨Run.last rfl, fun reply hReply => ?_⟩
      exact ⟨_, _, _, List.mem_singleton.mp hReply⟩
  | more batch _ ih =>
      refine ⟨Run.more rfl ih.1, fun reply hReply => ?_⟩
      rcases List.mem_cons.mp hReply with rfl | hReply
      · exact ⟨_, _, _, rfl⟩
      · exact ih.2 reply hReply

/- Chunks make up one set. -/
theorem Snapshot.unique
    {generation generation' : Nat}
    {replies : List Reply}
    {roots roots' : List Root}
    (hSnapshot : Snapshot generation replies roots)
    (hSnapshot' : Snapshot generation' replies roots') :
    generation = generation' ∧ roots = roots' := by
  induction hSnapshot generalizing roots' with
  | last batch =>
      cases hSnapshot'
      exact ⟨rfl, rfl⟩
  | more batch _ ih =>
      cases hSnapshot' with
      | more _ hRest =>
          rcases ih hRest with ⟨_, hRoots⟩
          exact ⟨rfl, by rw [hRoots]⟩

theorem totalWeight_cons
    (mp : MsgPack)
    (reply : Reply)
    (rest : List Reply) :
    totalWeight mp (reply :: rest) =
      weight mp reply + totalWeight mp rest := by
  simp [totalWeight]

theorem totalWeight_append
    (mp : MsgPack)
    (a b : List Reply) :
    totalWeight mp (a ++ b) =
      totalWeight mp a + totalWeight mp b := by
  simp [totalWeight]

/- A generation agrees with the one before, if any. -/
def Follows (before : Option Nat) (generation : Nat) : Prop :=
  ∀ previous, before = some previous → previous = generation

theorem follows_some (previous generation : Nat) :
    Follows (some previous) generation ↔
      previous = generation := by
  simp [Follows]

theorem any_ne_iff
    (before : Option Nat)
    (generation : Nat) :
    before.any (· ≠ generation) = true ↔
      ¬ Follows before generation := by
  cases before with
  | none => simp [Follows]
  | some previous => simp [Follows]

/- Draining chunks gives the set they make up. -/
theorem combine_ok_iff
    {replies : List Reply}
    (hRun : Run replies)
    (hRoots : AllRoots replies)
    (before : Option Nat)
    (acc : List Root)
    (reply : Reply) :
    combine before acc replies = .ok reply ↔
      ∃ generation roots, Follows before generation ∧
        Snapshot generation replies roots ∧
        reply = .roots generation (acc ++ roots) false := by
  induction hRun generalizing before acc with
  | @last chunk hLast =>
      rcases hRoots chunk List.mem_cons_self with
        ⟨current, batch, more, rfl⟩
      cases (hLast : more = false)
      rw [combine]
      by_cases hFollows : Follows before current
      · rw [if_neg (mt (any_ne_iff _ _).mp (not_not.mpr hFollows))]
        constructor
        · intro hOk
          cases hOk
          exact ⟨current, batch, hFollows, Snapshot.last _,
            rfl⟩
        · rintro ⟨generation, roots, _, hSnapshot, rfl⟩
          cases hSnapshot
          rfl
      · rw [if_pos ((any_ne_iff _ _).mpr hFollows)]
        constructor
        · intro hOk
          cases hOk
        · rintro ⟨generation, roots, hBefore, hSnapshot, _⟩
          cases hSnapshot
          exact absurd hBefore hFollows
  | @more chunk rest hMore hRest ih =>
      rcases hRoots chunk List.mem_cons_self with
        ⟨current, batch, more, rfl⟩
      cases (hMore : more = true)
      have hTail : AllRoots rest := fun reply hReply =>
        hRoots reply (List.mem_cons_of_mem _ hReply)
      rw [combine]
      by_cases hFollows : Follows before current
      · rw [if_neg (mt (any_ne_iff _ _).mp (not_not.mpr hFollows)),
          ih hTail]
        constructor
        · rintro ⟨generation, roots, hSame, hSnapshot, rfl⟩
          cases (follows_some _ _).mp hSame
          exact ⟨current, batch ++ roots, hFollows,
            Snapshot.more _ hSnapshot,
            by rw [List.append_assoc]⟩
        · rintro ⟨generation, roots, _, hSnapshot, rfl⟩
          cases hSnapshot with
          | more _ hRest =>
              exact ⟨current, _, (follows_some _ _).mpr rfl,
                hRest, by rw [List.append_assoc]⟩
      · rw [if_pos ((any_ne_iff _ _).mpr hFollows)]
        constructor
        · intro hOk
          cases hOk
        · rintro ⟨generation, roots, hBefore, hSnapshot, _⟩
          cases hSnapshot with
          | more => exact absurd hBefore hFollows

/- Draining fails on a change of generation only. -/
theorem combine_error
    {replies : List Reply}
    {before : Option Nat}
    {acc : List Root}
    {e : IoError}
    (hError : combine before acc replies = .error e) :
    e = generationChanged := by
  induction replies generalizing before acc with
  | nil => cases hError
  | cons reply rest ih =>
      cases reply with
      | roots current batch more =>
          rw [combine] at hError
          split_ifs at hError with hAny
          · cases hError
            rfl
          · exact ih hError
      | ok => exact ih hError
      | error _ => exact ih hError
      | status _ => exact ih hError

/- A snapshot's first reply is a chunk of its generation. -/
theorem Snapshot.head
    {generation : Nat}
    {reply : Reply}
    {rest : List Reply}
    {roots : List Root}
    (hSnapshot : Snapshot generation (reply :: rest) roots) :
    ∃ batch more, reply = .roots generation batch more := by
  cases hSnapshot with
  | last => exact ⟨_, false, rfl⟩
  | more => exact ⟨_, true, rfl⟩

theorem rootsOfFrom_other
    {reply : Reply}
    (hOther : ∀ generation batch more,
      reply ≠ .roots generation batch more)
    (before : Option Nat)
    (acc : List Root)
    (rest : List Reply) :
    ∃ e, rootsOfFrom before acc false (reply :: rest) =
      .error e := by
  cases reply with
  | ok => exact ⟨_, by rw [rootsOfFrom] <;> simp⟩
  | error e => exact ⟨_, by rw [rootsOfFrom]⟩
  | status status => exact ⟨_, by rw [rootsOfFrom] <;> simp⟩
  | roots generation batch more =>
      exact absurd rfl (hOther generation batch more)

/- Once the set is complete nothing may follow. -/
theorem rootsOfFrom_complete
    (previous : Nat)
    (acc : List Root)
    (rest : List Reply)
    (generation : Nat)
    (all : List Root) :
    rootsOfFrom (some previous) acc true rest =
        .ok (generation, all) ↔
      rest = [] ∧ previous = generation ∧ acc = all := by
  cases rest with
  | nil => simp [rootsOfFrom]
  | cons reply rest => simp [rootsOfFrom]

/- `roots_of` accepts exactly the snapshots. -/
theorem rootsOfFrom_ok_iff
    (replies : List Reply)
    (before : Option Nat)
    (acc : List Root)
    (generation : Nat)
    (all : List Root) :
    rootsOfFrom before acc false replies =
        .ok (generation, all) ↔
      Follows before generation ∧
        ∃ roots, Snapshot generation replies roots ∧
          all = acc ++ roots := by
  induction replies generalizing before acc with
  | nil =>
      constructor
      · intro hOk
        cases before <;> cases hOk
      · rintro ⟨_, roots, hSnapshot, _⟩
        cases hSnapshot
  | cons reply rest ih =>
      by_cases hChunk : ∃ current batch more,
          reply = .roots current batch more
      swap
      · push Not at hChunk
        rcases rootsOfFrom_other hChunk before acc rest with
          ⟨e, hError⟩
        rw [hError]
        constructor
        · intro hOk
          cases hOk
        · rintro ⟨_, roots, hSnapshot, _⟩
          rcases hSnapshot.head with ⟨batch, more, hHead⟩
          exact absurd hHead (hChunk _ _ _)
      rcases hChunk with ⟨current, batch, more, rfl⟩
      rw [rootsOfFrom]
      by_cases hFollows : Follows before current
      swap
      · rw [if_pos ((any_ne_iff _ _).mpr hFollows)]
        constructor
        · intro hOk
          cases hOk
        · rintro ⟨hBefore, roots, hSnapshot, _⟩
          rcases hSnapshot.head with ⟨_, _, hHead⟩
          cases hHead
          exact absurd hBefore hFollows
      rw [if_neg (mt (any_ne_iff _ _).mp
        (not_not.mpr hFollows))]
      cases more with
      | false =>
          rw [Bool.not_false, rootsOfFrom_complete]
          constructor
          · rintro ⟨rfl, rfl, rfl⟩
            exact ⟨hFollows, batch, Snapshot.last _, rfl⟩
          · rintro ⟨_, roots, hSnapshot, rfl⟩
            cases hSnapshot
            exact ⟨rfl, rfl, rfl⟩
      | true =>
          rw [Bool.not_true, ih, follows_some]
          constructor
          · rintro ⟨rfl, roots, hSnapshot, rfl⟩
            exact ⟨hFollows, _, Snapshot.more _ hSnapshot,
              by rw [List.append_assoc]⟩
          · rintro ⟨_, roots, hSnapshot, rfl⟩
            cases hSnapshot with
            | more _ hRest =>
                exact ⟨rfl, _, hRest,
                  by rw [List.append_assoc]⟩

end Shared

end Trustd

------------------------------------------------------------
-- What Is Received
------------------------------------------------------------

namespace Trustd

namespace Shared

open Control Wire

section

variable {σ : Type}
variable {src : Source σ}
variable {mp : MsgPack}
variable {request : Request}

/- A request whose answer is a root set. -/
def TakesRoots (request : Request) : Prop :=
  ∀ reply, expected request reply = true ↔
    (∃ generation batch more,
      reply = .roots generation batch more) ∨
    ∃ e, reply = .error e

theorem takesRoots_roots
    (withDer : Bool)
    (purpose : Option Text) :
    TakesRoots (.roots withDer purpose) := by
  intro reply
  cases reply <;> simp [expected]

theorem takesRoots_subscribe (withDer : Bool) :
    TakesRoots (.subscribe withDer) := by
  intro reply
  cases reply <;> simp [expected]

theorem TakesRoots.chunk
    (hTakes : TakesRoots request)
    (generation : Nat)
    (batch : List Root)
    (more : Bool) :
    expected request (.roots generation batch more) = true :=
  (hTakes _).mpr (Or.inl ⟨_, _, _, rfl⟩)

/- After an error there is no run. -/
theorem Run.not_of_error
    {replies : List Reply}
    {s mid s' : σ}
    {e : IoError}
    (hRun : Run replies)
    (hReceive : src.receive s = (.error e, mid)) :
    ¬ Yields src s replies s' := by
  intro hYields
  cases hYields with
  | nil => cases hRun
  | cons hHead _ =>
      rw [hReceive] at hHead
      cases hHead

/- A run begins with the reply that is received. -/
theorem Run.of_ok
    {replies : List Reply}
    {s mid s' : σ}
    {reply : Reply}
    (hRun : Run replies)
    (hReceive : src.receive s = (.ok reply, mid))
    (hYields : Yields src s replies s') :
    ∃ rest, replies = reply :: rest ∧
      Yields src mid rest s' := by
  cases hYields with
  | nil => cases hRun
  | cons hHead hRest =>
      rw [hReceive] at hHead
      cases hHead
      exact ⟨_, rfl, hRest⟩

theorem Run.of_last
    {reply : Reply}
    {rest : List Reply}
    (hLast : hasMore reply = false)
    (hRun : Run (reply :: rest)) :
    rest = [] := by
  cases hRun with
  | last => rfl
  | more hMore =>
      rw [hLast] at hMore
      cases hMore

theorem Run.of_more
    {reply : Reply}
    {rest : List Reply}
    (hMore : hasMore reply = true)
    (hRun : Run (reply :: rest)) :
    Run rest := by
  cases hRun with
  | last hLast =>
      rw [hMore] at hLast
      cases hLast
  | more _ hRest => exact hRest

theorem allRoots_cons
    (generation : Nat)
    (batch : List Root)
    (more : Bool)
    (rest : List Reply) :
    AllRoots (.roots generation batch more :: rest) ↔
      AllRoots rest := by
  constructor
  · exact fun hAll reply hReply =>
      hAll reply (List.mem_cons_of_mem _ hReply)
  · intro hAll reply hReply
    rcases List.mem_cons.mp hReply with rfl | hReply
    · exact ⟨_, _, _, rfl⟩
    · exact hAll reply hReply

/- A source of which the first reply is no chunk. -/
theorem collect_not_chunk
    {size : Nat}
    {pending pending' : List Reply}
    {s mid s' : σ}
    {reply : Reply}
    (hReceive : src.receive s = (.ok reply, mid))
    (hChunk : ∀ generation batch more,
      reply ≠ .roots generation batch more) :
    collect src mp request size pending s ≠
      (.ok none, pending', s') := by
  intro hOk
  by_cases hExpected : expected request reply = true
  · rw [collect_other hReceive hExpected hChunk] at hOk
    cases hOk
  · rw [collect_unexpected hReceive
      (Bool.not_eq_true _ ▸ hExpected)] at hOk
    cases hOk

/- The chunks of one set, and no more, are collected. -/
theorem collect_none_iff
    (hTakes : TakesRoots request)
    {size : Nat}
    {pending pending' : List Reply}
    {s s' : σ} :
    collect src mp request size pending s =
        (.ok none, pending', s') ↔
      ∃ run, Run run ∧ AllRoots run ∧
        Yields src s run s' ∧
        size + totalWeight mp run ≤ maxSnapshotBytes ∧
        pending' = pending ++ run := by
  induction hSize : src.size s using Nat.strong_induction_on
    generalizing s size pending with
  | _ n ih =>
  rcases hReceive : src.receive s with ⟨e | reply, mid⟩
  · rw [collect_error hReceive]
    constructor
    · intro hOk
      cases hOk
    · rintro ⟨run, hRun, _, hYields, _⟩
      exact absurd hYields (hRun.not_of_error hReceive)
  by_cases hChunk : ∃ generation batch more,
      reply = .roots generation batch more
  swap
  · constructor
    · intro hOk
      exact absurd hOk (collect_not_chunk hReceive
        (by simpa using hChunk))
    · rintro ⟨run, hRun, hRoots, hYields, _⟩
      rcases hRun.of_ok hReceive hYields with ⟨_, rfl, _⟩
      exact absurd (hRoots _ List.mem_cons_self) hChunk
  rcases hChunk with ⟨generation, batch, more, rfl⟩
  rw [collect_roots hReceive (hTakes.chunk _ _ _)]
  dsimp only
  by_cases hLarge : size + weight mp
      (.roots generation batch more) > maxSnapshotBytes
  · rw [if_pos hLarge]
    constructor
    · intro hOk
      cases hOk
    · rintro ⟨run, hRun, _, hYields, hFits, _⟩
      rcases hRun.of_ok hReceive hYields with ⟨_, rfl, _⟩
      rw [totalWeight_cons] at hFits
      omega
  rw [if_neg hLarge]
  cases more with
  | false =>
      rw [if_neg Bool.false_ne_true]
      constructor
      · intro hOk
        cases hOk
        refine ⟨[.roots generation batch false],
          Run.last rfl, (allRoots_cons _ _ _ _).mpr
            (fun _ h => by cases h),
          Yields.cons hReceive (Yields.nil _), ?_, rfl⟩
        rw [totalWeight_cons]
        exact Nat.not_lt.mp hLarge
      · rintro ⟨run, hRun, _, hYields, _, rfl⟩
        rcases hRun.of_ok hReceive hYields with
          ⟨rest, rfl, hRest⟩
        cases hRun.of_last rfl
        cases hRest
        rfl
  | true =>
      have hLess : src.size mid < n :=
        hSize ▸ src.shrinks _ _ _ hReceive
      rw [if_pos rfl, ih _ hLess rfl]
      constructor
      · rintro ⟨run, hRun, hRoots, hYields, hFits, rfl⟩
        refine ⟨.roots generation batch true :: run,
          Run.more rfl hRun,
          (allRoots_cons _ _ _ _).mpr hRoots,
          Yields.cons hReceive hYields,
          ?_, by rw [List.append_assoc]; rfl⟩
        rw [totalWeight_cons]
        omega
      · rintro ⟨run, hRun, hRoots, hYields, hFits, rfl⟩
        rcases hRun.of_ok hReceive hYields with
          ⟨rest, rfl, hRest⟩
        rw [totalWeight_cons] at hFits
        refine ⟨rest, hRun.of_more rfl,
          (allRoots_cons _ _ _ _).mp hRoots, hRest,
          by omega, ?_⟩
        rw [List.append_assoc]
        rfl

/- A run of replies is what `bounded_call` takes. -/
theorem boundedLoop_ok_iff
    {bytes : Nat}
    {replies all : List Reply}
    {s s' : σ} :
    boundedLoop src mp bytes replies s = (.ok all, s') ↔
      ∃ run, Run run ∧ Yields src s run s' ∧
        bytes + totalWeight mp run ≤ maxSnapshotBytes ∧
        all = replies ++ run := by
  induction hSize : src.size s using Nat.strong_induction_on
    generalizing s bytes replies with
  | _ n ih =>
  rcases hReceive : src.receive s with ⟨e | reply, mid⟩
  · rw [boundedLoop_error hReceive]
    constructor
    · intro hOk
      cases hOk
    · rintro ⟨run, hRun, hYields, _⟩
      exact absurd hYields (hRun.not_of_error hReceive)
  rw [boundedLoop_ok hReceive]
  by_cases hLarge :
      bytes + weight mp reply > maxSnapshotBytes
  · rw [if_pos hLarge]
    constructor
    · intro hOk
      cases hOk
    · rintro ⟨run, hRun, hYields, hFits, _⟩
      rcases hRun.of_ok hReceive hYields with ⟨_, rfl, _⟩
      rw [totalWeight_cons] at hFits
      omega
  rw [if_neg hLarge]
  cases hMore : hasMore reply with
  | false =>
      rw [if_neg Bool.false_ne_true]
      constructor
      · intro hOk
        cases hOk
        refine ⟨[reply], Run.last hMore,
          Yields.cons hReceive (Yields.nil _), ?_, rfl⟩
        rw [totalWeight_cons]
        exact Nat.not_lt.mp hLarge
      · rintro ⟨run, hRun, hYields, _, rfl⟩
        rcases hRun.of_ok hReceive hYields with
          ⟨rest, rfl, hRest⟩
        cases hRun.of_last hMore
        cases hRest
        rfl
  | true =>
      have hLess : src.size mid < n :=
        hSize ▸ src.shrinks _ _ _ hReceive
      rw [if_pos rfl, ih _ hLess rfl]
      constructor
      · rintro ⟨run, hRun, hYields, hFits, rfl⟩
        refine ⟨reply :: run, Run.more hMore hRun,
          Yields.cons hReceive hYields, ?_,
          by rw [List.append_assoc]; rfl⟩
        rw [totalWeight_cons]
        omega
      · rintro ⟨run, hRun, hYields, hFits, rfl⟩
        rcases hRun.of_ok hReceive hYields with
          ⟨rest, rfl, hRest⟩
        rw [totalWeight_cons] at hFits
        refine ⟨rest, hRun.of_more hMore, hRest, by omega,
          ?_⟩
        rw [List.append_assoc]
        rfl

/- A run that an error ends. -/
def Refusal
    (src : Source σ)
    (s : σ)
    (e : Text)
    (s' : σ) : Prop :=
  ∃ run, Run run ∧ Yields src s run s' ∧ .error e ∈ run

/- A reply that is no chunk is an error. -/
theorem collect_some
    (hTakes : TakesRoots request)
    {size : Nat}
    {pending pending' : List Reply}
    {reply : Reply}
    {s s' : σ}
    (hOk : collect src mp request size pending s =
      (.ok (some reply), pending', s')) :
    pending' = [] ∧
      ∃ e, reply = .error e ∧ Refusal src s e s' := by
  induction hSize : src.size s using Nat.strong_induction_on
    generalizing s size pending with
  | _ n ih =>
  rcases hReceive : src.receive s with ⟨e | first, mid⟩
  · rw [collect_error hReceive] at hOk
    cases hOk
  by_cases hChunk : ∃ generation batch more,
      first = .roots generation batch more
  · rcases hChunk with ⟨generation, batch, more, rfl⟩
    rw [collect_roots hReceive (hTakes.chunk _ _ _)] at hOk
    dsimp only at hOk
    split_ifs at hOk with hLarge hMore
    · cases hOk
    · rcases ih _ (hSize ▸ src.shrinks _ _ _ hReceive) hOk
        rfl with ⟨hNil, e, hError, run, hRun, hYields, hMem⟩
      have hHead : hasMore (.roots generation batch more) =
          true := hMore
      exact ⟨hNil, e, hError, _, Run.more hHead hRun,
        Yields.cons hReceive hYields,
        List.mem_cons_of_mem _ hMem⟩
    · cases hOk
  · by_cases hExpected : expected request first = true
    · rw [collect_other hReceive hExpected
        (by simpa using hChunk)] at hOk
      cases hOk
      rcases ((hTakes _).mp hExpected).resolve_left hChunk
        with ⟨e, rfl⟩
      exact ⟨rfl, e, rfl, [.error e], Run.last rfl,
        Yields.cons hReceive (Yields.nil _),
        List.mem_singleton_self _⟩
    · rw [collect_unexpected hReceive
        (Bool.not_eq_true _ ▸ hExpected)] at hOk
      cases hOk

/- Chunks that more chunks follow. -/
def Chunks (replies : List Reply) : Prop :=
  ∀ reply ∈ replies, ∃ generation batch,
    reply = .roots generation batch true

theorem Chunks.append
    {before run : List Reply}
    (hChunks : Chunks before)
    (hRun : Run run)
    (hRoots : AllRoots run) :
    Run (before ++ run) ∧ AllRoots (before ++ run) := by
  induction before with
  | nil => exact ⟨hRun, hRoots⟩
  | cons reply before ih =>
      rcases hChunks reply List.mem_cons_self with
        ⟨generation, batch, rfl⟩
      have hTail := ih (fun other hOther =>
        hChunks other (List.mem_cons_of_mem _ hOther))
      exact ⟨Run.more rfl hTail.1,
        (allRoots_cons _ _ _ _).mpr hTail.2⟩

/- What a snapshot has after some chunks is a run. -/
theorem Chunks.of_append
    {before run : List Reply}
    (hChunks : Chunks before)
    (hRun : Run (before ++ run))
    (hRoots : AllRoots (before ++ run)) :
    Run run ∧ AllRoots run := by
  induction before with
  | nil => exact ⟨hRun, hRoots⟩
  | cons reply before ih =>
      rcases hChunks reply List.mem_cons_self with
        ⟨generation, batch, rfl⟩
      exact ih (fun other hOther =>
          hChunks other (List.mem_cons_of_mem _ hOther))
        (hRun.of_more rfl) ((allRoots_cons _ _ _ _).mp hRoots)

/- The two kinds of reply that are given. -/
theorem receiveComplete_cases
    (hTakes : TakesRoots request)
    {before pending : List Reply}
    (hChunks : Chunks before)
    {reply : Reply}
    {s s' : σ}
    (hOk : receiveComplete src mp request before s =
      (.ok reply, pending, s')) :
    pending = [] ∧
      ((∃ e, reply = .error e ∧ Refusal src s e s') ∨
      ∃ generation roots run,
        reply = .roots generation roots false ∧
        Snapshot generation (before ++ run) roots ∧
        Yields src s run s' ∧
        totalWeight mp (before ++ run) ≤
          maxSnapshotBytes) := by
  rw [receiveComplete] at hOk
  rcases hCollect : collect src mp request
      (totalWeight mp before) before s with
    ⟨e | _ | first, left, mid⟩
  · rw [hCollect] at hOk
    cases hOk
  · rcases (collect_none_iff hTakes).mp hCollect with
      ⟨run, hRun, hRoots, hYields, hFits, rfl⟩
    rcases hChunks.append hRun hRoots with ⟨hAll, hEvery⟩
    rw [hCollect] at hOk
    dsimp only at hOk
    cases hCombine : combine none [] (before ++ run) with
    | error e =>
        rw [hCombine] at hOk
        cases hOk
    | ok whole =>
        rcases (combine_ok_iff hAll hEvery _ _ _).mp
          hCombine with ⟨generation, roots, _, hSnapshot, rfl⟩
        rw [hCombine] at hOk
        cases hOk
        rw [← totalWeight_append] at hFits
        exact ⟨rfl, Or.inr ⟨generation, roots, run, rfl,
          hSnapshot, hYields, hFits⟩⟩
  · rw [hCollect] at hOk
    cases hOk
    rcases collect_some hTakes hCollect with ⟨hNil, hError⟩
    exact ⟨hNil, Or.inl hError⟩

/-
  A root set is given when its chunks have all been sent, and
  with those pending before it make up one of bounded size.
-/
theorem receiveComplete_roots
    (hTakes : TakesRoots request)
    {before run : List Reply}
    (hChunks : Chunks before)
    {generation : Nat}
    {roots : List Root}
    {s s' : σ}
    (hSnapshot : Snapshot generation (before ++ run) roots)
    (hYields : Yields src s run s')
    (hFits : totalWeight mp (before ++ run) ≤
      maxSnapshotBytes) :
    receiveComplete src mp request before s =
      (.ok (.roots generation roots false), [], s') := by
  rcases hChunks.of_append hSnapshot.run.1
    hSnapshot.run.2 with ⟨hRun, hRoots⟩
  rw [totalWeight_append] at hFits
  have hCombine := (combine_ok_iff hSnapshot.run.1
    hSnapshot.run.2 none [] _).mpr ⟨generation, roots,
      (fun _ h => by cases h), hSnapshot, rfl⟩
  rw [receiveComplete, (collect_none_iff hTakes).mpr
    ⟨run, hRun, hRoots, hYields, hFits, rfl⟩]
  dsimp only
  rw [hCombine, List.nil_append]

/- What `exchange` makes of the answer to a roots request. -/
theorem exchange_ok_iff
    (hTakes : TakesRoots request)
    (result : ResultHandle)
    (s : σ) :
    exchange src mp request s = .ok result ↔
      ∃ generation roots run s',
        result =
          { generation, payload := .rootList roots } ∧
        Snapshot generation run roots ∧
        Yields src s run s' ∧
        totalWeight mp run ≤ maxSnapshotBytes := by
  have hNone : Chunks [] := fun _ h => by cases h
  constructor
  · intro hOk
    rw [exchange] at hOk
    rcases hReceive : receiveComplete src mp request [] s with
      ⟨e | reply, pending, s'⟩
    · rw [hReceive] at hOk
      cases hOk
    · rw [hReceive] at hOk
      rcases receiveComplete_cases hTakes hNone hReceive with
        ⟨_, ⟨e, rfl, _⟩ | ⟨generation, roots, run, rfl,
          hSnapshot, hYields, hFits⟩⟩
      · cases hOk
      · cases hOk
        exact ⟨generation, roots, run, s', rfl, hSnapshot,
          hYields, hFits⟩
  · rintro ⟨generation, roots, run, s', rfl, hSnapshot,
      hYields, hFits⟩
    rw [exchange, receiveComplete_roots hTakes hNone
      hSnapshot hYields hFits]
    rfl

/- What the other library makes of it. -/
theorem clientRoots_ok_iff
    (generation : Nat)
    (roots : List Root)
    (s : σ) :
    clientRoots src mp s = .ok (generation, roots) ↔
      ∃ run s', Snapshot generation run roots ∧
        Yields src s run s' ∧
        totalWeight mp run ≤ maxSnapshotBytes := by
  constructor
  · intro hOk
    rw [clientRoots] at hOk
    rcases hLoop : boundedLoop src mp 0 [] s with
      ⟨e | replies, s'⟩
    · rw [hLoop] at hOk
      cases hOk
    · rw [hLoop] at hOk
      rcases boundedLoop_ok_iff.mp hLoop with
        ⟨run, _, hYields, hFits, rfl⟩
      rcases (rootsOfFrom_ok_iff _ _ _ _ _).mp hOk with
        ⟨_, all, hSnapshot, rfl⟩
      rw [Nat.zero_add] at hFits
      exact ⟨_, s', hSnapshot, hYields, hFits⟩
  · rintro ⟨run, s', hSnapshot, hYields, hFits⟩
    rw [clientRoots, boundedLoop_ok_iff.mpr ⟨run,
      hSnapshot.run.1, hYields, by rwa [Nat.zero_add], rfl⟩]
    exact (rootsOfFrom_ok_iff _ _ _ _ _).mpr
      ⟨(fun _ h => by cases h), roots, hSnapshot, rfl⟩

end

end Shared

end Trustd

------------------------------------------------------------
-- Any Sequence Of Replies
------------------------------------------------------------

namespace Trustd

namespace Shared

open Control Wire

/- Decoded replies, one by one, and the error after them. -/
def listed (ending : IoError) : Source (List Reply) where
  receive
    | [] => (.error ending, [])
    | reply :: rest => (.ok reply, rest)
  size := List.length
  shrinks s reply s' hReceive := by
    cases s with
    | nil => cases hReceive
    | cons first rest =>
        cases hReceive
        exact Nat.lt_succ_self _

theorem yields_listed_iff
    (ending : IoError)
    (replies run rest : List Reply) :
    Yields (listed ending) replies run rest ↔
      replies = run ++ rest := by
  constructor
  · intro hYields
    induction hYields with
    | nil s => rfl
    | @cons s _ _ _ _ hReceive _ ih =>
        cases s with
        | nil => cases hReceive
        | cons first tail =>
            cases hReceive
            rw [ih, List.cons_append]
  · rintro rfl
    induction run with
    | nil => exact Yields.nil _
    | cons reply run ih => exact Yields.cons rfl ih

/-
  Sequences that are no answer: one that ends before the set
  does, one that changes generation, one with something else
  before the set is complete, and one that is too large.
-/
inductive Unfit (mp : MsgPack) : List Reply → Prop where
  | incomplete
      {replies : List Reply}
      (hChunks : Chunks replies) :
      Unfit mp replies
  | mixed
      {chunks : List Reply}
      (hChunks : Chunks chunks)
      {before after : Nat}
      {earlier batch : List Root}
      (hMem : .roots before earlier true ∈ chunks)
      (hChanged : before ≠ after)
      (more : Bool)
      (rest : List Reply) :
      Unfit mp
        (chunks ++ .roots after batch more :: rest)
  | other
      {chunks : List Reply}
      (hChunks : Chunks chunks)
      {reply : Reply}
      (hOther : ∀ generation batch more,
        reply ≠ .roots generation batch more)
      (rest : List Reply) :
      Unfit mp (chunks ++ reply :: rest)
  | large
      {chunks : List Reply}
      (hChunks : Chunks chunks)
      {reply : Reply}
      (hLarge : maxSnapshotBytes <
        totalWeight mp (chunks ++ [reply]))
      (rest : List Reply) :
      Unfit mp (chunks ++ reply :: rest)

/- A snapshot goes on beyond chunks that more follow. -/
theorem Snapshot.beyond
    {generation : Nat}
    {chunks tail run rest : List Reply}
    {roots : List Root}
    (hSnapshot : Snapshot generation run roots)
    (hChunks : Chunks chunks)
    (hSplit : chunks ++ tail = run ++ rest) :
    ∃ reply more, run = chunks ++ reply :: more ∧
      tail = reply :: (more ++ rest) := by
  induction hSnapshot generalizing chunks with
  | last batch =>
      cases chunks with
      | nil => exact ⟨_, [], rfl, hSplit⟩
      | cons first chunks =>
          rcases hChunks first List.mem_cons_self with
            ⟨_, _, rfl⟩
          cases hSplit
  | @more batch run roots hRest ih =>
      cases chunks with
      | nil => exact ⟨_, run, rfl, hSplit⟩
      | cons first chunks =>
          have hTail := List.cons.inj hSplit
          rcases ih (fun other hOther => hChunks other
            (List.mem_cons_of_mem _ hOther)) hTail.2 with
            ⟨reply, more, rfl, hTail'⟩
          exact ⟨reply, more,
            by rw [hTail.1, List.cons_append], hTail'⟩

/- Every reply of a snapshot is of its generation. -/
theorem Snapshot.generation
    {generation : Nat}
    {run : List Reply}
    {roots : List Root}
    (hSnapshot : Snapshot generation run roots)
    (reply : Reply)
    (hMem : reply ∈ run) :
    ∃ batch more, reply = .roots generation batch more := by
  induction hSnapshot with
  | last batch =>
      exact ⟨_, _, List.mem_singleton.mp hMem⟩
  | more batch _ ih =>
      rcases List.mem_cons.mp hMem with rfl | hMem
      · exact ⟨_, _, rfl⟩
      · exact ih hMem

/- No snapshot of bounded size begins an unfit sequence. -/
theorem Unfit.no_snapshot
    {mp : MsgPack}
    {run rest : List Reply}
    (hUnfit : Unfit mp (run ++ rest))
    {generation : Nat}
    {roots : List Root}
    (hSnapshot : Snapshot generation run roots) :
    maxSnapshotBytes < totalWeight mp run := by
  generalize hAll : run ++ rest = replies at hUnfit
  cases hUnfit with
  | incomplete hChunks =>
      rcases hSnapshot.beyond hChunks
        (by rw [List.append_nil, hAll]) with
        ⟨_, _, _, hNil⟩
      cases hNil
  | @mixed chunks hChunks before after earlier batch hMem
      hChanged more tail =>
      rcases hSnapshot.beyond hChunks hAll.symm with
        ⟨reply, others, rfl, hReply⟩
      rcases hSnapshot.generation _
        (List.mem_append_left _ hMem) with ⟨_, _, hBefore⟩
      rcases hSnapshot.generation reply
        (List.mem_append_right _ List.mem_cons_self) with
        ⟨_, _, hAfter⟩
      cases hBefore
      cases (List.cons.inj hReply).1.trans hAfter
      exact absurd rfl hChanged
  | @other chunks hChunks reply hOther tail =>
      rcases hSnapshot.beyond hChunks hAll.symm with
        ⟨first, others, rfl, hReply⟩
      rcases hSnapshot.generation first
        (List.mem_append_right _ List.mem_cons_self) with
        ⟨_, _, hFirst⟩
      exact absurd ((List.cons.inj hReply).1.trans hFirst)
        (hOther _ _ _)
  | @large chunks hChunks reply hLarge tail =>
      rcases hSnapshot.beyond hChunks hAll.symm with
        ⟨first, others, rfl, hReply⟩
      cases (List.cons.inj hReply).1
      rw [totalWeight_append, totalWeight_cons] at hLarge ⊢
      have hNil : totalWeight mp [] = 0 := rfl
      omega

/-
  Whatever is sent, both libraries take it for the same root
  set or neither takes it for one; what they take begins with
  one whole snapshot of bounded size.
-/
theorem libraries_agree
    (mp : MsgPack)
    (withDer : Bool)
    (purpose : Option Text)
    (replies : List Reply)
    (ending : IoError) :
    (∀ result,
      exchange (listed ending) mp (.roots withDer purpose)
          replies = .ok result ↔
        ∃ generation roots,
          result =
            { generation, payload := .rootList roots } ∧
          clientRoots (listed ending) mp replies =
            .ok (generation, roots)) ∧
    (∀ generation roots,
      clientRoots (listed ending) mp replies =
          .ok (generation, roots) ↔
        ∃ run rest, replies = run ++ rest ∧
          Snapshot generation run roots ∧
          totalWeight mp run ≤ maxSnapshotBytes) ∧
    (Unfit mp replies →
      (∃ e, exchange (listed ending) mp
          (.roots withDer purpose) replies = .error e) ∧
        ∃ e, clientRoots (listed ending) mp replies =
          .error e) := by
  have hClient : ∀ generation roots,
      clientRoots (listed ending) mp replies =
          .ok (generation, roots) ↔
        ∃ run rest, replies = run ++ rest ∧
          Snapshot generation run roots ∧
          totalWeight mp run ≤ maxSnapshotBytes := by
    intro generation roots
    rw [clientRoots_ok_iff]
    constructor
    · rintro ⟨run, rest, hSnapshot, hYields, hFits⟩
      exact ⟨run, rest, (yields_listed_iff _ _ _ _).mp
        hYields, hSnapshot, hFits⟩
    · rintro ⟨run, rest, hSplit, hSnapshot, hFits⟩
      exact ⟨run, rest, hSnapshot,
        (yields_listed_iff _ _ _ _).mpr hSplit, hFits⟩
  have hShared : ∀ result,
      exchange (listed ending) mp (.roots withDer purpose)
          replies = .ok result ↔
        ∃ generation roots,
          result =
            { generation, payload := .rootList roots } ∧
          clientRoots (listed ending) mp replies =
            .ok (generation, roots) := by
    intro result
    rw [exchange_ok_iff (takesRoots_roots withDer purpose)]
    constructor
    · rintro ⟨generation, roots, run, s', rfl, hSnapshot,
        hYields, hFits⟩
      exact ⟨generation, roots, rfl,
        (clientRoots_ok_iff _ _ _).mpr
          ⟨run, s', hSnapshot, hYields, hFits⟩⟩
    · rintro ⟨generation, roots, rfl, hOk⟩
      rcases (clientRoots_ok_iff _ _ _).mp hOk with
        ⟨run, s', hSnapshot, hYields, hFits⟩
      exact ⟨generation, roots, run, s', rfl, hSnapshot,
        hYields, hFits⟩
  refine ⟨hShared, hClient, fun hUnfit => ?_⟩
  have hNone : ∀ generation roots,
      clientRoots (listed ending) mp replies ≠
        .ok (generation, roots) := by
    intro generation roots hOk
    rcases (hClient generation roots).mp hOk with
      ⟨run, rest, rfl, hSnapshot, hFits⟩
    exact absurd (hUnfit.no_snapshot hSnapshot)
      (Nat.not_lt.mpr hFits)
  constructor
  · cases hExchange : exchange (listed ending) mp
        (.roots withDer purpose) replies with
    | error e => exact ⟨e, rfl⟩
    | ok result =>
        rcases (hShared result).mp hExchange with
          ⟨generation, roots, _, hOk⟩
        exact absurd hOk (hNone generation roots)
  · cases hOk : clientRoots (listed ending) mp replies with
    | error e => exact ⟨e, rfl⟩
    | ok set => exact absurd hOk (hNone set.1 set.2)

end Shared

end Trustd
