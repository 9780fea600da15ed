import Trustd.Daemon.Subscribers

/-
  How many connections are held at once.

  A connection that is accepted waits among the clients; when
  it subscribes it goes over to the subscribers. Only the
  clients are counted when the next one is accepted.

  Key definitions include:
    * `Trustd.Daemon.World.held`
    * `Trustd.Daemon.World.Takes`

  Key theorems include:
    * `Trustd.Daemon.held_act`
    * `Trustd.Daemon.held_bounded_iff`
-/

------------------------------------------------------------
-- What Each Act Does To The Number
------------------------------------------------------------

namespace Trustd

namespace Daemon

open Control General Registry Shared Wire

/- Clients awaiting a request, and open subscriptions. -/
def World.held (w : World) : Nat :=
  w.daemon.clients.length + w.daemon.subscribers.length

/- An act takes a connection in. -/
def World.Accepts {κ : Type} (w : World) : Act κ → Prop
  | .accept _ usable =>
      w.daemon.clients.length < maxClients ∧ usable = true
  | _ => False

theorem held_eq (w : World) :
    w.held = w.board.names.length := by
  unfold World.held Board.names World.board
  rw [List.length_append, List.length_map, List.length_map]

theorem held_withoutClient
    {w : World}
    {id : Nat}
    {client : Client}
    (hFound : w.daemon.clients.lookup id = some client) :
    (w.withoutClient id).held < w.held := by
  apply Nat.add_lt_add_right
  apply List.length_filter_lt_length_iff_exists.mpr
  refine ⟨(id, client), mem_of_lookup hFound, ?_⟩
  exact fun hOther => of_decide_eq_true hOther rfl

section

variable {κ : Type}
variable [Reader (Except IoError) κ]
variable (out : Outside)

theorem held_refresh
    (env : Env κ)
    (w : World) :
    (refresh out env w).held ≤ w.held := by
  rw [held_eq, held_eq]
  rcases refresh_board out env w with hSame | hChanges
  · rw [hSame]
  · exact hChanges.names.length_le

/- A request holds one more connection at most. -/
theorem held_handle
    (env : Env κ)
    (stream : Stream)
    (request : Request)
    (w : World) :
    (handle out env stream request w).held ≤ w.held + 1 := by
  have hRefresh := held_refresh out env w
  have hAnswers := handle_answers out env stream request w
  rw [held_eq, held_eq] at *
  generalize (handle out env stream request w).board = b
    at hAnswers ⊢
  cases hAnswers with
  | told messages => exact Nat.le_succ _
  | subscribed withDer hCopy =>
      unfold Board.names
      rw [List.map_append, ← List.append_assoc,
        List.length_append]
      exact le_rfl
  | reloaded messages =>
      exact hRefresh.trans (Nat.le_succ _)

/- Whoever made a request is not a client any more. -/
theorem held_attend
    (polled : List Nat)
    (arrival : Arrival κ)
    (w : World) :
    (attend out polled arrival w).held ≤ w.held := by
  unfold attend
  by_cases hPolled : arrival.id ∉ polled
  · rw [if_pos hPolled]
  rw [if_neg hPolled]
  rcases hFound : w.daemon.clients.lookup arrival.id with
    _ | client
  · exact le_rfl
  have hLess := held_withoutClient hFound
  dsimp only
  rcases client.read out.msgpack out.debug arrival.reads with
    ⟨_ | request | (_ | message), after⟩
  · apply le_of_eq
    rw [held_eq, held_eq]
    exact congrArg (fun b => b.names.length)
      (board_updateClient w arrival.id after)
  · exact (held_handle out arrival.env client.stream request
      (w.withoutClient arrival.id)).trans hLess
  · exact hLess.le
  · exact hLess.le

/- Only an accepted connection is one more. -/
theorem held_act
    {w w' : World}
    {a : Act κ}
    (hAct : act out w a = some w') :
    (w.Accepts a → w'.held = w.held + 1) ∧
      (¬ w.Accepts a → w'.held ≤ w.held) := by
  cases a with
  | accept now usable =>
      cases hAct
      unfold accept World.Accepts
      by_cases hFull : w.daemon.clients.length ≥ maxClients
      · rw [if_pos hFull]
        refine ⟨fun hAccepts => ?_, fun _ => le_rfl⟩
        exact absurd hAccepts.1 (Nat.not_lt.mpr hFull)
      rw [if_neg hFull]
      by_cases hUsable : usable = true
      · rw [if_pos hUsable]
        refine ⟨fun _ => ?_, fun hNot => ?_⟩
        · unfold World.held
          dsimp only
          rw [List.length_append, List.length_singleton]
          omega
        · exact absurd ⟨Nat.not_le.mp hFull, hUsable⟩ hNot
      · rw [if_neg hUsable]
        refine ⟨fun hAccepts => ?_, fun _ => le_rfl⟩
        exact absurd hAccepts.2 hUsable
  | attend polled arrival =>
      cases hAct
      exact ⟨False.elim, fun _ =>
        held_attend out polled arrival w⟩
  | sweep closed =>
      rcases Option.map_eq_some_iff.mp hAct with
        ⟨left, hSweep, rfl⟩
      exact ⟨False.elim, fun _ => Nat.add_le_add_left
        (sweep_sublist hSweep).length_le _⟩
  | wake told stamp env =>
      cases hAct
      refine ⟨False.elim, fun _ => ?_⟩
      unfold wake
      split_ifs
      · exact held_refresh out env w
      · exact le_rfl
  | expire now =>
      cases hAct
      exact ⟨False.elim, fun _ => Nat.add_le_add_right
        (List.length_filter_le _ _) _⟩

end

end Daemon

end Trustd

------------------------------------------------------------
-- Runs
------------------------------------------------------------

namespace Trustd

namespace Daemon

open Control General Registry Render Shared Wire

section

variable {κ : Type}
variable [Reader (Except IoError) κ]
variable (out : Outside)

/- A connection is taken in only where there is room. -/
def Roomy (s : Option World) (a : Act κ) : Prop :=
  ∀ w, s = some w → w.Accepts a → w.held < maxClients

theorem act_of_accepts
    {w : World}
    {a : Act κ}
    (hAccepts : w.Accepts a) :
    ∃ w', act out w a = some w' := by
  cases a with
  | accept now usable => exact ⟨_, rfl⟩
  | attend polled arrival => exact hAccepts.elim
  | sweep closed => exact hAccepts.elim
  | wake told stamp env => exact hAccepts.elim
  | expire now => exact hAccepts.elim

theorem held_actOn
    {s : Option World}
    {a : Act κ}
    (hRoomy : Roomy s a)
    (hBefore : ∀ w, s = some w → w.held ≤ maxClients) :
    ∀ w, actOn out s a = some w → w.held ≤ maxClients := by
  intro w hSome
  rcases Option.bind_eq_some_iff.mp hSome with ⟨v, rfl, hAct⟩
  rcases held_act out hAct with ⟨hMore, hSame⟩
  by_cases hAccepts : v.Accepts a
  · rw [hMore hAccepts]
    exact hRoomy v rfl hAccepts
  · exact (hSame hAccepts).trans (hBefore v rfl)

theorem held_start
    (config : Config)
    (host : Host)
    (env : Env κ) :
    (start out config host env).held = 0 := by
  have hLess := held_refresh out env (boot out config host)
  exact Nat.le_zero.mp hLess

/-
  In whatever order connections are accepted, deliver their
  requests, subscribe, close and run out of time: no more are
  ever held than `maxClients` if and only if none is taken in
  while the clients and the subscribers are that many.
-/
theorem held_bounded_iff
    (config : Config)
    (host : Host)
    (env : Env κ)
    (acts : List (Act κ)) :
    (∀ before, before <+: acts → ∀ w,
        run (actOn out) (some (start out config host env))
          before = some w → w.held ≤ maxClients) ↔
      Along (actOn out) Roomy
        (some (start out config host env)) acts := by
  refine always_iff_along
    (P := fun (s : Option World) => ∀ w, s = some w →
      w.held ≤ maxClients)
    (fun s a hBefore hRoomy =>
      held_actOn out hRoomy hBefore) ?_ ?_ acts
  · intro s a hBefore hNot hAfter
    unfold Roomy at hNot
    push Not at hNot
    rcases hNot with ⟨w, rfl, hAccepts, hFull⟩
    rcases act_of_accepts out hAccepts with ⟨w', hAct⟩
    have hBound := hAfter w' hAct
    rw [(held_act out hAct).1 hAccepts] at hBound
    omega
  · intro w hSome
    cases hSome
    rw [held_start]
    exact Nat.zero_le _

end

/- As many connections as there may be clients. -/
def crowd : List Nat := (List.range maxClients).map Nat.succ

/- They all subscribe, and one more connects. -/
def crowdPolls : List (Poll Key) :=
  [{ now := 0
     accepts := crowd.map (fun _ => true)
     env := bundleMissing },
    { now := 1
      arrivals := crowd.map (fun id =>
        arriving bundleMissing id (.subscribe true))
      env := bundleMissing },
    { now := 2
      accepts := [true]
      env := bundleMissing }]

/- One more is held than there may be. -/
theorem held_exceeded :
    ∃ w, run (iterate purposeOutside)
        (some (start purposeOutside {} sampleHost
          bundleMissing)) crowdPolls = some w ∧
      w.held = maxClients + 1 := by
  have hHeld : (run (iterate purposeOutside)
      (some (start purposeOutside {} sampleHost
        bundleMissing)) crowdPolls).any (fun w =>
          w.held = maxClients + 1) = true := by
    decide +kernel
  rcases (Option.any_eq_true _ _).mp hHeld with
    ⟨w, hRun, hHere⟩
  exact ⟨w, hRun, of_decide_eq_true hHere⟩

end Daemon

end Trustd
