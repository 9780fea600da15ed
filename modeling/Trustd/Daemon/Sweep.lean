import Trustd.Daemon.Health
import Trustd.Daemon.Subscribers

/-
  Sweeping out the subscribers that closed.

  Which of them closed is written down before the requests are
  handled, and they are removed after; in between a reload may
  have dropped others.

  Key definitions include:
    * `Trustd.Daemon.Poll.handled`
    * `Trustd.Daemon.publishedBy`
    * `Trustd.Daemon.Poll.Spares`

  Key theorems include:
    * `Trustd.Daemon.attend_subscribers`
    * `Trustd.Daemon.sweep_exact_iff`
-/

------------------------------------------------------------
-- What A Request Leaves Of The Subscribers
------------------------------------------------------------

namespace Trustd

namespace Daemon

open Cert Control General Registry Render Shared Store Wire

section

variable {κ : Type}
variable [Reader (Except IoError) κ]
variable (out : Outside)

/- The request that is read from an arrival, if any. -/
def requestOf
    (polled : List Nat)
    (w : World)
    (arrival : Arrival κ) :
    Option (Stream × Request) :=
  if arrival.id ∉ polled then none
  else
    match w.daemon.clients.lookup arrival.id with
    | none => none
    | some client =>
        match (client.read out.msgpack out.debug
            arrival.reads).1 with
        | .request request => some (client.stream, request)
        | _ => none

/- What an arrival has announced: only a reload can. -/
def publishedBy
    (polled : List Nat)
    (w : World)
    (arrival : Arrival κ) :
    Option Composed :=
  match requestOf out polled w arrival with
  | some (stream, .reload) =>
      if permits out w stream .reload then
        announcedBy out arrival.env w.daemon
      else none
  | _ => none

/- Whether a subscriber takes what an arrival announces. -/
def Takes
    (polled : List Nat)
    (w : World)
    (arrival : Arrival κ)
    (subscriber : Stream × Bool) :
    Prop :=
  ∀ composed,
    publishedBy out polled w arrival = some composed →
      (copyFor out arrival.env.room
        (w.daemon.generation + 1) composed.roots
        subscriber).2 = true

/- Without a request nothing happens to the subscribers. -/
theorem attend_of_none
    {polled : List Nat}
    {w : World}
    {arrival : Arrival κ}
    (hNone : requestOf out polled w arrival = none) :
    let w' := attend out polled arrival w
    w'.daemon.subscribers = w.daemon.subscribers ∧
      w'.board.waiting.Sublist w.board.waiting := by
  have hSame : w.daemon.subscribers = w.daemon.subscribers ∧
      w.board.waiting.Sublist w.board.waiting :=
    ⟨rfl, List.Sublist.refl _⟩
  have hLeft : (w.withoutClient arrival.id).board.waiting
      |>.Sublist w.board.waiting := by
    rw [board_withoutClient]
    exact List.filter_sublist
  unfold requestOf at hNone
  unfold attend
  by_cases hPolled : arrival.id ∉ polled
  · rw [if_pos hPolled]
    exact hSame
  rw [if_neg hPolled] at hNone ⊢
  rcases hFound : w.daemon.clients.lookup arrival.id with
    _ | client
  · exact hSame
  rw [hFound] at hNone
  dsimp only at hNone ⊢
  rcases hProgress : client.read out.msgpack out.debug
      arrival.reads with
    ⟨_ | request | (_ | message), after⟩
  · dsimp only
    rw [board_updateClient]
    exact hSame
  · rw [hProgress] at hNone
    cases hNone
  · exact ⟨rfl, hLeft⟩
  · exact ⟨rfl, hLeft⟩

/- A request is handled once its client is removed. -/
theorem attend_of_some
    {polled : List Nat}
    {w : World}
    {arrival : Arrival κ}
    {stream : Stream}
    {request : Request}
    (hSome : requestOf out polled w arrival =
      some (stream, request)) :
    attend out polled arrival w =
        handle out arrival.env stream request
          (w.withoutClient arrival.id) ∧
      ∃ client, w.daemon.clients.lookup arrival.id =
        some client ∧ client.stream = stream := by
  unfold requestOf at hSome
  unfold attend
  by_cases hPolled : arrival.id ∉ polled
  · rw [if_pos hPolled] at hSome
    cases hSome
  rw [if_neg hPolled] at hSome ⊢
  rcases hFound : w.daemon.clients.lookup arrival.id with
    _ | client
  · rw [hFound] at hSome
    cases hSome
  rw [hFound] at hSome
  dsimp only at hSome ⊢
  rcases hProgress : client.read out.msgpack out.debug
      arrival.reads with
    ⟨_ | read | message, after⟩
  · rw [hProgress] at hSome
    cases hSome
  · rw [hProgress] at hSome
    cases hSome
    exact ⟨rfl, client, rfl, rfl⟩
  · rw [hProgress] at hSome
    cases hSome

/- A request other than a reload drops no subscriber. -/
theorem handle_subscribers
    (env : Env κ)
    {w : World}
    {stream : Stream}
    {request : Request}
    (hOther : request ≠ .reload ∨
      permits out w stream request = false) :
    ∃ new, (handle out env stream request
        w).daemon.subscribers = w.daemon.subscribers ++ new ∧
      ∀ s ∈ new, s.1 = stream := by
  have hSame : ∃ new, w.daemon.subscribers =
      w.daemon.subscribers ++ new ∧
        ∀ s ∈ new, s.1 = stream :=
    ⟨[], (List.append_nil _).symm, by simp⟩
  unfold handle
  by_cases hPermits : permits out w stream request = false
  · rw [if_pos hPermits]
    exact hSame
  rw [if_neg hPermits]
  cases request with
  | status => exact hSame
  | roots withDer purpose => exact hSame
  | reload =>
      rcases hOther with hOther | hOther
      · exact absurd rfl hOther
      · exact absurd hOther hPermits
  | subscribe withDer =>
      dsimp only
      split_ifs
      · refine ⟨[(stream, withDer)], rfl, ?_⟩
        intro s hMem
        rw [List.mem_singleton.mp hMem]
      · exact hSame

/- Where nothing is announced everyone takes it. -/
theorem takes_of_none
    {polled : List Nat}
    {w : World}
    {arrival : Arrival κ}
    (hNone : publishedBy out polled w arrival = none)
    (subscriber : Stream × Bool) :
    Takes out polled w arrival subscriber := by
  intro composed hSome
  rw [hNone] at hSome
  cases hSome

theorem attend_waiting
    (polled : List Nat)
    (w : World)
    (arrival : Arrival κ) :
    (attend out polled arrival w).board.waiting.Sublist
      w.board.waiting := by
  rcases hRequest : requestOf out polled w arrival with
    _ | ⟨stream, request⟩
  · exact (attend_of_none out hRequest).2
  · rw [(attend_of_some out hRequest).1]
    have hTable : SameTable _ (handle out arrival.env
        stream request (w.withoutClient arrival.id)) :=
      handle_table arrival.env stream request _
    change List.Sublist (List.map _ _) _
    rw [hTable.clients]
    exact List.filter_sublist.map Prod.fst

/- A reload that is permitted refreshes. -/
theorem attend_reload
    {polled : List Nat}
    {w : World}
    {arrival : Arrival κ}
    {stream : Stream}
    (hRequest : requestOf out polled w arrival =
      some (stream, .reload))
    (hPermits : permits out w stream .reload = true) :
    (attend out polled arrival w).daemon.subscribers =
      (refresh out arrival.env
        (w.withoutClient arrival.id)).daemon.subscribers := by
  have hNot : ¬ permits out (w.withoutClient arrival.id)
      stream .reload = false := by
    rw [Bool.not_eq_false]
    exact hPermits
  rw [(attend_of_some out hRequest).1, handle, if_neg hNot]
  rfl

/-
  After an arrival those subscribers are left who take what it
  announces, and a client that subscribes comes after them.
-/
theorem attend_subscribers
    (polled : List Nat)
    (arrival : Arrival κ)
    {w : World}
    (hNamed : w.Named) :
    ∃ (stays : Stream × Bool → Bool)
      (new : List (Stream × Bool)),
      (attend out polled arrival w).daemon.subscribers =
          w.daemon.subscribers.filter stays ++ new ∧
        (∀ s, stays s = true ↔
          Takes out polled w arrival s) ∧
        ∀ s ∈ new, s.1 ∈ w.board.waiting := by
  have hQuiet : ∀ new : List (Stream × Bool),
      publishedBy out polled w arrival = none →
      (attend out polled arrival w).daemon.subscribers =
        w.daemon.subscribers ++ new →
      (∀ s ∈ new, s.1 ∈ w.board.waiting) →
      ∃ (stays : Stream × Bool → Bool)
        (new : List (Stream × Bool)),
        (attend out polled arrival w).daemon.subscribers =
            w.daemon.subscribers.filter stays ++ new ∧
          (∀ s, stays s = true ↔
            Takes out polled w arrival s) ∧
          ∀ s ∈ new, s.1 ∈ w.board.waiting := by
    intro new hNone hEq hNew
    refine ⟨fun _ => true, new, ?_, ?_, hNew⟩
    · rw [List.filter_true]
      exact hEq
    · intro s
      exact iff_of_true rfl (takes_of_none out hNone s)
  rcases hRequest : requestOf out polled w arrival with
    _ | ⟨stream, request⟩
  · apply hQuiet []
    · unfold publishedBy
      rw [hRequest]
    · rw [(attend_of_none out hRequest).1, List.append_nil]
    · exact fun _ hMem => absurd hMem List.not_mem_nil
  rcases attend_of_some out hRequest with
    ⟨hAttend, client, hFound, hStream⟩
  have hMem := mem_of_lookup hFound
  have hWaits : stream ∈ w.board.waiting := by
    rw [← hStream, hNamed _ hMem]
    exact List.mem_map_of_mem hMem
  by_cases hReload : request = .reload ∧
      permits out w stream .reload = true
  · rcases hReload with ⟨rfl, hPermits⟩
    have hPublished : publishedBy out polled w arrival =
        announcedBy out arrival.env w.daemon := by
      unfold publishedBy
      rw [hRequest]
      exact if_pos hPermits
    have hSubscribers := attend_reload out hRequest hPermits
    rcases hAnnounced : announcedBy out arrival.env w.daemon
      with _ | composed
    · apply hQuiet []
      · rw [hPublished, hAnnounced]
      · have hNothing := refresh_quiet (w :=
          w.withoutClient arrival.id) out hAnnounced
        rw [hSubscribers, List.append_nil]
        exact hNothing.2.2.2.1
      · exact fun _ hMem => absurd hMem List.not_mem_nil
    · have hAll := refresh_announces (w :=
        w.withoutClient arrival.id) out hAnnounced
      refine ⟨fun s => (copyFor out arrival.env.room
        (w.daemon.generation + 1) composed.roots s).2, [],
        ?_, ?_, ?_⟩
      · rw [hSubscribers, List.append_nil]
        exact hAll.2.2.2.1
      · intro s
        unfold Takes
        rw [hPublished, hAnnounced]
        constructor
        · intro hTaken other hOther
          cases hOther
          exact hTaken
        · intro hTakes
          exact hTakes composed rfl
      · exact fun _ hMem => absurd hMem List.not_mem_nil
  · have hOther : request ≠ .reload ∨
        permits out (w.withoutClient arrival.id) stream
          request = false := by
      by_cases hSame : request = .reload
      · apply Or.inr
        rw [hSame]
        exact Bool.eq_false_iff.mpr (fun hPermits =>
          hReload ⟨hSame, hPermits⟩)
      · exact Or.inl hSame
    rcases handle_subscribers out arrival.env hOther
      with ⟨new, hEq, hNew⟩
    apply hQuiet new
    · unfold publishedBy
      rw [hRequest]
      cases request with
      | reload =>
          exact if_neg (fun hPermits =>
            hReload ⟨rfl, hPermits⟩)
      | status => rfl
      | roots withDer purpose => rfl
      | subscribe withDer => rfl
    · rw [hAttend]
      exact hEq
    · intro s hs
      rw [hNew s hs]
      exact hWaits

end

end Daemon

end Trustd

------------------------------------------------------------
-- What The Requests Leave Of The Subscribers
------------------------------------------------------------

namespace Trustd

namespace Daemon

open Cert Control General Registry Render Shared Store Wire

/- Subscribers that no client is mistaken for. -/
def Apart
    (subscribers : List (Stream × Bool))
    (w : World) :
    Prop :=
  ∀ s ∈ subscribers, s.1 ∉ w.board.waiting

/- Some of them are left, and others may have come. -/
def PartOf
    (subscribers : List (Stream × Bool))
    (w : World) :
    Prop :=
  ∃ kept new, w.daemon.subscribers = kept ++ new ∧
    kept.Sublist subscribers ∧ ∀ s ∈ new, s ∉ subscribers

section

variable {κ : Type}
variable [Reader (Except IoError) κ]
variable (out : Outside)
variable (polled : List Nat)

/- A request brings no client. -/
theorem attend_apart
    (arrival : Arrival κ)
    {w : World}
    {subscribers : List (Stream × Bool)}
    (hApart : Apart subscribers w) :
    Apart subscribers (attend out polled arrival w) := by
  intro s hMem hWaits
  exact hApart s hMem
    ((attend_waiting out polled w arrival).subset hWaits)

/- The first subscribers stay first if they all take it. -/
theorem attend_prefix_iff
    (arrival : Arrival κ)
    {w : World}
    (hNamed : w.Named)
    {first : List (Stream × Bool)}
    (hApart : Apart first w)
    (hFirst : first <+: w.daemon.subscribers) :
    first <+: (attend out polled arrival
        w).daemon.subscribers ↔
      ∀ s ∈ first, Takes out polled w arrival s := by
  rcases attend_subscribers out polled arrival hNamed with
    ⟨stays, new, hEq, hStays, hNew⟩
  rw [hEq]
  constructor
  · intro hStill s hMem
    rcases List.mem_append.mp (hStill.subset hMem) with
      hKept | hHere
    · exact (hStays s).mp (List.mem_filter.mp hKept).2
    · exact absurd (hNew s hHere) (hApart s hMem)
  · intro hTakes
    rcases hFirst with ⟨others, hOthers⟩
    have hAll : first.filter stays = first :=
      List.filter_eq_self.mpr (fun s hMem =>
        (hStays s).mpr (hTakes s hMem))
    rw [← hOthers, List.filter_append, hAll,
      List.append_assoc]
    exact List.prefix_append first _

/- A subscriber that is gone, or does not take it, is gone. -/
theorem attend_absent
    (arrival : Arrival κ)
    {w : World}
    (hNamed : w.Named)
    {s : Stream × Bool}
    (hApart : s.1 ∉ w.board.waiting)
    (hAbsent : s ∉ w.daemon.subscribers ∨
      ¬ Takes out polled w arrival s) :
    s ∉ (attend out polled arrival w).daemon.subscribers := by
  rcases attend_subscribers out polled arrival hNamed with
    ⟨stays, new, hEq, hStays, hNew⟩
  rw [hEq]
  intro hMem
  rcases List.mem_append.mp hMem with hKept | hHere
  · rcases List.mem_filter.mp hKept with ⟨hOld, hTook⟩
    rcases hAbsent with hAbsent | hRefused
    · exact hAbsent hOld
    · exact hRefused ((hStays s).mp hTook)
  · exact hApart (hNew s hHere)

/- A subscriber that is gone does not come back. -/
theorem run_absent
    (arrivals : List (Arrival κ))
    {w : World}
    (hNamed : w.Named)
    {s : Stream × Bool}
    (hApart : s.1 ∉ w.board.waiting)
    (hAbsent : s ∉ w.daemon.subscribers) :
    s ∉ (run (fun v a => attend out polled a v) w
      arrivals).daemon.subscribers := by
  induction arrivals generalizing w with
  | nil => exact hAbsent
  | cons arrival rest ih =>
      rw [run_cons]
      apply ih
      · exact attend_named polled arrival hNamed
      · intro hMem
        exact hApart
          ((attend_waiting out polled w arrival).subset hMem)
      · exact attend_absent out polled arrival hNamed hApart
          (Or.inl hAbsent)

/-
  The first subscribers are still first after some requests
  if and only if they took all that those had announced.
-/
theorem run_prefix_iff
    (arrivals : List (Arrival κ))
    {w : World}
    (hNamed : w.Named)
    {first : List (Stream × Bool)}
    (hApart : Apart first w)
    (hFirst : first <+: w.daemon.subscribers) :
    first <+: (run (fun v a => attend out polled a v) w
        arrivals).daemon.subscribers ↔
      Along (fun v a => attend out polled a v)
        (fun v a => ∀ s ∈ first, Takes out polled v a s) w
        arrivals := by
  induction arrivals generalizing w with
  | nil => exact iff_of_true hFirst trivial
  | cons arrival rest ih =>
      rw [run_cons, Along]
      have hHere := attend_prefix_iff out polled arrival
        hNamed hApart hFirst
      have hNamed' : (attend out polled arrival w).Named :=
        attend_named polled arrival hNamed
      have hApart' := attend_apart out polled arrival hApart
      constructor
      · intro hStill
        have hTakes : ∀ s ∈ first,
            Takes out polled w arrival s := by
          intro s hMem
          by_contra hRefused
          exact run_absent out polled rest hNamed'
            (hApart' s hMem)
            (attend_absent out polled arrival hNamed
              (hApart s hMem) (Or.inr hRefused))
            (hStill.subset hMem)
        exact ⟨hTakes, (ih hNamed' hApart'
          (hHere.mpr hTakes)).mp hStill⟩
      · rintro ⟨hTakes, hRest⟩
        exact (ih hNamed' hApart' (hHere.mpr hTakes)).mpr
          hRest

/- Some are left and others come after each request. -/
theorem attend_partOf
    (arrival : Arrival κ)
    {w : World}
    (hNamed : w.Named)
    {subscribers : List (Stream × Bool)}
    (hApart : Apart subscribers w)
    (hPart : PartOf subscribers w) :
    PartOf subscribers (attend out polled arrival w) := by
  rcases attend_subscribers out polled arrival hNamed with
    ⟨stays, new, hEq, _, hNew⟩
  rcases hPart with ⟨kept, others, hNow, hKept, hOthers⟩
  refine ⟨kept.filter stays, others.filter stays ++ new,
    ?_, List.filter_sublist.trans hKept, ?_⟩
  · rw [hEq, hNow, List.filter_append, List.append_assoc]
  · intro s hMem hOld
    rcases List.mem_append.mp hMem with hThere | hHere
    · exact hOthers s (List.mem_filter.mp hThere).1 hOld
    · exact hApart s hOld (hNew s hHere)

theorem run_partOf
    (arrivals : List (Arrival κ))
    {w : World}
    (hNamed : w.Named)
    {subscribers : List (Stream × Bool)}
    (hApart : Apart subscribers w)
    (hPart : PartOf subscribers w) :
    PartOf subscribers
      (run (fun v a => attend out polled a v) w arrivals) := by
  induction arrivals generalizing w with
  | nil => exact hPart
  | cons arrival rest ih =>
      rw [run_cons]
      apply ih
      · exact attend_named polled arrival hNamed
      · exact attend_apart out polled arrival hApart
      · exact attend_partOf out polled arrival hNamed hApart
          hPart

end

end Daemon

end Trustd

------------------------------------------------------------
-- The Sweep
------------------------------------------------------------

namespace Trustd

namespace Daemon

open Cert Control General Registry Render Shared Store Wire

section

variable {κ : Type}
variable [Reader (Except IoError) κ]
variable (out : Outside)

/- The world once the connections are accepted. -/
def Poll.admitted (poll : Poll κ) (w : World) : World :=
  run (fun v usable => accept poll.now usable v) w
    poll.accepts

/- The world the sweep finds: all requests are handled. -/
def Poll.handled (poll : Poll κ) (w : World) : World :=
  run (fun v a =>
      attend out (w.daemon.clients.map Prod.fst) a v)
    (poll.admitted w) poll.arrivals

/- The subscribers that are reported readable. -/
def Poll.reported (poll : Poll κ) (w : World) :
    List (Stream × Bool) :=
  picked (poll.closed w.daemon.subscribers)
    w.daemon.subscribers

/-
  No subscriber up to a reported one is dropped: each takes
  all that the requests of this poll have announced.
-/
def Poll.Spares (poll : Poll κ) (w : World) : Prop :=
  let polled := w.daemon.clients.map Prod.fst
  ∀ i ∈ poll.closed w.daemon.subscribers,
    Along (fun v a => attend out polled a v)
      (fun v a => ∀ s ∈ w.daemon.subscribers.take (i + 1),
        Takes out polled v a s)
      (poll.admitted w) poll.arrivals

/- Acts that never panic are a run of what they do. -/
theorem run_actOn
    {ε : Type}
    {does : World → ε → World}
    {made : ε → Act κ}
    (hDoes : ∀ w e, act out w (made e) = some (does w e))
    (w : World)
    (events : List ε) :
    run (actOn out) (some w) (events.map made) =
      some (run does w events) := by
  induction events generalizing w with
  | nil => rfl
  | cons e rest ih =>
      rw [List.map_cons, run_cons, run_cons, ← ih]
      exact congrArg (fun s => run (actOn out) s _)
        (hDoes w e)

/- What a poll is made of before the sweep leaves this. -/
theorem run_before
    (poll : Poll κ)
    (w : World) :
    run (actOn out) (some w) (poll.before w) =
      some (poll.handled out w) := by
  unfold Poll.before
  rw [run_append, run_actOn out (fun _ _ => rfl)]
  apply run_actOn out
  exact fun _ _ => rfl

/- New connections are not taken for subscribers. -/
theorem accept_apart
    (now : Nat)
    (usable : Bool)
    {w : World}
    {subscribers : List (Stream × Bool)}
    (hKnown : ∀ s ∈ subscribers, s.1 ≤ w.daemon.nextId)
    (hApart : Apart subscribers w) :
    let w' := accept now usable w
    w'.daemon.subscribers = w.daemon.subscribers ∧
      (∀ s ∈ subscribers, s.1 ≤ w'.daemon.nextId) ∧
      Apart subscribers w' := by
  unfold accept
  split_ifs
  · exact ⟨rfl, hKnown, hApart⟩
  · refine ⟨rfl, ?_, ?_⟩
    · intro s hMem
      exact (hKnown s hMem).trans (Nat.le_succ _)
    · intro s hMem hWaits
      rcases List.mem_map.mp hWaits with ⟨c, hc, hSame⟩
      rcases List.mem_append.mp hc with hOld | hNew
      · exact hApart s hMem (hSame ▸ List.mem_map_of_mem hOld)
      · rw [List.mem_singleton.mp hNew] at hSame
        have hLess := hKnown s hMem
        rw [← hSame] at hLess
        exact absurd hLess (Nat.not_succ_le_self _)
  · exact ⟨rfl, hKnown, hApart⟩

theorem admitted_apart
    (out : Outside)
    (poll : Poll κ)
    {w : World}
    {subscribers : List (Stream × Bool)}
    (hNamed : w.Named)
    (hKnown : ∀ s ∈ subscribers, s.1 ≤ w.daemon.nextId)
    (hApart : Apart subscribers w) :
    (poll.admitted w).daemon.subscribers =
        w.daemon.subscribers ∧
      (poll.admitted w).Named ∧
      Apart subscribers (poll.admitted w) := by
  unfold Poll.admitted
  induction poll.accepts generalizing w with
  | nil => exact ⟨rfl, hNamed, hApart⟩
  | cons usable rest ih =>
      rw [run_cons]
      rcases accept_apart poll.now usable hKnown hApart with
        ⟨hSame, hKnown', hApart'⟩
      rw [← hSame]
      apply ih
      · have hAct : act out w (Act.accept (κ := κ) poll.now
            usable) = some (accept poll.now usable w) := rfl
        exact act_named _ hNamed hAct
      · exact hKnown'
      · exact hApart'

omit [Reader (Except IoError) κ] in
theorem closed_sorted
    (poll : Poll κ)
    (subscribers : List (Stream × Bool)) :
    (poll.closed subscribers).Pairwise (· < ·) := by
  unfold Poll.closed
  exact List.pairwise_lt_range.filter _

omit [Reader (Except IoError) κ] in
theorem closed_bounded
    (poll : Poll κ)
    (subscribers : List (Stream × Bool)) :
    ∀ i ∈ poll.closed subscribers, i < subscribers.length := by
  intro i hMem
  unfold Poll.closed at hMem
  exact List.mem_range.mp (List.mem_filter.mp hMem).1

/- The sweep of a daemon whose tables are in order. -/
theorem Seated.sweep_eq_iff
    {shown : List (Nat × List Entry)}
    {w : World}
    (hSeated : Seated out.msgpack shown w)
    (poll : Poll κ) :
    General.sweep (poll.closed w.daemon.subscribers)
        (poll.handled out w).daemon.subscribers =
        some ((poll.handled out w).daemon.subscribers.filter
          (fun s => s ∉ poll.reported w)) ↔
      poll.Spares out w := by
  have hNames := hSeated.informed.distinct
  unfold Board.names at hNames
  rcases List.nodup_append.mp hNames with
    ⟨_, hListeners, hDisjoint⟩
  have hApart : Apart w.daemon.subscribers w := by
    intro s hMem hWaits
    exact hDisjoint s.1 hWaits s.1 (List.mem_map_of_mem hMem)
      rfl
  have hKnown : ∀ s ∈ w.daemon.subscribers,
      s.1 ≤ w.daemon.nextId := by
    intro s hMem
    exact hSeated.informed.known s.1
      (mem_names_of_listener hMem)
  rcases admitted_apart out poll hSeated.named hKnown hApart
    with ⟨hSame, hNamed, hApart'⟩
  have hStart : PartOf w.daemon.subscribers
      (poll.admitted w) := by
    refine ⟨w.daemon.subscribers, [], ?_,
      List.Sublist.refl _, ?_⟩
    · rw [hSame, List.append_nil]
    · exact fun _ hMem => absurd hMem List.not_mem_nil
  rcases run_partOf out (w.daemon.clients.map Prod.fst)
      poll.arrivals hNamed hApart' hStart with
    ⟨kept, new, hNow, hKept, hNew⟩
  change (poll.handled out w).daemon.subscribers =
    kept ++ new at hNow
  -- The numbers are distinct before the sweep as well.
  have hAfter := (run_seated hSeated
    (run_before out poll w)).informed.distinct
  unfold Board.names at hAfter
  have hNodup := (List.nodup_append.mp hAfter).2.1
  change ((poll.handled out w).daemon.subscribers.map
    Prod.fst).Nodup at hNodup
  rw [hNow] at hNodup ⊢
  have hExact := General.sweep_eq_iff
    (hListeners.of_map Prod.fst) hKept hNew
    (hNodup.of_map Prod.fst) (closed_sorted poll _)
    (closed_bounded poll _) (fun s => decide_eq_true_iff)
  apply hExact.trans
  rw [← hNow]
  apply forall_congr'
  intro i
  apply imp_congr_right
  intro _
  have hFirst : w.daemon.subscribers.take (i + 1) <+:
      (poll.admitted w).daemon.subscribers := by
    rw [hSame]
    exact List.take_prefix _ _
  apply run_prefix_iff out _ poll.arrivals hNamed _ hFirst
  intro s hMem
  exact hApart' s (List.mem_of_mem_take hMem)

/-
  After every run of the main loop, a poll sweeps out exactly
  the subscribers that were reported, and does not panic, if
  and only if no request of that poll has a subscriber dropped
  that is reported or stands before one that is.
-/
theorem sweep_exact_iff
    (config : Config)
    (host : Host)
    (env : Env κ)
    (polls : List (Poll κ))
    {w : World}
    (hRun : run (iterate out)
      (some (start out config host env)) polls = some w)
    (poll : Poll κ) :
    act out (poll.handled out w)
        (.sweep (κ := κ) (poll.closed w.daemon.subscribers)) =
      some ((poll.handled out w).withSubscribers
        ((poll.handled out w).daemon.subscribers.filter
          (fun s => s ∉ poll.reported w))) ↔
      poll.Spares out w := by
  rw [run_iterate] at hRun
  have hSeated := run_seated (start_seated config host env)
    hRun
  rw [← hSeated.sweep_eq_iff out poll]
  constructor
  · intro hAct
    rcases Option.map_eq_some_iff.mp hAct with
      ⟨left, hSweep, hSame⟩
    have hLeft : left = _ :=
      congrArg (fun v => v.daemon.subscribers) hSame
    rw [hSweep, hLeft]
    rfl
  · intro hSweep
    exact congrArg (Option.map _) hSweep

/- A sweep that panics is the end of the daemon. -/
theorem iterate_of_panic
    {w : World}
    {poll : Poll κ}
    (hPanic : act out (poll.handled out w)
      (.sweep (κ := κ) (poll.closed w.daemon.subscribers)) =
        none) :
    iterate out (some w) poll = none := by
  change run (actOn out) (some w) (poll.acts w) = none
  unfold Poll.acts
  rw [run_append, run_before, run_cons]
  have hNone : actOn out (some (poll.handled out w))
      (.sweep (κ := κ) (poll.closed w.daemon.subscribers)) =
        none := hPanic
  rw [hNone]
  exact run_none out _

end

/- No frame is written where there is no room. -/
theorem sendRoots_no_room
    (mp : MsgPack)
    (generation : Nat)
    (roots : List Root) :
    (sendRoots mp 0 generation roots).2 = false := by
  have hNone : ∀ payload, (writeFrame 0 payload).2 =
      none := by
    intro payload
    unfold writeFrame
    by_cases hLong : payload.length ≥ 2 ^ 32
    · rw [if_pos hLong]
    · rw [if_neg hLong]
      exact congrArg Prod.snd
        (if_neg (Nat.not_succ_le_zero _))
  unfold sendRoots
  split_ifs with hNil
  · exact congrArg Option.isSome (hNone _)
  · rcases hChunks : chunks rootsPerChunk roots with
      _ | ⟨chunk, rest⟩
    · have hFlat := flatten_chunks rootsPerChunk roots
      rw [hChunks] at hFlat
      exact absurd hFlat.symm hNil
    · rw [sendChunks]
      dsimp only
      rcases hWrite : writeFrame 0 ((Reply.roots generation
          chunk (rest ≠ [])).encode mp) with ⟨bytes, left⟩
      have hLeft := hNone ((Reply.roots generation chunk
        (rest ≠ [])).encode mp)
      rw [hWrite] at hLeft
      cases hLeft
      rfl

/- Two connections, the first of which subscribes. -/
def beforeReload : List (Poll Key) :=
  [{ now := 0, accepts := [true, true], env := bundleMissing },
    { now := 1
      arrivals :=
        [arriving bundleMissing 1 (.subscribe true)]
      env := bundleMissing }]

/-
  The second asks for a reload, which finds a bundle. By then
  no one takes anything.
-/
def reload : Arrival Key :=
  arriving (purposeEnv offRegistry (fun _ => {})
    (fun _ => 0)) 2 .reload

/- The first has closed when the second asks. -/
def reloadAfterClose : Poll Key where
  now := 2
  arrivals := [reload]
  readable _ := true
  env := reload.env

/- What there is when the reload is handled. -/
theorem before_reload :
    ∃ w, run (iterate purposeOutside)
        (some (start purposeOutside {} sampleHost
          bundleMissing)) beforeReload = some w ∧
      w.daemon.subscribers = [(1, true)] ∧
      w.daemon.clients = [(2, { stream := 2 })] ∧
      w.daemon.health = .degraded ∧
      w.daemon.generation = 0 := by
  have hHere : (run (iterate purposeOutside)
      (some (start purposeOutside {} sampleHost
        bundleMissing)) beforeReload).any (fun w =>
          w.daemon.subscribers = [(1, true)] ∧
            w.daemon.clients = [(2, { stream := 2 })] ∧
            w.daemon.health = .degraded ∧
            w.daemon.generation = 0) = true := by
    decide +kernel
  rcases (Option.any_eq_true _ _).mp hHere with
    ⟨w, hRun, hThere⟩
  exact ⟨w, hRun, of_decide_eq_true hThere⟩

/-
  A poll with the second's reload leaves the subscribers that
  take what it announces.
-/
theorem handled_reload
    {w : World}
    (hClients : w.daemon.clients = [(2, { stream := 2 })])
    (hHealth : w.daemon.health = .degraded)
    {env : Env Key}
    {fresh : Config}
    {composed : Composed}
    (hMade : compositionOf purposeOutside env =
      some (fresh, composed))
    {poll : Poll Key}
    (hAccepts : poll.accepts = [])
    (hArrivals : poll.arrivals = [arriving env 2 .reload]) :
    (poll.handled purposeOutside w).daemon.subscribers =
      w.daemon.subscribers.filter (fun s =>
        (copyFor purposeOutside env.room
          (w.daemon.generation + 1) composed.roots s).2) := by
  have hRequest : requestOf purposeOutside
      (w.daemon.clients.map Prod.fst) w
        (arriving env 2 .reload) = some (2, .reload) := by
    have hRead : (({ stream := 2 } : Client).read
        messagePack purposeOutside.debug
          [.data (frame (Request.reload.encode
            messagePack))]).1 = .request .reload := by
      decide +kernel
    unfold requestOf
    rw [hClients]
    change (match (({ stream := 2 } : Client).read
      messagePack purposeOutside.debug
        [.data (frame (Request.reload.encode
          messagePack))]).1 with
      | .request request => some (2, request)
      | _ => none) = _
    rw [hRead]
  have hAnnounced := announcedBy_of_degraded purposeOutside
    hMade (s := (w.withoutClient 2).daemon) hHealth
  have hHandled : poll.handled purposeOutside w =
      attend purposeOutside (w.daemon.clients.map Prod.fst)
        (arriving env 2 .reload) w := by
    rw [Poll.handled, Poll.admitted, hAccepts, hArrivals]
    rfl
  rw [hHandled, attend_reload purposeOutside hRequest rfl]
  exact (refresh_announces purposeOutside
    hAnnounced).2.2.2.1

/- The same when there is room for what is announced. -/
def reloadTaken : Poll Key where
  now := 2
  arrivals := [arriving (purposeEnv offRegistry (fun _ => {})
    (fun _ => 4096)) 2 .reload]
  readable _ := true
  env := bundleMissing

/- What the bundle makes, and a subscriber takes. -/
theorem composition_taken :
    ∃ composed, compositionOf purposeOutside
        (purposeEnv offRegistry (fun _ => {})
          (fun _ => 4096)) =
            some ({ compat := .none }, composed) ∧
      (sendRoots messagePack 4096 1 (composed.roots.map
        (toRoot true))).2 = true := by
  have hAny : (composeFrom purposeCrates
      (List.replicate minimumShipped purposeShipped) [] []
        none).toOption.any (fun composed =>
          (sendRoots messagePack 4096 1 (composed.roots.map
            (toRoot true))).2) = true := by
    decide +kernel
  rcases exists_compose_purposeBundle hAny with
    ⟨composed, hCompose, hTakes⟩
  exact ⟨composed, compositionOf_of_ok _
    (load_offRegistry _ _) rfl hCompose, hTakes⟩

/-
  The one that closed takes what the reload announces, and is
  swept out then.
-/
theorem sweep_exact_quiet :
    ∃ w, run (iterate purposeOutside)
        (some (start purposeOutside {} sampleHost
          bundleMissing)) beforeReload = some w ∧
      (reloadTaken.handled purposeOutside
        w).daemon.subscribers = [(1, true)] ∧
      act purposeOutside (reloadTaken.handled purposeOutside w)
          (.sweep (κ := Key) [0]) =
        some ((reloadTaken.handled purposeOutside
          w).withSubscribers []) := by
  rcases before_reload with
    ⟨w, hRun, hSubscribers, hClients, hHealth, hGeneration⟩
  rcases composition_taken with ⟨composed, hMade, hTakes⟩
  have hClosed : reloadTaken.closed w.daemon.subscribers =
      [0] := by
    rw [hSubscribers]
    rfl
  have hReported : reloadTaken.reported w = [(1, true)] := by
    unfold Poll.reported
    rw [hClosed, hSubscribers]
    rfl
  have hLeft :
      (reloadTaken.handled purposeOutside w).daemon.subscribers =
        w.daemon.subscribers.filter (fun s =>
          (copyFor purposeOutside 4096
            (w.daemon.generation + 1) composed.roots s).2) :=
    handled_reload hClients hHealth hMade rfl rfl
  rw [hSubscribers, hGeneration] at hLeft
  have hStays : (reloadTaken.handled purposeOutside
      w).daemon.subscribers = [(1, true)] := by
    rw [hLeft]
    exact List.filter_cons_of_pos hTakes
  have hSpares : reloadTaken.Spares purposeOutside w := by
    intro i hi
    rw [hClosed] at hi
    rw [List.mem_singleton.mp hi, hSubscribers]
    refine ⟨?_, trivial⟩
    intro s hs announced hPublished
    rw [List.mem_singleton.mp hs]
    have hAnnounced := announcedBy_of_degraded purposeOutside
      hMade (s := w.daemon) hHealth
    have hSame : announced = composed := by
      unfold publishedBy at hPublished
      split at hPublished
      · split_ifs at hPublished
        change announcedBy purposeOutside _ w.daemon = _
          at hPublished
        exact Option.some.inj
          (hPublished.symm.trans hAnnounced)
      · cases hPublished
    change (sendRoots messagePack 4096 (w.daemon.generation + 1)
      (announced.roots.map (toRoot true))).2 = true
    rw [hSame, hGeneration]
    exact hTakes
  have hExact := (sweep_exact_iff purposeOutside {} sampleHost
    bundleMissing beforeReload hRun reloadTaken).mpr hSpares
  rw [hClosed, hReported, hStays] at hExact
  exact ⟨w, hRun, hStays, hExact⟩

/-
  The reload drops the subscriber, and the sweep panics when
  it comes to its position.
-/
theorem sweep_panics :
    ∃ w, run (iterate purposeOutside)
        (some (start purposeOutside {} sampleHost
          bundleMissing)) beforeReload = some w ∧
      act purposeOutside
        (reloadAfterClose.handled purposeOutside w)
        (.sweep (κ := Key) (reloadAfterClose.closed
          w.daemon.subscribers)) = none ∧
      iterate purposeOutside (some w) reloadAfterClose =
        none := by
  rcases before_reload with
    ⟨w, hRun, hSubscribers, hClients, hHealth, -⟩
  rcases compositionOf_offRegistry (fun _ => {}) (fun _ => 0)
    with ⟨composed, hMade⟩
  have hLeft : (reloadAfterClose.handled purposeOutside
      w).daemon.subscribers = [] := by
    rw [handled_reload hClients hHealth hMade rfl rfl]
    apply List.filter_eq_nil_iff.mpr
    intro s _
    rw [Bool.not_eq_true]
    exact sendRoots_no_room _ _ _
  have hPanic : act purposeOutside
      (reloadAfterClose.handled purposeOutside w)
      (.sweep (κ := Key) (reloadAfterClose.closed
        w.daemon.subscribers)) = none := by
    change Option.map _ (General.sweep _
      (reloadAfterClose.handled purposeOutside
        w).daemon.subscribers) = none
    rw [hLeft, hSubscribers]
    rfl
  exact ⟨w, hRun, hPanic, iterate_of_panic _ hPanic⟩

end Daemon

end Trustd
