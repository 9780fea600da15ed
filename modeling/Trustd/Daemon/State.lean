import Trustd.Core.MessagePack
import Trustd.Daemon.Config
import Trustd.Daemon.Control

/-
  The daemon: what it holds, how it recomposes the store and
  how it answers.

  A world is the daemon with what it acts on: the host it
  renders to, the bytes it has written to its peers, and the
  changes it has recorded.

  Key definitions include:
    * `Trustd.Daemon.State`
    * `Trustd.Daemon.World`
    * `Trustd.Daemon.refresh`
    * `Trustd.Daemon.publish`
    * `Trustd.Daemon.handle`
    * `Trustd.Daemon.step`
-/

------------------------------------------------------------
-- What Is Outside
------------------------------------------------------------

namespace Trustd

namespace Daemon

open Cert Control Registry Render Store Wire

/-
  The code the daemon calls that is not its own: the crates,
  MessagePack, what `{:?}` prints, whether the kernel accepts
  a descriptor, and whether it lets a peer do something.
-/
structure Outside where
  crates : Crates
  msgpack : MsgPack
  debug : Text → Text
  validDescriptor : Bytes → Bool
  defaultDescriptor : Bytes
  allows : Bytes → Stream → Nat → Bool

/-
  What one event of the daemon meets: the registry, the stamp
  and the text of the shipped bundle, the clock, how calls on
  the store go, and how many bytes each peer takes.
-/
structure Env (κ : Type) where
  registry : Except IoError (Option κ)
  stamp : Option (Nat × Int)
  bundle : Except IoError Text
  now : Option Int
  faults : Nat → Fault
  room : Stream → Nat

end Daemon

end Trustd

------------------------------------------------------------
-- Recorded Changes
------------------------------------------------------------

namespace Trustd

namespace Audit

open Store

/- `Change`. -/
inductive Change where
  | added
  | removed
  | distrusted
deriving DecidableEq, Repr

/- The fingerprints of some entries. -/
def fingerprints (entries : List Entry) : List Text :=
  entries.map (fun e => e.parsed.fingerprint)

/- `changes`. -/
def changes
    (old new : List Entry)
    (distrust : List Text) :
    List (Change × Entry) :=
  let distrusted := distrust.map normaliseFingerprint
  (new.filter (fun e =>
      e.parsed.fingerprint ∉ fingerprints old)).map
        (fun e => (.added, e)) ++
    (old.filter (fun e =>
      e.parsed.fingerprint ∉ fingerprints new)).map
        (fun e =>
          if e.parsed.fingerprint ∈ distrusted then
            (.distrusted, e)
          else (.removed, e))

end Audit

end Trustd

------------------------------------------------------------
-- The Daemon's State
------------------------------------------------------------

namespace Trustd

namespace Daemon

open Audit Cert Control General Registry Render Store Wire

/- `Trustd`. The control object is its descriptor. -/
structure State where
  config : Config
  control : Bytes
  composed : Composed := {}
  generation : Nat := 0
  health : Health := .ok
  message : Option Text := none
  rendered : List Text := []
  bundleStamp : Option (Nat × Int) := none
  clients : List (Nat × Client) := []
  subscribers : List (Stream × Bool) := []
  nextId : Nat := 0
  composedOnce : Bool := false

/- Something written to a peer. -/
structure Sent where
  stream : Stream
  written : Written
deriving DecidableEq, Repr

structure World where
  daemon : State
  host : Host
  outbox : List Sent := []
  journal : List (Change × Entry) := []

/- `ControlObject::new`. -/
def controlObject
    (out : Outside)
    (configured : Option Bytes) :
    Bytes :=
  match configured with
  | some bytes =>
      if out.validDescriptor bytes then bytes
      else out.defaultDescriptor
  | none => out.defaultDescriptor

/- The daemon `main` sets up once it has a configuration. -/
def boot
    (out : Outside)
    (config : Config)
    (host : Host) :
    World :=
  { daemon := {
      config
      control := controlObject out config.controlSecurity }
    host }

/- One root as a reply carries it. -/
def toRoot (withDer : Bool) (entry : Entry) : Root :=
  { fingerprint := entry.parsed.fingerprint
    subject := entry.parsed.subject
    purposes := entry.purposes
    source := entry.source
    name := entry.name
    notAfter := entry.parsed.notAfter
    der := if withDer then entry.parsed.der else [] }

/- `roots`. -/
def State.roots
    (s : State)
    (withDer : Bool)
    (purpose : Option Text) :
    List Root :=
  let entries :=
    match purpose with
    | some p => forPurpose s.composed.roots p
    | none => s.composed.roots
  entries.map (toRoot withDer)

/- `status`. -/
def State.status (s : State) : Status :=
  { generation := s.generation
    health := s.health
    message := s.message
    shipped := s.composed.shipped
    added := s.composed.added
    distrusted := s.composed.distrusted
    skipped := s.composed.skipped
    effective := s.composed.roots.length
    compatMode := s.config.compat.asDword
    rendered := s.rendered }

/- The world with other subscribers. -/
def World.withSubscribers
    (w : World)
    (subscribers : List (Stream × Bool)) :
    World :=
  { w with daemon := { w.daemon with subscribers } }

/- Written to one peer, in order. -/
def World.send
    (w : World)
    (stream : Stream)
    (written : List Written) :
    World :=
  { w with
    outbox := w.outbox ++ written.map (fun x => ⟨stream, x⟩) }

end Daemon

end Trustd

------------------------------------------------------------
-- Refreshing
------------------------------------------------------------

namespace Trustd

namespace Daemon

open Audit Cert Control General Registry Render Store Wire

/- `SHARE_BUNDLE`. -/
def shareBundle : Text :=
  "/usr/share/ca-certificates/mozilla.crt".toList

/- `degrade`. -/
def degrade (why : Text) (w : World) : World :=
  { w with daemon := { w.daemon with
      health := .degraded
      message := some why } }

/- `Trustd::render`. -/
def renderStore (faults : Nat → Fault) (w : World) : World :=
  let started := Machine.start w.host faults
  match render w.daemon.composed w.daemon.config.compat
      started with
  | (.ok _, m) =>
      let (rendered, m) := renderedPaths m
      { w with
        host := m.state
        daemon := { w.daemon with
          rendered :=
            match rendered with
            | .ok paths => paths
            | .error _ => w.daemon.rendered } }
  | (.error e, m) =>
      { w with
        host := m.state
        daemon := { w.daemon with
          health := .degraded
          message := some
            ("render failed: ".toList ++ e.text) } }

/- One subscriber is sent the set; it stays if it took it. -/
def publishTo
    (out : Outside)
    (room : Stream → Nat)
    (w : World)
    (subscriber : Stream × Bool) :
    World :=
  let (written, whole) := sendRoots out.msgpack
    (room subscriber.1) w.daemon.generation
    (w.daemon.roots subscriber.2 none)
  let w := w.send subscriber.1 written
  if whole then
    w.withSubscribers (w.daemon.subscribers ++ [subscriber])
  else w

/- `publish`. -/
def publish
    (out : Outside)
    (room : Stream → Nat)
    (w : World) :
    World :=
  w.daemon.subscribers.foldl (publishTo out room)
    (w.withSubscribers [])

section

variable {κ : Type}
variable [Reader (Except IoError) κ]

/- The configuration a refresh reads. -/
def Env.load (env : Env κ) : Except IoError Config :=
  Registry.load env.registry

/- A configuration that was read takes effect. -/
def adopt
    (out : Outside)
    (fresh : Config)
    (stamp : Option (Nat × Int))
    (w : World) :
    World :=
  { w with daemon := { w.daemon with
      config := fresh
      control :=
        if fresh ≠ w.daemon.config then
          controlObject out fresh.controlSecurity
        else w.daemon.control
      bundleStamp := stamp } }

/- A composition takes effect, and what changed is recorded. -/
def commit (composed : Composed) (w : World) : World :=
  { w with
    journal :=
      if w.daemon.composedOnce then
        w.journal ++ changes w.daemon.composed.roots
          composed.roots w.daemon.config.distrust
      else w.journal
    daemon := { w.daemon with
      composedOnce := true
      composed
      health := .ok
      message := none } }

/- A new generation is rendered and handed out. -/
def announce
    (out : Outside)
    (env : Env κ)
    (w : World) :
    World :=
  publish out env.room (renderStore env.faults
    { w with daemon := { w.daemon with
        generation := w.daemon.generation + 1 } })

/- `refresh`. -/
def refresh
    (out : Outside)
    (env : Env κ)
    (w : World) :
    World :=
  match env.load with
  | .error error =>
      degrade ("keeping previous configuration: ".toList ++
        error.text) w
  | .ok fresh =>
      let configChanged : Bool := fresh ≠ w.daemon.config
      let w := adopt out fresh env.stamp w
      match env.bundle with
      | .error e =>
          degrade ("cannot read ".toList ++ shareBundle ++
            ": ".toList ++ e.text) w
      | .ok shipped =>
          match compose out.crates shipped
              w.daemon.config.additions
              w.daemon.config.distrust env.now with
          | .error e => degrade e w
          | .ok composed =>
              let unchanged : Bool :=
                composed.roots = w.daemon.composed.roots ∧
                  w.daemon.health = .ok
              let w := commit composed w
              if unchanged ∧ ¬ configChanged then w
              else announce out env w

end

end Daemon

end Trustd

------------------------------------------------------------
-- Requests And Events
------------------------------------------------------------

namespace Trustd

namespace Daemon

open Control General Registry Wire

/- What is said of a health that is not what it was. -/
def degradedReply (s : State) : Reply :=
  if s.health = .degraded then
    .error (s.message.getD "trust store is degraded".toList)
  else .ok

section

variable {κ : Type}
variable [Reader (Except IoError) κ]

/- A single reply to a peer. -/
def reply
    (out : Outside)
    (env : Env κ)
    (stream : Stream)
    (message : Reply)
    (w : World) :
    World :=
  w.send stream
    [(respond out.msgpack (env.room stream) message).1]

/- Whether the control object lets a peer make a request. -/
def permits
    (out : Outside)
    (w : World)
    (stream : Stream)
    (request : Request) :
    Bool :=
  out.allows w.daemon.control stream request.requiredRight

/- `handle`. -/
def handle
    (out : Outside)
    (env : Env κ)
    (stream : Stream)
    (request : Request)
    (w : World) :
    World :=
  if permits out w stream request = false then
    reply out env stream (.error "access denied".toList) w
  else
    match request with
    | .status =>
        reply out env stream (.status w.daemon.status) w
    | .roots withDer purpose =>
        w.send stream (sendRoots out.msgpack
          (env.room stream) w.daemon.generation
          (w.daemon.roots withDer purpose)).1
    | .subscribe withDer =>
        let (written, whole) := sendRoots out.msgpack
          (env.room stream) w.daemon.generation
          (w.daemon.roots withDer none)
        let w := w.send stream written
        if whole then
          w.withSubscribers
            (w.daemon.subscribers ++ [(stream, withDer)])
        else w
    | .reload =>
        let w := refresh out env w
        reply out env stream (degradedReply w.daemon) w

/-
  What can happen to the daemon: a refresh of its own, a
  request of a peer, a subscriber going away.
-/
inductive Event (κ : Type) where
  | refresh (env : Env κ)
  | request (env : Env κ) (stream : Stream) (request : Request)
  | depart (position : Nat)

def step (out : Outside) (w : World) : Event κ → World
  | .refresh env => refresh out env w
  | .request env stream request =>
      handle out env stream request w
  | .depart position =>
      w.withSubscribers
        (w.daemon.subscribers.eraseIdx position)

/- The refresh an event sets off, if any. -/
def refreshOf (out : Outside) (w : World) :
    Event κ → Option (Env κ)
  | .refresh env => some env
  | .request env stream .reload =>
      if permits out w stream .reload then some env else none
  | _ => none

end

end Daemon

end Trustd

------------------------------------------------------------
-- One Surrounding
------------------------------------------------------------

namespace Trustd

namespace Daemon

open Control Registry Render Store Wire

/-
  The crates as far as the two certificates go, and a kernel
  that lets every peer do everything.
-/
def purposeOutside : Outside where
  crates := purposeCrates
  msgpack := messagePack
  debug text := ['"'] ++ text ++ ['"']
  validDescriptor _ := true
  defaultDescriptor := []
  allows _ _ _ := true

/- What a refresh meets that finds one certificate shipped. -/
def purposeEnv
    (registry : Key)
    (faults : Nat → Fault)
    (room : Stream → Nat) :
    Env Key :=
  { registry := .ok (some registry)
    stamp := none
    bundle := .ok purposeBundle
    now := none
    faults
    room }

end Daemon

end Trustd
