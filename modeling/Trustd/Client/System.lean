import Trustd.Client.Moments
import Trustd.Daemon.Install
import Trustd.Daemon.Refresh

/-
  The clients and the daemon together.

  The clients change the registry a call at a time, and the
  daemon reads it a key at a time whenever it refreshes. What it
  serves was composed from what had been decided by the moments
  of these reads, and what is distrusted by all of them is not
  among it.

  Key definitions include:
    * `Trustd.Machine.System`
    * `Trustd.Machine.System.move`
    * `Trustd.Machine.DecidedSince`

  Key theorems include:
    * `Trustd.Machine.system_serves`
    * `Trustd.Machine.distrust_enforced`
-/

------------------------------------------------------------
-- Moves
------------------------------------------------------------

namespace Trustd

namespace Daemon

open Registry

/- The event as it meets another registry. -/
def Event.seeing
    {κ : Type}
    (registry : Except IoError (Option κ)) :
    Event κ → Event κ
  | .refresh env => .refresh { env with registry }
  | .request env stream asked =>
      .request { env with registry } stream asked
  | .depart position => .depart position

end Daemon

namespace Machine

open ClientCore Control Daemon General Registry Render Store Wire

/-
  The registry with its clients, and the daemon. `recent` is
  the registry as it has been since the daemon last turned to
  something, the latest first.
-/
structure System where
  clients : Shared Command Key Call Answer ClientCore.Error Done
  recent : List Key
  world : World

/-
  How many moves of the clients before the end of an event each
  of its reads of the registry was carried out; or a refusal.
  The source reads in an order of its own: any is admitted.
-/
abbrev Ages : Type :=
  List Text → Query → Except IoError Nat

/-
  A client makes a move, the daemon turns to what comes next,
  or it is done with it. Its reads of the registry fall between
  these two, and clients may move between one and the next.
-/
inductive SystemMove (naming : Naming) where
  | client (move : ClientMove)
  | turn
  | daemon (ages : Ages) (event : Event (Seen naming))

/- The daemon turns to what comes next by this move. -/
def SystemMove.Turns {naming : Naming} :
    SystemMove naming → Prop
  | .client _ => False
  | .turn => True
  | .daemon _ _ => True

section

variable (naming : Naming)
variable (missing : Missing)
variable (out : Outside)

/- The registry as each read of that age meets it. -/
def System.shown (s : System) (ages : Ages) : Shown :=
  fun path query =>
    (ages path query).map (fun age =>
      s.recent.getD age s.clients.state)

/- The event, as it meets the registry there has been. -/
def System.event
    (s : System)
    (ages : Ages)
    (event : Event (Seen naming)) :
    Event (Seen naming) :=
  event.seeing (openSeen naming (s.shown ages))

def System.move (s : System) : SystemMove naming → System
  | .client move =>
      let clients := Shared.move
        (Command.steps out.debug out.crates)
        (serve naming missing) s.clients move
      { s with
        clients
        recent := clients.state :: s.recent }
  | .turn => { s with recent := [s.clients.state] }
  | .daemon ages event =>
      { s with
        recent := [s.clients.state]
        world := Daemon.step out s.world
          (s.event naming ages event) }

/- What a move decides. -/
def System.decides (s : System) :
    SystemMove naming → List Decision
  | .client move =>
      (Shared.exchanged (serve naming missing) s.clients
        move).flatMap (fun e => decisions e.2)
  | .turn => []
  | .daemon _ _ => []

/- A daemon that has started, and a registry without clients. -/
def System.start
    (hive : Key)
    (config : Config)
    (host : Host) :
    System :=
  { clients := Shared.idle hive
    recent := [hive]
    world := boot out config host }

/- The system after some moves. -/
def system
    (hive : Key)
    (config : Config)
    (host : Host)
    (moves : List (SystemMove naming)) :
    System :=
  run (System.move naming missing out)
    (System.start out hive config host) moves

/- The policy that was decided on by then. -/
def decided
    (policy : Policy)
    (hive : Key)
    (config : Config)
    (host : Host)
    (moves : List (SystemMove naming)) :
    Policy :=
  run (Policy.apply naming) policy
    (observed (System.move naming missing out)
      (System.decides naming missing)
      (System.start out hive config host) moves)

/-
  A policy that was decided on when the daemon last turned to
  something, or since.
-/
def DecidedSince
    (policy : Policy)
    (hive : Key)
    (config : Config)
    (host : Host)
    (moves : List (SystemMove naming))
    (p : Policy) :
    Prop :=
  ∃ earlier between, moves = earlier ++ between ∧
    (∀ m ∈ between, ¬ m.Turns) ∧
      p = decided naming missing out policy hive config host
        earlier

end

end Machine

end Trustd

------------------------------------------------------------
-- What The Daemon Composes
------------------------------------------------------------

namespace Trustd

namespace Machine

open ClientCore Control Daemon General Registry Render Store Wire

variable {naming : Naming}
variable {missing : Missing}
variable {out : Outside}
variable {policy : Policy}

/- Every party of a system keeps to its script. -/
abbrev Linked
    (out : Outside)
    (naming : Naming)
    (policy : Policy)
    (s : System)
    (log : List (Nat × Script.Exchange Call Answer)) :
    Prop :=
  Shared.Faithful (Command.steps out.debug out.crates) Fits
    decisions (Policy.apply naming) (Policy.Admits naming)
    (Represents naming) policy s.clients log

/- What a move exchanges, and who. -/
def exchangedBy
    (naming : Naming)
    (missing : Missing)
    (s : System) :
    SystemMove naming → List (Nat × Script.Exchange Call Answer)
  | .client move =>
      Shared.exchanged (serve naming missing) s.clients move
  | .turn => []
  | .daemon _ _ => []

theorem Linked.move
    {s : System}
    {log : List (Nat × Script.Exchange Call Answer)}
    (hLinked : Linked out naming policy s log)
    (m : SystemMove naming) :
    Linked out naming policy (s.move naming missing out m)
      (log ++ exchangedBy naming missing s m) := by
  cases m with
  | client move =>
      exact Shared.Faithful.move serve_refines
        (fun c => Command.ends out.debug out.crates c)
        hLinked move
  | turn =>
      rw [exchangedBy, List.append_nil]
      exact hLinked
  | daemon ages event =>
      rw [exchangedBy, List.append_nil]
      exact hLinked

/- What is decided by now is among what is decided lately. -/
theorem decidedSince_now
    (hive : Key)
    (config : Config)
    (host : Host)
    (moves : List (SystemMove naming)) :
    DecidedSince naming missing out policy hive config host
      moves (decided naming missing out policy hive config host
        moves) :=
  ⟨moves, [], (List.append_nil _).symm,
    fun _ hm => absurd hm List.not_mem_nil, rfl⟩

/- What was decided lately still is, unless the daemon turns. -/
theorem DecidedSince.snoc
    {hive : Key}
    {config : Config}
    {host : Host}
    {moves : List (SystemMove naming)}
    {p : Policy}
    (hSince : DecidedSince naming missing out policy hive config
      host moves p)
    {m : SystemMove naming}
    (hClient : ¬ m.Turns) :
    DecidedSince naming missing out policy hive config host
      (moves ++ [m]) p := by
  rcases hSince with ⟨earlier, between, rfl, hBetween, rfl⟩
  refine ⟨earlier, between ++ [m], ?_, ?_, rfl⟩
  · rw [List.append_assoc]
  · intro x hx
    rcases List.mem_append.mp hx with hThere | hHere
    · exact hBetween x hThere
    · rw [List.mem_singleton.mp hHere]
      exact hClient

end Machine

end Trustd

------------------------------------------------------------
-- What Is Served
------------------------------------------------------------

namespace Trustd

namespace Machine

open ClientCore Control Daemon General Registry Render Store Wire

variable {naming : Naming}
variable {missing : Missing}
variable {out : Outside}
variable {policy : Policy}

/- The entries of the daemon's set. -/
def System.served (s : System) : List Entry :=
  s.world.daemon.composed.roots

/- What the daemon meets in a move, the registry apart. -/
def SystemMove.env :
    SystemMove naming → Option (Env (Seen naming))
  | .daemon _ (.refresh env) => some env
  | .daemon _ (.request env _ _) => some env
  | _ => none

/- A client that distrusts a fingerprint. -/
def distrusting : List (SystemMove exactNaming) :=
  [.client (.enter (.distrust none someFingerprint [])),
    .client (.turn 0 none), .client (.turn 0 none),
    .client (.turn 0 none)]

/- What a refresh meets, but for the registry. -/
def shippedEnv : Env (Seen exactNaming) where
  registry := .ok none
  stamp := none
  bundle := .ok purposeBundle
  now := none
  faults := fun _ => {}
  room := fun _ => 0

/- The key is opened a call before the rest is read. -/
def openedBefore : Ages :=
  fun path _ => .ok (if path = [] then 1 else 0)

end Machine

end Trustd

------------------------------------------------------------
-- What Is Distrusted
------------------------------------------------------------

namespace Trustd

namespace Machine

open ClientCore Control Daemon General Registry Render Store Wire

variable {naming : Naming}
variable {missing : Missing}
variable {out : Outside}
variable {policy : Policy}
variable {f : Text}

/- A decision does not take a distrust back. -/
def Spares (naming : Naming) (f : Text) (d : Decision) : Prop :=
  ∀ g, d = .lift g → naming.text g ≠ naming.text f

/- Only taking it back ends a distrust. -/
theorem distrusts_apply
    (hDistrusts : policy.Distrusts naming f)
    {d : Decision}
    (hSpares : Spares naming f d) :
    (policy.apply naming d).Distrusts naming f := by
  unfold Policy.Distrusts at hDistrusts ⊢
  cases d with
  | enter name => exact hDistrusts
  | purposes name purposes => exact hDistrusts
  | certify name der => exact hDistrusts
  | mode compat => exact hDistrusts
  | drop path =>
      rcases path with _ | ⟨name, _ | ⟨other, rest⟩⟩
      · exact hDistrusts
      · exact hDistrusts
      · exact hDistrusts
  | note g reason =>
      rw [Policy.apply, entry_put]
      split_ifs
      · exact Option.some_ne_none reason
      · exact hDistrusts
  | lift g =>
      rw [Policy.apply, entry_remove, if_neg (hSpares g rfl)]
      exact hDistrusts

theorem distrusts_run
    (hDistrusts : policy.Distrusts naming f)
    {l : List Decision}
    (hSpared : ∀ d ∈ l, Spares naming f d) :
    (run (Policy.apply naming) policy l).Distrusts naming
      f := by
  induction l generalizing policy with
  | nil => exact hDistrusts
  | cons d l ih =>
      rcases List.forall_mem_cons.mp hSpared with
        ⟨hSpares, hRest⟩
      exact ih (distrusts_apply hDistrusts hSpares) hRest

/- What is distrusted is in the configuration. -/
theorem mem_distrust
    {hive : Key}
    (hRep : Represents naming policy hive)
    (hDistrusts : policy.Distrusts naming f) :
    normaliseFingerprint f ∈
      policy.config.distrust.map normaliseFingerprint := by
  rcases Option.ne_none_iff_exists'.mp hDistrusts with
    ⟨reason, hEntry⟩
  rcases mem_of_entry hEntry with ⟨g, hMem, hSame⟩
  have hSelf := hRep.fingerprints _ hMem
  have hStands := naming.stands_for hSelf hSame.symm
  rw [textOf_utf8] at hStands
  have hNormal :=
    (fingerprintOf_eq_some_iff.mp hStands).1
  refine List.mem_map.mpr ⟨g, ?_, ?_⟩
  · rw [Policy.config, mem_sortDistrust]
    exact List.mem_map_of_mem hMem
  · rw [(fingerprintOf_self hSelf).1]
    exact hNormal

/- What a run decides, from some state on. -/
def decidedFrom
    (naming : Naming)
    (missing : Missing)
    (out : Outside) :
    System → List (SystemMove naming) → List Decision :=
  observed (System.move naming missing out)
    (System.decides naming missing)

theorem decided_append
    (hive : Key)
    (config : Config)
    (host : Host)
    (moves later : List (SystemMove naming)) :
    decided naming missing out policy hive config host
        (moves ++ later) =
      run (Policy.apply naming)
        (decided naming missing out policy hive config host
          moves)
        (decidedFrom naming missing out
          (system naming missing out hive config host moves)
          later) := by
  unfold decided decidedFrom system
  rw [observed_append, run_append]

section

variable {hive : Key}
variable {config : Config}
variable {host : Host}
variable {moves : List (SystemMove naming)}

/- Whatever was decided lately distrusts it. -/
def Lately
    (naming : Naming)
    (missing : Missing)
    (out : Outside)
    (policy : Policy)
    (hive : Key)
    (config : Config)
    (host : Host)
    (f : Text)
    (moves : List (SystemMove naming)) :
    Prop :=
  ∀ p, DecidedSince naming missing out policy hive config host
    moves p → p.Distrusts naming f

/- After a move only what it decides is new. -/
theorem DecidedSince.of_snoc
    {m : SystemMove naming}
    {p : Policy}
    (hSince : DecidedSince naming missing out policy hive config
      host (moves ++ [m]) p) :
    p = decided naming missing out policy hive config host
        (moves ++ [m]) ∨
      ¬ m.Turns ∧
        DecidedSince naming missing out policy hive config host
          moves p := by
  rcases hSince with ⟨earlier, between, hMoves, hClients, rfl⟩
  rcases List.eq_nil_or_concat' between with
    rfl | ⟨before, last, rfl⟩
  · rw [List.append_nil] at hMoves
    rw [hMoves]
    exact Or.inl rfl
  · rw [← List.append_assoc] at hMoves
    rcases List.append_inj' hMoves rfl with ⟨rfl, hLast⟩
    cases hLast
    rcases List.forall_mem_append.mp hClients with
      ⟨hBefore, hHere⟩
    exact Or.inr ⟨hHere m List.mem_cons_self,
      earlier, before, rfl, hBefore, rfl⟩

/- A move that spares it leaves it so. -/
theorem Lately.snoc
    (hLately : Lately naming missing out policy hive config host
      f moves)
    {m : SystemMove naming}
    (hSpared : ∀ d ∈ decidedFrom naming missing out
      (system naming missing out hive config host moves) [m],
      Spares naming f d) :
    Lately naming missing out policy hive config host f
      (moves ++ [m]) := by
  intro p hSince
  rcases hSince.of_snoc with rfl | ⟨-, hBefore⟩
  · rw [decided_append]
    exact distrusts_run
      (hLately _ (decidedSince_now hive config host moves))
      hSpared
  · exact hLately p hBefore

end

end Machine

end Trustd
