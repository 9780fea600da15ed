import Trustd.Daemon.Health

/-
  Watching the registry: what makes the daemon read its
  configuration again.

  The registry is written at any moment, by others; the daemon
  arms a watch, loads, is told of events, and arms the watch
  again when it cannot be read. Each of these is a turn.

  Key definitions include:
    * `Trustd.Daemon.Phase`
    * `Trustd.Daemon.Watcher`
    * `Trustd.Daemon.Watcher.turn`
    * `Trustd.Daemon.Watcher.Covered`
    * `Trustd.Daemon.losing`

  Key theorems include:
    * `Trustd.Daemon.turn_ready`
    * `Trustd.Daemon.run_covered`
-/

------------------------------------------------------------
-- Turns
------------------------------------------------------------

namespace Trustd

namespace Daemon

open Control General Registry Render Store Wire

/-
  Where `main` stands. A load that is under way is torn once
  the registry is written; `back` says whether it was set off
  by a request, and whether the watch was reported then.
-/
inductive Phase where
  | arming
  | first (torn : Bool)
  | due (back : Option Bool)
  | loading (torn : Bool) (back : Option Bool)
  | top
  | polled (reported : Bool)
  | reading (told : Bool)
  | rearming (told : Bool)
  | checking (told : Bool)
  | exited
deriving DecidableEq, Repr

/-
  The daemon with the registry and the bundle it is about. Of
  a watch that is armed it is known whether it has an event
  that was not delivered yet.
-/
structure Watcher (κ : Type) where
  world : World
  registry : Option κ
  disk : Option (Nat × Int)
  watch : Option Bool := none
  phase : Phase := .arming

/- What others do, and the calls of the daemon. -/
inductive Turn (κ : Type) where
  | write (registry : Option κ)
  | replace (disk : Option (Nat × Int))
  | arm (works : Bool)
  | begin
  | load (env : Env κ) (fails : Option IoError)
  | poll (reported : Bool)
  | reload
  | pass (signalled : Bool)
  | read (works : Bool)
  | check

/- `config::watch`. -/
def armed (works : Bool) : Option Bool :=
  if works then some false else none

/- A write while a load is under way. -/
def Phase.tear : Phase → Phase
  | .first _ => .first true
  | .loading _ back => .loading true back
  | phase => phase

/- Whether a poll reports the watch: if it has an event. -/
def Watcher.reports
    {κ : Type}
    (s : Watcher κ)
    (reported : Bool) :
    Bool :=
  match s.watch with
  | none => false
  | some undelivered => undelivered || reported

section

variable {κ : Type}
variable [Reader (Except IoError) κ]

/-
  What a load reads: it may fail, and of a registry that is
  written meanwhile it may read anything.
-/
def Watcher.reads
    (s : Watcher κ)
    (torn : Bool)
    (env : Env κ)
    (fails : Option IoError) :
    Except IoError (Option κ) :=
  match fails with
  | some e => .error e
  | none => if torn then env.registry else .ok s.registry

/- One turn. A call that is not due does nothing. -/
def Watcher.turn
    (out : Outside)
    (s : Watcher κ) :
    Turn κ → Watcher κ
  | .write registry =>
      { s with
        registry
        watch := s.watch.map (fun _ => true)
        phase := s.phase.tear }
  | .replace disk => { s with disk }
  | .arm works =>
      match s.phase with
      | .arming =>
          { s with
            watch := armed works
            phase := .first false }
      | .rearming told =>
          { s with
            watch := armed works
            phase := .checking told }
      | _ => s
  | .begin =>
      match s.phase with
      | .due back => { s with phase := .loading false back }
      | _ => s
  | .load env fails =>
      match s.phase with
      | .first torn =>
          match Registry.load (s.reads torn env fails) with
          | .ok config =>
              { s with
                world := boot out config s.world.host
                phase := .due none }
          | .error _ => { s with phase := .exited }
      | .loading torn back =>
          { s with
            world := refresh out { env with
              registry := s.reads torn env fails
              stamp := s.disk } s.world
            phase :=
              match back with
              | none => .top
              | some reported => .polled reported }
      | _ => s
  | .poll reported =>
      match s.phase with
      | .top =>
          { s with phase := .polled (s.reports reported) }
      | _ => s
  | .reload =>
      match s.phase with
      | .polled reported =>
          { s with phase := .due (some reported) }
      | _ => s
  | .pass signalled =>
      match s.phase with
      | .polled true => { s with phase := .reading signalled }
      | .polled false =>
          { s with phase := .checking signalled }
      | _ => s
  | .read works =>
      match s.phase with
      | .reading told =>
          if works = false then
            { s with
              watch := none
              phase := .rearming told }
          else if s.watch = some true then
            { s with
              watch := some false
              phase := .checking true }
          else { s with phase := .checking told }
      | _ => s
  | .check =>
      match s.phase with
      | .checking told =>
          if told ∨ s.disk ≠ s.world.daemon.bundleStamp then
            { s with phase := .due none }
          else { s with phase := .top }
      | _ => s

/- The registry is as it was when it was loaded last. -/
def Watcher.Loaded (s : Watcher κ) : Prop :=
  Registry.loadFrom (m := Except IoError) s.registry =
    .ok s.world.daemon.config

/-
  Something will have the registry loaded again, if that is
  needed: an event, or else the next time the poll runs out.
-/
def Watcher.Covered (s : Watcher κ) : Prop :=
  s.Loaded ∨ s.watch = some true ∨
    s.disk ≠ s.world.daemon.bundleStamp

/-
  Whether a change has been lost since a load last began: it
  was written while no watch was armed, or its event was not
  delivered when the watch could not be read.
-/
def losing (s : Watcher κ) (lost : Bool) : Turn κ → Bool
  | .write _ => lost || s.watch.isNone
  | .begin =>
      match s.phase with
      | .due _ => false
      | _ => lost
  | .read false =>
      match s.phase with
      | .reading _ => lost || s.watch == some true
      | _ => lost
  | _ => lost

/- A turn, and whether a change has been lost. -/
def turnLosing
    (out : Outside)
    (s : Watcher κ × Bool)
    (t : Turn κ) :
    Watcher κ × Bool :=
  (s.1.turn out t, losing s.1 s.2 t)

end

end Daemon

end Trustd

------------------------------------------------------------
-- What Stays True
------------------------------------------------------------

namespace Trustd

namespace Daemon

open Cert Control General Registry Render Store Wire

section

variable {κ : Type}
variable [Reader (Except IoError) κ]

/- Good health means that what is in force was just read. -/
theorem refresh_config
    (out : Outside)
    (env : Env κ)
    (w : World)
    (hOk : (refresh out env w).daemon.health = .ok) :
    env.load = .ok (refresh out env w).daemon.config := by
  rcases hMade : compositionOf out env with
    _ | ⟨fresh, composed⟩
  · rcases refresh_of_none out hMade w with
      ⟨why, hEq | ⟨fresh, _, hEq⟩⟩
    · rw [hEq] at hOk
      cases hOk
    · rw [hEq] at hOk
      cases hOk
  · rcases compositionOf_eq_some out hMade with
      ⟨_, hLoad, _, _⟩
    rw [hLoad, refresh_of_some out hMade]
    split_ifs
    · rfl
    · have hConfig := (announce_leaves out env
        (commit composed (adopt out fresh env.stamp w))).2.1
      exact congrArg Except.ok hConfig.symm

/- The stamp of the bundle is kept until it is read again. -/
theorem refresh_bundleStamp
    (out : Outside)
    (env : Env κ)
    (w : World) :
    (refresh out env w).daemon.bundleStamp = env.stamp ∨
      (refresh out env w).daemon.bundleStamp =
        w.daemon.bundleStamp := by
  rcases hMade : compositionOf out env with
    _ | ⟨fresh, composed⟩
  · rcases refresh_of_none out hMade w with
      ⟨why, hEq | ⟨fresh, _, hEq⟩⟩
    · rw [hEq]
      exact Or.inr rfl
    · rw [hEq]
      exact Or.inl rfl
  · rw [refresh_of_some out hMade]
    split_ifs
    · exact Or.inl rfl
    · rcases announce_spec out env
          (commit composed (adopt out fresh env.stamp w)) with
        ⟨_, _, _, hEq, _⟩
      rw [hEq, publish_eq]
      exact Or.inl rfl

/- In good health, what is loaded is the registry's. -/
def Watcher.Fresh (s : Watcher κ) : Prop :=
  s.world.daemon.health = .ok → s.Loaded

/- The same, unless an event is to be delivered. -/
def Watcher.Current (s : Watcher κ) : Prop :=
  s.Fresh ∨ s.watch = some true

/- What holds in each phase while nothing is lost. -/
def Watcher.Ready (s : Watcher κ) : Prop :=
  match s.phase with
  | .loading torn _ => torn = true → s.watch = some true
  | .top => s.Current
  | .polled _ => s.Current
  | .reading told => told = true ∨ s.Current
  | .rearming told =>
      s.watch = none ∧ (told = true ∨ s.Fresh)
  | .checking told => told = true ∨ s.Current
  | _ => True

/- With an event to be delivered all is well. -/
theorem ready_of_event
    {s : Watcher κ}
    (hEvent : s.watch = some true)
    (hPhase : ∀ told, s.phase ≠ .rearming told) :
    s.Ready := by
  unfold Watcher.Ready
  have hCurrent : s.Current := Or.inr hEvent
  rcases hNow : s.phase with
    _ | _ | _ | _ | _ | _ | _ | told | _ | _
  · trivial
  · trivial
  · trivial
  · exact fun _ => hEvent
  · exact hCurrent
  · exact hCurrent
  · exact Or.inr hCurrent
  · exact absurd hNow (hPhase told)
  · exact Or.inr hCurrent
  · trivial

/- A write that a watch sees. -/
theorem write_ready
    (out : Outside)
    {s : Watcher κ}
    (hReady : s.Ready)
    (hArmed : s.watch ≠ none)
    (registry : Option κ) :
    (s.turn out (.write registry)).Ready := by
  apply ready_of_event
  · rcases hWatch : s.watch with _ | undelivered
    · exact absurd hWatch hArmed
    · change s.watch.map (fun _ => true) = some true
      rw [hWatch]
      rfl
  · intro told hPhase
    have hBefore : s.phase = .rearming told := by
      change s.phase.tear = .rearming told at hPhase
      generalize s.phase = phase at hPhase
      cases phase with
      | rearming _ => exact hPhase
      | _ => cases hPhase
    unfold Watcher.Ready at hReady
    rw [hBefore] at hReady
    exact hArmed hReady.1

/- What is read of a registry no one wrote to meanwhile. -/
theorem refresh_fresh
    (out : Outside)
    {s : Watcher κ}
    {env : Env κ}
    {fails : Option IoError}
    (hOk : (refresh out { env with
      registry := s.reads false env fails
      stamp := s.disk } s.world).daemon.health = .ok) :
    Registry.loadFrom (m := Except IoError) s.registry =
      .ok (refresh out { env with
        registry := s.reads false env fails
        stamp := s.disk } s.world).daemon.config := by
  have hLoad := refresh_config out _ s.world hOk
  cases fails with
  | some e => cases hLoad
  | none => exact hLoad

/- The end of a load. -/
theorem load_ready
    (out : Outside)
    {s : Watcher κ}
    (hReady : s.Ready)
    (env : Env κ)
    (fails : Option IoError) :
    (s.turn out (.load env fails)).Ready := by
  unfold Watcher.turn
  cases hPhase : s.phase with
  | first torn =>
      dsimp only
      cases Registry.load (s.reads torn env fails) with
      | error e => trivial
      | ok config => trivial
  | loading torn back =>
      rw [Watcher.Ready, hPhase] at hReady
      have hCurrent : Watcher.Current { s with
          world := refresh out { env with
            registry := s.reads torn env fails
            stamp := s.disk } s.world } := by
        cases torn with
        | true => exact Or.inr (hReady rfl)
        | false => exact Or.inl (refresh_fresh out)
      cases back with
      | none => exact hCurrent
      | some reported => exact hCurrent
  | _ => exact hReady

/- Reading the events of the watch, or arming it again. -/
theorem read_ready
    (out : Outside)
    {s : Watcher κ}
    (hReady : s.Ready)
    (works : Bool)
    (hKept : works = false → (∃ told,
      s.phase = .reading told) → s.watch ≠ some true) :
    (s.turn out (.read works)).Ready := by
  unfold Watcher.turn
  cases hPhase : s.phase with
  | reading told =>
      rw [Watcher.Ready, hPhase] at hReady
      dsimp only
      by_cases hFails : works = false
      · rw [if_pos hFails]
        have hNone := hKept hFails ⟨told, hPhase⟩
        refine ⟨rfl, hReady.imp_right ?_⟩
        exact fun hCurrent => hCurrent.resolve_right hNone
      rw [if_neg hFails]
      by_cases hEvent : s.watch = some true
      · rw [if_pos hEvent]
        exact Or.inl rfl
      · rw [if_neg hEvent]
        exact hReady
  | _ => exact hReady

/- Every turn keeps this, as long as nothing is lost. -/
theorem turn_ready
    (out : Outside)
    {s : Watcher κ}
    {lost : Bool}
    (hReady : lost = false → s.Ready)
    (t : Turn κ)
    (hKept : losing s lost t = false) :
    (s.turn out t).Ready := by
  cases t with
  | write registry =>
      rcases Bool.or_eq_false_iff.mp hKept with ⟨hLost, hSome⟩
      apply write_ready out (hReady hLost)
      intro hNone
      rw [hNone] at hSome
      cases hSome
  | replace disk => exact hReady hKept
  | arm works =>
      have hBefore := hReady hKept
      unfold Watcher.turn
      cases hPhase : s.phase with
      | arming => trivial
      | rearming told =>
          rw [Watcher.Ready, hPhase] at hBefore
          exact hBefore.2.imp_right Or.inl
      | _ => exact hBefore
  | begin =>
      unfold Watcher.turn
      cases hPhase : s.phase with
      | due back => exact fun hTorn => by cases hTorn
      | _ =>
          rw [losing, hPhase] at hKept
          exact hReady hKept
  | load env fails => exact load_ready out (hReady hKept) _ _
  | poll reported =>
      have hBefore := hReady hKept
      unfold Watcher.turn
      cases hPhase : s.phase with
      | top =>
          rw [Watcher.Ready, hPhase] at hBefore
          exact hBefore
      | _ => exact hBefore
  | reload =>
      have hBefore := hReady hKept
      unfold Watcher.turn
      cases hPhase : s.phase with
      | polled reported => trivial
      | _ => exact hBefore
  | pass signalled =>
      have hBefore := hReady hKept
      unfold Watcher.turn
      cases hPhase : s.phase with
      | polled reported =>
          rw [Watcher.Ready, hPhase] at hBefore
          cases reported with
          | true => exact Or.inr hBefore
          | false => exact Or.inr hBefore
      | _ => exact hBefore
  | read works =>
      cases works with
      | true =>
          apply read_ready out (hReady hKept)
          intro hFails
          cases hFails
      | false =>
          by_cases hReading : ∃ told, s.phase = .reading told
          · rcases hReading with ⟨told, hPhase⟩
            rw [losing, hPhase] at hKept
            rcases Bool.or_eq_false_iff.mp hKept with
              ⟨hLost, hNone⟩
            apply read_ready out (hReady hLost)
            intro _ _ hEvent
            rw [hEvent] at hNone
            cases hNone
          · have hSame : losing s lost (.read false) =
                lost := by
              unfold losing
              cases hPhase : s.phase with
              | reading told =>
                  exact absurd ⟨told, hPhase⟩ hReading
              | _ => rfl
            rw [hSame] at hKept
            apply read_ready out (hReady hKept)
            exact fun _ hThere => absurd hThere hReading
  | check =>
      have hBefore := hReady hKept
      unfold Watcher.turn
      cases hPhase : s.phase with
      | checking told =>
          rw [Watcher.Ready, hPhase] at hBefore
          dsimp only
          by_cases hTold : told ∨
              s.disk ≠ s.world.daemon.bundleStamp
          · rw [if_pos hTold]
            trivial
          · rw [if_neg hTold]
            exact hBefore.resolve_left
              (fun hTrue => hTold (Or.inl hTrue))
      | _ => exact hBefore

end

end Daemon

end Trustd

------------------------------------------------------------
-- Runs
------------------------------------------------------------

namespace Trustd

namespace Daemon

open Cert Control General Registry Render Store Wire

section

variable {κ : Type}
variable [Reader (Except IoError) κ]
variable (out : Outside)

/- The loop is at its top, in good health. -/
def Watcher.Resting (s : Watcher κ) : Prop :=
  s.phase = .top ∧ s.world.daemon.health = .ok

/-
  A turn does not leave the loop at its top in good health,
  the bundle as it was read, with a change lost since a load
  last began.
-/
def Recovers (s : Watcher κ × Bool) (t : Turn κ) : Prop :=
  let s' := turnLosing out s t
  s'.1.Resting → s'.1.disk = s'.1.world.daemon.bundleStamp →
    s'.2 = false

/- What `main` begins with. -/
def Watcher.initial
    (host : Host)
    (registry : Option κ)
    (disk : Option (Nat × Int)) :
    Watcher κ × Bool :=
  ({ world := boot out {} host, registry, disk }, false)

/- While nothing is lost all is well in every phase. -/
theorem run_ready
    (host : Host)
    (registry : Option κ)
    (disk : Option (Nat × Int))
    (turns : List (Turn κ)) :
    let s := run (turnLosing out)
      (Watcher.initial out host registry disk) turns
    s.2 = false → s.1.Ready := by
  apply run_preserves
    (I := fun s : Watcher κ × Bool => s.2 = false → s.1.Ready)
  · intro s t hReady hKept
    exact turn_ready out hReady t hKept
  · exact fun _ => trivial

/- At the top, what is well is covered. -/
theorem covered_of_ready
    {s : Watcher κ}
    (hReady : s.Ready)
    (hResting : s.Resting) :
    s.Covered := by
  rw [Watcher.Ready, hResting.1] at hReady
  rcases hReady with hFresh | hEvent
  · exact Or.inl (hFresh hResting.2)
  · exact Or.inr (Or.inl hEvent)

/-
  In every interleaving in which the configuration is loaded
  again, after each change that was lost, before the loop is
  at its top in good health: whenever it is there and the
  registry is not what was loaded, an event is to be delivered
  or the bundle's stamp sets off a refresh.
-/
theorem run_covered
    (host : Host)
    (registry : Option κ)
    (disk : Option (Nat × Int))
    {turns : List (Turn κ)}
    (hRecovers : Along (turnLosing out) (Recovers out)
      (Watcher.initial out host registry disk) turns)
    {before : List (Turn κ)}
    (hBefore : before <+: turns) :
    let s := (run (turnLosing out)
      (Watcher.initial out host registry disk) before).1
    s.Resting → s.Covered := by
  intro s hResting
  rcases hBefore with ⟨after, rfl⟩
  have hAlong := (along_append.mp hRecovers).1
  rcases List.eq_nil_or_concat' before with
    rfl | ⟨earlier, t, rfl⟩
  · cases hResting.1
  have hLast := (along_append.mp hAlong).2.1
  have hSnoc := run_snoc (turnLosing out)
    (Watcher.initial out host registry disk) earlier t
  by_cases hDisk : s.disk = s.world.daemon.bundleStamp
  · apply covered_of_ready _ hResting
    apply run_ready out host registry disk (earlier ++ [t])
    unfold Recovers at hLast
    rw [← hSnoc] at hLast
    exact hLast hResting hDisk
  · exact Or.inr (Or.inr hDisk)

end

/- A registry that asks for no files is read. -/
def offEnv : Env Key :=
  purposeEnv offRegistry (fun _ => {}) (fun _ => 0)

/-
  A start during which files are turned off, and on again
  once the loop is at its top.
-/
def turnedOff (works : Bool) : List (Turn Key) :=
  [.arm works, .load offEnv none,
    .write (some offRegistry), .begin, .load offEnv none,
    .write none]

/- Where it ends, with a watch or without. -/
theorem run_turnedOff (works : Bool) :
    (run (turnLosing purposeOutside)
      (Watcher.initial purposeOutside sampleHost none none)
      (turnedOff works)).1 =
      { world := refresh purposeOutside offEnv
          (boot purposeOutside {} sampleHost)
        registry := none
        disk := none
        watch := if works then some true else none
        phase := .top } := by
  cases works with
  | false => rfl
  | true => rfl

/- The daemon is in good health, and is to render no files. -/
theorem turnedOff_world :
    let w := refresh purposeOutside offEnv
      (boot purposeOutside {} sampleHost)
    w.daemon.health = .ok ∧ w.daemon.config.compat = .none ∧
      w.daemon.bundleStamp = none := by
  have hAfter : afterOff (fun _ => {}) =
      refresh purposeOutside offEnv
        (boot purposeOutside {} sampleHost) := by
    rw [afterOff, run_cons, run_nil, step]
    rfl
  rcases afterOff_ok (fun _ => {}) (by decide +kernel) with
    ⟨hOk, hCompat, _⟩
  rw [hAfter] at hOk hCompat
  refine ⟨hOk, hCompat, ?_⟩
  rcases refresh_bundleStamp purposeOutside offEnv
      (boot purposeOutside {} sampleHost) with hNew | hOld
  · exact hNew
  · exact hOld

/- With a watch the last write is an event to be delivered. -/
theorem run_covered_watched :
    let s := (run (turnLosing purposeOutside)
      (Watcher.initial purposeOutside sampleHost none none)
      (turnedOff true)).1
    s.Resting ∧ s.Covered := by
  have hRecovers : Along (turnLosing purposeOutside)
      (Recovers purposeOutside)
      (Watcher.initial purposeOutside sampleHost none none)
      (turnedOff true) :=
    ⟨fun _ _ => rfl, fun _ _ => rfl, fun _ _ => rfl,
      fun _ _ => rfl, fun _ _ => rfl, fun _ _ => rfl, trivial⟩
  have hCovered := run_covered purposeOutside sampleHost none
    none hRecovers (List.prefix_refl _)
  intro s
  have hResting : s.Resting := by
    have hEnd : s = _ := run_turnedOff true
    rw [hEnd]
    exact ⟨rfl, turnedOff_world.1⟩
  exact ⟨hResting, hCovered hResting⟩

/-
  Without one, the registry asks for files, the daemon is in
  good health and renders none, and nothing is to come.
-/
theorem run_uncovered :
    let s := (run (turnLosing purposeOutside)
      (Watcher.initial purposeOutside sampleHost none none)
      (turnedOff false)).1
    s.Resting ∧ ¬ s.Covered := by
  rw [run_turnedOff]
  rcases turnedOff_world with ⟨hOk, hCompat, hStamp⟩
  refine ⟨⟨rfl, hOk⟩, ?_⟩
  rintro (hLoaded | hEvent | hDisk)
  · have hConfig := Except.ok.inj hLoaded
    rw [← hConfig] at hCompat
    cases hCompat
  · cases hEvent
  · exact hDisk hStamp.symm

end Daemon

end Trustd
