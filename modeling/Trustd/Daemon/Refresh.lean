import Trustd.General.Runs
import Trustd.Daemon.State

/-
  What each step of the daemon can do, and what it serves.

  Key definitions include:
    * `Trustd.Daemon.compositionOf`
    * `Trustd.Daemon.latest`

  Key theorems include:
    * `Trustd.Daemon.publish_eq`
    * `Trustd.Daemon.refresh_of_none`
    * `Trustd.Daemon.refresh_of_some`
    * `Trustd.Daemon.run_serves_latest`
-/

------------------------------------------------------------
-- Handing Out The Set
------------------------------------------------------------

namespace Trustd

namespace Daemon

open Control General Registry Store Wire

section

variable (out : Outside)
variable (room : Stream → Nat)

/- What a subscriber is sent of the set a state serves. -/
def snapshotFor (s : State) (subscriber : Stream × Bool) :
    List Written × Bool :=
  sendRoots out.msgpack (room subscriber.1) s.generation
    (s.roots subscriber.2 none)

/- The same as it is put in the outbox. -/
def sentTo (s : State) (subscriber : Stream × Bool) :
    List Sent :=
  (snapshotFor out room s subscriber).1.map
    (fun x => ⟨subscriber.1, x⟩)

theorem publishTo_eq
    (w : World)
    (subscriber : Stream × Bool) :
    publishTo out room w subscriber =
      { w.withSubscribers (w.daemon.subscribers ++
          [subscriber].filter
            (fun s => (snapshotFor out room w.daemon s).2))
        with
        outbox := w.outbox ++
          sentTo out room w.daemon subscriber } := by
  simp only [publishTo, sentTo, snapshotFor, World.send,
    World.withSubscribers]
  rcases hSend : sendRoots out.msgpack (room subscriber.1)
      w.daemon.generation
      (w.daemon.roots subscriber.2 none) with
    ⟨written, _ | _⟩
  · simp [hSend]
  · simp [hSend]

/-
  The loop of `publish`: each subscriber is sent the set in
  turn, and those who took it are kept in order.
-/
theorem foldl_publishTo
    (subscribers : List (Stream × Bool))
    (w : World) :
    subscribers.foldl (publishTo out room) w =
      { w.withSubscribers (w.daemon.subscribers ++
          subscribers.filter
            (fun s => (snapshotFor out room w.daemon s).2))
        with
        outbox := w.outbox ++
          subscribers.flatMap (sentTo out room w.daemon) } := by
  induction subscribers generalizing w with
  | nil => simp [World.withSubscribers]
  | cons subscriber rest ih =>
      rw [List.foldl_cons, ih, publishTo_eq]
      have hSame : ∀ subscribers, snapshotFor out room
          { w.daemon with subscribers } =
            snapshotFor out room w.daemon := fun _ => rfl
      have hSent : ∀ subscribers, sentTo out room
          { w.daemon with subscribers } =
            sentTo out room w.daemon := fun _ => rfl
      simp only [World.withSubscribers, hSame, hSent,
        List.flatMap_cons, List.append_assoc]
      rw [← List.filter_append, List.singleton_append]

/- `publish` writes the set to all and keeps who took it. -/
theorem publish_eq (w : World) :
    publish out room w =
      { w.withSubscribers (w.daemon.subscribers.filter
          (fun s => (snapshotFor out room w.daemon s).2))
        with
        outbox := w.outbox ++ w.daemon.subscribers.flatMap
          (sentTo out room w.daemon) } := by
  exact foldl_publishTo out room w.daemon.subscribers
    (w.withSubscribers [])

end

end Daemon

end Trustd

------------------------------------------------------------
-- What A Refresh Does
------------------------------------------------------------

namespace Trustd

namespace Daemon

open Cert Control General Registry Render Store Wire

/- Asking which files exist changes nothing. -/
theorem renderedPaths_eq (m : Machine Host Fault) :
    (renderedPaths m).2.state = m.state ∧
      ∃ paths, (renderedPaths m).1 = .ok paths :=
  ⟨rfl, _, rfl⟩

/-
  A render touches the host, the paths reported and, where it
  fails, the health and its message.
-/
theorem renderStore_spec
    (faults : Nat → Fault)
    (w : World) :
    ∃ rendered health message,
      renderStore faults w =
        { w with
          host := (render w.daemon.composed
            w.daemon.config.compat
            (Machine.start w.host faults)).2.state
          daemon := { w.daemon with
            rendered, health, message } } ∧
      match (render w.daemon.composed w.daemon.config.compat
          (Machine.start w.host faults)).1 with
      | .ok _ => health = w.daemon.health ∧
          message = w.daemon.message
      | .error _ => health = .degraded ∧
          message.isSome = true := by
  rcases hRun : render w.daemon.composed
      w.daemon.config.compat (Machine.start w.host faults) with
    ⟨e | paths, m⟩
  · refine ⟨w.daemon.rendered, .degraded,
      some ("render failed: ".toList ++ e.text), ?_, rfl, rfl⟩
    simp only [renderStore, hRun]
  · rcases renderedPaths_eq m with ⟨hState, files, hFiles⟩
    refine ⟨files, w.daemon.health, w.daemon.message, ?_,
      rfl, rfl⟩
    simp only [renderStore, hRun, hState, hFiles]

section

variable {κ : Type}
variable (out : Outside)

/-
  An announcement counts the generation, renders what is
  composed and hands it out; it leaves the rest alone.
-/
theorem announce_spec
    (env : Env κ)
    (w : World) :
    ∃ rendered health message,
      announce out env w = publish out env.room
        { w with
          host := (render w.daemon.composed
            w.daemon.config.compat
            (Machine.start w.host env.faults)).2.state
          daemon := { w.daemon with
            generation := w.daemon.generation + 1
            rendered, health, message } } ∧
      match (render w.daemon.composed w.daemon.config.compat
          (Machine.start w.host env.faults)).1 with
      | .ok _ => health = w.daemon.health ∧
          message = w.daemon.message
      | .error _ => health = .degraded ∧
          message.isSome = true := by
  rcases renderStore_spec env.faults { w with
      daemon := { w.daemon with
        generation := w.daemon.generation + 1 } } with
    ⟨rendered, health, message, hRender, hResult⟩
  refine ⟨rendered, health, message, ?_, hResult⟩
  rw [announce, hRender]

variable [Reader (Except IoError) κ]

section

variable (fresh : Config)
variable (stamp : Option (Nat × Int))
variable (w : World)

@[simp] theorem adopt_config :
    (adopt out fresh stamp w).daemon.config = fresh := rfl

@[simp] theorem adopt_composed :
    (adopt out fresh stamp w).daemon.composed =
      w.daemon.composed := rfl

@[simp] theorem adopt_health :
    (adopt out fresh stamp w).daemon.health =
      w.daemon.health := rfl

end

/- What a refresh composes, and under which configuration. -/
def compositionOf (env : Env κ) :
    Option (Config × Composed) :=
  match env.load, env.bundle with
  | .ok fresh, .ok shipped =>
      match compose out.crates shipped fresh.additions
          fresh.distrust env.now with
      | .ok composed => some (fresh, composed)
      | .error _ => none
  | _, _ => none

theorem compositionOf_eq_some
    {env : Env κ}
    {fresh : Config}
    {composed : Composed}
    (hComposition : compositionOf out env =
      some (fresh, composed)) :
    ∃ shipped, env.load = .ok fresh ∧
      env.bundle = .ok shipped ∧
      compose out.crates shipped fresh.additions
        fresh.distrust env.now = .ok composed := by
  unfold compositionOf at hComposition
  rcases hLoad : env.load with _ | config
  · simp [hLoad] at hComposition
  rcases hBundle : env.bundle with _ | shipped
  · simp [hLoad, hBundle] at hComposition
  simp only [hLoad, hBundle] at hComposition
  rcases hCompose : compose out.crates shipped
      config.additions config.distrust env.now with _ | c
  · simp [hCompose] at hComposition
  · simp only [hCompose, Option.some.injEq,
      Prod.mk.injEq] at hComposition
    rcases hComposition with ⟨rfl, rfl⟩
    exact ⟨shipped, rfl, rfl, hCompose⟩

theorem compositionOf_of_ok
    {env : Env κ}
    {fresh : Config}
    {shipped : Text}
    {composed : Composed}
    (hLoad : env.load = .ok fresh)
    (hBundle : env.bundle = .ok shipped)
    (hCompose : compose out.crates shipped fresh.additions
      fresh.distrust env.now = .ok composed) :
    compositionOf out env = some (fresh, composed) := by
  simp only [compositionOf, hLoad, hBundle, hCompose]

/- A refresh that composes nothing only degrades. -/
theorem refresh_of_none
    {env : Env κ}
    (hNone : compositionOf out env = none)
    (w : World) :
    ∃ why, refresh out env w = degrade why w ∨
      ∃ fresh, env.load = .ok fresh ∧
        refresh out env w =
          degrade why (adopt out fresh env.stamp w) := by
  unfold compositionOf at hNone
  unfold refresh
  rcases hLoad : env.load with e | fresh
  · exact ⟨_, Or.inl rfl⟩
  rcases hBundle : env.bundle with e | shipped
  · exact ⟨_, Or.inr ⟨fresh, rfl, rfl⟩⟩
  simp only [hLoad, hBundle] at hNone
  rcases hCompose : compose out.crates shipped
      fresh.additions fresh.distrust env.now with e | composed
  · refine ⟨e, Or.inr ⟨fresh, rfl, ?_⟩⟩
    simp only [adopt, hCompose]
  · rw [hCompose] at hNone
    cases hNone

/- One that composes takes effect, and is announced if new. -/
theorem refresh_of_some
    {env : Env κ}
    {fresh : Config}
    {composed : Composed}
    (hSome : compositionOf out env = some (fresh, composed))
    (w : World) :
    refresh out env w =
      if (composed.roots = w.daemon.composed.roots ∧
          w.daemon.health = .ok) ∧
          fresh = w.daemon.config then
        commit composed (adopt out fresh env.stamp w)
      else
        announce out env
          (commit composed (adopt out fresh env.stamp w)) := by
  rcases compositionOf_eq_some out hSome with
    ⟨shipped, hLoad, hBundle, hCompose⟩
  simp only [refresh, hLoad, hBundle, adopt_config,
    adopt_composed, adopt_health, hCompose,
    ne_eq, decide_not, Bool.not_eq_true',
    decide_eq_false_iff_not, not_not]
  congr 1
  exact propext (and_congr decide_eq_true_iff Iff.rfl)

/- What an announcement leaves, but for what it sends. -/
omit [Reader (Except IoError) κ] in
theorem announce_leaves
    (env : Env κ)
    (w : World) :
    let w' := announce out env w
    let rendered := render w.daemon.composed
      w.daemon.config.compat (Machine.start w.host env.faults)
    w'.daemon.composed = w.daemon.composed ∧
      w'.daemon.config = w.daemon.config ∧
      w'.daemon.generation = w.daemon.generation + 1 ∧
      w'.host = rendered.2.state ∧
      match rendered.1 with
      | .ok _ => w'.daemon.health = w.daemon.health ∧
          w'.daemon.message = w.daemon.message
      | .error _ => w'.daemon.health = .degraded ∧
          w'.daemon.message.isSome = true := by
  rcases announce_spec out env w with
    ⟨rendered, health, message, hEq, hResult⟩
  dsimp only
  rw [hEq, publish_eq]
  exact ⟨rfl, rfl, rfl, rfl, hResult⟩

/- Where the render succeeds, the health is kept. -/
omit [Reader (Except IoError) κ] in
theorem health_announce_of_ok
    (env : Env κ)
    (w : World)
    {paths : List Text}
    (hRender : (render w.daemon.composed w.daemon.config.compat
      (Machine.start w.host env.faults)).1 = .ok paths) :
    (announce out env w).daemon.health = w.daemon.health := by
  rcases announce_leaves out env w with ⟨_, _, _, _, hResult⟩
  rw [hRender] at hResult
  exact hResult.1

/- One that composes what is not out already announces it. -/
theorem refresh_of_new
    {env : Env κ}
    {fresh : Config}
    {composed : Composed}
    (hSome : compositionOf out env = some (fresh, composed))
    {w : World}
    (hNew : ¬ ((composed.roots = w.daemon.composed.roots ∧
        w.daemon.health = .ok) ∧
      fresh = w.daemon.config)) :
    refresh out env w = announce out env
      (commit composed (adopt out fresh env.stamp w)) := by
  rw [refresh_of_some out hSome, if_neg hNew]

/- What a refresh leaves served. -/
theorem composed_refresh
    (env : Env κ)
    (w : World) :
    (refresh out env w).daemon.composed =
      match compositionOf out env with
      | some (_, composed) => composed
      | none => w.daemon.composed := by
  cases hComposition : compositionOf out env with
  | none =>
      rcases refresh_of_none out hComposition w with
        ⟨why, hEq | ⟨fresh, _, hEq⟩⟩
      · rw [hEq]
        rfl
      · rw [hEq]
        rfl
  | some made =>
      rcases made with ⟨fresh, composed⟩
      rw [refresh_of_some out hComposition]
      split_ifs
      · rfl
      · exact (announce_leaves out env _).1

end

end Daemon

end Trustd

------------------------------------------------------------
-- What Is Sent
------------------------------------------------------------

namespace Trustd

namespace Daemon

open Cert Control General Registry Render Store Wire

/- A chunk of roots, each of them one of the entries. -/
def Serves (entries : List Entry) (x : Sent) : Prop :=
  ∃ generation chunk more,
    x.written.reply = .roots generation chunk more ∧
      ∀ root ∈ chunk, ∃ withDer, ∃ entry ∈ entries,
        root = toRoot withDer entry

theorem mem_roots
    {s : State}
    {withDer : Bool}
    {purpose : Option Text}
    {root : Root}
    (hRoot : root ∈ s.roots withDer purpose) :
    ∃ entry ∈ s.composed.roots, root = toRoot withDer entry := by
  rcases List.mem_map.mp hRoot with ⟨entry, hEntry, rfl⟩
  refine ⟨entry, ?_, rfl⟩
  cases purpose with
  | none => exact hEntry
  | some p => exact (List.mem_filter.mp hEntry).1

/- Whatever `send_roots` writes is served. -/
theorem serves_of_mem_sendRoots
    {mp : MsgPack}
    {room generation : Nat}
    {s : State}
    {withDer : Bool}
    {purpose : Option Text}
    {stream : Stream}
    {x : Sent}
    (hMem : x ∈ (sendRoots mp room generation
      (s.roots withDer purpose)).1.map (fun y => ⟨stream, y⟩)) :
    x.stream = stream ∧ Serves s.composed.roots x := by
  rcases List.mem_map.mp hMem with ⟨written, hWritten, rfl⟩
  rcases mem_sendRoots hWritten with
    ⟨chunk, more, hReply, hChunk⟩
  refine ⟨rfl, generation, chunk, more, hReply,
    fun root hRoot => ?_⟩
  rcases mem_roots (hChunk root hRoot) with
    ⟨entry, hEntry, hEq⟩
  exact ⟨withDer, entry, hEntry, hEq⟩

section

variable {κ : Type}
variable (out : Outside)

/- An announcement sends only what is served after it. -/
theorem announce_sends
    (env : Env κ)
    (w : World) :
    ∃ new, (announce out env w).outbox = w.outbox ++ new ∧
      ∀ x ∈ new, Serves w.daemon.composed.roots x := by
  rcases announce_spec out env w with ⟨_, _, _, hEq, _⟩
  rw [hEq, publish_eq]
  refine ⟨_, rfl, fun x hx => ?_⟩
  rcases List.mem_flatMap.mp hx with ⟨subscriber, _, hSent⟩
  exact (serves_of_mem_sendRoots hSent).2

variable [Reader (Except IoError) κ]

/- A refresh sends only what is served after it. -/
theorem refresh_sends
    (env : Env κ)
    (w : World) :
    ∃ new, (refresh out env w).outbox = w.outbox ++ new ∧
      (compositionOf out env = none → new = []) ∧
      ∀ x ∈ new,
        Serves (refresh out env w).daemon.composed.roots x := by
  have hComposed := composed_refresh out env w
  cases hComposition : compositionOf out env with
  | none =>
      refine ⟨[], ?_, fun _ => rfl, by simp⟩
      rcases refresh_of_none out hComposition w with
        ⟨why, hEq | ⟨fresh, _, hEq⟩⟩
      · simp [hEq, degrade]
      · simp [hEq, degrade, adopt]
  | some made =>
      rcases made with ⟨fresh, composed⟩
      rw [hComposition] at hComposed
      rw [hComposed, refresh_of_some out hComposition]
      split_ifs
      · exact ⟨[], by simp [commit, adopt], by simp, by simp⟩
      · rcases announce_sends out env (commit composed
            (adopt out fresh env.stamp w)) with
          ⟨new, hOutbox, hServes⟩
        exact ⟨new, hOutbox, by simp, hServes⟩

/- A failed refresh leaves what is out there alone. -/
theorem refresh_keeps
    {env : Env κ}
    (hNone : compositionOf out env = none)
    (w : World) :
    let w' := refresh out env w
    w'.daemon.composed = w.daemon.composed ∧
      w'.daemon.generation = w.daemon.generation ∧
      w'.daemon.subscribers = w.daemon.subscribers ∧
      w'.host = w.host ∧ w'.outbox = w.outbox := by
  rcases refresh_of_none out hNone w with
    ⟨why, hEq | ⟨fresh, _, hEq⟩⟩
  · rw [hEq]
    exact ⟨rfl, rfl, rfl, rfl, rfl⟩
  · rw [hEq]
    exact ⟨rfl, rfl, rfl, rfl, rfl⟩

end

end Daemon

end Trustd

------------------------------------------------------------
-- What Each Event Does
------------------------------------------------------------

namespace Trustd

namespace Daemon

open Cert Control General Registry Render Store Wire

section

variable {κ : Type}
variable [Reader (Except IoError) κ]
variable (out : Outside)

/- What an event composes, through the refresh it sets off. -/
def composedBy (w : World) (e : Event κ) :
    Option (Config × Composed) :=
  (refreshOf out w e).bind (compositionOf out)

/- Anything that is sent but roots. -/
def NoRoots (x : Sent) : Prop :=
  ∀ generation chunk more,
    x.written.reply ≠ .roots generation chunk more

/- What an event makes of a world. -/
inductive Effect (w : World) : Event κ → World → Prop where
  | refreshed (env : Env κ) :
      Effect w (.refresh env) (refresh out env w)
  | reloaded
      (env : Env κ)
      (x : Sent)
      (hPermits : permits out w x.stream .reload = true)
      (hReply : x.written.reply =
        degradedReply (refresh out env w).daemon) :
      Effect w (.request env x.stream .reload)
        { refresh out env w with
          outbox := (refresh out env w).outbox ++ [x] }
  | answered
      (env : Env κ)
      (stream : Stream)
      (request : Request)
      (hOther : refreshOf out w (.request env stream request) =
        none)
      (subscribers : List (Stream × Bool))
      (new : List Sent)
      (hNew : ∀ x ∈ new, x.stream = stream ∧
        (NoRoots x ∨ Serves w.daemon.composed.roots x)) :
      Effect w (.request env stream request)
        { w.withSubscribers subscribers with
          outbox := w.outbox ++ new }
  | departed (position : Nat) :
      Effect w (.depart position) (w.withSubscribers
        (w.daemon.subscribers.eraseIdx position))

theorem noRoots_degradedReply
    {s : State}
    {x : Sent}
    (hReply : x.written.reply = degradedReply s) :
    NoRoots x := by
  intro generation chunk more hRoots
  rw [hReply, degradedReply] at hRoots
  split_ifs at hRoots

/- A single reply other than roots. -/
theorem reply_effect
    {w : World}
    {env : Env κ}
    {stream : Stream}
    {request : Request}
    (hOther : refreshOf out w (.request env stream request) =
      none)
    {message : Reply}
    (hMessage : ∀ generation chunk more,
      message ≠ .roots generation chunk more) :
    Effect out w (.request env stream request)
      (reply out env stream message w) := by
  refine Effect.answered env stream request hOther
    w.daemon.subscribers
    [⟨stream, (respond out.msgpack (env.room stream)
      message).1⟩] ?_
  intro x hx
  rw [List.mem_singleton.mp hx]
  exact ⟨rfl, Or.inl hMessage⟩

/- Every step has one of these effects. -/
theorem step_effect
    (w : World)
    (e : Event κ) :
    Effect out w e (step out w e) := by
  cases e with
  | refresh env => exact Effect.refreshed env
  | depart position => exact Effect.departed position
  | request env stream request =>
      by_cases hPermits : permits out w stream request = false
      · have hOther : refreshOf out w
            (.request env stream request) = none := by
          cases request with
          | reload => simp [refreshOf, hPermits]
          | _ => rfl
        simp only [step, handle, if_pos hPermits]
        exact reply_effect out hOther (by simp)
      · simp only [step, handle, if_neg hPermits]
        cases request with
        | status => exact reply_effect out rfl (by simp)
        | roots withDer purpose =>
            refine Effect.answered env stream _ rfl
              w.daemon.subscribers _ (fun x hx => ?_)
            have hServed := serves_of_mem_sendRoots hx
            exact ⟨hServed.1, Or.inr hServed.2⟩
        | subscribe withDer =>
            have hNew := fun (x : Sent)
                (hx : x ∈ (sendRoots out.msgpack
                  (env.room stream) w.daemon.generation
                  (w.daemon.roots withDer none)).1.map
                    (fun y => (⟨stream, y⟩ : Sent))) =>
              serves_of_mem_sendRoots hx
            dsimp only
            split_ifs
            · exact Effect.answered env stream _ rfl
                (w.daemon.subscribers ++ [(stream, withDer)])
                _ (fun x hx =>
                  ⟨(hNew x hx).1, Or.inr (hNew x hx).2⟩)
            · exact Effect.answered env stream _ rfl
                w.daemon.subscribers _ (fun x hx =>
                  ⟨(hNew x hx).1, Or.inr (hNew x hx).2⟩)
        | reload =>
            exact Effect.reloaded env ⟨stream, _⟩
              (by simpa using hPermits) rfl

/- Only a refresh changes what is served. -/
theorem composed_step
    (w : World)
    (e : Event κ) :
    (step out w e).daemon.composed =
      match composedBy out w e with
      | some (_, composed) => composed
      | none => w.daemon.composed := by
  have hEffect := step_effect out w e
  generalize step out w e = w' at hEffect
  cases hEffect with
  | refreshed env => exact composed_refresh out env w
  | reloaded env x hPermits _ =>
      simpa [composedBy, refreshOf, hPermits] using
        composed_refresh out env w
  | answered env stream request hOther _ _ _ =>
      simp only [composedBy, hOther]
      rfl
  | departed position => rfl

/- Roots that are sent are served once the event is over. -/
theorem step_sends
    (w : World)
    (e : Event κ) :
    ∃ new, (step out w e).outbox = w.outbox ++ new ∧
      ∀ x ∈ new, NoRoots x ∨
        Serves (step out w e).daemon.composed.roots x := by
  have hEffect := step_effect out w e
  generalize step out w e = w' at hEffect
  cases hEffect with
  | refreshed env =>
      rcases refresh_sends out env w with
        ⟨new, hOutbox, _, hServes⟩
      exact ⟨new, hOutbox, fun x hx => Or.inr (hServes x hx)⟩
  | reloaded env x _ hReply =>
      rcases refresh_sends out env w with
        ⟨new, hOutbox, _, hServes⟩
      refine ⟨new ++ [x], ?_, fun y hy => ?_⟩
      · simp only [hOutbox, List.append_assoc]
      · rcases List.mem_append.mp hy with hy | hy
        · exact Or.inr (hServes y hy)
        · rw [List.mem_singleton.mp hy]
          exact Or.inl (noRoots_degradedReply hReply)
  | answered env stream request _ _ new hNew =>
      exact ⟨new, rfl, fun x hx => (hNew x hx).2⟩
  | departed position =>
      exact ⟨[], (List.append_nil _).symm, by simp⟩

/- Each root that is sent is of an entry that is served then. -/
theorem step_sends_roots
    (w : World)
    (e : Event κ) :
    ∃ new, (step out w e).outbox = w.outbox ++ new ∧
      ∀ x ∈ new, ∀ generation chunk more,
        x.written.reply = .roots generation chunk more →
        ∀ root ∈ chunk, ∃ withDer,
          ∃ entry ∈ (step out w e).daemon.composed.roots,
            root = toRoot withDer entry := by
  rcases step_sends out w e with ⟨new, hOutbox, hNew⟩
  refine ⟨new, hOutbox, ?_⟩
  intro x hx generation chunk more hReply root hRoot
  rcases hNew x hx with hNone | hServes
  · exact absurd hReply (hNone generation chunk more)
  · rcases hServes with ⟨_, _, _, hReply', hChunk⟩
    rw [hReply] at hReply'
    cases hReply'
    exact hChunk root hRoot

end

end Daemon

end Trustd

------------------------------------------------------------
-- What Is Served Along A Run
------------------------------------------------------------

namespace Trustd

namespace Daemon

open Cert Control General Registry Render Store Wire

section

variable {κ : Type}
variable [Reader (Except IoError) κ]
variable (out : Outside)

/- The refreshes an event sets off, as a list. -/
def refreshesOf (w : World) (e : Event κ) : List (Env κ) :=
  (refreshOf out w e).toList

/- The last of some refreshes that composed, and what. -/
def latest (refreshes : List (Env κ)) :
    Option (Config × Composed) :=
  refreshes.reverse.findSome? (compositionOf out)

/- The roots of the last refresh that composed. -/
def latestRoots (refreshes : List (Env κ)) : List Entry :=
  match latest out refreshes with
  | some (_, composed) => composed.roots
  | none => []

/- The refreshes of a run of the daemon, from its start. -/
def refreshesAlong
    (config : Config)
    (host : Host)
    (events : List (Event κ)) :
    List (Env κ) :=
  observed (step out) (refreshesOf out)
    (boot out config host) events

/- One more event either composes anew or changes nothing. -/
theorem latest_append
    (refreshes : List (Env κ))
    (w : World)
    (e : Event κ) :
    latest out (refreshes ++ refreshesOf out w e) =
      match composedBy out w e with
      | some made => some made
      | none => latest out refreshes := by
  unfold latest refreshesOf composedBy
  rcases hRefresh : refreshOf out w e with _ | env
  · simp
  · rcases hMade : compositionOf out env with _ | made
    · simp [hMade]
    · simp [hMade]

/- What is served is what was composed last. -/
theorem run_serves
    (config : Config)
    (host : Host)
    (events : List (Event κ)) :
    (run (step out) (boot out config host)
        events).daemon.composed.roots =
      latestRoots out (refreshesAlong out config host events)
    := by
  refine run_invariant
    (I := fun (w : World) log =>
      w.daemon.composed.roots = latestRoots out log)
    rfl (fun w log e hServes => ?_) events
  rw [composed_step]
  unfold latestRoots at hServes ⊢
  rw [latest_append]
  rcases composedBy out w e with _ | made
  · exact hServes
  · rfl

/- A refresh that fails is told to no one but its asker. -/
theorem step_of_failed_refresh
    {w : World}
    {e : Event κ}
    {env : Env κ}
    (hRefresh : refreshOf out w e = some env)
    (hNone : compositionOf out env = none) :
    let w' := step out w e
    w'.daemon.composed = w.daemon.composed ∧
      w'.daemon.generation = w.daemon.generation ∧
      w'.daemon.subscribers = w.daemon.subscribers ∧
      w'.host = w.host ∧
      ∃ new, w'.outbox = w.outbox ++ new ∧
        ∀ x ∈ new, e = .request env x.stream .reload ∧
          ∃ why, x.written.reply = .error why := by
  have hEffect := step_effect out w e
  generalize step out w e = w' at hEffect
  cases hEffect with
  | refreshed env' =>
      have hEnv : env' = env := by
        simpa [refreshOf] using hRefresh
      subst hEnv
      rcases refresh_keeps out hNone w with
        ⟨hComposed, hGeneration, hSubscribers, hHost, hOutbox⟩
      exact ⟨hComposed, hGeneration, hSubscribers, hHost, [],
        by simpa using hOutbox, by simp⟩
  | reloaded env' x hPermits hReply =>
      have hEnv : env' = env := by
        simpa [refreshOf, hPermits] using hRefresh
      subst hEnv
      rcases refresh_keeps out hNone w with
        ⟨hComposed, hGeneration, hSubscribers, hHost, hOutbox⟩
      refine ⟨hComposed, hGeneration, hSubscribers, hHost, [x],
        by simp only [hOutbox], fun y hy => ?_⟩
      rw [List.mem_singleton.mp hy]
      refine ⟨rfl, ?_⟩
      rcases refresh_of_none out hNone w with
        ⟨why, hEq | ⟨fresh, _, hEq⟩⟩
      · exact ⟨why, by rw [hReply, hEq]; rfl⟩
      · exact ⟨why, by rw [hReply, hEq]; rfl⟩
  | answered env' stream request hOther _ _ _ =>
      rw [hOther] at hRefresh
      cases hRefresh
  | departed position => cases hRefresh

/-
  In every run, whatever fails: the set served is the last one
  composed; a refresh that composes nothing leaves the set, its
  generation, the subscribers, the files and every stream but
  its asker's alone; and no root sent is one that the last
  composition distrusts.
-/
theorem run_serves_latest
    (config : Config)
    (host : Host)
    (events : List (Event κ))
    (e : Event κ) :
    let w := run (step out) (boot out config host) events
    let w' := step out w e
    w.daemon.composed.roots =
        latestRoots out
          (refreshesAlong out config host events) ∧
      (∀ env, refreshOf out w e = some env →
        compositionOf out env = none →
        w'.daemon.composed.roots = w.daemon.composed.roots ∧
          w'.daemon.generation = w.daemon.generation ∧
          w'.daemon.subscribers = w.daemon.subscribers ∧
          w'.host = w.host ∧
          ∃ new, w'.outbox = w.outbox ++ new ∧
            ∀ x ∈ new, e = .request env x.stream .reload ∧
              ∃ why, x.written.reply = .error why) ∧
      ∃ new, w'.outbox = w.outbox ++ new ∧
        ∀ x ∈ new, ∀ generation chunk more,
          x.written.reply = .roots generation chunk more →
          ∀ root ∈ chunk, ∃ fresh composed,
            latest out (refreshesAlong out config host
              (events ++ [e])) = some (fresh, composed) ∧
            root.fingerprint ∉
              fresh.distrust.map normaliseFingerprint := by
  intro w w'
  refine ⟨run_serves out config host events, ?_, ?_⟩
  · intro env hRefresh hNone
    rcases step_of_failed_refresh out hRefresh hNone with
      ⟨hComposed, hGeneration, hSubscribers, hHost, hSent⟩
    exact ⟨congrArg Composed.roots hComposed, hGeneration,
      hSubscribers, hHost, hSent⟩
  · rcases step_sends_roots out w e with ⟨new, hOutbox, hNew⟩
    refine ⟨new, hOutbox, ?_⟩
    intro x hx generation chunk more hReply root hRoot
    rcases hNew x hx generation chunk more hReply root hRoot
      with ⟨withDer, entry, hEntry, rfl⟩
    -- What is served after the event is the latest set, so
    -- an entry of it comes from a composition.
    have hServed := run_serves out config host (events ++ [e])
    rw [run_snoc] at hServed
    change w'.daemon.composed.roots = _ at hServed
    rw [hServed] at hEntry
    unfold latestRoots at hEntry
    rcases hLatest : latest out (refreshesAlong out config
        host (events ++ [e])) with _ | made
    · simp [hLatest] at hEntry
    · rcases made with ⟨fresh, composed⟩
      simp only [hLatest] at hEntry
      refine ⟨fresh, composed, rfl, ?_⟩
      rcases List.exists_of_findSome?_eq_some hLatest with
        ⟨env, _, hMade⟩
      rcases compositionOf_eq_some out hMade with
        ⟨shipped, _, _, hCompose⟩
      exact compose_distrust hCompose entry hEntry

end

end Daemon

end Trustd
