import Trustd.General.Revisions
import Trustd.Daemon.Watch

/-
  The shipped bundle is replaced underneath the daemon, at any
  moment: between two wake-ups, and between the stamp and the
  read of a refresh.

  A refresh is taken apart into its accesses, and the daemon
  follows the bundle as anything that notes a tag before it
  fetches the value.

  Key definitions include:
    * `Trustd.Daemon.Stage`
    * `Trustd.Daemon.Keeper`
    * `Trustd.Daemon.Keeper.happen`
    * `Trustd.Daemon.Tracks`
    * `Trustd.Daemon.NextRefreshes`

  Key theorems include:
    * `Trustd.Daemon.refresh_apart`
    * `Trustd.Daemon.refresh_between`
    * `Trustd.Daemon.happen_tracks`
    * `Trustd.Daemon.upgrades_followed`
-/

------------------------------------------------------------
-- A Refresh Taken Apart
------------------------------------------------------------

namespace Trustd

namespace Daemon

open Cert Control General Registry Render Store Wire

section

variable {κ : Type}
variable [Reader (Except IoError) κ]
variable (out : Outside)

/- What a refresh does once the configuration is loaded. -/
def takeUp (fresh : Config) (w : World) : World :=
  adopt out fresh w.daemon.bundleStamp w

/- `self.bundle_stamp = render::stamp(..)`. -/
def noteStamp (stamp : Option (Nat × Int)) (w : World) :
    World :=
  { w with daemon := { w.daemon with bundleStamp := stamp } }

/- What it does from the read of the bundle on. -/
def finish
    (env : Env κ)
    (configChanged : Bool)
    (w : World) :
    World :=
  match env.bundle with
  | .error e =>
      degrade ("cannot read ".toList ++ shareBundle ++
        ": ".toList ++ e.text) w
  | .ok shipped =>
      match compose out.crates shipped
          w.daemon.config.additions
          w.daemon.config.distrust env.now with
      | .error e => degrade e w
      | .ok composed =>
          let unchanged : Bool :=
            composed.roots = w.daemon.composed.roots ∧
              w.daemon.health = .ok
          let w := commit composed w
          if unchanged ∧ ¬ configChanged then w
          else announce out env w

/- The three parts make a refresh. -/
theorem refresh_apart
    (env : Env κ)
    (w : World) :
    refresh out env w =
      match env.load with
      | .error error =>
          degrade ("keeping previous configuration: ".toList ++
            error.text) w
      | .ok fresh =>
          finish out env (fresh ≠ w.daemon.config)
            (noteStamp env.stamp (takeUp out fresh w)) := rfl

/- Served is what some contents of the bundle compose to. -/
def ServedFrom (w : World) (text : Text) : Prop :=
  ∃ now, compose out.crates text w.daemon.config.additions
    w.daemon.config.distrust now = .ok w.daemon.composed

omit [Reader (Except IoError) κ] in
theorem announce_bundleStamp
    (env : Env κ)
    (w : World) :
    (announce out env w).daemon.bundleStamp =
      w.daemon.bundleStamp := by
  rcases announce_spec out env w with ⟨_, _, _, hEq, -⟩
  rw [hEq, publish_eq]
  rfl

/- Good health means that what was read is served. -/
omit [Reader (Except IoError) κ] in
theorem finish_served
    (env : Env κ)
    (configChanged : Bool)
    (w : World) :
    let w' := finish out env configChanged w
    w'.daemon.bundleStamp = w.daemon.bundleStamp ∧
      (w'.daemon.health = .ok →
        ∃ shipped, env.bundle = .ok shipped ∧
          ServedFrom out w' shipped) := by
  unfold finish
  rcases hBundle : env.bundle with e | shipped
  · exact ⟨rfl, fun hOk => by cases hOk⟩
  dsimp only
  rcases hCompose : compose out.crates shipped
      w.daemon.config.additions w.daemon.config.distrust
      env.now with e | composed
  · exact ⟨rfl, fun hOk => by cases hOk⟩
  dsimp only
  split_ifs
  · exact ⟨rfl, fun _ => ⟨shipped, rfl, env.now, hCompose⟩⟩
  · have hLeaves := announce_leaves out env (commit composed w)
    refine ⟨announce_bundleStamp out env _, fun _ =>
      ⟨shipped, rfl, env.now, ?_⟩⟩
    rw [hLeaves.1, hLeaves.2.1]
    exact hCompose

end

end Daemon

end Trustd

------------------------------------------------------------
-- The Bundle And The Loop
------------------------------------------------------------

namespace Trustd

namespace Daemon

open Cert Control General Registry Render Store Wire

/- The shipped bundle: its stamp and what reading it gives. -/
abbrev Shipped := Revision (Nat × Int) (Except IoError Text)

/-
  Where `main` stands. A refresh that a request set off goes
  back to the wake-up it came in, and to its peer.
-/
inductive Stage where
  | top
  | awake (told : Bool)
  | loading (back : Option (Bool × Stream))
  | stamping (configChanged : Bool)
      (back : Option (Bool × Stream))
  | reading (configChanged : Bool)
      (back : Option (Bool × Stream))
deriving DecidableEq, Repr

/- The daemon with the bundle it is about. -/
structure Keeper where
  world : World
  file : Shipped
  stage : Stage

/-
  A replacement of the bundle, and the calls of the daemon: a
  wake-up, which a signal or the registry's watch may have
  told to refresh; a request; the accesses of a refresh; and
  the comparison of the stamps at the end of the wake-up.
-/
inductive Happening (κ : Type) where
  | replace (file : Shipped)
  | wake (told : Bool)
  | request (env : Env κ) (stream : Stream) (request : Request)
  | load (env : Env κ)
  | stamp
  | read (env : Env κ) (fails : Option IoError)
  | check

/- The stamps that come into use. -/
def Happening.stamps {κ : Type} :
    Happening κ → List (Nat × Int)
  | .replace file => [file.tag]
  | _ => []

/- What a read of the bundle gives, if it does not fail. -/
def Keeper.reads (s : Keeper) (fails : Option IoError) :
    Except IoError Text :=
  match fails with
  | some e => .error e
  | none => s.file.value

section

variable {κ : Type}
variable [Reader (Except IoError) κ]
variable (out : Outside)

/- A refresh has ended. -/
def Keeper.resume
    (env : Env κ)
    (back : Option (Bool × Stream))
    (w : World)
    (s : Keeper) :
    Keeper :=
  match back with
  | none =>
      { s with
        world := w
        stage := .top }
  | some (told, stream) =>
      { s with
        world := reply out env stream
          (degradedReply w.daemon) w
        stage := .awake told }

/- A call that is not due does nothing. -/
def Keeper.happen (s : Keeper) : Happening κ → Keeper
  | .replace file => { s with file }
  | .wake told =>
      match s.stage with
      | .top => { s with stage := .awake told }
      | _ => s
  | .request env stream request =>
      match s.stage with
      | .awake told =>
          match refreshOf out s.world
              (.request env stream request) with
          | some _ =>
              { s with stage := .loading (some (told, stream)) }
          | none =>
              { s with
                world := handle out env stream request s.world }
      | _ => s
  | .load env =>
      match s.stage with
      | .loading back =>
          match env.load with
          | .error error =>
              s.resume out env back (degrade
                ("keeping previous configuration: ".toList ++
                  error.text) s.world)
          | .ok fresh =>
              { s with
                world := takeUp out fresh s.world
                stage := .stamping
                  (fresh ≠ s.world.daemon.config) back }
      | _ => s
  | .stamp =>
      match s.stage with
      | .stamping configChanged back =>
          { s with
            world := noteStamp (some s.file.tag) s.world
            stage := .reading configChanged back }
      | _ => s
  | .read env fails =>
      match s.stage with
      | .reading configChanged back =>
          s.resume out env back (finish out
            { env with bundle := s.reads fails }
            configChanged s.world)
      | _ => s
  | .check =>
      match s.stage with
      | .awake told =>
          if told ∨ some s.file.tag ≠
              s.world.daemon.bundleStamp then
            { s with stage := .loading none }
          else { s with stage := .top }
      | _ => s

/- `main`, from its first refresh on. -/
def Keeper.start
    (config : Config)
    (host : Host)
    (file : Shipped) :
    Keeper where
  world := boot out config host
  file := file
  stage := .loading none

/- A stamp is taken. -/
def Keeper.Stamps (s : Keeper) : Happening κ → Prop
  | .stamp => ∃ configChanged back,
      s.stage = .stamping configChanged back
  | _ => False

/- A refresh begins. -/
def Keeper.Refreshes (s : Keeper) (h : Happening κ) : Prop :=
  (∀ back, s.stage ≠ .loading back) ∧
    ∃ back, (s.happen out h).stage = .loading back

/- The accesses of one refresh, the bundle replaced between. -/
theorem refresh_between
    (s : Keeper)
    {back : Option (Bool × Stream)}
    (hStage : s.stage = .loading back)
    {env : Env κ}
    {fresh : Config}
    (hLoad : env.load = .ok fresh)
    (stamped read : Shipped) :
    run (Keeper.happen out) s
        [.load env, .replace stamped, .stamp, .replace read,
          .read env none] =
      Keeper.resume out env back
        (refresh out { env with
          stamp := some stamped.tag
          bundle := read.value } s.world)
        { s with file := read } := by
  have hApart := refresh_apart out { env with
    stamp := some stamped.tag
    bundle := read.value } s.world
  have hSame : Env.load { env with
      stamp := some stamped.tag
      bundle := read.value } = .ok fresh := hLoad
  rw [hSame] at hApart
  rw [hApart]
  rcases s with ⟨world, file, stage⟩
  dsimp only at hStage
  rw [hStage]
  simp only [run, List.foldl_cons, List.foldl_nil,
    Keeper.happen, hLoad]
  rfl

end

end Daemon

end Trustd

------------------------------------------------------------
-- Following The Bundle
------------------------------------------------------------

namespace Trustd

namespace Daemon

open Cert Control General Registry Render Store Wire

/- No refresh is between its accesses. -/
def Stage.Whole : Stage → Prop
  | .stamping _ _ => False
  | .reading _ _ => False
  | _ => True

section

variable {κ : Type}
variable [Reader (Except IoError) κ]
variable (out : Outside)

/- What a happening is to one that follows the bundle. -/
def moves (s : Keeper) :
    Happening κ → List (Move (Nat × Int) (Except IoError Text))
  | .replace file => [.replace file]
  | .stamp =>
      match s.stage with
      | .stamping _ _ => [.note]
      | _ => []
  | .read _ fails =>
      match s.stage with
      | .reading _ _ =>
          match fails with
          | none => [.fetch]
          | some _ => [.drop]
      | _ => []
  | _ => []

/-
  The daemon follows the bundle: the tag that is noted is the
  stamp it keeps, and in good health, once a stamp was taken,
  the value that is held is what it serves.
-/
structure Tracks
    (s : Keeper)
    (f : Follower (Nat × Int) (Except IoError Text)) :
    Prop where
  current : f.current = s.file
  noted : f.noted = s.world.daemon.bundleStamp
  whole : s.stage.Whole →
    f.pending = false ∧
      (s.world.daemon.health = .ok → f.noted ≠ none →
        ∃ text, f.held = some (.ok text) ∧
          ServedFrom out s.world text)

theorem start_tracks
    (config : Config)
    (host : Host)
    (file : Shipped) :
    Tracks out (Keeper.start out config host file)
      { current := file } where
  current := rfl
  noted := rfl
  whole _ := ⟨rfl, fun _ hNoted => absurd rfl hNoted⟩

/- Answering a request is none of the bundle's business. -/
theorem handle_daemon
    {out : Outside}
    {env : Env κ}
    {stream : Stream}
    {request : Request}
    {w : World}
    (hOther : refreshOf out w (.request env stream request) =
      none) :
    ∃ subscribers,
      (handle out env stream request w).daemon =
        (w.withSubscribers subscribers).daemon := by
  have hEffect := step_effect out w
    (.request env stream request)
  change Effect out w _ (handle out env stream request w)
    at hEffect
  generalize handle out env stream request w = w' at hEffect
  cases hEffect with
  | reloaded env x hPermits hReply =>
      rw [refreshOf, if_pos hPermits] at hOther
      cases hOther
  | answered env stream request hOther subscribers new hNew =>
      exact ⟨subscribers, rfl⟩

/- A refresh that ends leaves what it made tracked. -/
omit [Reader (Except IoError) κ] in
theorem resume_tracks
    (env : Env κ)
    (back : Option (Bool × Stream))
    {w : World}
    {s : Keeper}
    {f : Follower (Nat × Int) (Except IoError Text)}
    (hCurrent : f.current = s.file)
    (hNoted : f.noted = w.daemon.bundleStamp)
    (hPending : f.pending = false)
    (hServed : w.daemon.health = .ok →
      ∃ text, f.held = some (.ok text) ∧
        ServedFrom out w text) :
    Tracks out (s.resume out env back w) f := by
  rcases back with _ | ⟨told, stream⟩
  · exact ⟨hCurrent, hNoted,
      fun _ => ⟨hPending, fun hOk _ => hServed hOk⟩⟩
  · exact ⟨hCurrent, hNoted,
      fun _ => ⟨hPending, fun hOk _ => hServed hOk⟩⟩

variable {out}

/- What a change of nothing that is tracked leaves tracked. -/
theorem Tracks.still
    {s : Keeper}
    {f : Follower (Nat × Int) (Except IoError Text)}
    (hTracks : Tracks out s f)
    {world : World}
    {stage : Stage}
    (hStamp : world.daemon.bundleStamp =
      s.world.daemon.bundleStamp)
    (hWhole : stage.Whole → s.stage.Whole ∧
      (world.daemon.health = .ok →
        s.world.daemon.health = .ok ∧
        world.daemon.composed = s.world.daemon.composed ∧
        world.daemon.config = s.world.daemon.config)) :
    Tracks out { s with
      world := world
      stage := stage } f where
  current := hTracks.current
  noted := hTracks.noted.trans hStamp.symm
  whole hStage := by
    rcases hWhole hStage with ⟨hBefore, hSame⟩
    rcases hTracks.whole hBefore with ⟨hPending, hHeld⟩
    refine ⟨hPending, fun hOk hNoted => ?_⟩
    rcases hSame hOk with ⟨hHealth, hComposed, hConfig⟩
    rcases hHeld hHealth hNoted with ⟨text, hText, now, hNow⟩
    refine ⟨text, hText, now, ?_⟩
    rw [hComposed, hConfig]
    exact hNow

/- Every happening is followed. -/
theorem happen_tracks
    {s : Keeper}
    {f : Follower (Nat × Int) (Except IoError Text)}
    (hTracks : Tracks out s f)
    (h : Happening κ) :
    Tracks out (s.happen out h)
      (run Follower.move f (moves s h)) := by
  rcases s with ⟨world, file, stage⟩
  cases h with
  | replace file =>
      exact {
        current := rfl
        noted := hTracks.noted
        whole := hTracks.whole }
  | wake told =>
      cases stage with
      | top =>
          exact hTracks.still rfl
            (fun _ => ⟨trivial, fun hOk => ⟨hOk, rfl, rfl⟩⟩)
      | _ => exact hTracks
  | request env stream request =>
      cases stage with
      | awake told =>
          unfold Keeper.happen
          dsimp only
          cases hRefresh : refreshOf out world
              (.request env stream request) with
          | some env' =>
              exact hTracks.still rfl
                (fun _ => ⟨trivial, fun hOk => ⟨hOk, rfl, rfl⟩⟩)
          | none =>
              rcases handle_daemon hRefresh with
                ⟨subscribers, hDaemon⟩
              refine hTracks.still ?_ (fun _ => ⟨trivial, ?_⟩)
              · rw [hDaemon]
                rfl
              · rw [hDaemon]
                exact fun hOk => ⟨hOk, rfl, rfl⟩
      | _ => exact hTracks
  | load env =>
      cases stage with
      | loading back =>
          unfold Keeper.happen
          dsimp only
          cases env.load with
          | error error =>
              exact resume_tracks out env back hTracks.current
                hTracks.noted
                (hTracks.whole trivial).1
                (fun hOk => by cases hOk)
          | ok fresh =>
              exact hTracks.still rfl
                (fun hWhole => hWhole.elim)
      | _ => exact hTracks
  | stamp =>
      cases stage with
      | stamping configChanged back =>
          exact {
            current := hTracks.current
            noted := congrArg
              (fun file : Shipped => some file.tag)
              hTracks.current
            whole := fun hWhole => hWhole.elim }
      | _ => exact hTracks
  | read env fails =>
      cases stage with
      | reading configChanged back =>
          cases fails with
          | none =>
              rcases finish_served out
                  { env with bundle := file.value }
                  configChanged world with ⟨hStamp, hServed⟩
              refine resume_tracks out env back
                hTracks.current ?_ rfl ?_
              · exact hTracks.noted.trans hStamp.symm
              · intro hOk
                rcases hServed hOk with ⟨text, hText, hFrom⟩
                refine ⟨text, ?_, hFrom⟩
                exact congrArg some
                  ((congrArg Revision.value
                    hTracks.current).trans hText)
          | some e =>
              rcases finish_served out
                  { env with bundle := .error e }
                  configChanged world with ⟨hStamp, hServed⟩
              refine resume_tracks out env back
                hTracks.current ?_ rfl ?_
              · exact hTracks.noted.trans hStamp.symm
              · intro hOk
                rcases hServed hOk with ⟨text, hText, -⟩
                cases hText
      | _ => exact hTracks
  | check =>
      cases stage with
      | awake told =>
          unfold Keeper.happen
          dsimp only
          split_ifs
          · exact hTracks.still rfl
              (fun _ => ⟨trivial, fun hOk => ⟨hOk, rfl, rfl⟩⟩)
          · exact hTracks.still rfl
              (fun _ => ⟨trivial, fun hOk => ⟨hOk, rfl, rfl⟩⟩)
      | _ => exact hTracks

end

end Daemon

end Trustd

------------------------------------------------------------
-- Upgrades Over A Run
------------------------------------------------------------

namespace Trustd

namespace Daemon

open Cert Control General Registry Render Store Wire

section

variable {κ : Type}
variable [Reader (Except IoError) κ]
variable (out : Outside)

/- The stamps that are in use after a run. -/
def stampsUsed
    (file : Shipped)
    (happenings : List (Happening κ)) :
    List (Nat × Int) :=
  [file.tag] ++ happenings.flatMap Happening.stamps

omit [Reader (Except IoError) κ] in
theorem tags_moves
    (s : Keeper)
    (h : Happening κ) :
    (moves s h).flatMap Move.tags = h.stamps := by
  rcases s with ⟨world, file, stage⟩
  cases h with
  | stamp => cases stage <;> rfl
  | read env fails =>
      cases stage <;> first | rfl | (cases fails <;> rfl)
  | _ => rfl

theorem tags_observed
    (s : Keeper)
    (happenings : List (Happening κ)) :
    (observed (Keeper.happen out) moves s happenings).flatMap
        Move.tags =
      happenings.flatMap Happening.stamps := by
  induction happenings generalizing s with
  | nil => rfl
  | cons h rest ih =>
      rw [observed, List.flatMap_append, ih, tags_moves,
        List.flatMap_cons]

/- Only a stamp that is taken is a tag that is noted. -/
omit [Reader (Except IoError) κ] in
theorem note_not_mem_moves
    {s : Keeper}
    {h : Happening κ}
    (hNone : ¬ s.Stamps h) :
    Move.note ∉ moves s h := by
  rcases s with ⟨world, file, stage⟩
  cases h with
  | stamp =>
      cases stage with
      | stamping configChanged back =>
          exact absurd ⟨configChanged, back, rfl⟩ hNone
      | _ => exact List.not_mem_nil
  | read env fails =>
      cases stage with
      | reading configChanged back =>
          cases fails <;> simp [moves]
      | _ => exact List.not_mem_nil
  | _ => simp [moves]

theorem note_not_mem_observed
    {s : Keeper}
    {happenings : List (Happening κ)}
    (hNone : Along (Keeper.happen out)
      (fun s h => ¬ s.Stamps h) s happenings) :
    Move.note ∉
      observed (Keeper.happen out) moves s happenings := by
  induction happenings generalizing s with
  | nil => exact List.not_mem_nil
  | cons h rest ih =>
      rw [observed, List.mem_append, not_or]
      exact ⟨note_not_mem_moves hNone.1, ih hNone.2⟩

/- What follows the bundle along a run. -/
def follower
    (s : Keeper)
    (f : Follower (Nat × Int) (Except IoError Text))
    (happenings : List (Happening κ)) :
    Follower (Nat × Int) (Except IoError Text) :=
  run Follower.move f
    (observed (Keeper.happen out) moves s happenings)

/- Along every run the bundle is followed. -/
theorem run_tracks
    (config : Config)
    (host : Host)
    (file : Shipped)
    {happenings : List (Happening κ)}
    (hFresh : (stampsUsed file happenings).Nodup) :
    let s := Keeper.start out config host file
    let f := follower out s { current := file } happenings
    Tracks out (run (Keeper.happen out) s happenings) f ∧
      Follows (stampsUsed file happenings) f := by
  intro s f
  have hTags := tags_observed out s happenings
  refine ⟨run_simulates (R := Tracks out)
    (fun _ _ h hTracks => happen_tracks hTracks h)
    (start_tracks out config host file) happenings, ?_⟩
  unfold stampsUsed at hFresh ⊢
  rw [← hTags] at hFresh ⊢
  exact run_follows (follows_start file) hFresh

/- An upgrade leaves it behind until a stamp is taken. -/
theorem follower_behind
    {s : Keeper}
    {f : Follower (Nat × Int) (Except IoError Text)}
    (before : List (Happening κ))
    (upgraded : Shipped)
    {after : List (Happening κ)}
    (hNone : Along (Keeper.happen out)
      (fun s h => ¬ s.Stamps h)
      (run (Keeper.happen out) s
        (before ++ [.replace upgraded])) after) :
    (follower out s f
      (before ++ [.replace upgraded] ++ after)).behind =
        true := by
  have hUpgraded : (follower out s f
      (before ++ [.replace upgraded])).behind = true := by
    unfold follower
    rw [observed_snoc, run_append]
    rfl
  unfold follower at hUpgraded ⊢
  rw [observed_append, run_append]
  exact run_behind hUpgraded (note_not_mem_observed out hNone)

end

end Daemon

end Trustd

------------------------------------------------------------
-- The Next Wake-Up
------------------------------------------------------------

namespace Trustd

namespace Daemon

open Cert Control General Registry Render Store Wire

section

variable {κ : Type}
variable [Reader (Except IoError) κ]
variable (out : Outside)

/- Between two refreshes. -/
def Stage.Idle : Stage → Prop
  | .top => True
  | .awake _ => True
  | _ => False

/- Until a refresh begins, no stamp is taken. -/
theorem happen_idle
    {s : Keeper}
    (hIdle : s.stage.Idle)
    {h : Happening κ}
    (hNone : ¬ s.Refreshes out h) :
    (s.happen out h).stage.Idle ∧ ¬ s.Stamps h := by
  rcases s with ⟨world, file, stage⟩
  cases stage with
  | top =>
      cases h with
      | stamp =>
          exact ⟨trivial, fun ⟨_, _, hStage⟩ => by
            cases hStage⟩
      | _ => exact ⟨trivial, id⟩
  | awake told =>
      have hOther : ∀ back, Stage.awake told ≠ .loading back :=
        fun back hSame => by cases hSame
      cases h with
      | stamp =>
          exact ⟨trivial, fun ⟨_, _, hStage⟩ => by
            cases hStage⟩
      | request env stream request =>
          refine ⟨?_, id⟩
          unfold Keeper.happen
          dsimp only
          cases hRefresh : refreshOf out world
              (.request env stream request) with
          | none => trivial
          | some env' =>
              refine absurd ⟨hOther, some (told, stream), ?_⟩
                hNone
              unfold Keeper.happen
              dsimp only
              rw [hRefresh]
      | check =>
          refine ⟨?_, id⟩
          unfold Keeper.happen
          dsimp only
          split_ifs with hDue
          · refine absurd ⟨hOther, none, ?_⟩ hNone
            unfold Keeper.happen
            dsimp only
            rw [if_pos hDue]
          · trivial
      | _ => exact ⟨trivial, id⟩
  | _ => exact hIdle.elim

theorem along_idle
    {s : Keeper}
    (hIdle : s.stage.Idle)
    {later : List (Happening κ)}
    (hNone : Along (Keeper.happen out)
      (fun s h => ¬ s.Refreshes out h) s later) :
    Along (Keeper.happen out)
      (fun s h => ¬ s.Stamps h) s later := by
  induction later generalizing s with
  | nil => trivial
  | cons h rest ih =>
      rcases happen_idle out hIdle hNone.1 with
        ⟨hNext, hStamps⟩
      exact ⟨hStamps, ih hNext hNone.2⟩

/- The comparison sees that the bundle is another. -/
theorem check_refreshes
    {s : Keeper}
    {told : Bool}
    (hAwake : s.stage = .awake told)
    (hOther : some s.file.tag ≠ s.world.daemon.bundleStamp) :
    s.Refreshes out (.check : Happening κ) := by
  refine ⟨fun back hSame => ?_, none, ?_⟩
  · rw [hAwake] at hSame
    cases hSame
  · unfold Keeper.happen
    rw [hAwake]
    dsimp only
    rw [if_pos (Or.inr hOther)]

variable (κ)

/-
  However the bundle is replaced further, and whatever else
  happens: if no refresh begins before, one begins when the
  next wake-up compares the stamps.
-/
def NextRefreshes
    (s : Keeper)
    (used : List (Nat × Int)) :
    Prop :=
  ∀ later : List (Happening κ),
    (used ++ later.flatMap Happening.stamps).Nodup →
    Along (Keeper.happen out)
      (fun s h => ¬ s.Refreshes out h) s later →
    ∀ told, (run (Keeper.happen out) s later).stage =
        .awake told →
      (run (Keeper.happen out) s later).Refreshes out
        (.check : Happening κ)

variable {κ}

/- With the stamp that is kept, what is served is current. -/
theorem run_current
    (config : Config)
    (host : Host)
    (file : Shipped)
    {happenings : List (Happening κ)}
    (hFresh : (stampsUsed file happenings).Nodup)
    {s : Keeper}
    (hRun : run (Keeper.happen out)
      (Keeper.start out config host file) happenings = s)
    (hTop : s.stage = .top)
    (hOk : s.world.daemon.health = .ok)
    (hStamp : s.world.daemon.bundleStamp =
      some s.file.tag) :
    ∃ text, s.file.value = .ok text ∧
      ServedFrom out s.world text := by
  rcases run_tracks out config host file hFresh with
    ⟨hTracks, hFollows⟩
  rw [hRun] at hTracks
  have hWhole := hTracks.whole
  rw [hTop] at hWhole
  rcases hWhole trivial with ⟨hPending, hServed⟩
  have hNoted := hTracks.noted.trans hStamp
  rcases hServed hOk (by rw [hNoted]; simp) with
    ⟨text, hText, hFrom⟩
  rw [← hTracks.current] at hNoted
  refine ⟨text, ?_, hFrom⟩
  rw [hFollows.held hPending hNoted _ hText, hTracks.current]

/- An upgrade that no stamp was taken after is noticed. -/
theorem run_noticed
    (config : Config)
    (host : Host)
    (file : Shipped)
    (before : List (Happening κ))
    (upgraded : Shipped)
    (after : List (Happening κ))
    (hNone : Along (Keeper.happen out)
      (fun s h => ¬ s.Stamps h)
      (run (Keeper.happen out)
        (Keeper.start out config host file)
        (before ++ [.replace upgraded])) after)
    {s : Keeper}
    (hRun : run (Keeper.happen out)
      (Keeper.start out config host file)
        (before ++ [.replace upgraded] ++ after) = s)
    (hTop : s.stage = .top) :
    NextRefreshes κ out s (stampsUsed file
      (before ++ [.replace upgraded] ++ after)) := by
  intro later hLater hQuiet told hAwake
  have hUsed : stampsUsed file
      (before ++ [.replace upgraded] ++ after) ++
        later.flatMap Happening.stamps =
      stampsUsed file
        (before ++ [.replace upgraded] ++ (after ++ later)) := by
    unfold stampsUsed
    rw [List.append_assoc, ← List.flatMap_append,
      List.append_assoc _ after later]
  have hIdle : s.stage.Idle := by
    rw [hTop]
    trivial
  rw [run_append] at hRun
  have hStamps : Along (Keeper.happen out)
      (fun s h => ¬ s.Stamps h)
      (run (Keeper.happen out)
        (Keeper.start out config host file)
        (before ++ [.replace upgraded])) (after ++ later) := by
    rw [along_append, hRun]
    exact ⟨hNone, along_idle out hIdle hQuiet⟩
  rw [hUsed] at hLater
  rcases run_tracks out config host file hLater with
    ⟨hTracks, hFollows⟩
  have hBehind := follower_behind out (f := { current := file })
    before upgraded hStamps
  have hOther := hFollows.behind hBehind
  rw [run_append, run_append _ _ after later, hRun] at hTracks
  rw [hTracks.noted, hTracks.current] at hOther
  exact check_refreshes out hAwake hOther.symm

/-
  Whenever the shipped bundle is replaced: at the top of the
  loop, in good health and with the stamp that was kept still
  the bundle's, what is served was composed from the bundle as
  it is. An upgrade that landed with no stamp taken after it
  makes the next wake-up refresh.
-/
theorem upgrades_followed
    (config : Config)
    (host : Host)
    (file : Shipped)
    (happenings : List (Happening κ))
    (hFresh : (stampsUsed file happenings).Nodup)
    (hTop : (run (Keeper.happen out)
      (Keeper.start out config host file)
      happenings).stage = .top) :
    let s := run (Keeper.happen out)
      (Keeper.start out config host file) happenings
    (s.world.daemon.health = .ok →
      s.world.daemon.bundleStamp = some s.file.tag →
        ∃ text, s.file.value = .ok text ∧
          ServedFrom out s.world text) ∧
    ∀ before upgraded after,
      happenings = before ++ [.replace upgraded] ++ after →
      Along (Keeper.happen out) (fun s h => ¬ s.Stamps h)
        (run (Keeper.happen out)
          (Keeper.start out config host file)
          (before ++ [.replace upgraded])) after →
      NextRefreshes κ out s (stampsUsed file happenings) := by
  refine ⟨run_current out config host file hFresh rfl hTop, ?_⟩
  rintro before upgraded after rfl hNone
  exact run_noticed out config host file before upgraded after
    hNone rfl hTop

end

/- A bundle that is replaced by one that is broken. -/
def soundFile : Shipped where
  tag := (100, 1)
  value := .ok purposeBundle

def brokenFile : Shipped where
  tag := (3, 2)
  value := .ok "no!".toList

/- An upgrade between the stamp and the read. -/
def upgradedBetween : List (Happening Key) :=
  [.load offEnv, .stamp, .replace brokenFile,
    .read offEnv none]

theorem upgrade_after_stamp :
    let s := run (Keeper.happen purposeOutside)
      (Keeper.start purposeOutside {} sampleHost soundFile)
      upgradedBetween
    (s.world.daemon.health = .ok →
      s.world.daemon.bundleStamp = some s.file.tag →
        ∃ text, s.file.value = .ok text ∧
          ServedFrom purposeOutside s.world text) ∧
    NextRefreshes Key purposeOutside s
      (stampsUsed soundFile upgradedBetween) := by
  have hFollowed := upgrades_followed purposeOutside {}
    sampleHost soundFile upgradedBetween (by decide)
    (by decide +kernel)
  exact ⟨hFollowed.1, hFollowed.2 [.load offEnv, .stamp]
    brokenFile [.read offEnv none] rfl ⟨id, trivial⟩⟩

/- A refresh that a signal asked for, with an upgrade in it. -/
def upgradedEarly : List (Happening Key) :=
  [.wake true, .check, .load offEnv, .replace brokenFile,
    .stamp, .read offEnv none]

/-
  An upgrade that lands before the stamp of a refresh is the
  one that the refresh reads. Where that fails, the next
  wake-up has nothing to refresh for.
-/
theorem upgrade_before_stamp :
    let started := run (Keeper.happen purposeOutside)
      (Keeper.start purposeOutside {} sampleHost soundFile)
      [.load offEnv, .stamp, .read offEnv none]
    let s := run (Keeper.happen purposeOutside) started
      upgradedEarly
    (stampsUsed soundFile upgradedEarly).Nodup ∧
    started.world.daemon.health = .ok ∧
    s.stage = .top ∧
    s.world.daemon.health = .degraded ∧
    (run (Keeper.happen purposeOutside) s
      [.wake false, (.check : Happening Key)]).stage =
        .top :=
  ⟨by decide, by decide +kernel, by decide +kernel,
    by decide +kernel, by decide +kernel⟩

end Daemon

end Trustd
