import Trustd.Client.Registry
import Trustd.Library.Inputs

/-
  Results of the C interface, from the call that makes one to
  the call that frees it.

  A result owns its arena. Looking at a result that is not
  live, or freeing one twice, has no outcome here.

  Key definitions include:
    * `Trustd.Results.Failure`
    * `Trustd.Results.Value`
    * `Trustd.Results.finish`
    * `Trustd.Results.free`
    * `Trustd.Results.Session`

  Key theorems include:
    * `Trustd.Results.finish_builds`
    * `Trustd.Results.Made.free`
    * `Trustd.Results.session_sound`
-/

------------------------------------------------------------
-- Failures
------------------------------------------------------------

namespace Trustd

namespace ClientCore

/- What an error prints. -/
def Error.text : Error → Text
  | .denied what =>
      "not permitted to change ".toList ++ what ++
        (" — changing what this machine trusts is governed " ++
          "by that key's descriptor").toList
  | .notFound why => why
  | .failed why => why

end ClientCore

namespace Results

open General

/- `FAILURE_NONE` to `FAILURE_NO_CERTIFICATE`. -/
def failureNone : Nat := 0

def failureOther : Nat := 1

def failureDenied : Nat := 2

def failureNotFound : Nat := 3

def failureMalformed : Nat := 4

def failureNotACa : Nat := 5

def failureExpired : Nat := 6

def failureNoCertificate : Nat := 7

/-
  An `io::Error`, and the kind of failure that a `Kinded`
  inside it gives.
-/
structure Failure where
  error : IoError
  kinded : Option Nat := none
deriving DecidableEq, Repr

/- `kinded`. -/
def kinded
    (kind : ErrorKind)
    (failure : Nat)
    (message : Text) :
    Failure :=
  { error :=
      { kind
        rawOsError := none
        text := message }
    kinded := some failure }

/- The kind of failure a refused certificate is. -/
def certFailure : Cert.Error → Nat
  | .malformed _ => failureMalformed
  | .notACa => failureNotACa
  | .expired => failureExpired
  | .noCertificate => failureNoCertificate

/- `cert_error`. -/
def certError (error : Cert.Error) : Failure :=
  kinded .invalidData (certFailure error) error.text

/- `management_error`. -/
def managementError (error : ClientCore.Error) : Failure :=
  match error with
  | .denied _ =>
      kinded .permissionDenied failureDenied error.text
  | .notFound _ =>
      kinded .notFound failureNotFound error.text
  | .failed _ => kinded .other failureOther error.text

def etimedout : Nat := 110

def eacces : Nat := 13

def enotconn : Nat := 107

def enoent : Nat := 2

def eio : Nat := 5

/- The code of an error that has none of its own. -/
def codeOf : ErrorKind → Nat
  | .invalidInput => Decode.einval
  | .invalidData => Decode.einval
  | .timedOut => etimedout
  | .permissionDenied => eacces
  | .notConnected => enotconn
  | .notFound => enoent
  | _ => eio

/- The code a failure is reported with. -/
def Failure.code (failure : Failure) : Nat :=
  failure.error.rawOsError.getD (codeOf failure.error.kind)

/- The kind it is reported with. -/
def Failure.number (failure : Failure) : Nat :=
  match failure.kinded with
  | some number => number
  | none =>
      match failure.error.kind with
      | .permissionDenied => failureDenied
      | .notFound => failureNotFound
      | _ => failureOther

end Results

end Trustd

------------------------------------------------------------
-- Results
------------------------------------------------------------

namespace Trustd

namespace Results

open General

/- What a call that succeeds has to say. -/
inductive Value where
  | empty
  | text (value : Option Text)
  | bytes (value : Bytes)
  | boolean (value : Bool)
  | rootList (generation : Nat) (roots : List Wire.Root)
  | status (value : Wire.Status)
  | parsed (value : Cert.Parsed)
  | details (value : Cert.Details)
  | distrustedList (values : List ClientCore.Distrusted)
  | byteList (values : List Bytes)
deriving DecidableEq

/- What a call came to. -/
abbrev Outcome : Type :=
  Except Failure Value

variable (A : Allocator)

/- The payload of a result, placed in its arena. -/
def place : Value → Filling Abi.Block Abi.Payload
  | .empty => pure .empty
  | .text value => do
      return .text (← Views.maybeText A value)
  | .bytes value => do
      return .bytes (← Views.bytes A value)
  | .boolean value => return .boolean value.toNat
  | .rootList _ roots => do
      return .rootList (← Views.rootList A roots)
  | .status value => do
      return .status (← Views.status A value)
  | .parsed value => do
      return .parsed (← Views.parsed A value)
  | .details value => do
      return .details (← Views.details A value)
  | .distrustedList values => do
      return .distrustedList (← Views.distrustedList A values)
  | .byteList values => do
      return .byteList (← Views.byteList A values)

/- The generation of a result: zero but for roots. -/
def Value.generation : Value → Nat
  | .rootList generation _ => generation
  | _ => 0

/- A result of a value. -/
def ok (value : Value) :
    Filling Abi.Block Abi.ResultHandle := do
  let payload ← place A value
  return { generation := value.generation, payload }

/- `ResultHandle::error`. -/
def error (failure : Failure) :
    Filling Abi.Block Abi.ResultHandle := do
  let message ← Views.text A failure.error.text
  return {
    error := failure.code
    failure := failure.number
    message }

/- `Box::into_raw`, of a result and its arena. -/
def box (handle : Abi.ResultHandle) :
    Filling Abi.Block Nat :=
  fun r => r.alloc A (.result { handle with arena := r.owned })

/- `finish`. -/
def finish (outcome : Outcome) :
    Filling Abi.Block Nat := do
  let handle ←
    match outcome with
    | .ok value => ok A value
    | .error failure => error A failure
  box A handle

/-
  `as_ref`: nothing of the null address, and no outcome where
  no result is live.
-/
def asRef
    (result : Nat)
    (heap : Heap Abi.Block) :
    Option (Option Abi.ResultHandle) :=
  if result = 0 then some none
  else
    match heap.read result with
    | some (.result handle) => some (some handle)
    | _ => none

/- `peios_trust_result_error`. -/
def resultError
    (result : Nat)
    (heap : Heap Abi.Block) :
    Option Nat :=
  (asRef result heap).map (fun handle =>
    handle.elim Decode.einval Abi.ResultHandle.error)

/- `peios_trust_result_failure`. -/
def resultFailure
    (result : Nat)
    (heap : Heap Abi.Block) :
    Option Nat :=
  (asRef result heap).map (fun handle =>
    handle.elim failureOther Abi.ResultHandle.failure)

/- `peios_trust_result_message`. -/
def resultMessage
    (result : Nat)
    (heap : Heap Abi.Block) :
    Option Abi.Bytes :=
  (asRef result heap).map (fun handle =>
    handle.elim Abi.absent Abi.ResultHandle.message)

/- `peios_trust_result_generation`. -/
def resultGeneration
    (result : Nat)
    (heap : Heap Abi.Block) :
    Option Nat :=
  (asRef result heap).map (fun handle =>
    handle.elim 0 Abi.ResultHandle.generation)

/-
  The payload that `peios_trust_result_text` and its like tell
  apart: the view where it is of their kind, and null where
  it is of another.
-/
def resultPayload
    (result : Nat)
    (heap : Heap Abi.Block) :
    Option Abi.Payload :=
  (asRef result heap).map (fun handle =>
    handle.elim .empty Abi.ResultHandle.payload)

/-
  `peios_trust_result_free`: everything of the arena, and the
  result itself.
-/
def free
    (result : Nat)
    (heap : Heap Abi.Block) :
    Option (Heap Abi.Block) :=
  if result = 0 then some heap
  else
    match heap.read result with
    | some (.result handle) =>
        if handle.arena.all (fun a => (heap.read a).isSome) then
          some ((heap.freeAll handle.arena).free result)
        else none
    | _ => none

end Results

end Trustd

------------------------------------------------------------
-- One Result
------------------------------------------------------------

namespace Trustd

namespace Results

open General

/- `peios_trust_result_text`, of a payload. -/
def textView : Abi.Payload → Option Abi.Bytes
  | .text view => some view
  | _ => none

def bytesView : Abi.Payload → Option Abi.Bytes
  | .bytes view => some view
  | _ => none

def booleanView : Abi.Payload → Option Nat
  | .boolean view => some view
  | _ => none

def rootListView : Abi.Payload → Option Abi.RootList
  | .rootList view => some view
  | _ => none

def statusView : Abi.Payload → Option Abi.Status
  | .status view => some view
  | _ => none

def parsedView : Abi.Payload → Option Abi.Parsed
  | .parsed view => some view
  | _ => none

def detailsView : Abi.Payload → Option Abi.Details
  | .details view => some view
  | _ => none

def distrustedListView :
    Abi.Payload → Option Abi.DistrustedList
  | .distrustedList view => some view
  | _ => none

def byteListView : Abi.Payload → Option Abi.Strings
  | .byteList view => some view
  | _ => none

/- Everything a payload says, by the view it has. -/
def copy (generation : Nat) :
    Abi.Payload → Decode.Copy Value
  | .empty => pure .empty
  | .text view => do return .text (← Decode.maybeText view)
  | .bytes view => do return .bytes (← Decode.bytes view)
  | .boolean view => pure (.boolean (decide (view ≠ 0)))
  | .rootList view => do
      return .rootList generation (← Decode.rootList view)
  | .status view => do return .status (← Decode.status view)
  | .parsed view => do return .parsed (← Decode.parsed view)
  | .details view => do
      return .details (← Decode.details view)
  | .distrustedList view => do
      return .distrustedList (← Decode.distrustedList view)
  | .byteList view => do
      return .byteList (← Decode.byteList view)

end Results

end Trustd

------------------------------------------------------------
-- What A Result Says
------------------------------------------------------------

namespace Trustd

namespace Results

open General

variable (A : Allocator)

/- A payload is copied as it was placed. -/
theorem place_builds (value : Value) :
    Builds (place A value) (fun payload heap =>
      copy value.generation payload heap =
        some (.ok value)) := by
  cases value with
  | empty => exact Builds.pure (fun heap => rfl)
  | text value =>
      apply Builds.bind (Views.maybeText_builds A value)
      intro view
      apply Builds.pure
      intro heap hView
      rw [copy, Reading.bind_ok hView]
      rfl
  | bytes value =>
      apply Builds.bind (Views.bytes_builds A value)
      intro view
      apply Builds.pure
      intro heap hView
      rw [copy, Reading.bind_ok hView.2]
      rfl
  | boolean value =>
      apply Builds.pure
      intro heap
      cases value <;> rfl
  | rootList generation roots =>
      apply Builds.bind (Views.rootList_builds A roots)
      intro view
      apply Builds.pure
      intro heap hView
      rw [copy, Reading.bind_ok hView]
      rfl
  | status value =>
      apply Builds.bind (Views.status_builds A value)
      intro view
      apply Builds.pure
      intro heap hView
      rw [copy, Reading.bind_ok hView]
      rfl
  | parsed value =>
      apply Builds.bind (Views.parsed_builds A value)
      intro view
      apply Builds.pure
      intro heap hView
      rw [copy, Reading.bind_ok hView]
      rfl
  | details value =>
      apply Builds.bind (Views.details_builds A value)
      intro view
      apply Builds.pure
      intro heap hView
      rw [copy, Reading.bind_ok hView]
      rfl
  | distrustedList values =>
      apply Builds.bind (Views.distrustedList_builds A values)
      intro view
      apply Builds.pure
      intro heap hView
      rw [copy, Reading.bind_ok hView]
      rfl
  | byteList values =>
      apply Builds.bind (Views.byteList_builds A values)
      intro view
      apply Builds.pure
      intro heap hView
      rw [copy, Reading.bind_ok hView]
      rfl

/- What a handle says of the call that made it. -/
def Says
    (outcome : Outcome)
    (handle : Abi.ResultHandle)
    (heap : Heap Abi.Block) :
    Prop :=
  match outcome with
  | .ok value =>
      handle.error = 0 ∧ handle.failure = failureNone ∧
      handle.generation = value.generation ∧
      copy handle.generation handle.payload heap =
        some (.ok value)
  | .error failure =>
      handle.error = failure.code ∧
      handle.failure = failure.number ∧
      handle.payload = .empty ∧
      Decode.text handle.message heap =
        some (.ok failure.error.text)

/- The result of a call, before it is boxed. -/
def made (outcome : Outcome) :
    Filling Abi.Block Abi.ResultHandle :=
  match outcome with
  | .ok value => ok A value
  | .error failure => error A failure

theorem finish_eq (outcome : Outcome) :
    finish A outcome = made A outcome >>= box A := by
  cases outcome <;> rfl

theorem made_builds (outcome : Outcome) :
    Builds (made A outcome) (Says outcome) := by
  cases outcome with
  | ok value =>
      apply Builds.bind (place_builds A value)
      intro payload
      apply Builds.pure
      intro heap hPayload
      exact ⟨rfl, rfl, rfl, hPayload⟩
  | error failure =>
      apply Builds.bind
        (Views.text_builds A failure.error.text)
      intro message
      apply Builds.pure
      intro heap hMessage
      exact ⟨rfl, rfl, rfl, hMessage.2⟩

theorem box_read
    (handle : Abi.ResultHandle)
    (r : Region Abi.Block) :
    (box A handle r).2.heap.read (box A handle r).1 =
      some (.result { handle with arena := r.owned }) :=
  Heap.read_alloc_self A r.heap _

/- A result that is live, and what is to be had from it. -/
def Reads
    (outcome : Outcome)
    (result : Nat)
    (heap : Heap Abi.Block) :
    Prop :=
  result ≠ 0 ∧
  ∃ handle, heap.read result = some (.result handle) ∧
    Says outcome handle heap

theorem finish_builds (outcome : Outcome) :
    Builds (finish A outcome) (Reads outcome) := by
  rw [finish_eq]
  apply Builds.bind (made_builds A outcome)
  intro handle r
  refine ⟨Region.grows_alloc A _ r, ?_⟩
  intro heap hHeld hSays
  refine ⟨A.fresh_ne_null _,
    { handle with arena := r.owned }, ?_, ?_⟩
  · rw [hHeld (box A handle r).1
      (by simp [box, Region.alloc])]
    exact box_read A handle r
  · cases outcome <;> exact hSays

/- The region in which a result was made. -/
def Made
    (r : Region Abi.Block)
    (result : Nat)
    (outcome : Outcome) :
    Prop :=
  ∃ before, finish A outcome (Region.start before) =
    (result, r)

theorem Made.reads
    {r : Region Abi.Block}
    {result : Nat}
    {outcome : Outcome}
    (hMade : Made A r result outcome)
    {heap : Heap Abi.Block}
    (hHeld : r.Held heap) :
    Reads outcome result heap := by
  rcases hMade with ⟨before, hFinish⟩
  have hBuilds := finish_builds A outcome (Region.start before)
  rw [hFinish] at hBuilds
  exact hBuilds.2 heap hHeld

/- A result is at the last address its region is given. -/
theorem Made.parts
    {r : Region Abi.Block}
    {result : Nat}
    {outcome : Outcome}
    (hMade : Made A r result outcome) :
    ∃ handle : Abi.ResultHandle,
      r.owned = handle.arena ++ [result] ∧
        r.heap.read result = some (.result handle) := by
  rcases hMade with ⟨before, hFinish⟩
  rw [finish_eq, Filling.bind_apply] at hFinish
  generalize made A outcome (Region.start before) =
    first at hFinish
  cases hFinish
  exact ⟨{ first.1 with arena := first.2.owned }, rfl,
    box_read A first.1 first.2⟩

theorem Made.mem_owned
    {r : Region Abi.Block}
    {result : Nat}
    {outcome : Outcome}
    (hMade : Made A r result outcome) :
    result ∈ r.owned := by
  rcases hMade.parts with ⟨handle, hOwned, -⟩
  simp [hOwned]

/- To free a result is to free what its region owns. -/
theorem Made.free
    {r : Region Abi.Block}
    {result : Nat}
    {outcome : Outcome}
    (hMade : Made A r result outcome)
    {heap : Heap Abi.Block}
    (hHeld : r.Held heap) :
    free result heap = some (heap.freeAll r.owned) := by
  rcases hMade.parts with ⟨handle, hOwned, hRead⟩
  have hHere := hHeld result (by simp [hOwned])
  rw [hRead] at hHere
  unfold Results.free
  rw [if_neg (Heap.ne_null_of_read hHere), hHere]
  simp only
  rw [if_pos, hOwned, Heap.freeAll_append]
  · rfl
  · rw [List.all_eq_true]
    intro a hMem
    have hAll : a ∈ r.owned := by
      rw [hOwned]
      exact List.mem_append_left _ hMem
    rw [hHeld a hAll]
    exact Option.isSome_iff_ne_none.mpr (r.owned_live a hAll)

end Results

end Trustd

------------------------------------------------------------
-- Many Results
------------------------------------------------------------

namespace Trustd

namespace Results

open General

/- A program that uses the library, and its live results. -/
structure Session where
  heap : Heap Abi.Block
  live : List (Nat × Outcome)

/- A call that is made, or a live result that is freed. -/
inductive Event where
  | call (outcome : Outcome)
  | free (i : Nat)

variable (A : Allocator)

/- There is no session left where memory is misused. -/
def Session.step
    (s : Session) :
    Event → Option Session
  | .call outcome =>
      let made := finish A outcome (Region.start s.heap)
      some {
        heap := made.2.heap
        live := (made.1, outcome) :: s.live }
  | .free i =>
      match s.live[i]? with
      | none => some s
      | some result =>
          (free result.1 s.heap).map (fun heap =>
            { heap
              live := s.live.eraseIdx i })

def Session.run
    (s : Session)
    (events : List Event) :
    Option Session :=
  events.foldlM (Session.step A) s

/- The live results are of regions side by side. -/
def Sound
    (base : Heap Abi.Block)
    (s : Session) :
    Prop :=
  ∃ rs, Region.SideBySide base s.heap rs ∧
    List.Forall₂ (fun r e => Made A r e.1 e.2) rs s.live

theorem Sound.call
    {base : Heap Abi.Block}
    {s : Session}
    (hSound : Sound A base s)
    (outcome : Outcome) :
    ∃ s', s.step A (.call outcome) = some s' ∧
      Sound A base s' := by
  rcases hSound with ⟨rs, hSide, hMade⟩
  refine ⟨_, rfl, _ :: rs, hSide.enter ?_,
    List.Forall₂.cons ⟨s.heap, rfl⟩ hMade⟩
  exact (finish_builds A outcome (Region.start s.heap)).1

theorem Sound.free
    {base : Heap Abi.Block}
    {s : Session}
    (hSound : Sound A base s)
    (i : Nat) :
    ∃ s', s.step A (.free i) = some s' ∧
      Sound A base s' := by
  rcases hSound with ⟨rs, hSide, hMade⟩
  rcases hLive : s.live[i]? with _ | ⟨result, outcome⟩
  · refine ⟨s, ?_, rs, hSide, hMade⟩
    rw [Session.step, hLive]
  · rcases List.getElem?_eq_some_iff.mp hLive with
      ⟨hLt, hGet⟩
    have hParts : s.live = s.live.take i ++
        (result, outcome) :: s.live.drop (i + 1) := by
      rw [← hGet, List.getElem_cons_drop,
        List.take_append_drop]
    rw [hParts] at hMade
    have hBefore := List.forall₂_take_append rs _ _ hMade
    rcases List.forall₂_cons_right_iff.mp
        (List.forall₂_drop_append rs _ _ hMade) with
      ⟨r, after, hHere, hAfter, hDrop⟩
    have hRegions := List.take_append_drop
      (s.live.take i).length rs
    rw [hDrop] at hRegions
    rw [← hRegions] at hSide
    refine ⟨{ heap := s.heap.freeAll r.owned
              live := s.live.eraseIdx i }, ?_,
      _, hSide.leave, ?_⟩
    · rw [Session.step, hLive]
      simp only
      rw [hHere.free A (hSide.held r (by simp))]
      rfl
    · rw [List.eraseIdx_eq_take_drop_succ]
      exact List.rel_append hBefore hAfter

/- What is so in every session that can be reached. -/
theorem Sound.run
    {base : Heap Abi.Block}
    {s : Session}
    (hSound : Sound A base s)
    (events : List Event) :
    ∃ s', s.run A events = some s' ∧ Sound A base s' := by
  induction events generalizing s with
  | nil => exact ⟨s, rfl, hSound⟩
  | cons event rest ih =>
      have hStep : ∃ s', s.step A event = some s' ∧
          Sound A base s' := by
        cases event with
        | call outcome => exact hSound.call A outcome
        | free i => exact hSound.free A i
      rcases hStep with ⟨next, hNext, hThen⟩
      rcases ih hThen with ⟨last, hLast, hSound⟩
      refine ⟨last, ?_, hSound⟩
      rw [Session.run, List.foldlM_cons, hNext]
      exact hLast

/-
  However calls and frees follow each other, memory is never
  misused; every live result says what its call came to; what
  was there before is untouched; and once no result is live
  nothing is left of the library.
-/
theorem session_sound
    (base : Heap Abi.Block)
    (events : List Event) :
    ∃ s, Session.run A ⟨base, []⟩ events = some s ∧
      (∀ e ∈ s.live, Reads e.2 e.1 s.heap) ∧
      (s.live.map Prod.fst).Nodup ∧
      (∀ address block, base.read address = some block →
        s.heap.read address = some block) ∧
      (s.live = [] → s.heap = base) := by
  have hStart : Sound A base ⟨base, []⟩ :=
    ⟨[], Region.sideBySide_nil base, List.Forall₂.nil⟩
  rcases hStart.run A events with ⟨s, hRun, rs, hSide, hMade⟩
  refine ⟨s, hRun, ?_, ?_, ?_, ?_⟩
  · intro e hMem
    rcases Region.exists_of_forall₂ hMade hMem with
      ⟨r, hRegion, hHere⟩
    exact hHere.reads A (hSide.held r hRegion)
  · apply Region.nodup_of_owned hSide.apart
    rw [List.forall₂_map_right_iff]
    exact hMade.imp (fun r e hHere => hHere.mem_owned)
  · intro address block hRead
    exact hSide.read_base hRead
  · intro hNone
    rw [hNone] at hMade
    cases hMade
    exact hSide.rest

end Results

end Trustd
