import Trustd.General.Runs

/-
  Something that is only ever replaced as a whole, each time
  under a tag of its own, and a follower that notes the tag
  before it fetches the value.

  The tag and the value are two accesses, and the thing may be
  replaced between them. A follower that has fetched since it
  noted, and sees the tag it noted, holds the current value.

  Key definitions include:
    * `General.Revision`
    * `General.Follower`
    * `General.Follower.move`
    * `General.Follows`

  Key theorems include:
    * `General.move_follows`
    * `General.run_follows`
    * `General.run_behind`
-/

------------------------------------------------------------
-- Followers
------------------------------------------------------------

namespace General

variable {τ α : Type}

structure Revision (τ α : Type) where
  tag : τ
  value : α
deriving DecidableEq, Repr

/-
  What there is, and what is known of it. Between the two
  accesses the fetch is pending; the follower is behind if
  there was a replacement since the tag was noted.
-/
structure Follower (τ α : Type) where
  current : Revision τ α
  noted : Option τ := none
  held : Option α := none
  pending : Bool := false
  behind : Bool := false

inductive Move (τ α : Type) where
  | replace (revision : Revision τ α)
  | note
  | fetch
  | drop

def Follower.move (f : Follower τ α) :
    Move τ α → Follower τ α
  | .replace revision =>
      { f with
        current := revision
        behind := true }
  | .note =>
      { f with
        noted := some f.current.tag
        pending := true
        behind := false }
  | .fetch =>
      { f with
        held := some f.current.value
        pending := false }
  | .drop =>
      { f with
        held := none
        pending := false }

/- The tags that come into use. -/
def Move.tags : Move τ α → List τ
  | .replace revision => [revision.tag]
  | _ => []

/- What holds while no tag is used twice. -/
structure Follows (used : List τ) (f : Follower τ α) :
    Prop where
  current : f.current.tag ∈ used
  noted : ∀ t, f.noted = some t → t ∈ used
  held : f.pending = false →
    f.noted = some f.current.tag →
      ∀ v, f.held = some v → v = f.current.value
  behind : f.behind = true → f.noted ≠ some f.current.tag

end General

------------------------------------------------------------
-- What A Follower Holds
------------------------------------------------------------

namespace General

variable {τ α : Type}

theorem move_follows
    {used : List τ}
    {f : Follower τ α}
    (hFollows : Follows used f)
    {m : Move τ α}
    (hFresh : ∀ t ∈ m.tags, t ∉ used) :
    Follows (used ++ m.tags) (f.move m) := by
  cases m with
  | replace revision =>
      have hNew : revision.tag ∉ used :=
        hFresh _ (List.mem_singleton_self _)
      have hOther : f.noted ≠ some revision.tag :=
        fun hNoted => hNew (hFollows.noted _ hNoted)
      exact {
        current := List.mem_append_right _
          (List.mem_singleton_self _)
        noted := fun t hNoted => List.mem_append_left _
          (hFollows.noted t hNoted)
        held := fun _ hNoted => absurd hNoted hOther
        behind := fun _ => hOther }
  | note =>
      change Follows (used ++ []) _
      rw [List.append_nil]
      exact {
        current := hFollows.current
        noted := by
          rintro t ⟨rfl⟩
          exact hFollows.current
        held := fun hPending => by cases hPending
        behind := fun hBehind => by cases hBehind }
  | fetch =>
      change Follows (used ++ []) _
      rw [List.append_nil]
      exact {
        current := hFollows.current
        noted := hFollows.noted
        held := by
          rintro - - v ⟨rfl⟩
          rfl
        behind := hFollows.behind }
  | drop =>
      change Follows (used ++ []) _
      rw [List.append_nil]
      exact {
        current := hFollows.current
        noted := hFollows.noted
        held := fun _ _ v hHeld => by cases hHeld
        behind := hFollows.behind }

/- Along a run that brings in only tags that are new. -/
theorem run_follows
    {used : List τ}
    {f : Follower τ α}
    (hFollows : Follows used f)
    {moves : List (Move τ α)}
    (hFresh : (used ++ moves.flatMap Move.tags).Nodup) :
    Follows (used ++ moves.flatMap Move.tags)
      (run Follower.move f moves) := by
  induction moves generalizing used f with
  | nil => simpa using hFollows
  | cons m rest ih =>
      rw [List.flatMap_cons, ← List.append_assoc] at hFresh ⊢
      have hNew : ∀ t ∈ m.tags, t ∉ used := by
        intro t hTag hUsed
        have hApart := (List.nodup_append.mp
          (List.nodup_append.mp hFresh).1).2.2
        exact hApart t hUsed t hTag rfl
      exact ih (move_follows hFollows hNew) hFresh

/- A follower that knows nothing yet. -/
theorem follows_start (revision : Revision τ α) :
    Follows [revision.tag]
      ({ current := revision } : Follower τ α) where
  current := List.mem_singleton_self _
  noted t hNoted := by cases hNoted
  held _ hNoted := by cases hNoted
  behind hBehind := by cases hBehind

/- Who is behind stays so until the next tag is noted. -/
theorem run_behind
    {f : Follower τ α}
    (hBehind : f.behind = true)
    {moves : List (Move τ α)}
    (hNone : Move.note ∉ moves) :
    (run Follower.move f moves).behind = true := by
  induction moves generalizing f with
  | nil => exact hBehind
  | cons m rest ih =>
      rw [List.mem_cons, not_or] at hNone
      apply ih _ hNone.2
      cases m with
      | note => exact absurd rfl hNone.1
      | replace revision => rfl
      | fetch => exact hBehind
      | drop => exact hBehind

end General
