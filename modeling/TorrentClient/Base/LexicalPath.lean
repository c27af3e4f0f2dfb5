import Mathlib.Data.List.Infix
import Mathlib.Tactic.Common

/-!
# Paths, segment by segment

A directory is the list of the names that lead to it, the last one in front. A route
leaves some directories and enters others; every walk is one route, whatever directory
it starts in, so where it ends can be told without the start.
-/

namespace TorrentClient

variable {α : Type}

inductive Segment (α : Type) where
  | stay
  | up
  | down (name : α)
  deriving DecidableEq, Repr

/-- Where a segment leads. Above the root is the root. -/
def Segment.walk (dir : List α) : Segment α → List α
  | stay => dir
  | up => dir.tail
  | down name => name :: dir

/-- Directories to leave, and then names to enter, the last one in front. -/
structure Route (α : Type) where
  climbs : Nat
  names : List α
  deriving DecidableEq, Repr

namespace Route

def follow (r : Route α) (dir : List α) : List α := r.names ++ dir.drop r.climbs

/-- A name that is entered is left again before one more directory is. -/
def extend : Route α → Segment α → Route α
  | r, .stay => r
  | ⟨climbs, []⟩, .up => ⟨climbs + 1, []⟩
  | ⟨climbs, _ :: names⟩, .up => ⟨climbs, names⟩
  | ⟨climbs, names⟩, .down name => ⟨climbs, name :: names⟩

/-- The route of a walk. -/
def of (segments : List (Segment α)) : Route α := segments.foldl extend ⟨0, []⟩

theorem follow_extend (r : Route α) (segment : Segment α) (dir : List α) :
    (r.extend segment).follow dir = segment.walk (r.follow dir) := by
  obtain ⟨climbs, names⟩ := r
  cases segment with
  | stay => rfl
  | down name => rfl
  | up =>
    cases names with
    | nil => exact List.tail_drop.symm
    | cons name names => rfl

theorem foldl_follow (segments : List (Segment α)) (dir : List α) : ∀ r : Route α,
    segments.foldl Segment.walk (r.follow dir) = (segments.foldl extend r).follow dir := by
  induction segments with
  | nil => exact fun r => rfl
  | cons segment segments ih =>
    intro r
    rw [List.foldl_cons, List.foldl_cons, ← follow_extend, ih]

/-- **A walk follows its route**, from every directory. -/
theorem walk_eq (segments : List (Segment α)) (dir : List α) :
    segments.foldl Segment.walk dir = (of segments).follow dir :=
  foldl_follow segments dir ⟨0, []⟩

end Route

/-- Strictly inside a directory, at whatever depth. -/
def Below (base dir : List α) : Prop := base <:+ dir ∧ base.length < dir.length

/-- The directories that are left are entered again, and more behind them. -/
def Route.Returns (base : List α) (r : Route α) : Prop :=
  base.take r.climbs <:+ r.names ∧ (base.take r.climbs).length < r.names.length

instance [DecidableEq α] (base dir : List α) : Decidable (Below base dir) :=
  inferInstanceAs (Decidable (_ ∧ _))

instance [DecidableEq α] (base : List α) (r : Route α) : Decidable (r.Returns base) :=
  inferInstanceAs (Decidable (_ ∧ _))

/-- **When a walk from a directory ends inside it.** -/
theorem Route.below_follow_iff (r : Route α) (base : List α) :
    Below base (r.follow base) ↔ r.Returns base := by
  have split : base.take r.climbs ++ base.drop r.climbs = base := List.take_append_drop _ _
  have length := congrArg List.length split
  rw [List.length_append] at length
  unfold Below Returns follow
  rw [List.length_append]
  apply and_congr
  · calc base <:+ r.names ++ base.drop r.climbs
      _ ↔ base.take r.climbs ++ base.drop r.climbs <:+ r.names ++ base.drop r.climbs := by
        rw [split]
      _ ↔ base.take r.climbs <:+ r.names := List.suffix_append_self_iff
  · omega

end TorrentClient
