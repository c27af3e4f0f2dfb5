import Mathlib.Data.List.Range
import Mathlib.Order.Basic
import Mathlib.Tactic.Common
import Mathlib.Tactic.Order

/-!
# Bisection of a chain of ranges

A row of ranges from `lo i` to `hi i` is a chain when each starts no earlier than
the one before it ends, so that neighbours may share an end. `bisect` halves an
interval of the row, keeps the middle in either half, and so does not end when it
goes right from the last two places.

* `bisect_found`: it ends at a range with the value, when the interval has one;
* `bisect_eq_none_iff`: when no gap lies between neighbours, in order or not, it does not
  end when the value is behind all the ranges it comes to on the way to the right;
* `sweep_filter`: from where it ends, back over the ranges that start at the value
  and then ahead over those that do, all ranges with the value are passed once.
-/

namespace TorrentClient.Bisect

variable {κ : Type} [LinearOrder κ]

/-- What the halving from `start` up to `stop` ends at, `none` when it does not end. -/
def bisect (lo hi : Nat → κ) (value : κ) (start stop : Nat) : Option Nat :=
  let middle := (stop + start) / 2
  if hi middle < value then
    if stop - middle < stop - start then bisect lo hi value middle stop else none
  else if value < lo middle then
    if middle - start < stop - start then bisect lo hi value start middle else none
  else some middle
termination_by stop - start

/-- The places the halving comes to as long as it goes right. -/
def spine (start stop : Nat) : List Nat :=
  let middle := (stop + start) / 2
  middle :: if stop - middle < stop - start then spine middle stop else []
termination_by stop - start

/-- Back to the first place of the row, or the first that does not meet `p`. -/
def walkBack (p : Nat → Bool) : Nat → Nat
  | 0 => 0
  | i + 1 => if p (i + 1) then walkBack p i else i + 1

/-- A place, and those behind it as long as they meet `p`. -/
def sweep (p : Nat → Bool) (n i : Nat) : List Nat :=
  i :: if i + 1 < n ∧ p (i + 1) then sweep p n (i + 1) else []
termination_by n - i

structure Chain (lo hi : Nat → κ) (n : Nat) : Prop where
  ordered : ∀ i < n, lo i ≤ hi i
  chained : ∀ i, i + 1 < n → hi i ≤ lo (i + 1)

variable {lo hi : Nat → κ} {value : κ} {n i j start stop : Nat}

namespace Chain

theorem hi_le_lo (h : Chain lo hi n) (before : i < j) (inside : j < n) : hi i ≤ lo j := by
  induction j with
  | zero => exact absurd before (Nat.not_lt_zero i)
  | succ j ih =>
    have next := h.chained j inside
    rcases Nat.lt_succ_iff_lt_or_eq.1 before with earlier | rfl
    · have := ih earlier (Nat.lt_of_succ_lt inside)
      have := h.ordered j (Nat.lt_of_succ_lt inside)
      order
    · exact next

theorem lo_le_lo (h : Chain lo hi n) (before : i ≤ j) (inside : j < n) : lo i ≤ lo j := by
  rcases Nat.lt_or_eq_of_le before with before | rfl
  · exact (h.ordered i (Nat.lt_trans before inside)).trans (h.hi_le_lo before inside)
  · exact le_rfl

end Chain

theorem middle_between (nonempty : start < stop) :
    start ≤ (stop + start) / 2 ∧ (stop + start) / 2 < stop := by omega

/-- **The bisection ends at a range with the value**, when there is one. -/
theorem bisect_found (chain : Chain lo hi n) (inside : stop ≤ n) (lower : start ≤ j)
    (upper : j < stop) (above : lo j ≤ value) (below : value ≤ hi j) :
    ∃ m, bisect lo hi value start stop = some m ∧ m < n ∧ lo m ≤ value ∧ value ≤ hi m := by
  induction length : stop - start using Nat.strongRecOn generalizing start stop with
  | ind k ih =>
    obtain ⟨reaches, short⟩ := middle_between (Nat.lt_of_le_of_lt lower upper)
    have halves : start + 1 < stop → start < (stop + start) / 2 := by omega
    rw [bisect]
    generalize (stop + start) / 2 = middle at *
    have behind : hi middle < value → middle < j := by
      intro right
      by_contra le
      rcases Nat.lt_or_eq_of_le (Nat.not_lt.1 le) with before | rfl
      · have := chain.hi_le_lo before (Nat.lt_of_lt_of_le short inside)
        have := chain.ordered middle (Nat.lt_of_lt_of_le short inside)
        order
      · order
    have ahead : value < lo middle → j < middle := by
      intro left
      by_contra le
      have := chain.lo_le_lo (Nat.not_lt.1 le) (Nat.lt_of_lt_of_le upper inside)
      order
    by_cases right : hi middle < value
    · have after := behind right
      have := halves (by omega)
      rw [if_pos right, if_pos (by omega)]
      exact ih (stop - middle) (by omega) inside (Nat.le_of_lt after) upper rfl
    · rw [if_neg right]
      by_cases left : value < lo middle
      · rw [if_pos left, if_pos (by omega)]
        exact ih (middle - start) (by omega) (by omega) lower (ahead left) rfl
      · rw [if_neg left]
        exact ⟨middle, rfl, Nat.lt_of_lt_of_le short inside, not_lt.1 left, not_lt.1 right⟩

theorem walkBack_spec (p : Nat → Bool) (m : Nat) :
    walkBack p m ≤ m ∧ (∀ i, walkBack p m < i → i ≤ m → p i) ∧
      (walkBack p m ≠ 0 → ¬ p (walkBack p m)) := by
  induction m with
  | zero => exact ⟨Nat.le_refl _, fun i _ _ => by omega, fun h => absurd rfl h⟩
  | succ m ih =>
    rw [walkBack]
    by_cases passes : p (m + 1)
    · rw [if_pos passes]
      obtain ⟨le, passed, first⟩ := ih
      refine ⟨Nat.le_succ_of_le le, ?_, first⟩
      intro i after upto
      rcases Nat.le_succ_iff.1 upto with earlier | rfl
      · exact passed i after earlier
      · exact passes
    · rw [if_neg passes]
      exact ⟨Nat.le_refl _, fun i _ _ => by omega, fun _ => passes⟩

/-- A sweep is a run of places that ends in front of one that does not meet `p`. -/
theorem sweep_eq (p : Nat → Bool) (inside : i < n) :
    ∃ stop, i < stop ∧ stop ≤ n ∧ sweep p n i = List.range' i (stop - i) ∧
      (∀ j, i < j → j < stop → p j) ∧ (stop < n → ¬ p stop) := by
  induction length : n - i using Nat.strongRecOn generalizing i with
  | ind k ih =>
    rw [sweep]
    by_cases more : i + 1 < n ∧ p (i + 1)
    · obtain ⟨stop, after, le, eq, passed, last⟩ := ih (n - (i + 1)) (by omega) more.1 rfl
      refine ⟨stop, by omega, le, ?_, ?_, last⟩
      · rw [if_pos more, eq]
        have : stop - i = stop - (i + 1) + 1 := by omega
        rw [this, List.range'_succ]
      · intro j behind before
        rcases Nat.lt_or_eq_of_le behind with later | rfl
        · exact passed j later before
        · exact more.2
    · rw [if_neg more]
      refine ⟨i + 1, Nat.lt_succ_self i, inside, ?_, fun j _ _ => by omega, ?_⟩
      · rw [Nat.add_sub_cancel_left]
        rfl
      · exact fun left passes => more ⟨left, passes⟩

theorem mem_sweep {p : Nat → Bool} (inside : i < n) (mem : j ∈ sweep p n i) : i ≤ j ∧ j < n := by
  obtain ⟨stop, after, upto, eq, -, -⟩ := sweep_eq p inside
  rw [eq] at mem
  obtain ⟨lower, upper⟩ := List.mem_range'_1.1 mem
  exact ⟨lower, by omega⟩

theorem range_split {r stop : Nat} (after : r ≤ stop) (inside : stop ≤ n) :
    List.range n = List.range' 0 r ++ (List.range' r (stop - r) ++
      List.range' stop (n - stop)) := by
  have back := @List.range'_append_1 r (stop - r) (n - stop)
  have front := @List.range'_append_1 0 r (n - r)
  rw [Nat.add_sub_cancel' after, show stop - r + (n - stop) = n - r by omega] at back
  rw [Nat.zero_add, Nat.add_sub_cancel' (Nat.le_trans after inside)] at front
  rw [back, front, List.range_eq_range']

/-- **All ranges with the value are passed once**, in the order of the row. -/
theorem sweep_filter (chain : Chain lo hi n) {m : Nat} (inside : m < n) (above : lo m ≤ value)
    (below : value ≤ hi m) {p : Nat → Bool} (starts : ∀ i < n, p i ↔ lo i = value) :
    (sweep p n (walkBack p m)).filter (fun i => lo i ≤ value ∧ value ≤ hi i) =
      (List.range n).filter fun i => lo i ≤ value ∧ value ≤ hi i := by
  obtain ⟨back, passed, first⟩ := walkBack_spec p m
  generalize walkBack p m = r at *
  obtain ⟨stop, after, upto, eq, swept, last⟩ := sweep_eq p (Nat.lt_of_le_of_lt back inside)
  -- A range in front of the sweep ends where the first one swept starts, which is too early.
  have front : (List.range' 0 r).filter (fun i => lo i ≤ value ∧ value ≤ hi i) = [] := by
    apply List.filter_eq_nil_iff.2
    intro i mem
    obtain ⟨-, before⟩ := List.mem_range'_1.1 mem
    have earlier := chain.hi_le_lo (i := i) (j := r) (by omega) (by omega)
    have le := chain.lo_le_lo back inside
    have other : lo r ≠ value :=
      fun same => first (by omega) ((starts r (by omega)).2 same)
    simp only [decide_eq_true_eq]
    rintro ⟨-, reaches⟩
    order
  -- The range behind the sweep does not start at the value, which its neighbour reaches.
  have behind : (List.range' stop (n - stop)).filter (fun i => lo i ≤ value ∧ value ≤ hi i) =
      [] := by
    apply List.filter_eq_nil_iff.2
    intro i mem
    obtain ⟨lower, before⟩ := List.mem_range'_1.1 mem
    have left : stop < n := by omega
    have reached : value ≤ hi (stop - 1) := by
      rcases Nat.lt_or_eq_of_le (Nat.le_sub_one_of_lt after) with later | same
      · have starts_here := (starts (stop - 1) (by omega)).1 (swept (stop - 1) later (by omega))
        exact starts_here ▸ chain.ordered (stop - 1) (by omega)
      · have whole : m = r := by
          by_contra ne
          exact last left (passed stop (by omega) (by omega))
        rw [← same, ← whole]
        exact below
    have next := chain.hi_le_lo (i := stop - 1) (j := stop) (by omega) left
    have other : lo stop ≠ value := fun same => last left ((starts stop left).2 same)
    have later := chain.lo_le_lo lower (show i < n by omega)
    simp only [decide_eq_true_eq]
    rintro ⟨early, -⟩
    order
  rw [eq, range_split (Nat.le_of_lt after) upto, List.filter_append, List.filter_append, front,
    behind, List.nil_append, List.append_nil]

/-! ## Rows without gaps -/

theorem spine_inside (nonempty : start < stop) : ∀ m ∈ spine start stop, m < stop := by
  induction length : stop - start using Nat.strongRecOn generalizing start with
  | ind k ih =>
    obtain ⟨reaches, short⟩ := middle_between nonempty
    intro m mem
    rw [spine] at mem
    generalize (stop + start) / 2 = middle at *
    rcases List.mem_cons.1 mem with rfl | later
    · exact short
    · split at later
      · exact ih (stop - middle) (by omega) short rfl m later
      · exact absurd later List.not_mem_nil

/-- The way to the right ends at the last place. -/
theorem last_mem_spine (nonempty : start < stop) : stop - 1 ∈ spine start stop := by
  induction length : stop - start using Nat.strongRecOn generalizing start with
  | ind k ih =>
    obtain ⟨reaches, short⟩ := middle_between nonempty
    have halves : (stop + start) / 2 = start → stop = start + 1 := by omega
    rw [spine]
    generalize (stop + start) / 2 = middle at *
    split
    · exact List.mem_cons_of_mem _ (ih (stop - middle) (by omega) short rfl)
    · have last : stop - 1 = middle := by omega
      exact last ▸ List.mem_cons_self

section
variable {lo hi : Nat → Nat} {value n start stop : Nat}

/-- Neighbours leave no gap. They need not be in order. -/
structure Gapless (lo hi : Nat → Nat) (n : Nat) : Prop where
  first : lo 0 = 0
  next : ∀ i, i + 1 < n → lo (i + 1) ≤ hi i + 1

/-- Where the bisection goes left, the range in front of the middle reaches the value. -/
theorem Gapless.left_reaches (row : Gapless lo hi n) {middle : Nat} (inside : middle < n)
    (reaches : start ≤ middle) (from_right : start = 0 ∨ hi start < value)
    (stays : ¬ hi middle < value) (left : value < lo middle) :
    start < middle ∧ value ≤ hi (middle - 1) := by
  have ne : middle ≠ 0 := by
    rintro rfl
    rw [row.first] at left
    exact Nat.not_lt_zero value left
  have next := row.next (middle - 1) (by omega)
  rw [Nat.sub_add_cancel (by omega)] at next
  refine ⟨Nat.lt_of_le_of_ne reaches ?_, by omega⟩
  rintro rfl
  exact stays (from_right.resolve_left ne)

/-- In an interval with the value in front of its end, the bisection ends. -/
theorem Gapless.bisect_ends (row : Gapless lo hi n) (nonempty : start < stop) (inside : stop ≤ n)
    (from_right : start = 0 ∨ hi start < value) (upto : value ≤ hi (stop - 1)) :
    bisect lo hi value start stop ≠ none := by
  induction length : stop - start using Nat.strongRecOn generalizing start stop with
  | ind k ih =>
    obtain ⟨reaches, short⟩ := middle_between nonempty
    have halves : (stop + start) / 2 = start → stop = start + 1 := by omega
    rw [bisect]
    generalize (stop + start) / 2 = middle at *
    by_cases right : hi middle < value
    · have before : middle ≠ stop - 1 := by
        rintro rfl
        omega
      rw [if_pos right, if_pos (by omega)]
      exact ih (stop - middle) (by omega) short inside (Or.inr right) upto rfl
    · rw [if_neg right]
      by_cases left : value < lo middle
      · obtain ⟨after, before⟩ := row.left_reaches (by omega) reaches from_right right left
        rw [if_pos left, if_pos (by omega)]
        exact ih (middle - start) (by omega) after (by omega) from_right before rfl
      · rw [if_neg left]
        exact Option.some_ne_none middle

/-- Once it went left the bisection ends, so it is only the way to the right that has no end. -/
theorem Gapless.bisect_eq_none_iff (row : Gapless lo hi n) (nonempty : start < stop)
    (inside : stop ≤ n) (from_right : start = 0 ∨ hi start < value) :
    bisect lo hi value start stop = none ↔ ∀ m ∈ spine start stop, hi m < value := by
  induction length : stop - start using Nat.strongRecOn generalizing start with
  | ind k ih =>
    obtain ⟨reaches, short⟩ := middle_between nonempty
    rw [bisect, spine]
    generalize (stop + start) / 2 = middle at *
    rw [List.forall_mem_cons]
    by_cases right : hi middle < value
    · rw [if_pos right]
      split
      · rw [ih (stop - middle) (by omega) short (Or.inr right) rfl]
        exact (and_iff_right right).symm
      · exact iff_of_true rfl ⟨right, fun m mem => absurd mem List.not_mem_nil⟩
    · rw [if_neg right]
      refine iff_of_false ?_ fun all => right all.1
      by_cases left : value < lo middle
      · obtain ⟨after, before⟩ := row.left_reaches (by omega) reaches from_right right left
        rw [if_pos left, if_pos (by omega)]
        exact row.bisect_ends after (by omega) from_right before
      · rw [if_neg left]
        exact Option.some_ne_none middle

end

end TorrentClient.Bisect
