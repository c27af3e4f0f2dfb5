import Mathlib.Data.Set.Pairwise.Basic
import Mathlib.Order.Interval.Set.Basic
import Mathlib.Tactic.Common
import Mathlib.Tactic.Order

/-!
# Families of spans

A span runs from `lo a` up to, and not including, `hi a`. A family is separated
when no two of its spans overlap or touch.

* `Joined.separated`, `Joined.cover_eq`: adding a span that overlaps none of a
  separated family, merged with the spans it touches, leaves a separated
  family that covers the new span and what was covered before;
* `cover_eq_Ico`: a separated family covers a whole interval exactly when its
  first span is that interval;
* `Separated.around`: an interval inside the cover lies in one span;
* `ends_of_cover_eq`: the cover determines where the spans start and end.
-/

namespace TorrentClient.Spans

variable {ι κ : Type} [LinearOrder κ] (lo hi : ι → κ)

def Separated (S : Set ι) : Prop := S.Pairwise fun a b => hi a < lo b ∨ hi b < lo a

/-- The positions some span of the family contains. -/
def cover (S : Set ι) : Set κ := {x | ∃ a ∈ S, x ∈ Set.Ico (lo a) (hi a)}

/-- `S'` is `S` with `new` added, as the span `c` that reaches over the spans of
`S` that end where `new` starts or start where it ends. -/
structure Joined (S S' : Set ι) (new c : ι) : Prop where
  mem : ∀ x, x ∈ S' ↔ x = c ∨ x ∈ S ∧ hi x ≠ lo new ∧ lo x ≠ hi new
  left : (lo c = lo new ∧ ∀ x ∈ S, hi x ≠ lo new) ∨ ∃ p ∈ S, hi p = lo new ∧ lo c = lo p
  right : (hi c = hi new ∧ ∀ x ∈ S, lo x ≠ hi new) ∨ ∃ n ∈ S, lo n = hi new ∧ hi c = hi n

variable {lo hi} {S S' : Set ι} {new c : ι}

theorem Separated.before (hS : Separated lo hi S) (ordered : ∀ x ∈ S, lo x ≤ hi x) {a b : ι}
    (ha : a ∈ S) (hb : b ∈ S) (h : lo a < lo b) : hi a < lo b := by
  have hne : a ≠ b := by rintro rfl; exact lt_irrefl _ h
  cases hS ha hb hne with
  | inl lt => exact lt
  | inr gt =>
    have := ordered b hb
    order

/-- The merged span starts no later than `new`, and from where a span of the
old family starts. -/
theorem Joined.left_le (h : Joined lo hi S S' new c) (ordered : ∀ x ∈ S, lo x ≤ hi x) :
    lo c ≤ lo new := by
  rcases h.left with ⟨eq, _⟩ | ⟨p, hp, touch, eq⟩
  · exact eq.le
  · have := ordered p hp
    order

theorem Joined.right_ge (h : Joined lo hi S S' new c) (ordered : ∀ x ∈ S, lo x ≤ hi x) :
    hi new ≤ hi c := by
  rcases h.right with ⟨eq, _⟩ | ⟨n, hn, touch, eq⟩
  · exact eq.ge
  · have := ordered n hn
    order

/-- A span of the old family that `new` neither overlaps nor touches keeps its
distance from the merged span. -/
theorem Joined.apart (h : Joined lo hi S S' new c) (hS : Separated lo hi S)
    (ordered : ∀ x ∈ S, lo x ≤ hi x) (clear : ∀ x ∈ S, hi x ≤ lo new ∨ hi new ≤ lo x)
    {b : ι} (hb : b ∈ S) (hl : hi b ≠ lo new) (hr : lo b ≠ hi new) :
    hi c < lo b ∨ hi b < lo c := by
  have ob := ordered b hb
  cases clear b hb with
  | inl before =>
    right
    have lt : hi b < lo new := lt_of_le_of_ne before hl
    rcases h.left with ⟨eq, _⟩ | ⟨p, hp, touch, eq⟩
    · order
    · have hne : b ≠ p := by rintro rfl; exact hl touch
      cases hS hb hp hne with
      | inl apart => order
      | inr apart => order
  | inr after =>
    left
    have lt : hi new < lo b := lt_of_le_of_ne after hr.symm
    rcases h.right with ⟨eq, _⟩ | ⟨n, hn, touch, eq⟩
    · order
    · have hne : b ≠ n := by rintro rfl; exact hr touch
      have on := ordered n hn
      cases hS hb hn hne with
      | inl apart => order
      | inr apart => order

theorem Joined.separated (h : Joined lo hi S S' new c) (hS : Separated lo hi S)
    (ordered : ∀ x ∈ S, lo x ≤ hi x) (clear : ∀ x ∈ S, hi x ≤ lo new ∨ hi new ≤ lo x) :
    Separated lo hi S' := by
  intro a ha b hb hne
  rcases (h.mem a).1 ha with rfl | ⟨ha, al, ar⟩ <;> rcases (h.mem b).1 hb with rfl | ⟨hb, bl, br⟩
  · exact absurd rfl hne
  · exact h.apart hS ordered clear hb bl br
  · exact (h.apart hS ordered clear ha al ar).symm
  · exact hS ha hb hne

theorem Joined.cover_eq (h : Joined lo hi S S' new c) (hS : Separated lo hi S)
    (ordered : ∀ x ∈ S, lo x ≤ hi x) (hnew : lo new ≤ hi new) :
    cover lo hi S' = cover lo hi S ∪ Set.Ico (lo new) (hi new) := by
  have cl := h.left_le ordered
  have cr := h.right_ge ordered
  ext x
  constructor
  · rintro ⟨y, hy, ylo, yhi⟩
    rcases (h.mem y).1 hy with rfl | ⟨hy, _, _⟩
    · by_cases below : x < lo new
      · rcases h.left with ⟨eq, _⟩ | ⟨p, hp, touch, eq⟩
        · order
        · exact Or.inl ⟨p, hp, by order, by order⟩
      · by_cases above : hi new ≤ x
        · rcases h.right with ⟨eq, _⟩ | ⟨n, hn, touch, eq⟩
          · order
          · exact Or.inl ⟨n, hn, by order, by order⟩
        · exact Or.inr ⟨not_lt.1 below, not_le.1 above⟩
    · exact Or.inl ⟨y, hy, ylo, yhi⟩
  · rintro (⟨y, hy, ylo, yhi⟩ | ⟨xlo, xhi⟩)
    · by_cases tl : hi y = lo new
      · refine ⟨c, (h.mem c).2 (Or.inl rfl), ?_, by order⟩
        rcases h.left with ⟨_, none⟩ | ⟨p, hp, touch, eq⟩
        · exact absurd tl (none y hy)
        · by_cases hyp : y = p
          · subst hyp; order
          · have := ordered p hp
            rcases hS hy hp hyp with apart | apart <;> order
      · by_cases tr : lo y = hi new
        · refine ⟨c, (h.mem c).2 (Or.inl rfl), by order, ?_⟩
          rcases h.right with ⟨_, none⟩ | ⟨n, hn, touch, eq⟩
          · exact absurd tr (none y hy)
          · by_cases hyn : y = n
            · subst hyn; order
            · have := ordered n hn
              have := ordered y hy
              rcases hS hy hn hyn with apart | apart <;> order
        · exact ⟨y, (h.mem y).2 (Or.inr ⟨hy, tl, tr⟩), ylo, yhi⟩
    · exact ⟨c, (h.mem c).2 (Or.inl rfl), by order, by order⟩

theorem cover_eq_Ico (hS : Separated lo hi S) (ordered : ∀ x ∈ S, lo x ≤ hi x) {first : ι}
    (hf : first ∈ S) (least : ∀ x ∈ S, lo first ≤ lo x) {l u : κ} (hlu : l < u)
    (lower : ∀ x ∈ S, l ≤ lo x) (upper : ∀ x ∈ S, hi x ≤ u) :
    cover lo hi S = Set.Ico l u ↔ lo first = l ∧ hi first = u := by
  constructor
  · intro whole
    have start : l ∈ cover lo hi S := whole ▸ ⟨le_rfl, hlu⟩
    obtain ⟨y, hy, ylo, yhi⟩ := start
    have := lower y hy
    have := least y hy
    have := lower first hf
    have same : y = first := by
      by_contra hne
      have := ordered first hf
      rcases hS hy hf hne with apart | apart <;> order
    subst same
    refine ⟨by order, le_antisymm (upper y hy) ?_⟩
    by_contra short
    have next : hi y ∈ cover lo hi S := whole ▸ ⟨by order, not_le.1 short⟩
    obtain ⟨z, hz, zlo, zhi⟩ := next
    by_cases hzy : z = y
    · subst hzy; order
    · have := least z hz
      rcases hS hz hy hzy with apart | apart <;> order
  · rintro ⟨hlo, hhi⟩
    ext x
    constructor
    · rintro ⟨y, hy, ylo, yhi⟩
      have := lower y hy
      have := upper y hy
      exact ⟨by order, by order⟩
    · rintro ⟨xlo, xhi⟩
      exact ⟨first, hf, by order, by order⟩

/-- An interval inside the cover that meets a span does not leave it. -/
theorem Separated.around (hS : Separated lo hi S) {a : ι} (ha : a ∈ S) {l u x : κ}
    (within : Set.Ico l u ⊆ cover lo hi S) (mem : x ∈ Set.Ico l u)
    (meets : x ∈ Set.Ico (lo a) (hi a)) : lo a ≤ l ∧ u ≤ hi a := by
  obtain ⟨lx, xu⟩ := mem
  obtain ⟨ax, xa⟩ := meets
  -- a span with a position of the interval is `a`, or lies in front of it, or behind
  have beside {b : ι} (hb : b ∈ S) (other : b ≠ a) : hi b < lo a ∨ hi a < lo b :=
    hS hb ha other
  constructor
  · by_contra outside
    obtain ⟨b, hb, bl, lb⟩ := within ⟨le_rfl, lx.trans_lt xu⟩
    have other : b ≠ a := by
      rintro rfl
      exact outside bl
    rcases beside hb other with before | behind
    · obtain ⟨c, hc, cb, bc⟩ := within (a := hi b) ⟨lb.le, by order⟩
      have other' : c ≠ b := by
        rintro rfl
        exact lt_irrefl _ bc
      rcases hS hc hb other' with apart | apart <;> order
    · order
  · by_contra outside
    obtain ⟨b, hb, ba, ab⟩ := within (a := hi a) ⟨by order, not_le.1 outside⟩
    have other : b ≠ a := by
      rintro rfl
      exact lt_irrefl _ ab
    rcases beside hb other with before | behind <;> order

theorem Ico_subset_cover {a : ι} (ha : a ∈ S) : Set.Ico (lo a) (hi a) ⊆ cover lo hi S :=
  fun _ mem => ⟨a, ha, mem⟩

/-- Every span of a family is one of each other family with the same cover. -/
theorem ends_of_cover_eq (hS : Separated lo hi S) (hS' : Separated lo hi S')
    (same : cover lo hi S = cover lo hi S') {a : ι} (ha : a ∈ S) (some : lo a < hi a) :
    ∃ b ∈ S', lo b = lo a ∧ hi b = hi a := by
  have start : lo a ∈ Set.Ico (lo a) (hi a) := ⟨le_rfl, some⟩
  obtain ⟨b, hb, mem⟩ := same ▸ Ico_subset_cover ha start
  have ⟨ba, ab⟩ := hS'.around hb (same ▸ Ico_subset_cover ha) start mem
  have ⟨ab', ba'⟩ := hS.around ha (same ▸ Ico_subset_cover hb) mem start
  exact ⟨b, hb, ba.antisymm ab', ba'.antisymm ab⟩

end TorrentClient.Spans
