import Mathlib.Data.List.Pairwise
import Mathlib.Data.Nat.Basic
import Mathlib.Order.Lattice
import Mathlib.Tactic.Common

/-!
# Ordered sets

Sets whose elements are compared by a key and held in key order, with the
operations of an ordered container: insertion that keeps an equivalent element
already there, erasure, the first element, and the two neighbours of a key.
-/

namespace TorrentClient

structure OrderedSet {α κ : Type} [LinearOrder κ] (key : α → κ) where
  elems : List α
  sorted : elems.Pairwise (key · < key ·)

namespace OrderedSet

variable {α κ : Type} [LinearOrder κ] {key : α → κ}

instance : Membership α (OrderedSet key) := ⟨fun s a => a ∈ s.elems⟩

instance [DecidableEq α] : DecidableEq (OrderedSet key) := fun s t =>
  decidable_of_iff (s.elems = t.elems) <| by
    cases s; cases t; simp

theorem mem_iff {s : OrderedSet key} {a : α} : a ∈ s ↔ a ∈ s.elems := Iff.rfl

def empty : OrderedSet key := ⟨[], .nil⟩

def isEmpty (s : OrderedSet key) : Bool := s.elems.isEmpty

/-- The first element, `none` at the end position of an empty set. -/
def begin (s : OrderedSet key) : Option α := s.elems.head?

/-- The first element whose key is above `k`. -/
def upperBound (s : OrderedSet key) (k : κ) : Option α := s.elems.find? (k < key ·)

/-- The element before the upper bound of `k`: the last whose key is at most `k`. -/
def lastUpTo (s : OrderedSet key) (k : κ) : Option α := s.elems.reverse.find? (key · ≤ k)

def find (s : OrderedSet key) (k : κ) : Option α := s.elems.find? (key · = k)

def insertList (key : α → κ) (a : α) : List α → List α
  | [] => [a]
  | b :: l =>
    if key a < key b then a :: b :: l
    else if key b < key a then b :: insertList key a l
    else b :: l

theorem mem_insertList {a x : α} {l : List α} (h : x ∈ insertList key a l) :
    x = a ∨ x ∈ l := by
  induction l with
  | nil => simpa [insertList] using h
  | cons b l ih =>
    simp only [insertList] at h
    split at h
    · simpa using h
    · split at h
      · rcases List.mem_cons.1 h with rfl | h
        · exact Or.inr List.mem_cons_self
        · exact (ih h).imp_right (List.mem_cons_of_mem b)
      · exact Or.inr h

theorem insertList_sorted {a : α} {l : List α} (h : l.Pairwise (key · < key ·)) :
    (insertList key a l).Pairwise (key · < key ·) := by
  induction l with
  | nil => simp [insertList]
  | cons b l ih =>
    obtain ⟨hb, hl⟩ := List.pairwise_cons.1 h
    simp only [insertList]
    split
    · rename_i below
      refine List.pairwise_cons.2 ⟨?_, h⟩
      intro x hx
      rcases List.mem_cons.1 hx with rfl | hx
      · exact below
      · exact below.trans (hb x hx)
    · split
      · rename_i above
        refine List.pairwise_cons.2 ⟨?_, ih hl⟩
        intro x hx
        rcases mem_insertList hx with rfl | hx
        · exact above
        · exact hb x hx
      · exact h

def insert (s : OrderedSet key) (a : α) : OrderedSet key :=
  ⟨insertList key a s.elems, insertList_sorted s.sorted⟩

/-- The element insertion leaves under the key of `a`: `a` itself, or the
equivalent element that was there. -/
def slot (s : OrderedSet key) (a : α) : α := (s.find (key a)).getD a

def erase (s : OrderedSet key) (k : κ) : OrderedSet key :=
  ⟨s.elems.filter (key · ≠ k), s.sorted.filter _⟩

theorem key_inj {s : OrderedSet key} {a b : α} (ha : a ∈ s) (hb : b ∈ s)
    (h : key a = key b) : a = b := by
  obtain ⟨i, hi, rfl⟩ := List.getElem_of_mem ha
  obtain ⟨j, hj, rfl⟩ := List.getElem_of_mem hb
  have order := List.pairwise_iff_getElem.1 s.sorted
  rcases Nat.lt_trichotomy i j with lt | rfl | gt
  · exact absurd h (order i j hi hj lt).ne
  · rfl
  · exact absurd h (order j i hj hi gt).ne'

theorem ext_mem {s t : OrderedSet key} (h : ∀ a, a ∈ s ↔ a ∈ t) : s = t := by
  have nodup (u : OrderedSet key) : u.elems.Nodup := by
    apply u.sorted.imp
    rintro a _ lt rfl
    exact lt_irrefl _ lt
  have perm : s.elems.Perm t.elems := (List.perm_ext_iff_of_nodup (nodup s) (nodup t)).2 h
  have eq : s.elems = t.elems := by
    apply List.Perm.eq_of_pairwise ?_ s.sorted t.sorted perm
    intro a b _ _ ab ba
    exact absurd (ab.trans ba) (lt_irrefl _)
  cases s
  cases t
  cases eq
  rfl

theorem not_mem_empty (a : α) : a ∉ (empty : OrderedSet key) := List.not_mem_nil

theorem isEmpty_iff {s : OrderedSet key} : s.isEmpty = true ↔ s = empty := by
  obtain ⟨elems, sorted⟩ := s
  simp [isEmpty, empty, List.isEmpty_iff]

theorem insertList_mem {a x : α} {l : List α} (fresh : ∀ b ∈ l, key b ≠ key a)
    (h : x = a ∨ x ∈ l) : x ∈ insertList key a l := by
  induction l with
  | nil => simpa [insertList] using h
  | cons b l ih =>
    have hb := fresh b List.mem_cons_self
    have hl : ∀ c ∈ l, key c ≠ key a := fun c hc => fresh c (List.mem_cons_of_mem b hc)
    simp only [insertList]
    split
    · simpa using h
    · rename_i notBelow
      rw [if_pos (lt_of_le_of_ne (not_lt.1 notBelow) hb)]
      rcases h with rfl | h
      · exact List.mem_cons_of_mem b (ih hl (Or.inl rfl))
      · rcases List.mem_cons.1 h with rfl | h
        · exact List.mem_cons_self
        · exact List.mem_cons_of_mem b (ih hl (Or.inr h))

theorem mem_insert {s : OrderedSet key} {a x : α} (fresh : ∀ b ∈ s, key b ≠ key a) :
    x ∈ s.insert a ↔ x = a ∨ x ∈ s :=
  ⟨mem_insertList, insertList_mem fresh⟩

theorem slot_eq {s : OrderedSet key} {a : α} (fresh : ∀ b ∈ s, key b ≠ key a) :
    s.slot a = a := by
  have none : s.find (key a) = none := by
    apply List.find?_eq_none.2
    intro b hb
    simpa using fresh b hb
  rw [slot, none, Option.getD_none]

theorem mem_erase {s : OrderedSet key} {k : κ} {x : α} :
    x ∈ s.erase k ↔ x ∈ s ∧ key x ≠ k := by
  simp [mem_iff, erase]

theorem begin_none {s : OrderedSet key} : s.begin = none ↔ s = empty := by
  obtain ⟨elems, sorted⟩ := s
  simp [begin, empty]

theorem begin_some {s : OrderedSet key} {a : α} (h : s.begin = some a) :
    a ∈ s ∧ ∀ b ∈ s, key a ≤ key b := by
  obtain ⟨elems, sorted⟩ := s
  cases elems with
  | nil => cases h
  | cons b l =>
    cases h
    refine ⟨List.mem_cons_self, ?_⟩
    intro c hc
    rcases List.mem_cons.1 hc with rfl | hc
    · exact le_rfl
    · exact ((List.pairwise_cons.1 sorted).1 c hc).le

theorem upperBound_none {s : OrderedSet key} {k : κ} (h : s.upperBound k = none) :
    ∀ b ∈ s, key b ≤ k := by
  intro b hb
  simpa using List.find?_eq_none.1 h b hb

theorem lastUpTo_none {s : OrderedSet key} {k : κ} (h : s.lastUpTo k = none) :
    ∀ b ∈ s, k < key b := by
  intro b hb
  simpa using List.find?_eq_none.1 h b (List.mem_reverse.2 hb)

/-- In a list in order, the first element that passes a test comes before every
other that does. -/
theorem find?_first {r : α → α → Prop} {p : α → Bool} {l : List α} {a : α}
    (hr : l.Pairwise r) (h : l.find? p = some a) :
    ∀ b ∈ l, p b = true → b = a ∨ r a b := by
  induction l with
  | nil => cases h
  | cons c l ih =>
    obtain ⟨hc, hl⟩ := List.pairwise_cons.1 hr
    intro b hb hp
    rw [List.find?_cons] at h
    split at h
    · cases h
      rcases List.mem_cons.1 hb with rfl | hb
      · exact Or.inl rfl
      · exact Or.inr (hc b hb)
    · rename_i hpc
      rcases List.mem_cons.1 hb with rfl | hb
      · rw [hp] at hpc; cases hpc
      · exact ih hl h b hb hp

theorem upperBound_some {s : OrderedSet key} {k : κ} {a : α} (h : s.upperBound k = some a) :
    a ∈ s ∧ k < key a ∧ ∀ b ∈ s, k < key b → key a ≤ key b := by
  refine ⟨List.mem_of_find?_eq_some h, by simpa using List.find?_some h, ?_⟩
  intro b hb hk
  rcases find?_first s.sorted h b hb (by simpa using hk) with rfl | lt
  · exact le_rfl
  · exact lt.le

theorem lastUpTo_some {s : OrderedSet key} {k : κ} {a : α} (h : s.lastUpTo k = some a) :
    a ∈ s ∧ key a ≤ k ∧ ∀ b ∈ s, key b ≤ k → key b ≤ key a := by
  refine ⟨List.mem_reverse.1 (List.mem_of_find?_eq_some h),
    by simpa using List.find?_some h, ?_⟩
  intro b hb hk
  have back : s.elems.reverse.Pairwise (fun x y => key y < key x) :=
    List.pairwise_reverse.2 s.sorted
  rcases find?_first back h b (List.mem_reverse.2 hb) (by simpa using hk) with rfl | lt
  · exact le_rfl
  · exact lt.le

end OrderedSet

end TorrentClient
