import Mathlib.Data.List.Infix
import Mathlib.Tactic.Common

/-!
# The first occurrence of a text

`find` looks for a text in memory that ends with a terminator, as `strstr` does. What it
finds depends neither on what is put behind the terminator nor on a front that the text
does not start in.
-/

namespace TorrentClient

variable {α : Type}

/-- The first place of the text, unless the terminator comes first. -/
def find [DecidableEq α] (terminator : α) (text : List α) : List α → Option Nat
  | [] => none
  | c :: memory =>
    if text <+: c :: memory then some 0
    else if c = terminator then none
    else (find terminator text memory).map (· + 1)

variable {terminator : α} {text memory front tail : List α} {i : Nat}

/-- The text does not start in the first `i` places, nor does the memory end there. -/
def Absent (terminator : α) (text memory : List α) (i : Nat) : Prop :=
  ∀ j < i, ¬ text <+: memory.drop j ∧ memory[j]? ≠ some terminator

theorem absent_succ {c : α} : Absent terminator text (c :: memory) (i + 1) ↔
    (¬ text <+: c :: memory ∧ c ≠ terminator) ∧ Absent terminator text memory i := by
  constructor
  · intro absent
    refine ⟨⟨(absent 0 (Nat.succ_pos i)).1, ?_⟩, fun j lt => absent (j + 1) (Nat.succ_lt_succ lt)⟩
    rintro rfl
    exact (absent 0 (Nat.succ_pos i)).2 rfl
  · rintro ⟨⟨other, goes_on⟩, absent⟩ j lt
    cases j with
    | zero => exact ⟨other, fun ends => goes_on (Option.some.inj ends)⟩
    | succ j => exact absent j (Nat.lt_of_succ_lt_succ lt)

theorem Absent.mono {j : Nat} (absent : Absent terminator text memory i) (le : j ≤ i) :
    Absent terminator text memory j :=
  fun k lt => absent k (Nat.lt_of_lt_of_le lt le)

section
variable [DecidableEq α]

theorem find_eq_some_iff (ne : text ≠ []) :
    find terminator text memory = some i ↔
      text <+: memory.drop i ∧ Absent terminator text memory i := by
  induction memory generalizing i with
  | nil =>
    refine iff_of_false (by rintro ⟨⟩) ?_
    rintro ⟨starts, -⟩
    rw [List.drop_nil] at starts
    exact ne (List.prefix_nil.1 starts)
  | cons c memory ih =>
    rw [find]
    by_cases starts : text <+: c :: memory
    · rw [if_pos starts]
      cases i with
      | zero => exact iff_of_true rfl ⟨starts, fun j lt => absurd lt (Nat.not_lt_zero j)⟩
      | succ i =>
        refine iff_of_false (by rintro ⟨⟩) ?_
        rintro ⟨-, absent⟩
        exact (absent_succ.1 absent).1.1 starts
    · rw [if_neg starts]
      cases i with
      | zero =>
        refine iff_of_false ?_ fun here => starts here.1
        split
        · rintro ⟨⟩
        · intro found
          obtain ⟨j, -, eq⟩ := Option.map_eq_some_iff.1 found
          cases eq
      | succ i =>
        rw [absent_succ, List.drop_succ_cons]
        by_cases ends : c = terminator
        · rw [if_pos ends]
          exact iff_of_false (by rintro ⟨⟩) fun here => here.2.1.2 ends
        · rw [if_neg ends, Option.map_eq_some_iff]
          constructor
          · rintro ⟨j, found, eq⟩
            cases eq
            obtain ⟨here, absent⟩ := ih.1 found
            exact ⟨here, ⟨starts, ends⟩, absent⟩
          · rintro ⟨here, -, absent⟩
            exact ⟨i, ih.2 ⟨here, absent⟩, rfl⟩

theorem absent_of_none (ne : text ≠ []) (none : find terminator text memory = none)
    (goes_on : ∀ j < i, memory[j]? ≠ some terminator) : Absent terminator text memory i := by
  induction i with
  | zero => exact fun j lt => absurd lt (Nat.not_lt_zero j)
  | succ i ih =>
    have absent := ih fun j lt => goes_on j (Nat.lt_succ_of_lt lt)
    intro j lt
    rcases Nat.lt_succ_iff_lt_or_eq.1 lt with earlier | rfl
    · exact absent j earlier
    · refine ⟨fun here => ?_, goes_on j lt⟩
      rw [(find_eq_some_iff ne).2 ⟨here, absent⟩] at none
      cases none

/-- A front that the text does not start in is passed over. -/
theorem find_append (absent : Absent terminator text (front ++ tail) front.length) :
    find terminator text (front ++ tail) = (find terminator text tail).map (· + front.length) := by
  induction front with
  | nil => exact Option.map_id.symm ▸ rfl
  | cons c front ih =>
    rw [List.cons_append] at absent ⊢
    obtain ⟨⟨other, goes_on⟩, absent⟩ := absent_succ.1 absent
    rw [find, if_neg other, if_neg goes_on, ih absent, Option.map_map]
    rfl

end

/-- A text without the terminator does not reach into it. -/
theorem prefix_append_replicate (free : terminator ∉ text) (n : Nat) :
    text <+: memory ++ List.replicate n terminator ↔ text <+: memory := by
  induction memory generalizing text with
  | nil =>
    rw [List.nil_append, List.prefix_nil]
    constructor
    · intro starts
      apply List.eq_nil_iff_forall_not_mem.2
      intro c mem
      have last := List.eq_of_mem_replicate (starts.mem mem)
      exact free (last ▸ mem)
    · rintro rfl
      exact List.nil_prefix
  | cons c memory ih =>
    cases text with
    | nil => exact iff_of_true List.nil_prefix List.nil_prefix
    | cons t text =>
      rw [List.cons_append, List.cons_prefix_cons, List.cons_prefix_cons,
        ih fun mem => free (List.mem_cons_of_mem t mem)]

section
variable [DecidableEq α]

/-- What is put behind the memory is not looked at. -/
theorem find_append_replicate (ne : text ≠ []) (free : terminator ∉ text) (n : Nat) :
    find terminator text (memory ++ List.replicate n terminator) =
      find terminator text memory := by
  induction memory with
  | nil =>
    cases n with
    | zero => rfl
    | succ n =>
      have other : ¬ text <+: [] ++ List.replicate (n + 1) terminator := by
        rw [prefix_append_replicate free, List.prefix_nil]
        exact ne
      exact (if_neg other).trans (if_pos rfl)
  | cons c memory ih =>
    have same := @prefix_append_replicate α terminator text (c :: memory) free n
    rw [List.cons_append] at same ⊢
    rw [find, find, ih]
    simp only [same]

theorem find_none (missing : ¬ text <:+: memory) (ne : text ≠ []) :
    find terminator text memory = none := by
  cases found : find terminator text memory with
  | none => rfl
  | some i =>
    have here := ((find_eq_some_iff ne).1 found).1
    exact absurd (here.isInfix.trans (List.drop_suffix i memory).isInfix) missing

theorem find_ne_none (ne : text ≠ []) (present : text <:+: memory) (free : terminator ∉ memory) :
    find terminator text memory ≠ none := by
  intro missing
  obtain ⟨front, back, rfl⟩ := present
  induction front with
  | nil =>
    obtain ⟨c, text, rfl⟩ := List.exists_cons_of_ne_nil ne
    rw [List.nil_append, List.cons_append, find, if_pos] at missing
    · cases missing
    · exact List.prefix_append _ _
  | cons c front ih =>
    rw [List.cons_append, List.cons_append, find] at missing
    split at missing
    · cases missing
    · split at missing
      · rename_i ends
        exact free (ends ▸ List.mem_cons_self)
      · exact ih (fun mem => free (List.mem_cons_of_mem c mem)) (Option.map_eq_none_iff.1 missing)

/-- What is found lies in front of every terminator. -/
theorem find_le (ne : text ≠ []) (free : terminator ∉ text)
    (found : find terminator text memory = some i) {j : Nat}
    (ends : memory[j]? = some terminator) : i + text.length ≤ j := by
  obtain ⟨⟨behind, here⟩, absent⟩ := (find_eq_some_iff ne).1 found
  by_contra inside
  have after : i ≤ j := by
    by_contra before
    exact (absent j (Nat.lt_of_not_le before)).2 ends
  have at_place : memory[j]? = (memory.drop i)[j - i]? := by
    rw [List.getElem?_drop, Nat.add_sub_cancel' after]
  rw [at_place, ← here, List.getElem?_append_left (by omega)] at ends
  exact free (List.mem_of_getElem? ends)

end

end TorrentClient
