import TorrentClient.Base.Word

/-!
# Patches of a content

A patch puts its elements at a position of a content, behind a filler where the content
ends before it. Patches that are all cut out of one target build the target, in any order
and however often each is repeated.
-/

namespace TorrentClient

structure Patch (α : Type) where
  position : Nat
  elems : List α

namespace Patch

variable {α : Type} {filler : α} {target content : List α} {p : Patch α} {k : Nat}

def apply (filler : α) (content : List α) (p : Patch α) : List α :=
  if p.elems = [] then content
  else overwrite (content ++ List.replicate (p.position - content.length) filler) p.position p.elems

def Covers (p : Patch α) (k : Nat) : Prop :=
  p.position ≤ k ∧ k < p.position + p.elems.length

/-- The patch is cut out of the target. -/
def Fits (target : List α) (p : Patch α) : Prop :=
  ∀ k, p.Covers k → p.elems[k - p.position]? = target[k]?

theorem Fits.inside (fits : p.Fits target) (covers : p.Covers k) : k < target.length := by
  have there := fits k covers
  obtain ⟨above, below⟩ := covers
  rw [List.getElem?_eq_getElem (by omega)] at there
  exact (List.getElem?_eq_some_iff.1 there.symm).1

theorem apply_getElem?_covered (filler : α) (content : List α) (covers : p.Covers k) :
    (apply filler content p)[k]? = p.elems[k - p.position]? := by
  obtain ⟨above, below⟩ := covers
  have some : p.elems ≠ [] := List.ne_nil_of_length_pos (by omega)
  have reaches : (List.take p.position (content ++
      List.replicate (p.position - content.length) filler)).length = p.position := by
    simp only [List.length_take, List.length_append, List.length_replicate]
    omega
  rw [apply, if_neg some, overwrite, List.append_assoc, List.getElem?_append_right (by omega),
    reaches, List.getElem?_append_left (by omega)]

theorem apply_getElem?_other (filler : α) (content : List α) (other : ¬ p.Covers k) :
    (apply filler content p)[k]? = content[k]? ∨
      (apply filler content p)[k]? = some filler ∧ content.length ≤ k ∧ k < p.position := by
  by_cases none : p.elems = []
  · rw [apply, if_pos none]
    exact Or.inl rfl
  rw [apply, if_neg none, overwrite, List.append_assoc]
  have reaches : (List.take p.position (content ++
      List.replicate (p.position - content.length) filler)).length = p.position := by
    simp only [List.length_take, List.length_append, List.length_replicate]
    omega
  by_cases before : k < p.position
  · rw [List.getElem?_append_left (by omega), List.getElem?_take_of_lt before]
    by_cases old : k < content.length
    · rw [List.getElem?_append_left old]
      exact Or.inl rfl
    · rw [List.getElem?_append_right (by omega), List.getElem?_replicate, if_pos (by omega)]
      exact Or.inr ⟨rfl, by omega, before⟩
  · have behind : p.position + p.elems.length ≤ k := by
      by_contra inside
      exact other ⟨by omega, by omega⟩
    rw [List.getElem?_append_right (by omega), reaches, List.getElem?_append_right (by omega),
      List.getElem?_drop]
    left
    rw [show p.position + p.elems.length + (k - p.position - p.elems.length) = k by omega]
    by_cases old : k < content.length
    · rw [List.getElem?_append_left old]
    · rw [List.getElem?_append_right (by omega), List.getElem?_replicate, if_neg (by omega),
        List.getElem?_eq_none (by omega)]

/-! ## On the way to the target -/

/-- Each element is the target's, or the filler. -/
def Towards (filler : α) (target content : List α) : Prop :=
  ∀ k < content.length, k < target.length ∧
    (content[k]? = target[k]? ∨ content[k]? = some filler)

theorem Towards.nil (filler : α) (target : List α) : Towards filler target [] :=
  fun _ inside => absurd inside (Nat.not_lt_zero _)

theorem Towards.length_le (h : Towards filler target content) :
    content.length ≤ target.length := by
  by_contra longer
  have := (h target.length (by omega)).1
  omega

theorem Towards.apply (h : Towards filler target content) (fits : p.Fits target) :
    Towards filler target (p.apply filler content) := by
  intro k inside
  by_cases covers : p.Covers k
  · rw [apply_getElem?_covered filler content covers]
    exact ⟨fits.inside covers, Or.inl (fits k covers)⟩
  rcases apply_getElem?_other filler content covers with old | ⟨new, after, before⟩
  · rw [List.getElem?_eq_getElem inside] at old
    have kept := h k (List.getElem?_eq_some_iff.1 old.symm).1
    rwa [← old, ← List.getElem?_eq_getElem inside] at kept
  · refine ⟨?_, Or.inr new⟩
    by_cases none : p.elems = []
    · rw [Patch.apply, if_pos none] at inside
      omega
    · have first : p.Covers p.position :=
        ⟨Nat.le_refl _, Nat.lt_add_of_pos_right (List.length_pos_iff.2 none)⟩
      exact Nat.lt_trans before (fits.inside first)

/-- What is right stays right, and what is covered gets right. -/
theorem apply_right (fits : p.Fits target)
    (right : p.Covers k ∨ k < content.length ∧ content[k]? = target[k]?) :
    (p.apply filler content)[k]? = target[k]? := by
  by_cases covers : p.Covers k
  · rw [apply_getElem?_covered filler content covers, fits k covers]
  · obtain ⟨inside, same⟩ := right.resolve_left covers
    rcases apply_getElem?_other filler content covers with old | ⟨-, after, -⟩
    · rw [old, same]
    · omega

section
variable {ps : List (Patch α)}

theorem foldl_right (fit : ∀ p ∈ ps, p.Fits target) (inside : k < target.length)
    (right : (∃ p ∈ ps, p.Covers k) ∨ content[k]? = target[k]?) :
    (ps.foldl (apply filler) content)[k]? = target[k]? := by
  induction ps generalizing content with
  | nil => exact right.resolve_left (by simp)
  | cons p ps ih =>
    rw [List.foldl_cons]
    apply ih fun q mem => fit q (List.mem_cons_of_mem p mem)
    have fits := fit p List.mem_cons_self
    rcases right with ⟨q, mem, covers⟩ | same
    · rcases List.mem_cons.1 mem with rfl | later
      · exact Or.inr (apply_right fits (Or.inl covers))
      · exact Or.inl ⟨q, later, covers⟩
    · rw [List.getElem?_eq_getElem inside] at same
      have old := (List.getElem?_eq_some_iff.1 same).1
      rw [← List.getElem?_eq_getElem inside] at same
      exact Or.inr (apply_right fits (Or.inr ⟨old, same⟩))

theorem foldl_towards (h : Towards filler target content) (fit : ∀ p ∈ ps, p.Fits target) :
    Towards filler target (ps.foldl (apply filler) content) := by
  induction ps generalizing content with
  | nil => exact h
  | cons p ps ih =>
    exact ih (h.apply (fit p List.mem_cons_self)) fun q mem => fit q (List.mem_cons_of_mem p mem)

/-- **Patches that cover the target build it**, where they leave out no more than fillers in
front of its last element. -/
theorem foldl_eq (h : Towards filler target content) (fit : ∀ p ∈ ps, p.Fits target)
    (covered : ∀ k < target.length, (∃ p ∈ ps, p.Covers k) ∨
      k + 1 < target.length ∧ target[k]? = some filler) :
    ps.foldl (apply filler) content = target := by
  have towards := foldl_towards h fit
  have short := towards.length_le
  by_cases empty : target.length = 0
  · have none : target = [] := List.length_eq_zero_iff.1 empty
    rw [none]
    exact List.length_eq_zero_iff.1 (Nat.le_zero.1 (empty ▸ short))
  have last : target.length - 1 < target.length := by omega
  have reached : (∃ p ∈ ps, p.Covers (target.length - 1)) :=
    (covered _ last).resolve_right (by omega)
  have there : (ps.foldl (apply filler) content)[target.length - 1]? = target[target.length - 1]? :=
    foldl_right fit last (Or.inl reached)
  rw [List.getElem?_eq_getElem last] at there
  have long := (List.getElem?_eq_some_iff.1 there).1
  apply List.ext_getElem?
  intro k
  by_cases inside : k < target.length
  · rcases covered k inside with patch | ⟨-, gap⟩
    · exact foldl_right fit inside (Or.inl patch)
    · rcases (towards k (by omega)).2 with same | filled
      · exact same
      · rw [filled, gap]
  · rw [List.getElem?_eq_none (by omega), List.getElem?_eq_none (by omega)]

end

end Patch

end TorrentClient
