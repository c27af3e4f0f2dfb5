import TorrentClient.Assembly
import Mathlib.Data.List.Perm.Basic

/-!
# Blocks in any order

The blocks of a piece are determined by the positions they cover, so blocks that
are accepted in two orders leave the same piece. They are accepted in every
order unless one lies inside another and reaches neither of its ends.
-/

namespace TorrentClient

/-- Blocks that are not empty are determined by what they cover. -/
theorem Blocks.eq_of_covered {s t : Blocks} (hs : s.Apart) (ht : t.Apart)
    (some_s : ∀ b ∈ s, 0 < b.size) (some_t : ∀ b ∈ t, 0 < b.size) (same : s.covered = t.covered) :
    s = t := by
  have half {s t : Blocks} (hs : s.Apart) (ht : t.Apart) (some : ∀ b ∈ s, 0 < b.size)
      (same : s.covered = t.covered) (b : Block) (hb : b ∈ s) : b ∈ t := by
    have long : b.offset < b.stop := Nat.lt_add_of_pos_right (some b hb)
    obtain ⟨c, hc, starts, stops⟩ := Spans.ends_of_cover_eq hs ht same hb long
    have eq : c = b := by
      cases b
      cases c
      simp only [Block.stop] at starts stops
      simp only [Block.mk.injEq]
      omega
    exact eq ▸ hc
  apply OrderedSet.ext_mem
  intro b
  exact ⟨half hs ht some_s same b, half ht hs some_t same.symm b⟩

namespace Piece

/-- The call that hands over a range of a content. -/
def Call.ofRange (content : Bytes) (b : Block) : Call :=
  ⟨(content.drop b.offset).take b.size, b.size, b.offset⟩

/-- Calls of `add` one after another, up to one that throws. -/
def addAll (id : Int) : List Call → Piece → Outcome Thrown Piece Unit
  | [], p => .done () p
  | c :: calls, p => (p.add id c.source c.size c.offset).bind fun _ p => addAll id calls p

/-- In any two orders all calls return, and the piece is the same afterwards. -/
def SameInAnyOrder (id : Int) (content : Bytes) (ranges : List Block) : Prop :=
  ∀ first second : List Block, first.Perm ranges → second.Perm ranges → ∃ p q,
    addAll id (first.map (Call.ofRange content)) (init id content.length) = .done () p ∧
    addAll id (second.map (Call.ofRange content)) (init id content.length) = .done () q ∧
    p.blocks = q.blocks ∧ p.blocks.covered = q.blocks.covered ∧ p.data = q.data ∧
    p.full = q.full

/-- A range lies inside another and reaches neither of its ends. -/
def Nested (ranges : List Block) : Prop :=
  ∃ outer ∈ ranges, ∃ inner ∈ ranges, outer.offset < inner.offset ∧ inner.stop < outer.stop

instance (ranges : List Block) : Decidable (Nested ranges) :=
  inferInstanceAs (Decidable (∃ _ ∈ _, ∃ _ ∈ _, _))

section
variable {id : Int} {content : Bytes} {F : Nat} {p : Piece} {accepted : List Call} {b : Block}

theorem ofRange_inRange (inside : b.stop ≤ content.length) :
    (Call.ofRange content b).InRange content.length := by
  refine ⟨?_, inside⟩
  simp only [Block.stop] at inside
  simp only [Call.ofRange, List.length_take, List.length_drop]
  omega

/-- What a call of a range supplies for a position is what the content has there. -/
theorem ofRange_source {x : Nat} (covers : (Call.ofRange content b).Covers x) :
    (Call.ofRange content b).source[x - b.offset]? = content[x]? := by
  obtain ⟨lo, hi⟩ := covers
  simp only [Call.ofRange] at *
  rw [List.getElem?_take_of_lt (by omega), List.getElem?_drop]
  congr 1
  omega

open Classical in
theorem supplied_ofRange (ranges : List Block) (x : Nat) :
    Call.supplied (ranges.map (Call.ofRange content)) x =
      if ∃ b ∈ ranges, (Call.ofRange content b).Covers x then content[x]? else none := by
  split
  · rename_i covered
    obtain ⟨b, hb, covers⟩ := covered
    obtain ⟨c, found⟩ := Option.isSome_iff_exists.1
      (Call.find?_isSome.2 ⟨_, List.mem_map_of_mem hb, covers⟩)
    obtain ⟨d, _, rfl⟩ := List.mem_map.1 (List.mem_of_find?_eq_some found)
    have covers' : (Call.ofRange content d).Covers x := by simpa using List.find?_some found
    rw [Call.supplied, found, Option.bind_some]
    exact ofRange_source covers'
  · rename_i uncovered
    have none : (ranges.map (Call.ofRange content)).find? (·.Covers x) = none := by
      apply List.find?_eq_none.2
      intro c hc
      obtain ⟨b, hb, rfl⟩ := List.mem_map.1 hc
      simpa using fun covers => uncovered ⟨b, hb, covers⟩
    rw [Call.supplied, none, Option.bind_none]

/-- An accepted call that covers the start of a block covers no position outside it. -/
theorem Assembled.inside_block (a : Assembled id F p accepted) {c : Call} (hc : c ∈ accepted)
    {q : Block} (hq : q ∈ p.blocks) (some : 0 < q.size) (covers : c.Covers q.offset) :
    q.offset ≤ c.offset ∧ c.offset + c.size ≤ q.stop := by
  have within : Set.Ico c.offset (c.offset + c.size) ⊆ p.blocks.covered := by
    intro x hx
    exact (a.covered x).2 ⟨c, hc, hx⟩
  have start : q.offset ∈ Set.Ico q.offset q.stop :=
    ⟨Nat.le_refl _, Nat.lt_add_of_pos_right some⟩
  exact a.apart.around hq within covers start

/-- A call throws only where a range lies inside its own. -/
theorem Assembled.add_of_not_inside (a : Assembled id F p accepted) (hF : F < 2 ^ 64) {c : Call}
    (hc : c.InRange F) (nonempty : ∀ d ∈ accepted, 0 < d.size)
    (apart : ∀ d ∈ accepted, ¬ (c.offset < d.offset ∧ d.offset + d.size < c.offset + c.size)) :
    ∃ p', p.add id c.source c.size c.offset = .done () p' ∧
      Assembled id F p' (accepted ++ [c]) := by
  rcases a.add hF hc with done | ⟨_, q, hq, swallowed⟩
  · exact done
  · exfalso
    obtain ⟨mem, behind, _⟩ := OrderedSet.upperBound_some hq
    have some := a.nonempty nonempty q mem
    obtain ⟨d, hd, covers⟩ := (a.covered q.offset).1
      ⟨q, mem, Nat.le_refl _, Nat.lt_add_of_pos_right some⟩
    obtain ⟨lo, hi⟩ := a.inside_block hd mem some covers
    apply apart d hd
    exact ⟨by omega, by omega⟩

/-- Ranges none of which lies inside another are all accepted. -/
theorem Assembled.addAll {ranges : List Block} (size : content.length < 2 ^ 64)
    (inside : ∀ b ∈ ranges, 0 < b.size ∧ b.stop ≤ content.length) (flat : ¬ Nested ranges)
    (later : List Block) :
    ∀ (front : List Block) (p : Piece), (∀ b ∈ front ++ later, b ∈ ranges) →
      Assembled id content.length p (front.map (Call.ofRange content)) →
      ∃ p', Piece.addAll id (later.map (Call.ofRange content)) p = .done () p' ∧
        Assembled id content.length p' ((front ++ later).map (Call.ofRange content)) := by
  induction later with
  | nil =>
    intro front p _ a
    exact ⟨p, rfl, by rwa [List.append_nil]⟩
  | cons b later ih =>
    intro front p mem a
    have hb : b ∈ ranges := mem b (by simp)
    have nonempty : ∀ d ∈ front.map (Call.ofRange content), 0 < d.size := by
      intro d hd
      obtain ⟨c, hc, rfl⟩ := List.mem_map.1 hd
      exact (inside c (mem c (List.mem_append_left _ hc))).1
    have apart : ∀ d ∈ front.map (Call.ofRange content), ¬ (b.offset < d.offset ∧
        d.offset + d.size < b.offset + b.size) := by
      intro d hd nested
      obtain ⟨c, hc, rfl⟩ := List.mem_map.1 hd
      exact flat ⟨b, hb, c, mem c (List.mem_append_left _ hc), nested⟩
    obtain ⟨p', added, a'⟩ :=
      a.add_of_not_inside size (ofRange_inRange (inside b hb).2) nonempty apart
    have a'' : Assembled id content.length p' ((front ++ [b]).map (Call.ofRange content)) := by
      rwa [List.map_append]
    obtain ⟨p'', rest, done⟩ := ih (front ++ [b]) p' (by simpa using mem) a''
    refine ⟨p'', ?_, by simpa using done⟩
    rw [List.map_cons, Piece.addAll, added]
    exact rest

/-- The piece is determined by the ranges that were accepted. -/
theorem Assembled.determined {q : Piece} {first second : List Block}
    (inside : ∀ b ∈ first, 0 < b.size) (perm : first.Perm second)
    (a : Assembled id F p (first.map (Call.ofRange content)))
    (b : Assembled id F q (second.map (Call.ofRange content))) :
    p.blocks = q.blocks ∧ p.data = q.data ∧ p.full = q.full := by
  have inside' : ∀ b ∈ second, 0 < b.size := by
    intro b hb
    exact inside b (perm.mem_iff.2 hb)
  have nonempty (ranges : List Block) (some : ∀ b ∈ ranges, 0 < b.size) :
      ∀ c ∈ ranges.map (Call.ofRange content), 0 < c.size := by
    intro c hc
    obtain ⟨b, hb, rfl⟩ := List.mem_map.1 hc
    exact some b hb
  have blocks : p.blocks = q.blocks := by
    apply Blocks.eq_of_covered a.apart b.apart (a.nonempty (nonempty first inside))
      (b.nonempty (nonempty second inside'))
    ext x
    simp only [a.covered, b.covered, List.mem_map, perm.mem_iff]
  refine ⟨blocks, ?_, ?_⟩
  · obtain ⟨buf, hd, len, cells⟩ := a.data
    obtain ⟨buf', hd', len', cells'⟩ := b.data
    have same : buf = buf' := by
      apply List.ext_getElem?
      intro x
      by_cases inside : x < F
      · simp only [cells x inside, cells' x inside, supplied_ofRange, perm.mem_iff]
      · rw [List.getElem?_eq_none (by omega), List.getElem?_eq_none (by omega)]
    rw [hd, hd', same]
  · rw [full, full, blocks, a.size, b.size]

/-- A call whose range reaches past the block behind its start throws. -/
theorem Assembled.add_swallowing (a : Assembled id F p accepted) (hF : F < 2 ^ 64) {c : Call}
    (hc : c.InRange F) (nonempty : ∀ d ∈ accepted, 0 < d.size) {q : Block}
    (hq : p.blocks.upperBound c.offset = some q) (swallowed : q.stop < c.offset + c.size) :
    p.add id c.source c.size c.offset = .thrown (.block .rightInSelf) p := by
  obtain ⟨buf, hd, _⟩ := a.data
  have bn : c.offset + c.size < 2 ^ 64 := Nat.lt_of_le_of_lt hc.2 hF
  have bs : ∀ b ∈ p.blocks, b.stop < 2 ^ 64 := fun b hb => Nat.lt_of_le_of_lt (a.within b hb) hF
  have cases := add_cases c.source hd (Or.inr a.sameId) a.apart bs bn
  rw [a.claimed_eq] at cases
  rcases cases with ⟨_, inside⟩ | ⟨t, s', st, _⟩ | ⟨thrown, _⟩
  · obtain ⟨mem, behind, _⟩ := OrderedSet.upperBound_some hq
    have start : q.offset ∈ Set.Ico q.offset q.stop :=
      ⟨Nat.le_refl _, Nat.lt_add_of_pos_right (a.nonempty nonempty q mem)⟩
    have reached : q.offset ≤ q.stop := Nat.le_add_right _ _
    have within := a.apart.around mem (l := c.offset) (u := c.offset + c.size)
      (fun x hx => inside x hx.1 hx.2) ⟨Nat.le_of_lt behind, by omega⟩ start
    omega
  · exact absurd (st.reach q hq) (Nat.not_le.2 swallowed)
  · exact thrown

/-- Where a range lies inside another, the order that adds it first and then the
other throws. -/
theorem addAll_nested {outer inner : Block} (size : content.length < 2 ^ 64)
    (outer_in : outer.stop ≤ content.length) (inner_in : inner.stop ≤ content.length)
    (some : 0 < inner.size) (starts : outer.offset < inner.offset) (stops : inner.stop < outer.stop)
    (later : List Call) :
    ∃ p, addAll id (Call.ofRange content inner :: Call.ofRange content outer :: later)
      (init id content.length) = .thrown (.block .rightInSelf) p := by
  have a : Assembled id content.length (init id content.length) [] := assembled_init id _
  obtain ⟨p, added, a⟩ := a.add_of_not_inside size (ofRange_inRange inner_in) (by simp) (by simp)
  have nonempty : ∀ d ∈ [] ++ [Call.ofRange content inner], 0 < d.size := by
    intro d hd
    cases List.mem_singleton.1 hd
    exact some
  have only {x : Nat} (hx : x ∈ p.blocks.covered) : inner.offset ≤ x ∧ x < inner.stop := by
    obtain ⟨d, hd, covers⟩ := (a.covered x).1 hx
    cases List.mem_singleton.1 hd
    exact covers
  obtain ⟨b, hb, lo, hi⟩ := (a.covered inner.offset).2
    ⟨_, List.mem_singleton_self _, Nat.le_refl _, Nat.lt_add_of_pos_right some⟩
  have first : inner.offset ≤ b.offset :=
    (only ⟨b, hb, Nat.le_refl _, Nat.lt_of_le_of_lt lo hi⟩).1
  obtain ⟨q, hq, _⟩ := a.apart.upperBound hb (Nat.lt_of_lt_of_le starts first)
  have mem := (OrderedSet.upperBound_some hq).1
  have pos := a.nonempty nonempty q mem
  have last := (only (x := q.stop - 1) ⟨q, mem, by simp only [Block.stop]; omega,
    by simp only [Block.stop]; omega⟩).2
  have thrown := a.add_swallowing size (ofRange_inRange outer_in) nonempty hq (by
    simp only [Block.stop, Call.ofRange] at *
    omega)
  refine ⟨p, ?_⟩
  rw [addAll, added, Outcome.bind_done, addAll, thrown]
  rfl

end

theorem SameInAnyOrder.flat {id : Int} {content : Bytes} {ranges : List Block}
    (size : content.length < 2 ^ 64)
    (inside : ∀ b ∈ ranges, 0 < b.size ∧ b.stop ≤ content.length)
    (same : SameInAnyOrder id content ranges) : ¬ Nested ranges := by
  rintro ⟨outer, outer_mem, inner, inner_mem, starts, stops⟩
  have other : outer ≠ inner := by
    rintro rfl
    omega
  have perm : (inner :: outer :: (ranges.erase inner).erase outer).Perm ranges := by
    apply List.Perm.trans ?_ (List.perm_cons_erase inner_mem).symm
    apply List.Perm.cons inner
    exact (List.perm_cons_erase ((List.mem_erase_of_ne other).2 outer_mem)).symm
  obtain ⟨p, _, done, _⟩ := same _ ranges perm (List.Perm.refl ranges)
  obtain ⟨p', thrown⟩ := @addAll_nested id _ _ _ size (inside outer outer_mem).2
    (inside inner inner_mem).2 (inside inner inner_mem).1 starts stops
    (((ranges.erase inner).erase outer).map (Call.ofRange content))
  rw [List.map_cons, List.map_cons, thrown] at done
  cases done

/-- **When the order does not matter.** It does not exactly when no range lies
inside another and reaches neither of its ends. -/
theorem sameInAnyOrder_iff (id : Int) (content : Bytes) (size : content.length < 2 ^ 64)
    {ranges : List Block} (inside : ∀ b ∈ ranges, 0 < b.size ∧ b.stop ≤ content.length) :
    SameInAnyOrder id content ranges ↔ ¬ Nested ranges := by
  constructor
  · exact SameInAnyOrder.flat size inside
  · intro flat first second perm perm'
    obtain ⟨p, done, a⟩ := (assembled_init id content.length).addAll size inside flat first [] _
      (fun b hb => perm.mem_iff.1 hb)
    obtain ⟨q, done', a'⟩ := (assembled_init id content.length).addAll size inside flat second [] _
      (fun b hb => perm'.mem_iff.1 hb)
    obtain ⟨blocks, data, full⟩ := a.determined
      (fun b hb => (inside b (perm.mem_iff.1 hb)).1) (perm.trans perm'.symm) a'
    exact ⟨p, q, done, done', blocks, congrArg _ blocks, data, full⟩

/-- Overlapping ranges, two of which start and two of which end at the same place. -/
theorem sameInAnyOrder_four : SameInAnyOrder 0 [1, 2, 3, 4] [⟨0, 2⟩, ⟨1, 3⟩, ⟨0, 3⟩, ⟨2, 2⟩] :=
  (sameInAnyOrder_iff 0 [1, 2, 3, 4] (by decide) (by decide)).2 (by decide)

/-- The middle byte of three arrives before all three of them, or after them. -/
theorem not_sameInAnyOrder_middle : ¬ SameInAnyOrder 0 [1, 2, 3] [⟨0, 3⟩, ⟨1, 1⟩] := by
  intro same
  exact same.flat (by decide) (by decide) (by decide)

end Piece

end TorrentClient
