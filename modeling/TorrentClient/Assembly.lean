import TorrentClient.Blocks

/-!
# What a piece has assembled

`add_cases` is everything a call of `add` can do. The invariant of a piece, and
the bytes in its buffer, follow for every sequence of calls.
-/

namespace TorrentClient

namespace Piece

open Blocks

/-! ## One call of `add` -/

@[simp] theorem claimed_data (p : Piece) (id : Int) : (p.claimed id).data = p.data := by
  unfold claimed; split <;> rfl
@[simp] theorem claimed_blocks (p : Piece) (id : Int) : (p.claimed id).blocks = p.blocks := by
  unfold claimed; split <;> rfl
@[simp] theorem claimed_fullPieceSize (p : Piece) (id : Int) :
    (p.claimed id).fullPieceSize = p.fullPieceSize := by
  unfold claimed; split <;> rfl

/-- A piece that has no buffer, or is another one, refuses every block. -/
theorem add_refused {p : Piece} (id : Int) (source : List UInt8) (size offset : Nat)
    (h : p.data = none ∨ (p.id ≠ -1 ∧ p.id ≠ id)) :
    ∃ e, p.add id source size offset = .thrown e p := by
  unfold Piece.add
  split
  · exact ⟨_, rfl⟩
  · rename_i buf hd
    cases h with
    | inl none => cases none.symm.trans hd
    | inr other => exact ⟨_, if_pos other⟩

section
variable {p : Piece} {id : Int} {data : List Cell} (source : List UInt8) {size offset : Nat}

/-- The first block goes into the set as it is. -/
theorem add_first (hd : p.data = some data) (hid : p.id = -1 ∨ p.id = id)
    (first : p.blocks.isEmpty = true) :
    p.add id source size offset =
      (p.claimed id).store data source 0 ⟨offset, size⟩ (p.blocks.insert ⟨offset, size⟩) := by
  have sameId : ¬ (p.id ≠ -1 ∧ p.id ≠ id) := fun other => hid.elim other.1 other.2
  unfold Piece.add
  rw [hd]
  apply (if_neg sameId).trans
  dsimp only
  rw [claimed_blocks]
  exact if_pos first

/-- A block that is not cut back ends the call. -/
theorem add_error {e : Block.Error} (hd : p.data = some data) (hid : p.id = -1 ∨ p.id = id)
    (more : ¬ p.blocks.isEmpty = true)
    (hf : fit ⟨offset, size⟩ (p.blocks.lastUpTo offset) (p.blocks.upperBound offset) =
      .error e) :
    p.add id source size offset =
      if e = .selfInRight then .done () (p.claimed id)
      else .thrown (.block e) (p.claimed id) := by
  have sameId : ¬ (p.id ≠ -1 ∧ p.id ≠ id) := fun other => hid.elim other.1 other.2
  unfold Piece.add
  rw [hd]
  apply (if_neg sameId).trans
  dsimp only
  rw [claimed_blocks]
  apply (if_neg more).trans
  rw [hf]
  cases e <;> rfl

/-- What is left of a block is stored, unless it is empty. -/
theorem add_fitted {t : Block} (hd : p.data = some data) (hid : p.id = -1 ∨ p.id = id)
    (more : ¬ p.blocks.isEmpty = true)
    (hf : fit ⟨offset, size⟩ (p.blocks.lastUpTo offset) (p.blocks.upperBound offset) = .ok t) :
    p.add id source size offset =
      if t.size = 0 then .done () (p.claimed id)
      else
        (p.claimed id).store data source (sub64 t.offset offset) t
          (link p.blocks (p.blocks.lastUpTo offset) (p.blocks.upperBound offset) t) := by
  have sameId : ¬ (p.id ≠ -1 ∧ p.id ≠ id) := fun other => hid.elim other.1 other.2
  unfold Piece.add
  rw [hd]
  apply (if_neg sameId).trans
  dsimp only
  rw [claimed_blocks]
  apply (if_neg more).trans
  rw [hf]

end

/-- **Everything a call of `add` can do** to a piece that has a buffer. -/
theorem add_cases {p : Piece} {id : Int} {data : List Cell} (source : List UInt8)
    {size offset : Nat} (hd : p.data = some data) (hid : p.id = -1 ∨ p.id = id)
    (hs : p.blocks.Apart) (bs : ∀ b ∈ p.blocks, b.stop < 2 ^ 64)
    (bn : offset + size < 2 ^ 64) :
    (p.add id source size offset = .done () (p.claimed id) ∧
      ∀ x, offset ≤ x → x < offset + size → x ∈ p.blocks.covered) ∨
    (∃ t s', Stored p.blocks s' ⟨offset, size⟩ t ∧
      p.add id source size offset = (p.claimed id).store data source (t.offset - offset) t s') ∨
    (p.add id source size offset = .thrown (.block .rightInSelf) (p.claimed id) ∧
      ∃ q, p.blocks.upperBound offset = some q ∧ q.stop < offset + size) := by
  have new : Block.stop ⟨offset, size⟩ < 2 ^ 64 := bn
  by_cases first : p.blocks.isEmpty
  · refine Or.inr (Or.inl ⟨⟨offset, size⟩, p.blocks.insert ⟨offset, size⟩, ?_, ?_⟩)
    · rw [OrderedSet.isEmpty_iff.1 first]
      exact stored_first _
    · rw [add_first source hd hid first, Nat.sub_self]
  · cases hf : fit ⟨offset, size⟩ (p.blocks.lastUpTo offset) (p.blocks.upperBound offset) with
    | error e =>
      have hadd := add_error source hd hid first hf
      rcases fit_error hs bs new hf with ⟨rfl, inside⟩ | ⟨rfl, swallows⟩
      · exact Or.inl ⟨hadd, inside⟩
      · exact Or.inr (Or.inr ⟨hadd, swallows⟩)
    | ok t =>
      have hadd := add_fitted source hd hid first hf
      have f := fit_ok hs bs new hf
      have bt : t.stop < 2 ^ 64 := Nat.lt_of_le_of_lt f.hi bn
      by_cases zero : t.size = 0
      · refine Or.inl ⟨hadd.trans (if_pos zero), ?_⟩
        intro x lo hi
        rcases f.rest x lo hi with ⟨tlo, thi⟩ | cov
        · simp only [Block.stop] at thi
          omega
        · exact cov
      · have lo : offset ≤ t.offset := f.lo
        have skip : sub64 t.offset offset = t.offset - offset := by
          apply sub64_eq ?_ lo
          simp only [Block.stop] at bt
          omega
        refine Or.inr (Or.inl ⟨t, _, stored_link hs f (by omega) bs bt, ?_⟩)
        rw [hadd, if_neg zero, skip]

/-! ## Every sequence of calls -/

/-- The arguments of a call of `add`, other than the id. -/
structure Call where
  source : List UInt8
  size : Nat
  offset : Nat
  deriving DecidableEq

namespace Call

def Covers (c : Call) (x : Nat) : Prop := c.offset ≤ x ∧ x < c.offset + c.size

instance (c : Call) (x : Nat) : Decidable (c.Covers x) := inferInstanceAs (Decidable (_ ∧ _))

/-- The source has the bytes announced, and they belong inside the piece. -/
def InRange (F : Nat) (c : Call) : Prop :=
  c.size ≤ c.source.length ∧ c.offset + c.size ≤ F

/-- The byte the first of these calls that covers a position supplies for it. -/
def supplied (calls : List Call) (x : Nat) : Cell :=
  (calls.find? (·.Covers x)).bind fun c => c.source[x - c.offset]?

theorem find?_isSome {calls : List Call} {x : Nat} :
    (calls.find? (·.Covers x)).isSome ↔ ∃ c ∈ calls, c.Covers x := by
  simp [List.find?_isSome]

theorem supplied_append_of_mem {calls : List Call} {x : Nat} (c : Call)
    (h : ∃ c ∈ calls, c.Covers x) : supplied (calls ++ [c]) x = supplied calls x := by
  obtain ⟨d, hd⟩ := Option.isSome_iff_exists.1 (find?_isSome.2 h)
  simp [supplied, List.find?_append, hd]

theorem supplied_append_of_not_covers {calls : List Call} {c : Call} {x : Nat}
    (h : ¬ c.Covers x) : supplied (calls ++ [c]) x = supplied calls x := by
  simp [supplied, List.find?_append, h]

theorem supplied_append_new {calls : List Call} {c : Call} {x : Nat}
    (none : ¬ ∃ c ∈ calls, c.Covers x) (h : c.Covers x) :
    supplied (calls ++ [c]) x = c.source[x - c.offset]? := by
  have hn : calls.find? (·.Covers x) = .none :=
    Option.not_isSome_iff_eq_none.1 fun some => none (find?_isSome.1 some)
  simp [supplied, List.find?_append, hn, h]

end Call

/-- A call made on a piece, with the calls accepted so far: those that returned. -/
def receive (id : Int) (r : Piece × List Call) (c : Call) : Piece × List Call :=
  match r.1.add id c.source c.size c.offset with
  | .done _ p => (p, r.2 ++ [c])
  | o => (o.state, r.2)

/-- What holds of a piece of `F` bytes between calls, `accepted` being those
that returned: the blocks cover what they cover, and each cell of the buffer
is the byte the first of them supplied. -/
structure Assembled (id : Int) (F : Nat) (p : Piece) (accepted : List Call) : Prop where
  data : ∃ buf, p.data = some buf ∧ buf.length = F ∧
    ∀ x, x < F → buf[x]? = some (Call.supplied accepted x)
  sameId : p.id = id
  size : p.fullPieceSize = F
  apart : p.blocks.Apart
  within : ∀ b ∈ p.blocks, b.stop ≤ F
  covered : ∀ x, x ∈ p.blocks.covered ↔ ∃ c ∈ accepted, c.Covers x
  nonempty : (∀ c ∈ accepted, 0 < c.size) → ∀ b ∈ p.blocks, 0 < b.size

theorem assembled_init (id : Int) (F : Nat) : Assembled id F (init id F) [] where
  data := ⟨List.replicate F none, rfl, List.length_replicate, fun x hx => by
    simp [Call.supplied, hx]⟩
  sameId := rfl
  size := rfl
  apart := fun a ha => absurd ha (OrderedSet.not_mem_empty a)
  within := fun b hb => absurd hb (OrderedSet.not_mem_empty b)
  covered := fun x => ⟨fun ⟨b, hb, _⟩ => absurd hb (OrderedSet.not_mem_empty b), by simp⟩
  nonempty := fun _ b hb => absurd hb (OrderedSet.not_mem_empty b)

section
variable {id : Int} {F : Nat} {p : Piece} {accepted : List Call} {c : Call}

theorem Assembled.claimed_eq (a : Assembled id F p accepted) : p.claimed id = p := by
  have := a.sameId
  unfold claimed
  split
  · cases p; simp_all
  · rfl

/-- A call whose whole range is covered already changes nothing. -/
theorem Assembled.ignore (a : Assembled id F p accepted)
    (h : ∀ x, c.Covers x → x ∈ p.blocks.covered) : Assembled id F p (accepted ++ [c]) where
  data := by
    obtain ⟨buf, hd, len, cells⟩ := a.data
    refine ⟨buf, hd, len, fun x hx => ?_⟩
    rw [cells x hx]
    by_cases hc : c.Covers x
    · rw [Call.supplied_append_of_mem c ((a.covered x).1 (h x hc))]
    · rw [Call.supplied_append_of_not_covers hc]
  sameId := a.sameId
  size := a.size
  apart := a.apart
  within := a.within
  covered := by
    intro x
    rw [a.covered]
    constructor
    · rintro ⟨d, hd, hx⟩
      exact ⟨d, List.mem_append_left _ hd, hx⟩
    · rintro ⟨d, hd, hx⟩
      cases List.mem_append.1 hd with
      | inl hd => exact ⟨d, hd, hx⟩
      | inr hd =>
        cases List.mem_singleton.1 hd
        exact (a.covered x).1 (h x hx)
  nonempty := fun h => a.nonempty fun d hd => h d (List.mem_append_left _ hd)

/-- A call that stores the part `t` of its range. -/
theorem Assembled.store {t : Block} {s' : Blocks} {buf out : List Cell}
    (a : Assembled id F p accepted) (hd : p.data = some buf) (hc : c.InRange F)
    (st : Stored p.blocks s' ⟨c.offset, c.size⟩ t)
    (copied : memcpy buf t.offset c.source (t.offset - c.offset) t.size = some out) :
    Assembled id F { p with data := some out, blocks := s' } (accepted ++ [c]) where
  data := by
    obtain ⟨_, hd', len, cells⟩ := a.data
    cases hd.symm.trans hd'
    refine ⟨out, rfl, (memcpy_length copied).trans len, fun x hx => ?_⟩
    have lo : c.offset ≤ t.offset := st.lo
    have hi : t.stop ≤ c.offset + c.size := st.hi
    rw [memcpy_getElem? copied]
    split
    · rename_i inside
      have cx : c.Covers x := ⟨by omega, by simp only [Block.stop] at hi; omega⟩
      have new : ¬ ∃ d ∈ accepted, d.Covers x := fun h =>
        st.fresh x ((a.covered x).2 h) inside
      have pos : t.offset - c.offset + (x - t.offset) = x - c.offset := by omega
      have inSource : x - c.offset < c.source.length := by
        obtain ⟨_, hlt⟩ := cx
        have := hc.1
        omega
      rw [Call.supplied_append_new new cx, pos, List.getElem?_eq_getElem inSource]
      rfl
    · rename_i outside
      rw [cells x hx]
      by_cases cx : c.Covers x
      · cases st.rest x cx.1 cx.2 with
        | inl inside => exact absurd inside outside
        | inr cov => rw [Call.supplied_append_of_mem c ((a.covered x).1 cov)]
      · rw [Call.supplied_append_of_not_covers cx]
  sameId := a.sameId
  size := a.size
  apart := st.apart
  within := by
    intro b hb
    have hi : t.stop ≤ c.offset + c.size := st.hi
    have := hc.2
    rcases st.stops b hb with hb | eq | ⟨q, hq, _, eq⟩
    · exact a.within b hb
    · omega
    · exact eq ▸ a.within q hq
  covered := by
    intro x
    have hi : t.stop ≤ c.offset + c.size := st.hi
    have lo : c.offset ≤ t.offset := st.lo
    change x ∈ s'.covered ↔ _
    rw [st.covered]
    constructor
    · rintro (cov | ⟨tlo, thi⟩)
      · obtain ⟨d, hd, hx⟩ := (a.covered x).1 cov
        exact ⟨d, List.mem_append_left _ hd, hx⟩
      · exact ⟨c, List.mem_append_right _ List.mem_cons_self, by omega, by omega⟩
    · rintro ⟨d, hd, hx⟩
      cases List.mem_append.1 hd with
      | inl hd => exact Or.inl ((a.covered x).2 ⟨d, hd, hx⟩)
      | inr hd =>
        cases List.mem_singleton.1 hd
        exact (st.rest x hx.1 hx.2).symm
  nonempty := by
    intro h b hb
    have new := st.pos (h c (List.mem_append_right _ List.mem_cons_self))
    cases st.grown b hb with
    | inl old => exact a.nonempty (fun d hd => h d (List.mem_append_left _ hd)) b old
    | inr grown => omega

/-- A call in range returns with its range added, or throws because it swallows
a stored block and leaves the piece as it was. -/
theorem Assembled.add (a : Assembled id F p accepted) (hF : F < 2 ^ 64) (hc : c.InRange F) :
    (∃ p', p.add id c.source c.size c.offset = .done () p' ∧
      Assembled id F p' (accepted ++ [c])) ∨
    (p.add id c.source c.size c.offset = .thrown (.block .rightInSelf) p ∧
      ∃ q, p.blocks.upperBound c.offset = some q ∧ q.stop < c.offset + c.size) := by
  obtain ⟨buf, hd, len, _⟩ := a.data
  have bn : c.offset + c.size < 2 ^ 64 := Nat.lt_of_le_of_lt hc.2 hF
  have bs : ∀ b ∈ p.blocks, b.stop < 2 ^ 64 := fun b hb => Nat.lt_of_le_of_lt (a.within b hb) hF
  have cases := add_cases c.source hd (Or.inr a.sameId) a.apart bs bn
  rw [a.claimed_eq] at cases
  rcases cases with ⟨hadd, inside⟩ | ⟨t, s', st, hadd⟩ | thrown
  · exact Or.inl ⟨p, hadd, a.ignore fun x hx => inside x hx.1 hx.2⟩
  · have lo : c.offset ≤ t.offset := st.lo
    have hi : t.stop ≤ c.offset + c.size := st.hi
    obtain ⟨sourced, fits⟩ := hc
    simp only [Block.stop] at hi
    have copied : memcpy buf t.offset c.source (t.offset - c.offset) t.size = some _ :=
      memcpy_eq (by omega) (by omega)
    refine Or.inl ⟨_, ?_, a.store hd ⟨sourced, fits⟩ st copied⟩
    rw [hadd, Piece.store, copied]
  · exact Or.inr thrown

/-- A call that each accepted one covers wholly, or not at all, swallows no block. -/
theorem Assembled.not_swallows (a : Assembled id F p accepted)
    (nonempty : ∀ d ∈ accepted, 0 < d.size)
    (tiles : ∀ d ∈ accepted, ∀ x, d.Covers x → c.Covers x → ∀ y, c.Covers y → d.Covers y) :
    ∀ q, p.blocks.upperBound c.offset = some q → c.offset + c.size ≤ q.stop := by
  intro q hq
  obtain ⟨mem, after, _⟩ := OrderedSet.upperBound_some hq
  have pos := a.nonempty nonempty q mem
  by_contra swallowed
  simp only [Block.stop] at swallowed
  -- the call that covers the start of `q` covers the byte before it too
  obtain ⟨d, hd, covers⟩ := (a.covered q.offset).1
    ⟨q, mem, Nat.le_refl _, by simp only [Block.stop]; omega⟩
  have before := tiles d hd q.offset covers ⟨by omega, by omega⟩ (q.offset - 1)
    ⟨by omega, by omega⟩
  obtain ⟨b, hb, lo, hi⟩ := (a.covered (q.offset - 1)).2 ⟨d, hd, before⟩
  have other : b ≠ q := by
    rintro rfl
    omega
  cases a.apart hb mem other with
  | inl apart => omega
  | inr apart =>
    simp only [Block.stop] at apart
    omega

theorem Assembled.receive (a : Assembled id F p accepted) (hF : F < 2 ^ 64)
    (hc : c.InRange F) :
    Assembled id F (receive id (p, accepted) c).1 (receive id (p, accepted) c).2 := by
  rcases a.add hF hc with ⟨p', hadd, a'⟩ | ⟨hadd, _⟩
  · simpa only [Piece.receive, hadd] using a'
  · simpa only [Piece.receive, hadd, Outcome.state_thrown] using a

theorem assembled_run (id : Int) {F : Nat} (hF : F < 2 ^ 64) {calls : List Call}
    (h : ∀ c ∈ calls, c.InRange F) {p : Piece} {accepted : List Call}
    (a : Assembled id F p accepted) :
    Assembled id F (calls.foldl (Piece.receive id) (p, accepted)).1
      (calls.foldl (Piece.receive id) (p, accepted)).2 := by
  induction calls generalizing p accepted with
  | nil => exact a
  | cons c calls ih =>
    exact ih (fun d hd => h d (List.mem_cons_of_mem c hd))
      (a.receive hF (h c List.mem_cons_self))

/-- `full` looks at the first block only, and that is enough. -/
theorem Assembled.full_iff (a : Assembled id F p accepted) (pos : 0 < F) :
    p.full = true ↔ p.blocks.covered = Set.Ico 0 F := by
  unfold full
  cases hb : p.blocks.begin with
  | none =>
    have none : p.blocks = .empty := OrderedSet.begin_none.1 hb
    constructor
    · exact nofun
    · intro whole
      have : 0 ∈ p.blocks.covered := whole ▸ ⟨le_rfl, pos⟩
      obtain ⟨b, hb, _⟩ := this
      exact absurd (none ▸ hb) (OrderedSet.not_mem_empty b)
  | some first =>
    obtain ⟨mem, least⟩ := OrderedSet.begin_some hb
    have whole := Spans.cover_eq_Ico a.apart p.blocks.ordered mem least pos
      (fun _ _ => Nat.zero_le _) a.within
    have hw := a.within first mem
    change decide (first.size = p.fullPieceSize) = true ↔ Spans.cover _ _ _ = _
    rw [whole, decide_eq_true_eq, a.size]
    simp only [Block.stop] at *
    omega

end

/-- **The blocks of a piece after every call.** The set is in order and no two
of its blocks overlap or touch; it covers exactly the ranges of the calls that
returned; the piece is full exactly when that is all of it. No call reaches
outside the buffer, and one that throws leaves the set and the buffer alone. -/
theorem blocks_after_calls (id : Int) (F : Nat) (pos : 0 < F) (hF : F < 2 ^ 64)
    (calls : List Call) (h : ∀ c ∈ calls, c.InRange F) :
    let r := calls.foldl (receive id) (init id F, [])
    r.1.blocks.elems.Pairwise (fun a b => a.offset < b.offset ∧ a.stop < b.offset) ∧
    r.1.blocks.covered = {x | ∃ c ∈ r.2, c.offset ≤ x ∧ x < c.offset + c.size} ∧
    (r.1.full = true ↔ r.1.blocks.covered = Set.Ico 0 F) ∧
    ∀ c : Call, c.InRange F →
      (∃ p, r.1.add id c.source c.size c.offset = .done () p) ∨
      ∃ e p, r.1.add id c.source c.size c.offset = .thrown e p ∧
        p.blocks = r.1.blocks ∧ p.data = r.1.data := by
  intro r
  have a : Assembled id F r.1 r.2 := assembled_run id hF h (assembled_init id F)
  refine ⟨?_, Set.ext a.covered, a.full_iff pos, ?_⟩
  · apply List.Pairwise.imp_of_mem ?_ r.1.blocks.sorted
    intro x y hx hy lt
    exact ⟨lt, Spans.Separated.before a.apart r.1.blocks.ordered hx hy lt⟩
  · intro c hc
    rcases a.add hF hc with ⟨p, hadd, _⟩ | ⟨hadd, _⟩
    · exact Or.inl ⟨p, hadd⟩
    · exact Or.inr ⟨_, _, hadd, rfl, rfl⟩

/-- Four bytes that arrive as a block, one that swallows it, an empty one and
two that overlap it. -/
theorem blocks_after_calls_four :
    let calls : List Call := [⟨[1], 1, 1⟩, ⟨[1, 2, 3, 4], 4, 0⟩, ⟨[], 0, 3⟩,
      ⟨[5, 6], 2, 0⟩, ⟨[7, 8, 9], 3, 1⟩]
    let r := calls.foldl (receive 0) (init 0 4, [])
    r.1.data = some [some 5, some 1, some 8, some 9] ∧
    (r.1.full = true ↔ r.1.blocks.covered = Set.Ico 0 4) := by
  refine ⟨by decide, ?_⟩
  exact (blocks_after_calls 0 4 (by decide) (by decide) _ (by
    simp [Call.InRange])).2.2.1

/-! ## Whose bytes are kept -/

/-- The byte at a covered position is the one the first accepted call that covers
it supplies. -/
theorem Call.supplied_of_covers {accepted : List Call} {x : Nat}
    (sourced : ∀ c ∈ accepted, c.size ≤ c.source.length) (h : ∃ c ∈ accepted, c.Covers x) :
    ∃ front c back byte, accepted = front ++ c :: back ∧ (∀ d ∈ front, ¬ d.Covers x) ∧
      c.Covers x ∧ c.source[x - c.offset]? = some byte ∧
      Call.supplied accepted x = some byte := by
  obtain ⟨c, found⟩ := Option.isSome_iff_exists.1 (Call.find?_isSome.2 h)
  obtain ⟨covers, front, back, split, before⟩ := List.find?_eq_some_iff_append.1 found
  have mem : c ∈ accepted := by simp [split]
  have covers : c.Covers x := of_decide_eq_true covers
  have inside : x - c.offset < c.source.length := by
    have := sourced c mem
    have ⟨_, _⟩ := covers
    omega
  refine ⟨front, c, back, c.source[x - c.offset], split, ?_, covers, ?_, ?_⟩
  · intro d hd
    simpa using before d hd
  · exact List.getElem?_eq_getElem inside
  · simp [Call.supplied, found, inside]

theorem receive_accepted (id : Int) (calls : List Call) :
    ∀ r : Piece × List Call, ∃ more, (calls.foldl (receive id) r).2 = r.2 ++ more ∧
      ∀ c ∈ more, c ∈ calls := by
  induction calls with
  | nil =>
    intro r
    exact ⟨[], by simp, by simp⟩
  | cons c calls ih =>
    intro r
    obtain ⟨more, eq, mem⟩ := ih (receive id r c)
    have one : (receive id r c).2 = r.2 ++ [c] ∨ (receive id r c).2 = r.2 := by
      unfold receive
      split
      · exact Or.inl rfl
      · exact Or.inr rfl
    rcases one with added | same
    · refine ⟨c :: more, by simp [eq, added], ?_⟩
      intro d hd
      exact (List.mem_cons.1 hd).elim (· ▸ List.mem_cons_self) (List.mem_cons_of_mem c <| mem d ·)
    · refine ⟨more, by rw [List.foldl_cons, eq, same], ?_⟩
      intro d hd
      exact List.mem_cons_of_mem c (mem d hd)

/-- **The first byte that arrives for a position stays.** Whatever the calls
bring, conflicting bytes included, a covered position holds the byte that the
first call that returned and covers it supplies for it, and later calls leave
it there. -/
theorem first_byte_kept (id : Int) (F : Nat) (hF : F < 2 ^ 64) (calls : List Call)
    (h : ∀ c ∈ calls, c.InRange F) :
    let r := calls.foldl (receive id) (init id F, [])
    ∀ x ∈ r.1.blocks.covered, ∃ front c back byte,
      r.2 = front ++ c :: back ∧ (∀ d ∈ front, ¬ d.Covers x) ∧ c.Covers x ∧
      c.source[x - c.offset]? = some byte ∧
      ∀ more : List Call, (∀ c ∈ more, c.InRange F) →
        ∃ buf, (more.foldl (receive id) r).1.data = some buf ∧ buf[x]? = some (some byte) := by
  intro r x covered
  have a : Assembled id F r.1 r.2 := assembled_run id hF h (assembled_init id F)
  have sourced : ∀ c ∈ r.2, c.size ≤ c.source.length := by
    intro c hc
    obtain ⟨accepted, eq, mem⟩ := receive_accepted id calls (init id F, [])
    rw [eq, List.nil_append] at hc
    exact (h c (mem c hc)).1
  obtain ⟨b, hb, lo, hi⟩ := covered
  have inside : x < F := Nat.lt_of_lt_of_le hi (a.within b hb)
  obtain ⟨front, c, back, byte, split, before, covers, read, supplied⟩ :=
    Call.supplied_of_covers sourced ((a.covered x).1 ⟨b, hb, lo, hi⟩)
  refine ⟨front, c, back, byte, split, before, covers, read, ?_⟩
  intro more hmore
  have later := assembled_run id hF hmore a
  obtain ⟨buf, hd, _, cells⟩ := later.data
  refine ⟨buf, hd, ?_⟩
  rw [cells x inside]
  obtain ⟨added, eq, _⟩ := receive_accepted id more r
  have first : (r.2 ++ added).find? (·.Covers x) = r.2.find? (·.Covers x) := by
    obtain ⟨d, found⟩ := Option.isSome_iff_exists.1
      (Call.find?_isSome.2 ((a.covered x).1 ⟨b, hb, lo, hi⟩))
    rw [List.find?_append, found, Option.some_or]
  rw [eq, Call.supplied, first]
  exact congrArg some supplied

/-- Two conflicting bytes for a position: the one that came first stays. -/
theorem first_byte_kept_conflict :
    let calls : List Call := [⟨[1, 2], 2, 1⟩, ⟨[3, 4, 5], 3, 0⟩]
    let r := calls.foldl (receive 0) (init 0 4, [])
    1 ∈ r.1.blocks.covered ∧ ∃ front c back byte,
      r.2 = front ++ c :: back ∧ (∀ d ∈ front, ¬ d.Covers 1) ∧ c.Covers 1 ∧
      c.source[1 - c.offset]? = some byte ∧
      ∀ more : List Call, (∀ c ∈ more, c.InRange 4) →
        ∃ buf, (more.foldl (receive 0) r).1.data = some buf ∧ buf[1]? = some (some byte) := by
  have covered : 1 ∈ (([⟨[1, 2], 2, 1⟩, ⟨[3, 4, 5], 3, 0⟩] : List Call).foldl (receive 0)
      (init 0 4, [])).1.blocks.covered :=
    Blocks.mem_covered.2 ⟨⟨0, 3⟩, OrderedSet.mem_iff.2 (by decide), by decide, by decide⟩
  exact ⟨covered, first_byte_kept 0 4 (by decide) _ (by simp [Call.InRange]) 1 covered⟩

end Piece

end TorrentClient
