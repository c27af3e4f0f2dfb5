import TorrentClient.Custody
import Mathlib.Algebra.BigOperators.Group.Finset.Basic
import Mathlib.Algebra.Order.Floor.Div

/-!
# The sizes of the pieces

The sizes `PieceList` hands out with the indices are those of the pieces a
torrent is cut into, unless the last piece is as long as the others.
-/

namespace TorrentClient

theorem foldl_add64 (files : List FileInfo) :
    ∀ n, n + total files < 2 ^ 64 →
      files.foldl (fun n file => add64 n file.size) n = n + total files := by
  induction files with
  | nil => exact fun n _ => rfl
  | cons file files ih =>
    intro n bound
    rw [total_cons] at bound ⊢
    rw [List.foldl_cons, add64_eq (by omega), ih _ (by omega), Nat.add_assoc]

namespace PieceList

/-! ## Calls on the list -/

/-- The list, and the indices it has handed out so far. -/
structure Issuing where
  list : PieceList
  issued : List Int := []

inductive Turn where
  | get
  | giveBack (piece : Int)

/-- A call of `get_piece`, or one of `return_piece` with an index that was handed out. -/
def Issuing.step (s : Issuing) : Turn → Option Issuing
  | .get =>
    let (_, pieceIndex, list) := s.list.getPiece
    some ⟨list, if pieceIndex = -1 then s.issued else pieceIndex :: s.issued⟩
  | .giveBack piece =>
    if piece ∈ s.issued then some ⟨s.list.returnPiece (toUInt64 piece), s.issued⟩ else none

theorem Issuing.step_get (s : Issuing) : s.step .get =
    some ⟨s.list.getPiece.2.2,
      if s.list.getPiece.2.1 = -1 then s.issued else s.list.getPiece.2.1 :: s.issued⟩ := rfl

/-- After some calls on the list, `get_piece` returns the size with the index. -/
def Returns (pl : PieceList) (pieceIndex : Int) (size : Nat) : Prop :=
  ∃ s, Reach (· = ⟨pl, []⟩) Issuing.step anyStep s ∧
    s.list.getPiece.1 = size ∧ s.list.getPiece.2.1 = pieceIndex

/-- What every sequence of calls keeps. -/
structure Kept (pl : PieceList) (s : Issuing) : Prop where
  sound : s.list.Sound
  max : s.list.maxPieceNum = pl.maxPieceNum
  sizes : s.list.sizeOf = pl.sizeOf
  queue : ∀ z ∈ s.list.returnedPieces, pl.Contains z
  issued : ∀ z ∈ s.issued, pl.Contains z

variable {pl : PieceList} {s s' : Issuing} {pieceIndex : Int} {size : Nat}

/-- What `get_piece` hands out is an index with its size, or nothing. -/
theorem Kept.getPiece (h : Kept pl s) :
    (s.list.getPiece.2.1 = -1 ∧ s.list.getPiece.2.2 = s.list) ∨
      (pl.Contains s.list.getPiece.2.1 ∧
        s.list.getPiece.1 = pl.sizeOf s.list.getPiece.2.1 ∧
        Kept pl ⟨s.list.getPiece.2.2, s.list.getPiece.2.1 :: s.issued⟩) := by
  have sound := (getPiece_sound h.sound).1
  have max := (getPiece_sound h.sound).2.1
  rcases getPiece_cases h.sound with ⟨z, rest, queued, eq⟩ | ⟨queued, left, eq⟩ | ⟨_, _, eq⟩
  · have contained := h.queue z (queued ▸ List.mem_cons_self)
    rw [eq] at sound max ⊢
    refine Or.inr ⟨contained, by rw [h.sizes], sound, max.trans h.max, h.sizes, ?_, ?_⟩
    · exact fun y hy => h.queue y (queued ▸ List.mem_cons_of_mem z hy)
    · exact List.forall_mem_cons.2 ⟨contained, h.issued⟩
  · have contained : pl.Contains s.list.nextPiece :=
      ⟨Int.natCast_nonneg _, Int.ofNat_le.2 (h.max ▸ left)⟩
    rw [eq] at sound max ⊢
    refine Or.inr ⟨contained, by rw [h.sizes], sound, max.trans h.max, h.sizes, h.queue, ?_⟩
    exact List.forall_mem_cons.2 ⟨contained, h.issued⟩
  · rw [eq]
    exact Or.inl ⟨rfl, rfl⟩

theorem Kept.returnPiece (h : Kept pl s) {piece : Int} (issued : piece ∈ s.issued) :
    Kept pl ⟨s.list.returnPiece (toUInt64 piece), s.issued⟩ := by
  have contained := h.issued piece issued
  have marks : s.list.Marks piece := Or.inr (by rw [Contains, h.max]; exact contained)
  refine ⟨returnPiece_sound h.sound marks, h.max, h.sizes, ?_, h.issued⟩
  rw [returnPiece_index h.sound marks]
  exact List.forall_mem_append.2 ⟨h.queue, List.forall_mem_singleton.2 contained⟩

theorem Kept.step {turn : Turn} (h : Kept pl s) (stepped : s.step turn = some s') : Kept pl s' := by
  cases turn with
  | get =>
    rw [Issuing.step_get, Option.some.injEq] at stepped
    subst stepped
    rcases h.getPiece with ⟨none, same⟩ | ⟨contained, -, kept⟩
    · rw [if_pos none, same]
      exact h
    · have some : s.list.getPiece.2.1 ≠ -1 := by
        have := contained.1
        omega
      rw [if_neg some]
      exact kept
  | giveBack piece =>
    simp only [Issuing.step] at stepped
    split at stepped
    · rename_i issued
      cases stepped
      exact h.returnPiece issued
    · cases stepped

theorem kept_of_reach (fresh : Kept pl ⟨pl, []⟩)
    (h : Reach (· = ⟨pl, []⟩) Issuing.step anyStep s) : Kept pl s :=
  h.invariant (fun _ start => start ▸ fresh) fun _ _ _ kept _ stepped => kept.step stepped

/-- The list after its first calls. -/
def taken (pl : PieceList) (n : Nat) : PieceList := { pl with nextPiece := n }

theorem reach_taken (fresh : pl.Sound) (first : pl.nextPiece = 0) (none : pl.returnedPieces = [])
    {n : Nat} (le : n ≤ pl.maxPieceNum + 1) :
    ∃ issued, Reach (· = ⟨pl, []⟩) Issuing.step anyStep ⟨pl.taken n, issued⟩ := by
  induction n with
  | zero =>
    refine ⟨[], .start ?_⟩
    rw [taken, ← first]
  | succ n ih =>
    obtain ⟨issued, reached⟩ := ih (Nat.le_of_succ_le le)
    have sound : (pl.taken n).Sound := ⟨fresh.max_lt, Nat.le_of_succ_le le, fresh.queue⟩
    have next : (pl.taken n).getPiece = (pl.sizeOf n, (n : Int), pl.taken (n + 1)) := by
      rcases getPiece_cases sound with ⟨z, rest, queued, -⟩ | ⟨-, -, eq⟩ | ⟨-, over_, -⟩
      · exact absurd (queued.symm.trans none) (List.cons_ne_nil _ _)
      · exact eq
      · exact absurd over_ (Nat.not_lt.2 (Nat.le_of_succ_le_succ le))
    refine ⟨(n : Int) :: issued, reached.next trivial (a := .get) ?_⟩
    simp only [Issuing.step, next]
    rw [if_neg (by omega)]

/-- The sizes that are handed out with an index of a piece. -/
theorem returns_iff (fresh : pl.Sound) (first : pl.nextPiece = 0) (none : pl.returnedPieces = [])
    {n : Nat} (le : n ≤ pl.maxPieceNum) : pl.Returns n size ↔ size = pl.sizeOf n := by
  constructor
  · rintro ⟨s, reached, rfl, index⟩
    have kept : Kept pl ⟨pl, []⟩ :=
      ⟨fresh, rfl, rfl, fun z hz => absurd (none ▸ hz) List.not_mem_nil,
        fun z hz => absurd hz List.not_mem_nil⟩
    rcases (kept_of_reach kept reached).getPiece with ⟨minus, -⟩ | ⟨-, eq, -⟩
    · omega
    · rw [eq, index]
  · rintro rfl
    obtain ⟨issued, reached⟩ := reach_taken fresh first none (Nat.le_succ_of_le le)
    have sound : (pl.taken n).Sound := ⟨fresh.max_lt, Nat.le_succ_of_le le, fresh.queue⟩
    refine ⟨_, reached, ?_⟩
    rcases getPiece_cases sound with ⟨z, rest, queued, -⟩ | ⟨-, -, eq⟩ | ⟨-, over_, -⟩
    · exact absurd (queued.symm.trans none) (List.cons_ne_nil _ _)
    · rw [eq]
      exact ⟨rfl, rfl⟩
    · exact absurd over_ (Nat.not_lt.2 le)

end PieceList

/-! ## The pieces of a torrent -/

/-- What `get_piece` returns with the first `n` indices: a size for each of them,
between 1 and `pieceSize`, and together the size of the torrent. -/
structure CutInto (pl : PieceList) (n pieceSize fullSize : Nat) : Prop where
  by_index : ∀ i < n, ∀ size size', pl.Returns i size → pl.Returns i size' → size = size'
  range : ∀ i < n, ∀ size, pl.Returns i size → 1 ≤ size ∧ size ≤ pieceSize
  sum : ∃ sizes : Nat → Nat, (∀ i < n, pl.Returns i (sizes i)) ∧
    ∑ i ∈ Finset.range n, sizes i = fullSize

/-- A torrent as its file describes it, with a hash for every piece. -/
structure Described (tf : TorrentFile) : Prop where
  unset : tf.fullSize = 0
  pieceSize_pos : 0 < tf.pieceSize
  total_pos : 0 < total tf.files
  total_lt : total tf.files < 2 ^ 64
  hashes : tf.pieces.val.length = total tf.files ⌈/⌉ tf.pieceSize

section
variable {fullSize pieceSize last : Nat}

/-- The size of the last piece. -/
theorem last_of_ceilDiv (hT : 0 < fullSize) (hP : 0 < pieceSize) :
    ∃ n last, fullSize ⌈/⌉ pieceSize = n + 1 ∧ fullSize = pieceSize * n + last ∧ 1 ≤ last ∧
      last ≤ pieceSize := by
  have covers : fullSize ≤ pieceSize * (fullSize ⌈/⌉ pieceSize) :=
    (ceilDiv_le_iff_le_mul hP).1 (Nat.le_refl _)
  have least (n : Nat) : fullSize ⌈/⌉ pieceSize ≤ n ↔ fullSize ≤ pieceSize * n :=
    ceilDiv_le_iff_le_mul hP
  generalize fullSize ⌈/⌉ pieceSize = count at covers least
  cases count with
  | zero =>
    rw [Nat.mul_zero] at covers
    omega
  | succ n =>
    have short : ¬ fullSize ≤ pieceSize * n := fun le => absurd ((least n).2 le) (by omega)
    rw [Nat.mul_succ] at covers
    exact ⟨n, fullSize - pieceSize * n, rfl, by omega, by omega, by omega⟩

theorem mod_last {n : Nat} (eq : fullSize = pieceSize * n + last) (le : last ≤ pieceSize) :
    fullSize % pieceSize = if last = pieceSize then 0 else last := by
  split
  · rename_i full
    rw [eq, full, ← Nat.mul_succ, Nat.mul_mod_right]
  · rw [eq, Nat.mul_add_mod]
    exact Nat.mod_eq_of_lt (by omega)

end

/-- What is in the list of a described torrent. -/
theorem Described.list {tf : TorrentFile} (h : Described tf) :
    PieceList.new tf.fillPieceOffsets.state = {
      maxPieceNum := tf.pieces.val.length - 1
      lastPieceSize := total tf.files % tf.pieceSize
      pieceSize := tf.pieceSize } := by
  have nonzero : tf.pieceSize ≠ 0 := Nat.ne_of_gt h.pieceSize_pos
  obtain ⟨n, last, count, -⟩ := last_of_ceilDiv h.total_pos h.pieceSize_pos
  have length := h.hashes.trans count
  have pieces : tf.pieces.val ≠ [] := by
    intro none
    rw [none] at length
    cases length
  have full : tf.files.foldl (fun n file => add64 n file.size) tf.fullSize = total tf.files := by
    rw [h.unset, foldl_add64 _ _ (by have := h.total_lt; omega), Nat.zero_add]
  have max := sub64_eq (a := tf.pieces.val.length) (b := 1) (by have := tf.pieces.2; omega)
    (by omega)
  simp only [TorrentFile.fillPieceOffsets, nonzero, pieces, and_false, if_false, full,
    Outcome.state_done, PieceList.new, max]

/-- The sizes that are handed out: the last index has what is left over. -/
theorem Described.returns_iff {tf : TorrentFile} (h : Described tf) {i size : Nat}
    (lt : i < tf.pieces.val.length) :
    (PieceList.new tf.fillPieceOffsets.state).Returns i size ↔
      size = if i = tf.pieces.val.length - 1 then total tf.files % tf.pieceSize
        else tf.pieceSize := by
  have bound := tf.pieces.2
  rw [h.list]
  have sound : PieceList.Sound {
      maxPieceNum := tf.pieces.val.length - 1
      lastPieceSize := total tf.files % tf.pieceSize
      pieceSize := tf.pieceSize } :=
    ⟨by dsimp only; omega, Nat.zero_le _, fun z hz => absurd hz List.not_mem_nil⟩
  have index : toUInt64 (i : Int) = i := toUInt64_of_nonneg (Int.natCast_nonneg i) (by omega)
  rw [PieceList.returns_iff sound rfl rfl (by dsimp only; omega), PieceList.sizeOf, index]

/-- **The sizes of the pieces.** They cut the torrent into pieces exactly when
the last one is shorter than the others. -/
theorem Described.cutInto_iff {tf : TorrentFile} (h : Described tf) :
    CutInto (PieceList.new tf.fillPieceOffsets.state) tf.pieces.val.length tf.pieceSize
      (total tf.files) ↔ ¬ tf.pieceSize ∣ total tf.files := by
  obtain ⟨n, last, count, whole, pos, le⟩ := last_of_ceilDiv h.total_pos h.pieceSize_pos
  have length : tf.pieces.val.length = n + 1 := h.hashes.trans count
  have rest := mod_last whole le
  constructor
  · intro cut divides
    have last_size := (h.returns_iff (i := n) (by omega)).2 (if_pos (by omega)).symm
    have range := cut.range n (by omega) _ last_size
    rw [Nat.mod_eq_zero_of_dvd divides] at range
    omega
  · intro shorter
    have other : last ≠ tf.pieceSize := by
      rintro rfl
      exact shorter ⟨n + 1, by rw [whole, Nat.mul_succ]⟩
    rw [if_neg other] at rest
    constructor
    · intro i lt size size' first second
      rw [(h.returns_iff lt).1 first, (h.returns_iff lt).1 second]
    · intro i lt size returned
      rw [(h.returns_iff lt).1 returned, rest]
      split
      · exact ⟨pos, le⟩
      · exact ⟨h.pieceSize_pos, Nat.le_refl _⟩
    · refine ⟨fun i => if i = n then last else tf.pieceSize, fun i lt => ?_, ?_⟩
      · rw [h.returns_iff lt, rest, length, Nat.add_sub_cancel]
      · have front : ∑ i ∈ Finset.range n, (if i = n then last else tf.pieceSize) =
            ∑ _i ∈ Finset.range n, tf.pieceSize :=
          Finset.sum_congr rfl fun i hi => if_neg (Nat.ne_of_lt (Finset.mem_range.1 hi))
        rw [length, Finset.sum_range_succ, if_pos rfl, front, Finset.sum_const,
          Finset.card_range, smul_eq_mul, Nat.mul_comm, whole]

/-- Pieces of four bytes, two of them hashed. -/
def twoPieces (size : Nat) : TorrentFile where
  pieces := (twoFiles size 0).pieces
  files := [{ size := size }]
  pieceSize := 4

theorem Described.cutInto_seven :
    CutInto (PieceList.new (twoPieces 7).fillPieceOffsets.state) 2 4 7 := by
  have described : Described (twoPieces 7) := ⟨rfl, by decide, by decide, by decide, by decide⟩
  exact (Described.cutInto_iff described).2 (by decide)

/-- Eight bytes in two pieces of four: the second is handed out with the size 0. -/
theorem last_piece_empty :
    Described (twoPieces 8) ∧
      ¬ CutInto (PieceList.new (twoPieces 8).fillPieceOffsets.state) 2 4 8 := by
  have described : Described (twoPieces 8) := ⟨rfl, by decide, by decide, by decide, by decide⟩
  refine ⟨described, fun cut => ?_⟩
  have last_size := (described.returns_iff (i := 1) (by decide)).2 rfl
  exact absurd (cut.range 1 (by decide) _ last_size).1 (by decide)

end TorrentClient
