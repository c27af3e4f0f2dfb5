import TorrentClient.Thrown

/-!
# The layout of a torrent's files

`torrent_file.hpp` and `TorrentFile::fill_piece_offsets`: the files of a torrent
lie end to end, and each of them is told at which piece and offset it starts
and ends.
-/

namespace TorrentClient

structure OffsetInPiece where
  index : Nat
  offset : Nat
  deriving DecidableEq, Repr

structure FileInfo where
  path : List Bytes := []
  dirName : Bytes := []
  md5Sum : Bytes := []
  size : Nat := 0
  firstPiece : OffsetInPiece := ⟨0, 0⟩
  lastPiece : OffsetInPiece := ⟨0, 0⟩
  deriving DecidableEq, Repr

structure TorrentFile where
  pieces : StdVector Bytes
  files : List FileInfo
  pieceSize : Nat
  lastPieceSize : Nat := 0
  fullSize : Nat := 0

/-- The loop of `fill_piece_offsets`, from the file at `pieceIndex` and `offset` on. -/
def layFiles (pieceSize : Nat) : Nat → Nat → List FileInfo → List FileInfo
  | _, _, [] => []
  | pieceIndex, offset, file :: files =>
    let reached := add64 offset file.size
    let lastIndex := add64 pieceIndex (reached / pieceSize)
    let rest := reached % pieceSize
    { file with
      firstPiece := ⟨pieceIndex, offset⟩
      lastPiece := ⟨lastIndex, if rest = 0 then pieceSize else rest⟩ } ::
    layFiles pieceSize (if rest = 0 then add64 lastIndex 1 else lastIndex) rest files

def TorrentFile.fillPieceOffsets (tf : TorrentFile) : Outcome Thrown TorrentFile Unit :=
  if tf.files ≠ [] ∧ tf.pieceSize = 0 then .fault .divisionByZero tf
  else
    let tf := { tf with
      fullSize := tf.files.foldl (fun n file => add64 n file.size) tf.fullSize
      files := layFiles tf.pieceSize 0 0 tf.files }
    if tf.pieces.val = [] then .thrown (.runtimeError "empty pieces list") tf
    else if tf.pieceSize = 0 then .fault .divisionByZero tf
    else .done () { tf with lastPieceSize := tf.fullSize % tf.pieceSize }

/-! ## Files end to end -/

/-- The total size of the files. -/
def total (files : List FileInfo) : Nat := (files.map (·.size)).sum

@[simp] theorem total_nil : total [] = 0 := rfl
@[simp] theorem total_cons (file : FileInfo) (files : List FileInfo) :
    total (file :: files) = file.size + total files := rfl

/-- The position a pair of a piece index and an offset stands for. -/
def OffsetInPiece.position (pieceSize : Nat) (p : OffsetInPiece) : Nat :=
  p.index * pieceSize + p.offset

/-- The file starts at `start`, and ends where its size says if it is not empty. -/
structure Placed (pieceSize start : Nat) (file : FileInfo) : Prop where
  first_lt : file.firstPiece.offset < pieceSize
  first : file.firstPiece.position pieceSize = start
  last_range : 0 < file.size → 1 ≤ file.lastPiece.offset ∧ file.lastPiece.offset ≤ pieceSize
  last : 0 < file.size → file.lastPiece.position pieceSize = start + file.size

/-- Every file is placed behind those in front of it, the first one at `base`. -/
def LaidOut (pieceSize base : Nat) (files : List FileInfo) : Prop :=
  ∀ front file back, files = front ++ file :: back → Placed pieceSize (base + total front) file

/-- No file that is followed by another, or is not empty, ends on a boundary
between two pieces. -/
def OffBoundaries (pieceSize base : Nat) (files : List FileInfo) : Prop :=
  ∀ front file back, files = front ++ file :: back → back ≠ [] ∨ 0 < file.size →
    (base + total front + file.size) % pieceSize ≠ 0

theorem forall_split_cons {Q : List FileInfo → FileInfo → List FileInfo → Prop}
    {file : FileInfo} {files : List FileInfo} :
    (∀ front f back, file :: files = front ++ f :: back → Q front f back) ↔
      Q [] file files ∧ ∀ front f back, files = front ++ f :: back → Q (file :: front) f back := by
  constructor
  · intro h
    exact ⟨h [] file files rfl, fun front f back eq => h (file :: front) f back (by simp [eq])⟩
  · rintro ⟨head, tail⟩ front f back eq
    cases front with
    | nil => cases eq; exact head
    | cons g front =>
      simp only [List.cons_append, List.cons.injEq] at eq
      obtain ⟨rfl, eq⟩ := eq
      exact tail front f back eq

theorem laidOut_cons {pieceSize base : Nat} {file : FileInfo} {files : List FileInfo} :
    LaidOut pieceSize base (file :: files) ↔
      Placed pieceSize base file ∧ LaidOut pieceSize (base + file.size) files := by
  simp only [LaidOut, forall_split_cons, total_nil, total_cons, Nat.add_zero, Nat.add_assoc]

theorem offBoundaries_cons {pieceSize base : Nat} {file : FileInfo} {files : List FileInfo} :
    OffBoundaries pieceSize base (file :: files) ↔
      (files ≠ [] ∨ 0 < file.size → (base + file.size) % pieceSize ≠ 0) ∧
      OffBoundaries pieceSize (base + file.size) files := by
  simp only [OffBoundaries, forall_split_cons, total_nil, total_cons, Nat.zero_add,
    Nat.add_assoc]

theorem laidOut_nil (pieceSize base : Nat) : LaidOut pieceSize base [] := by
  intro front file back eq
  simp at eq

theorem offBoundaries_nil (pieceSize base : Nat) : OffBoundaries pieceSize base [] := by
  intro front file back eq
  simp at eq

/-- A file that ends on a boundary sends the next one to the piece after the
one it should start in. -/
theorem not_laidOut_after_boundary {pieceSize lastIndex base : Nat} {files : List FileInfo}
    (pos : 0 < pieceSize) (at_base : lastIndex * pieceSize = base) (base_lt : base < 2 ^ 64)
    (h : files ≠ []) :
    ¬ LaidOut pieceSize base (layFiles pieceSize (add64 lastIndex 1) 0 files) := by
  cases files with
  | nil => exact absurd rfl h
  | cons file files =>
    simp only [layFiles, laidOut_cons]
    rintro ⟨placed, -⟩
    have first := placed.first
    simp only [OffsetInPiece.position, Nat.add_zero] at first
    have le : lastIndex ≤ base := at_base ▸ Nat.le_mul_of_pos_right _ pos
    by_cases wraps : lastIndex + 1 < 2 ^ 64
    · rw [add64_eq wraps, Nat.succ_mul] at first
      omega
    · have zero : add64 lastIndex 1 = 0 := by
        unfold add64
        omega
      rw [zero] at first
      omega

/-- One file, from a pair that stands for its position: the start is right, and
the end is right unless it lies on a boundary. -/
theorem placed_iff {pieceSize pieceIndex offset base lastIndex rest : Nat} {file : FileInfo}
    (at_base : pieceIndex * pieceSize + offset = base) (offset_lt : offset < pieceSize)
    (rest_lt : rest < pieceSize) (at_end : lastIndex * pieceSize + rest = base + file.size) :
    Placed pieceSize base { file with
      firstPiece := ⟨pieceIndex, offset⟩
      lastPiece := ⟨lastIndex, if rest = 0 then pieceSize else rest⟩ } ↔
    (0 < file.size → rest ≠ 0) := by
  constructor
  · intro placed nonempty on_boundary
    have last := placed.last nonempty
    simp only [OffsetInPiece.position, if_pos on_boundary] at last
    omega
  · intro off
    refine ⟨offset_lt, at_base, ?_, ?_⟩ <;> intro nonempty
    · simp only [if_neg (off nonempty)]
      exact ⟨Nat.pos_of_ne_zero (off nonempty), Nat.le_of_lt rest_lt⟩
    · simp only [OffsetInPiece.position, if_neg (off nonempty)]
      exact at_end

/-- The loop, from a pair that stands for the right position. -/
theorem layFiles_laidOut {pieceSize : Nat} (pos : 0 < pieceSize) (files : List FileInfo) :
    ∀ {pieceIndex offset base : Nat}, pieceIndex * pieceSize + offset = base →
      offset < pieceSize → base + total files < 2 ^ 64 →
      (LaidOut pieceSize base (layFiles pieceSize pieceIndex offset files) ↔
        OffBoundaries pieceSize base files) := by
  induction files with
  | nil =>
    intro _ _ base _ _ _
    exact iff_of_true (laidOut_nil _ _) (offBoundaries_nil _ _)
  | cons file files ih =>
    intro pieceIndex offset base at_base offset_lt bound
    simp only [total_cons] at bound
    have reached : add64 offset file.size = offset + file.size := add64_eq (by omega)
    have divided := Nat.div_add_mod (offset + file.size) pieceSize
    have rest_lt : (offset + file.size) % pieceSize < pieceSize := Nat.mod_lt _ pos
    have at_end : (pieceIndex + (offset + file.size) / pieceSize) * pieceSize +
        (offset + file.size) % pieceSize = base + file.size := by
      rw [Nat.add_mul, Nat.mul_comm (_ / _)]
      omega
    have index_le := Nat.le_mul_of_pos_right
      (pieceIndex + (offset + file.size) / pieceSize) pos
    have lastIndex : add64 pieceIndex ((offset + file.size) / pieceSize) =
        pieceIndex + (offset + file.size) / pieceSize := add64_eq (by omega)
    have rest_eq : (base + file.size) % pieceSize = (offset + file.size) % pieceSize := by
      rw [← at_end, Nat.mul_add_mod_of_lt rest_lt]
    simp only [layFiles, reached, lastIndex]
    rw [laidOut_cons, placed_iff at_base offset_lt rest_lt at_end, offBoundaries_cons, rest_eq]
    by_cases on_boundary : (offset + file.size) % pieceSize = 0
    · simp only [on_boundary, Nat.add_zero] at at_end
      by_cases last : files = []
      · subst last
        simp [on_boundary, layFiles, laidOut_nil, offBoundaries_nil]
      · have shifted := not_laidOut_after_boundary pos at_end (by omega) last
        simp [on_boundary, last, shifted]
    · simp only [if_neg on_boundary, ih at_end rest_lt (by omega)]
      simp [on_boundary]

theorem layFiles_sizes (pieceSize : Nat) (files : List FileInfo) :
    ∀ pieceIndex offset, (layFiles pieceSize pieceIndex offset files).map (·.size) =
      files.map (·.size) := by
  induction files with
  | nil => exact fun _ _ => rfl
  | cons file files ih =>
    intro pieceIndex offset
    simp only [layFiles, List.map_cons, ih]

theorem fillPieceOffsets_files (tf : TorrentFile) (pos : 0 < tf.pieceSize) :
    tf.fillPieceOffsets.state.files = layFiles tf.pieceSize 0 0 tf.files := by
  have nonzero : tf.pieceSize ≠ 0 := Nat.ne_of_gt pos
  unfold TorrentFile.fillPieceOffsets
  rw [if_neg fun h => nonzero h.2]
  dsimp only
  split <;> rfl

/-- The files keep their sizes and lie end to end on the piece grid. -/
def EndToEnd (tf : TorrentFile) (laid : List FileInfo) : Prop :=
  laid.map (·.size) = tf.files.map (·.size) ∧ LaidOut tf.pieceSize 0 laid

/-- **Where `fill_piece_offsets` puts the files.** They lie end to end on the
piece grid exactly when none of them, unless it is an empty last one, ends on a
boundary between two pieces. -/
theorem fillPieceOffsets_endToEnd (tf : TorrentFile) (pos : 0 < tf.pieceSize)
    (bound : total tf.files < 2 ^ 64) :
    EndToEnd tf tf.fillPieceOffsets.state.files ↔ OffBoundaries tf.pieceSize 0 tf.files := by
  rw [EndToEnd, fillPieceOffsets_files tf pos,
    layFiles_laidOut pos tf.files (Nat.add_eq_zero_iff.2 ⟨Nat.zero_mul _, rfl⟩) pos
      (by omega)]
  exact and_iff_right (layFiles_sizes _ _ _ _)

/-- Two files over pieces of four bytes, the first of which fills one. -/
def twoFiles (first second : Nat) : TorrentFile where
  pieces := ⟨[[], []], by decide⟩
  files := [{ path := [[97]], size := first }, { path := [[98]], size := second }]
  pieceSize := 4

theorem fillPieceOffsets_endToEnd_three_four :
    EndToEnd (twoFiles 3 4) (twoFiles 3 4).fillPieceOffsets.state.files := by
  apply (fillPieceOffsets_endToEnd (twoFiles 3 4) (by decide) (by decide)).2
  simp [twoFiles, offBoundaries_cons, offBoundaries_nil]

/-- The second file starts where the first ends, at the start of the second
piece, but is placed in the third. -/
theorem fillPieceOffsets_skips_piece :
    0 < (twoFiles 4 3).pieceSize ∧ total (twoFiles 4 3).files < 2 ^ 64 ∧
    ¬ EndToEnd (twoFiles 4 3) (twoFiles 4 3).fillPieceOffsets.state.files := by
  refine ⟨by decide, by decide, ?_⟩
  rintro ⟨-, laid⟩
  have second :=
    laid [⟨[[97]], [], [], 4, ⟨0, 0⟩, ⟨1, 4⟩⟩] ⟨[[98]], [], [], 3, ⟨2, 0⟩, ⟨2, 3⟩⟩ []
      (by decide)
  exact absurd second.first (by decide)

end TorrentClient
