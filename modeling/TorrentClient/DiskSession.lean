import TorrentClient.Disk
import TorrentClient.Session

/-!
# From a torrent to its files

The client of a session with a seeder writes to the open files of its torrent.
-/

namespace TorrentClient

variable {β γ : Type}

/-- The open files as the peers share them. -/
structure Disk (γ : Type) where
  pwrite : Pwrite
  opened : OpenFiles γ

/-- The bytes of a piece that was never received are not there to be written. -/
instance [BitSet γ] : Files (Disk γ) where
  writePiece disk id source size :=
    match source.bind writtenBytes with
    | none => .fault .outOfBounds disk
    | some bytes =>
      (OpenFiles.writePiece disk.pwrite id bytes size disk.opened).lift fun opened =>
        { disk with opened := opened }

/-- The contents of the pieces of a torrent, from one of them on. -/
def piecesFrom (stream : Bytes) (pieceSize i n : Nat) : List Bytes :=
  (List.range' i n).map (pieceOf stream pieceSize)

section
variable [BitSet γ] [BoundBitSet γ] {pwrite : Pwrite} {stream : Bytes} {pieceSize : Nat}
  {infos : List FileInfo}

/-- The open files accept a piece of the stream. -/
theorem OpenFiles.Ready.accepts {o : OpenFiles γ} (ready : OpenFiles.Ready infos pieceSize o)
    (grid : OpenFiles.Grid infos pieceSize stream)
    (all : ∀ size position, (pwrite size position).count = some size) {id : Nat}
    (inside : id * pieceSize < total infos) :
    ∃ o', OpenFiles.writePiece pwrite id (pieceOf stream pieceSize id)
        (pieceOf stream pieceSize id).length o = .done () o' ∧
      Files.writePiece (⟨pwrite, o⟩ : Disk γ) id (some ((pieceOf stream pieceSize id).map some))
        (pieceOf stream pieceSize id).length = .done () ⟨pwrite, o'⟩ ∧
      OpenFiles.Ready infos pieceSize o' ∧
      o'.files.val = o.files.val.map (File.after pwrite stream pieceSize [id]) := by
  obtain ⟨o', wrote, ready', files⟩ := ready.writePiece grid all inside
  refine ⟨o', wrote, ?_, ready', files⟩
  simp only [Files.writePiece, Option.bind_some, writtenBytes_some, wrote, Outcome.lift_done]

/-- The open files accept the pieces in their order. -/
theorem OpenFiles.Ready.stores (grid : OpenFiles.Grid infos pieceSize stream)
    (all : ∀ size position, (pwrite size position).count = some size) (n : Nat) :
    ∀ {i : Nat} {o : OpenFiles γ}, OpenFiles.Ready infos pieceSize o →
      (∀ id < i + n, id * pieceSize < total infos) →
      ∃ o' : OpenFiles γ, Stores (⟨pwrite, o⟩ : Disk γ) i (piecesFrom stream pieceSize i n)
          ⟨pwrite, o'⟩ ∧ OpenFiles.Ready infos pieceSize o' ∧
        o'.files.val = o.files.val.map (File.after pwrite stream pieceSize (List.range' i n)) := by
  induction n with
  | zero =>
    intro i o ready _
    exact ⟨o, .nil _ i, ready, (List.map_id _).symm⟩
  | succ n ih =>
    intro i o ready inside
    obtain ⟨mid, -, accepted, ready', files⟩ := ready.accepts grid all (inside i (by omega))
    obtain ⟨o', later, ready'', files'⟩ := ih (i := i + 1) ready' fun id below =>
      inside id (by omega)
    refine ⟨o', .cons accepted later, ready'', ?_⟩
    rw [files', files, List.map_map]
    rfl

end

/-! ## The torrent -/

theorem pieceOf_length (stream : Bytes) (pieceSize id : Nat) :
    (pieceOf stream pieceSize id).length = min pieceSize (stream.length - id * pieceSize) := by
  rw [pieceOf, List.length_take, List.length_drop]

/-- Behind a file that is not empty no piece ends. -/
theorem OffBoundaries.total {pieceSize : Nat} {files : List FileInfo} (some : files ≠ [])
    (nonempty : ∀ file ∈ files, 0 < file.size) :
    ∀ {base : Nat}, OffBoundaries pieceSize base files →
      (base + TorrentClient.total files) % pieceSize ≠ 0 := by
  induction files with
  | nil => exact absurd rfl some
  | cons file files ih =>
    intro base off
    obtain ⟨first, rest⟩ := offBoundaries_cons.1 off
    by_cases last : files = []
    · subst last
      rw [total_cons, total_nil]
      exact first (Or.inr (nonempty file List.mem_cons_self))
    · rw [total_cons, ← Nat.add_assoc]
      exact ih last (fun f mem => nonempty f (List.mem_cons_of_mem file mem)) rest

/-- A torrent with a hash for each piece, whose files are not empty and do not end where a
piece does, with the stream of their bytes. -/
structure Streamed (tf : TorrentFile) (stream : Bytes) : Prop where
  described : Described tf
  off : OffBoundaries tf.pieceSize 0 tf.files
  nonempty : ∀ file ∈ tf.files, 0 < file.size
  small : total tf.files + tf.pieceSize < 2 ^ 60
  length : stream.length = total tf.files

/-- The contents of all the pieces. -/
def TorrentFile.contents (tf : TorrentFile) (stream : Bytes) : List Bytes :=
  piecesFrom stream tf.pieceSize 0 tf.pieces.val.length

section
variable {tf : TorrentFile} {stream : Bytes}

theorem contents_length : (tf.contents stream).length = tf.pieces.val.length := by
  rw [TorrentFile.contents, piecesFrom, List.length_map, List.length_range']

theorem contents_getElem? {i : Nat} (below : i < tf.pieces.val.length) :
    (tf.contents stream)[i]? = some (pieceOf stream tf.pieceSize i) := by
  rw [TorrentFile.contents, piecesFrom, List.getElem?_map, List.getElem?_range' below]
  simp

namespace Streamed

variable (h : Streamed tf stream)
include h

theorem pieces : ∃ n last, tf.pieces.val.length = n + 1 ∧
    total tf.files = n * tf.pieceSize + last ∧ 0 < last ∧ last < tf.pieceSize ∧
    total tf.files % tf.pieceSize = last := by
  obtain ⟨n, last, count, sum, pos, le⟩ :=
    last_of_ceilDiv h.described.total_pos h.described.pieceSize_pos
  have some : tf.files ≠ [] := by
    intro none
    have pos := h.described.total_pos
    rw [none, total_nil] at pos
    omega
  have off := h.off.total some h.nonempty
  rw [Nat.zero_add] at off
  have rest := mod_last sum le
  rw [Nat.mul_comm] at sum
  split at rest
  · exact absurd rest off
  · exact ⟨n, last, h.described.hashes.trans count, sum, pos, by omega, rest⟩

/-- The pieces are those that start inside the torrent. -/
theorem inside_iff (id : Nat) :
    id < tf.pieces.val.length ↔ id * tf.pieceSize < total tf.files := by
  obtain ⟨n, last, count, sum, pos, lt, -⟩ := h.pieces
  rw [count, sum]
  constructor
  · intro below
    have := Nat.mul_le_mul_right tf.pieceSize (Nat.le_of_lt_succ below)
    omega
  · intro inside
    by_contra above
    have := Nat.mul_le_mul_right tf.pieceSize (Nat.le_of_not_lt above)
    rw [Nat.succ_mul] at this
    omega

theorem layout : tf.fillPieceOffsets.state.files = layFiles tf.pieceSize 0 0 tf.files ∧
    tf.fillPieceOffsets.state.pieceSize = tf.pieceSize ∧
    tf.fillPieceOffsets.state.pieces = tf.pieces := by
  refine ⟨fillPieceOffsets_files tf h.described.pieceSize_pos, ?_, ?_⟩
  all_goals
    have nonzero : tf.pieceSize ≠ 0 := Nat.ne_of_gt h.described.pieceSize_pos
    unfold TorrentFile.fillPieceOffsets
    rw [if_neg fun zero => nonzero zero.2]
    dsimp only
    split <;> rfl

theorem grid : OpenFiles.Grid tf.fillPieceOffsets.state.files
    tf.fillPieceOffsets.state.pieceSize stream := by
  obtain ⟨files, size, -⟩ := h.layout
  have sizes := layFiles_sizes tf.pieceSize tf.files 0 0
  have same : total (layFiles tf.pieceSize 0 0 tf.files) = total tf.files :=
    congrArg List.sum sizes
  have pos := h.described.pieceSize_pos
  have small := h.small
  rw [files, size]
  refine ⟨?_, ?_, h.length.trans same.symm, by rw [same]; exact h.small⟩
  · exact (layFiles_laidOut pos tf.files (by omega) pos (by omega)).2 h.off
  · intro file mem
    have there := List.mem_map_of_mem (f := FileInfo.size) mem
    rw [sizes] at there
    obtain ⟨original, mem', eq⟩ := List.mem_map.1 there
    rw [← eq]
    exact h.nonempty original mem'

/-- The pieces are those that start inside the files. -/
theorem inside_total (id : Nat) : id < tf.pieces.val.length ↔
    id * tf.pieceSize < total tf.fillPieceOffsets.state.files := by
  rw [h.inside_iff, ← h.length, h.grid.whole]

/-- The list of pieces has the size of each. -/
theorem sizeOf {i : Nat} (below : i < tf.pieces.val.length) :
    (PieceList.new tf.fillPieceOffsets.state).sizeOf i =
      (pieceOf stream tf.pieceSize i).length := by
  obtain ⟨n, last, count, sum, pos, lt, rest⟩ := h.pieces
  have bound := tf.pieces.2
  have index : toUInt64 (i : Int) = i := toUInt64_of_nonneg (Int.natCast_nonneg i) (by omega)
  rw [h.described.list, PieceList.sizeOf, index, pieceOf_length, h.length]
  dsimp only
  split
  · have here : i = n := by omega
    rw [rest, here]
    omega
  · have inner := piece_before (show i < n by omega) tf.pieceSize
    omega

end Streamed

end

/-! ## The session -/

/-- A client whose files are open and new, with a list of all the pieces, in front of a seeder.
Every write to the disk succeeds. -/
structure Peer.Opened [BitSet β] [BitSet γ] (tf : TorrentFile) (stream : Bytes)
    (s : Peer β (Disk γ)) : Prop where
  list : s.shared.pieceList = .new tf.fillPieceOffsets.state
  files : Files.Constructed tf.fillPieceOffsets.state s.shared.files.opened.files.val
  calls : s.shared.files.opened.calls = []
  writes : ∀ size position, (s.shared.files.pwrite size position).count = some size
  idle : ∀ m ∈ s.protocol.messages, reply (tf.contents stream) m = none
  whole : Whole (tf.contents stream) s.protocol.clientsPieces

variable [BitSet β] [BitSet γ] [BoundBitSet γ] {tf : TorrentFile} {stream : Bytes}
  {s : Peer β (Disk γ)}

omit [BoundBitSet γ] in
theorem Peer.Opened.fresh (opened : s.Opened tf stream) (h : Streamed tf stream) :
    s.Fresh (tf.contents stream) := by
  refine ⟨⟨tf.fillPieceOffsets.state, ?_, opened.list⟩, ?_, opened.idle⟩
  · rw [h.layout.2.2, contents_length]
  · intro i content at_i
    have below : i < tf.pieces.val.length := by
      rw [← @contents_length tf stream]
      exact (List.getElem?_eq_some_iff.1 at_i).1
    rw [contents_getElem? below] at at_i
    cases at_i
    rw [opened.list]
    exact h.sizeOf below

/-- The files accept the pieces, and hold what they then should. -/
theorem Peer.Opened.stores (opened : s.Opened tf stream) (h : Streamed tf stream) :
    ∃ after : Disk γ, Stores s.shared.files 0 (tf.contents stream) after ∧
      after.opened.files.val.map (·.content) = tf.fillPieceOffsets.state.stored stream := by
  obtain ⟨files, size, pieces⟩ := h.layout
  have grid := h.grid
  obtain ⟨ready, created⟩ := OpenFiles.Ready.new opened.files grid
  have start : s.shared.files = ⟨s.shared.files.pwrite, ⟨s.shared.files.opened.files, []⟩⟩ := by
    rw [← opened.calls]
  have inside := h.inside_total
  rw [← size] at inside
  obtain ⟨o, stores, -, same⟩ := ready.stores grid opened.writes tf.pieces.val.length
    (i := 0) fun id below => (inside id).1 (by omega)
  refine ⟨⟨s.shared.files.pwrite, o⟩, ?_, ?_⟩
  · rw [start, TorrentFile.contents, ← size]
    exact stores
  · apply ready.contents created grid opened.writes ?_ same
    intro id started
    rw [List.mem_range'_1]
    have := (inside id).2 started
    omega

end TorrentClient
