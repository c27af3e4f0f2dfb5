import TorrentClient.DiskSession
import TorrentClient.Seeders

/-!
# The files of a swarm

Any number of peers write to the open files of their torrent. When what they send is right,
the files are right.
-/

namespace TorrentClient

variable {β φ : Type}

namespace OpenFiles

variable {γ : Type} [BitSet γ] {pwrite : Pwrite} {stream : Bytes} {pieceSize : Nat}

theorem writePieces_append (ids ids' : List Nat) : ∀ o : OpenFiles γ,
    writePieces pwrite stream pieceSize (ids ++ ids') o =
      (writePieces pwrite stream pieceSize ids o).bind fun _ =>
        writePieces pwrite stream pieceSize ids' := by
  induction ids with
  | nil => exact fun _ => rfl
  | cons id ids ih =>
    intro o
    rw [List.cons_append, writePieces, writePieces, Outcome.bind_assoc]
    congr 1
    funext _ o
    exact ih o

end OpenFiles

section
variable {γ : Type} [BitSet γ] [BoundBitSet γ] {pwrite : Pwrite} {stream : Bytes}
  {pieceSize n : Nat} {infos : List FileInfo} {o : OpenFiles γ}

omit [BitSet γ] [BoundBitSet γ] in
theorem piecesFrom_getElem? {i : Nat} {content : Bytes}
    (at_i : (piecesFrom stream pieceSize 0 n)[i]? = some content) :
    i < n ∧ content = pieceOf stream pieceSize i := by
  rw [piecesFrom, List.getElem?_map] at at_i
  obtain ⟨j, at_j, rfl⟩ := Option.map_eq_some_iff.1 at_i
  obtain ⟨below, eq⟩ := List.getElem?_eq_some_iff.1 at_j
  rw [List.length_range'] at below
  rw [List.getElem_range'] at eq
  obtain rfl : i = j := by omega
  exact ⟨below, rfl⟩

/-- Writes of whole pieces never fail, and are writes of the pieces of the stream. -/
theorem Writes.disk (ready : OpenFiles.Ready infos pieceSize o)
    (grid : OpenFiles.Grid infos pieceSize stream)
    (all : ∀ size position, (pwrite size position).count = some size)
    (inside : ∀ id < n, id * pieceSize < total infos) {calls : List Call} {disk : Disk γ}
    (h : Writes (piecesFrom stream pieceSize 0 n) ⟨pwrite, o⟩ calls disk) :
    ∃ ids o', disk = ⟨pwrite, o'⟩ ∧
      calls = ids.map (fun id => .writePiece id (some ((pieceOf stream pieceSize id).map some))
        (pieceOf stream pieceSize id).length true) ∧
      (∀ id ∈ ids, id < n) ∧
      OpenFiles.writePieces pwrite stream pieceSize ids o = .done () o' := by
  have reached {ids : List Nat} {o' : OpenFiles γ} (below : ∀ id ∈ ids, id < n)
      (wrote : OpenFiles.writePieces pwrite stream pieceSize ids o = .done () o') :
      OpenFiles.Ready infos pieceSize o' := by
    obtain ⟨o'', wrote', ready', -⟩ :=
      ready.writePieces grid all ids fun id mem => inside id (below id mem)
    cases wrote.symm.trans wrote'
    exact ready'
  induction h with
  | nil => exact ⟨[], o, rfl, rfl, fun _ mem => absurd mem List.not_mem_nil, rfl⟩
  | threw _ at_i threw ih =>
    obtain ⟨ids, o', rfl, -, below, wrote⟩ := ih
    obtain ⟨here, rfl⟩ := piecesFrom_getElem? at_i
    obtain ⟨_, -, accepted, -⟩ := (reached below wrote).accepts grid all (inside _ here)
    cases threw.symm.trans accepted
  | @returned _ _ _ i _ _ at_i returned ih =>
    obtain ⟨ids, o', rfl, rfl, below, wrote⟩ := ih
    obtain ⟨here, rfl⟩ := piecesFrom_getElem? at_i
    obtain ⟨o'', wrote', accepted, -⟩ := (reached below wrote).accepts grid all (inside _ here)
    cases returned.symm.trans accepted
    refine ⟨ids ++ [i], o'', rfl, ?_, ?_, ?_⟩
    · rw [List.map_append]
      rfl
    · intro id mem
      rcases List.mem_append.1 mem with old | new
      · exact below id old
      · exact List.mem_singleton.1 new ▸ here
    · rw [OpenFiles.writePieces_append, wrote, Outcome.bind_done, OpenFiles.writePieces, wrote']
      rfl

end

section
variable {tf : TorrentFile} {stream : Bytes}

theorem Streamed.lists (h : Streamed tf stream) :
    (PieceList.new tf.fillPieceOffsets.state).Lists (tf.contents stream) := by
  have pos : 0 < tf.pieces.val.length := by
    obtain ⟨n, _, count, -⟩ := h.pieces
    omega
  have word := tf.pieces.property
  refine ⟨?_, ?_, ?_⟩
  · rw [contents_length, ← h.layout.2.2]
    rw [← h.layout.2.2] at pos word
    have max : (PieceList.new tf.fillPieceOffsets.state).maxPieceNum =
        tf.fillPieceOffsets.state.pieces.val.length - 1 := sub64_eq (by omega) (by omega)
    omega
  · intro i content at_i
    obtain ⟨below, rfl⟩ := piecesFrom_getElem? at_i
    exact h.sizeOf below
  · intro content mem
    obtain ⟨i, at_i⟩ := List.getElem?_of_mem mem
    obtain ⟨-, rfl⟩ := piecesFrom_getElem? at_i
    have small := h.small
    rw [pieceOf_length]
    omega

end

section
variable {γ : Type} [BitSet γ] [BoundBitSet γ] {tf : TorrentFile} {stream : Bytes}
  {pwrite : Pwrite} {files : StdVector (File γ)}

/-- What writes of whole pieces make of new files. -/
theorem Streamed.written (h : Streamed tf stream)
    (constructed : Files.Constructed tf.fillPieceOffsets.state files.val)
    (all : ∀ size position, (pwrite size position).count = some size) {calls : List Call}
    {disk : Disk γ} (writes : Writes (tf.contents stream) ⟨pwrite, files, []⟩ calls disk) :
    ∃ ids o', disk = ⟨pwrite, o'⟩ ∧
      calls = ids.map (fun id => .writePiece id
        (some ((pieceOf stream tf.pieceSize id).map some))
        (pieceOf stream tf.pieceSize id).length true) ∧
      (∀ id ∈ ids, id < tf.pieces.val.length) ∧
      OpenFiles.writePieces pwrite stream tf.pieceSize ids ⟨files, []⟩ = .done () o' ∧
      OpenFiles.Ready tf.fillPieceOffsets.state.files tf.pieceSize o' ∧
      ((∀ id < tf.pieces.val.length, id ∈ ids) → o'.files.val.map (·.content) =
        tf.fillPieceOffsets.state.stored stream) := by
  have grid := h.grid
  obtain ⟨ready, created⟩ := OpenFiles.Ready.new constructed grid
  have inside := h.inside_total
  rw [h.layout.2.1] at grid ready
  obtain ⟨ids, o', disk, made, below, wrote⟩ :=
    writes.disk ready grid all fun id below => (inside id).1 below
  obtain ⟨o'', wrote', ready', same⟩ := OpenFiles.Ready.writePieces grid all ids ready
    fun id mem => (inside id).1 (below id mem)
  cases wrote.symm.trans wrote'
  refine ⟨ids, o', disk, made, below, wrote, ready', fun every => ?_⟩
  rw [← h.layout.2.1] at grid ready same
  exact ready.contents created grid all (fun id started =>
    every id ((inside id).2 (h.layout.2.1 ▸ started))) same

/-- New files take whole pieces in any order. -/
theorem Streamed.accepts (h : Streamed tf stream)
    (constructed : Files.Constructed tf.fillPieceOffsets.state files.val)
    (all : ∀ size position, (pwrite size position).count = some size) :
    Accepts (tf.contents stream) (⟨pwrite, files, []⟩ : Disk γ) := by
  intro calls disk writes i content at_i
  obtain ⟨_, o', rfl, -, -, -, ready, -⟩ := h.written constructed all writes
  have grid := h.grid
  rw [h.layout.2.1] at grid
  obtain ⟨below, rfl⟩ := piecesFrom_getElem? at_i
  obtain ⟨_, -, accepted, -⟩ := ready.accepts grid all ((h.inside_total i).1 below)
  exact ⟨_, accepted⟩

end

namespace Swarm

variable {γ : Type} [BitSet β] [LawfulBitSet β] [BitSet γ] [BoundBitSet γ] {tf : TorrentFile}
  {stream : Bytes} {pwrite : Pwrite} {files : StdVector (File γ)} {w : Swarm β (Disk γ)}

end Swarm

end TorrentClient
