import Mathlib.Data.List.Forall2
import TorrentClient.PeerProtocol

/-!
# The requests for a piece

`create_request` asks for a piece in blocks that follow each other, each of
`blockSize` bytes except for the last one.
-/

namespace TorrentClient

/-- What a request message asks for. -/
structure Request where
  offset : Nat
  length : Nat
  deriving DecidableEq, Repr

namespace Request

def message (index : Nat) (r : Request) : Message :=
  (requestMessage index r.offset r.length).map some

def Covers (r : Request) (x : Nat) : Prop := r.offset ≤ x ∧ x < r.offset + r.length

/-- The bytes of a piece a request asks for. -/
def bytes (content : Bytes) (r : Request) : Bytes := (content.drop r.offset).take r.length

/-- One block of a piece. -/
def block (size k : Nat) : Request := ⟨k * blockSize, min blockSize (size - k * blockSize)⟩

theorem block_covers {size k x : Nat} :
    (block size k).Covers x ↔ x / blockSize = k ∧ x < size := by
  simp only [Covers, block, blockSize]
  omega

end Request

def numberOfBlocks (size : Nat) : Nat := (size + blockSize - 1) / blockSize

def requests (size : Nat) : List Request :=
  (List.range (numberOfBlocks size)).map (Request.block size)

theorem lt_numberOfBlocks {size k : Nat} : k < numberOfBlocks size ↔ k * blockSize < size := by
  simp only [numberOfBlocks, blockSize]
  omega

theorem mem_requests {size : Nat} {r : Request} :
    r ∈ requests size ↔ ∃ k, k * blockSize < size ∧ Request.block size k = r := by
  simp only [requests, List.mem_map, List.mem_range, lt_numberOfBlocks]

theorem requests_within {size : Nat} {r : Request} (h : r ∈ requests size) :
    0 < r.length ∧ r.length ≤ blockSize ∧ r.offset + r.length ≤ size := by
  obtain ⟨k, below, rfl⟩ := mem_requests.1 h
  simp only [Request.block, blockSize] at *
  omega

theorem requests_cover {size x : Nat} (h : x < size) : ∃ r ∈ requests size, r.Covers x := by
  refine ⟨Request.block size (x / blockSize), mem_requests.2 ⟨x / blockSize, ?_, rfl⟩,
    Request.block_covers.2 ⟨rfl, h⟩⟩
  exact Nat.lt_of_le_of_lt (Nat.div_mul_le_self x blockSize) h

/-- A byte is asked for once. -/
theorem requests_disjoint {size x : Nat} {r r' : Request} (h : r ∈ requests size)
    (h' : r' ∈ requests size) (covers : r.Covers x) (covers' : r'.Covers x) : r = r' := by
  obtain ⟨k, _, rfl⟩ := mem_requests.1 h
  obtain ⟨k', _, rfl⟩ := mem_requests.1 h'
  have at_k := (Request.block_covers.1 covers).1
  have at_k' := (Request.block_covers.1 covers').1
  rw [← at_k, ← at_k']

namespace Peer

variable {β φ : Type}

/-- The loop from one block on, with those that are left. -/
theorem requestLoop_eq (pieceIndex : Int) {size : Nat} (word : size + blockSize ≤ 2 ^ 64)
    (left : Nat) : ∀ k messages, k + left = numberOfBlocks size →
      requestLoop pieceIndex size (k * blockSize) messages =
        some (numberOfBlocks size * blockSize, messages ++ (List.range' k left).map fun k =>
          (Request.block size k).message (toUInt64 pieceIndex)) := by
  induction left with
  | zero =>
    intro k messages last
    have past : ¬ k * blockSize < size := by
      rw [← lt_numberOfBlocks]
      omega
    rw [requestLoop, if_neg past, ← last]
    simp
  | succ left ih =>
    intro k messages rest
    have inside : k * blockSize < size := lt_numberOfBlocks.1 (by omega)
    have pos : 0 < blockSize := Nat.two_pow_pos 14
    have small : k * blockSize + blockSize < 2 ^ 64 := by omega
    have length : (if add64 (k * blockSize) blockSize > size then sub64 size (k * blockSize)
        else blockSize) = min blockSize (size - k * blockSize) := by
      rw [add64_eq small, sub64_eq (by omega) (by omega)]
      split <;> omega
    rw [requestLoop, if_pos inside]
    simp only [length, if_pos small]
    rw [← Nat.succ_mul, ih (k + 1) _ (by omega), List.range'_succ, List.map_cons,
      List.append_assoc]
    rfl

theorem createRequest_eq (s : Peer β φ) (word : s.protocol.pieceSize + blockSize ≤ 2 ^ 64) :
    s.createRequest = .done () { s with protocol := { s.protocol with
      offset := numberOfBlocks s.protocol.pieceSize * blockSize
      messages := s.protocol.messages ++ (requests s.protocol.pieceSize).map
        (Request.message (toUInt64 s.protocol.pieceIndex)) } } := by
  have loop := requestLoop_eq s.protocol.pieceIndex word (numberOfBlocks s.protocol.pieceSize) 0
    s.protocol.messages (Nat.zero_add _)
  rw [Nat.zero_mul] at loop
  rw [createRequest, loop, requests, List.range_eq_range', List.map_map]
  rfl

/-! ## The frames of the requests -/

end Peer

/-- Ranges of one block each behind each other, the last of them what is left of `size`. -/
structure Tiles (size : Nat) (ranges : List Request) : Prop where
  starts : ∀ r ∈ ranges.head?, r.offset = 0
  consecutive : ranges.IsChain fun r next => next.offset = r.offset + r.length
  lengths : ∀ r ∈ ranges, 1 ≤ r.length ∧ r.length ≤ 16384
  full : ∀ r ∈ ranges.dropLast, r.length = 16384
  covers : ∀ x, (∃ r ∈ ranges, r.Covers x) ↔ x < size

theorem requests_length (size : Nat) : (requests size).length = numberOfBlocks size := by
  rw [requests, List.length_map, List.length_range]

theorem requests_getElem {size k : Nat} (inside : k < (requests size).length) :
    (requests size)[k] = Request.block size k := by
  simp only [requests, List.getElem_map, List.getElem_range]

/-- A block that is followed by another one is whole. -/
theorem block_full {size k : Nat} (followed : k + 1 < numberOfBlocks size) :
    (Request.block size k).length = blockSize := by
  have next := lt_numberOfBlocks.1 followed
  simp only [Request.block, blockSize] at *
  omega

theorem requests_tiles (size : Nat) : Tiles size (requests size) where
  starts := by
    intro r first
    cases blocks : numberOfBlocks size with
    | zero =>
      rw [requests, blocks] at first
      cases first
    | succ n =>
      rw [requests, blocks, List.range_succ_eq_map, List.map_cons, List.head?_cons,
        Option.mem_some_iff] at first
      rw [← first]
      exact Nat.zero_mul blockSize
  consecutive := by
    apply List.isChain_iff_getElem.2
    intro k inside
    rw [requests_length] at inside
    rw [requests_getElem, requests_getElem, block_full inside]
    show (k + 1) * blockSize = k * blockSize + blockSize
    exact Nat.succ_mul k blockSize
  lengths := by
    intro r mem
    have within := requests_within mem
    exact ⟨within.1, within.2.1⟩
  full := by
    intro r mem
    obtain ⟨k, inside, rfl⟩ := List.getElem_of_mem mem
    rw [List.length_dropLast, requests_length] at inside
    rw [List.getElem_dropLast, requests_getElem, block_full (by omega)]
    rfl
  covers := by
    intro x
    constructor
    · rintro ⟨r, mem, covers⟩
      exact Nat.lt_of_lt_of_le covers.2 (requests_within mem).2.2
    · exact requests_cover

/-- A frame whose fields in network order are those of the request. -/
structure Request.Named (r : Request) (frame : Bytes) (index : Nat) : Prop where
  size : frame.length = 17
  length : ntohlAt frame 0 = some 13
  id : frame[messageLengthSize]? = some MessageType.request.id
  index : ntohlAt frame 5 = some index
  offset : ntohlAt frame 9 = some r.offset
  blockLength : ntohlAt frame 13 = some r.length

theorem Request.named {r : Request} {index : Nat} (hi : index < 2 ^ 32) (ho : r.offset < 2 ^ 32)
    (hl : r.length < 2 ^ 32) : r.Named (requestMessage index r.offset r.length) index := by
  obtain ⟨first, second, third⟩ := ntohlAt_words .request hi ho hl rfl
  exact ⟨rfl, ntohlAt_append [] (by decide) _, rfl, first, second, third⟩

namespace Peer

/-- `create_request` returns, and queues behind the messages that are queued requests for
a piece whose ranges follow each other from its start to its end. -/
def RequestsPiece (s : Peer β φ) (index : Nat) : Prop :=
  ∃ offset frames ranges,
    s.createRequest = .done () { s with protocol := { s.protocol with
      offset := offset
      messages := s.protocol.messages ++ frames.map fun frame => frame.map some } } ∧
    List.Forall₂ (fun frame (r : Request) => r.Named frame index) frames ranges ∧
    Tiles s.protocol.pieceSize ranges

/-- **The requests cover the piece**, up to the largest size a request can name. -/
theorem createRequest_tiles (s : Peer β φ) {index : Nat} (piece : s.protocol.pieceIndex = index)
    (word : index < 2 ^ 32) (small : s.protocol.pieceSize ≤ 2 ^ 32) : s.RequestsPiece index := by
  have unsigned : toUInt64 s.protocol.pieceIndex = index := by
    rw [piece, toUInt64_of_nonneg] <;> omega
  have whole : s.protocol.pieceSize + blockSize ≤ 2 ^ 64 := by
    simp only [blockSize]
    omega
  refine ⟨numberOfBlocks s.protocol.pieceSize * blockSize,
    (requests s.protocol.pieceSize).map fun r => requestMessage index r.offset r.length,
    requests s.protocol.pieceSize, ?_, ?_, requests_tiles _⟩
  · rw [createRequest_eq s whole, unsigned, List.map_map]
    rfl
  · apply List.forall₂_map_left_iff.2
    apply List.forall₂_same.2
    intro r mem
    have within := requests_within mem
    simp only [blockSize] at within
    exact Request.named word (by omega) (by omega)

/-- A peer that was assigned piece 7, with a message queued. -/
def assignedSeven (size : Nat) : Peer Unit Unit where
  protocol :=
    { infoHash := []
      clientsPieces := ()
      pieceIndex := 7
      pieceSize := size
      offset := 0
      piece := .init 7 size
      messages := [interestedMessage.map some]
      numberOfPieces := 8 }
  shared := ⟨⟨9, size, size, 8, []⟩, (), []⟩

theorem createRequest_tiles_limit : (assignedSeven (2 ^ 32)).RequestsPiece 7 :=
  createRequest_tiles (assignedSeven (2 ^ 32)) rfl (by decide) (Nat.le_refl _)

end Peer

end TorrentClient
