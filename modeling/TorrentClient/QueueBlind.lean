import TorrentClient.PeerProtocol

/-!
# The handlers do not look at the queue

A handler queues messages behind those that are queued, and does all else as if there
were none. So it makes no difference when messages leave the front of the queue.
-/

namespace TorrentClient

variable {β φ : Type}

namespace Peer

/-- The peer with messages in front of those it has queued. -/
def behind (front : List Message) (s : Peer β φ) : Peer β φ :=
  { s with protocol := { s.protocol with messages := front ++ s.protocol.messages } }

@[simp] theorem behind_pieceIndex (front : List Message) (s : Peer β φ) :
    (s.behind front).protocol.pieceIndex = s.protocol.pieceIndex := rfl

@[simp] theorem behind_piece (front : List Message) (s : Peer β φ) :
    (s.behind front).protocol.piece = s.protocol.piece := rfl

@[simp] theorem behind_shared (front : List Message) (s : Peer β φ) :
    (s.behind front).shared = s.shared := rfl

theorem requestLoop_behind (front : List Message) (pieceIndex : Int) (size offset : Nat)
    (messages : List Message) :
    requestLoop pieceIndex size offset (front ++ messages) =
      (requestLoop pieceIndex size offset messages).map fun r => (r.1, front ++ r.2) := by
  fun_induction requestLoop pieceIndex size offset messages with
  | case1 offset messages inside length request word ih =>
    rw [requestLoop, if_pos inside, if_pos word, List.append_assoc]
    exact ih
  | case2 offset messages inside wraps =>
    rw [requestLoop, if_pos inside, if_neg wraps]
    rfl
  | case3 offset messages past =>
    rw [requestLoop, if_neg past]
    rfl

variable (front : List Message) (s : Peer β φ)

theorem createRequest_behind :
    (s.behind front).createRequest = s.createRequest.lift (·.behind front) := by
  unfold createRequest behind
  dsimp only
  rw [requestLoop_behind]
  cases requestLoop s.protocol.pieceIndex s.protocol.pieceSize 0 s.protocol.messages <;> rfl

section
variable [BitSet β]

theorem attempt_behind (attempts : Nat) : ∀ s : Peer β φ,
    attempt attempts (s.behind front) = (attempt attempts s).lift (·.behind front) := by
  induction attempts with
  | zero => exact fun s => rfl
  | succ attempts ih =>
    intro s
    rw [attempt, attempt]
    have same : (s.behind front).getPiece.wanted = s.getPiece.wanted := rfl
    rw [same]
    cases s.getPiece.wanted with
    | none => rfl
    | some wanted =>
      cases wanted with
      | true => rfl
      | false => exact ih s.getPiece.returnPiece

theorem nextPiece_behind : (s.behind front).nextPiece = s.nextPiece.lift (·.behind front) := by
  have assigned : (s.behind front).getPieceIndex = s.getPieceIndex.lift (·.behind front) := by
    unfold getPieceIndex
    rw [attempt_behind]
    apply Outcome.lift_bind
    intro _ r
    show (if r.protocol.pieceSize = 0 then _ else _) = _
    split <;> rfl
  unfold nextPiece
  rw [assigned]
  apply Outcome.lift_bind
  intro assigned r
  cases assigned with
  | true => exact createRequest_behind front r
  | false => rfl

end

theorem addBlock_behind (data : List UInt8) (size : Nat) :
    (s.behind front).addBlock data size = (s.addBlock data size).lift (·.behind front) := by
  unfold addBlock
  cases ntohlAt data baseMessageSize with
  | none => rfl
  | some index =>
    dsimp only
    rw [behind_pieceIndex]
    split
    · rfl
    · cases ntohlAt data (baseMessageSize + 4) with
      | none => rfl
      | some offset =>
        dsimp only
        rw [behind_piece]
        cases s.protocol.piece.add index (data.drop (baseMessageSize + 8))
          (sub64 (sub64 size baseMessageSize) 8) offset <;> rfl

variable [Files φ]

theorem writePiece_behind :
    (s.behind front).writePiece = s.writePiece.lift (·.behind front) := by
  unfold writePiece behind
  dsimp only
  cases Files.writePiece s.shared.files (toUInt64 s.protocol.pieceIndex) s.protocol.piece.get.1
    s.protocol.pieceSize <;> rfl

variable [BitSet β]

theorem completePiece_behind :
    (s.behind front).completePiece = s.completePiece.lift (·.behind front) := by
  unfold completePiece
  rw [behind_piece]
  split
  · rw [writePiece_behind]
    apply Outcome.lift_bind
    intro _ written
    exact nextPiece_behind front
      { written with protocol := { written.protocol with offset := 0, pieceIndex := -1 } }
  · rfl

/-- **A handler does the same whatever is in front of the queue.** -/
theorem handlers_behind (kind : FrameKind) (data : List UInt8) (size : Nat) :
    handlers kind data size (s.behind front) =
      (handlers kind data size s).lift (·.behind front) := by
  cases kind with
  | handshake => rfl
  | message type =>
    cases type with
    | choke => rfl
    | unchoke => exact nextPiece_behind front s
    | have_ =>
      show (s.behind front).processHave data = (s.processHave data).lift _
      unfold processHave behind
      dsimp only
      cases ntohlAt data baseMessageSize with
      | none => rfl
      | some pieceId =>
        dsimp only
        cases BitSet.set s.protocol.clientsPieces pieceId true <;> rfl
    | bitfield =>
      show (s.behind front).processBitfield data size = (s.processBitfield data size).lift _
      unfold processBitfield behind
      dsimp only
      cases bytesAt data baseMessageSize (sub64 size baseMessageSize) with
      | none => rfl
      | some bits =>
        dsimp only
        cases BitSet.bindData s.protocol.clientsPieces bits with
        | none => rfl
        | some clientsPieces =>
          simp only [createInterested, Outcome.lift_done, List.append_assoc]
    | piece =>
      show (s.behind front).processPiece data size = (s.processPiece data size).lift _
      unfold processPiece
      rw [addBlock_behind]
      apply Outcome.lift_bind
      intro added r
      cases added with
      | true => exact completePiece_behind front r
      | false => rfl
    | interested | notInterested | request | cancel | port => rfl

end Peer

end TorrentClient
