import TorrentClient.Swarm

/-!
# What a handler does to the pieces

Of all a handler changes, only the index its peer holds and what the peers
share decide where a piece is. `attempt_rule` is the induction for the attempts
of `get_piece_index`; the other lemmas say for each handler which calls on the
piece list its effect comes down to.
-/

namespace TorrentClient

variable {β φ : Type}

/-- The two states agree on the index the peer holds and on what is shared. -/
structure SameCustody (s s' : Peer β φ) : Prop where
  pieceIndex : s'.protocol.pieceIndex = s.protocol.pieceIndex
  shared : s'.shared = s.shared

theorem SameCustody.refl (s : Peer β φ) : SameCustody s s := ⟨rfl, rfl⟩

theorem SameCustody.trans {s₁ s₂ s₃ : Peer β φ} (h : SameCustody s₁ s₂) (h' : SameCustody s₂ s₃) :
    SameCustody s₁ s₃ :=
  ⟨h'.pieceIndex.trans h.pieceIndex, h'.shared.trans h.shared⟩

/-- The state after a write that did not return: the call is made, and the peer
holds its piece still. -/
structure FailedWrite (s s' : Peer β φ) : Prop where
  pieceIndex : s'.protocol.pieceIndex = s.protocol.pieceIndex
  pieceList : s'.shared.pieceList = s.shared.pieceList
  calls : ∃ id source size, s'.shared.calls = s.shared.calls ++ [.writePiece id source size false]

theorem SameCustody.then_failed {s₁ s₂ s₃ : Peer β φ} (h : SameCustody s₁ s₂)
    (failed : FailedWrite s₂ s₃) : FailedWrite s₁ s₃ where
  pieceIndex := failed.pieceIndex.trans h.pieceIndex
  pieceList := h.shared ▸ failed.pieceList
  calls := h.shared ▸ failed.calls

namespace Peer

@[simp] theorem returnPiece_pieceIndex (s : Peer β φ) :
    s.returnPiece.protocol.pieceIndex = -1 := rfl

@[simp] theorem returnPiece_pieceList (s : Peer β φ) : s.returnPiece.shared.pieceList =
    s.shared.pieceList.returnPiece (toUInt64 s.protocol.pieceIndex) := rfl

@[simp] theorem returnPiece_calls (s : Peer β φ) : s.returnPiece.shared.calls =
    s.shared.calls ++ [.returnPiece (toUInt64 s.protocol.pieceIndex)] := rfl

@[simp] theorem getPiece_pieceIndex (s : Peer β φ) :
    s.getPiece.protocol.pieceIndex = s.shared.pieceList.getPiece.2.1 := rfl

@[simp] theorem getPiece_pieceSize (s : Peer β φ) :
    s.getPiece.protocol.pieceSize = s.shared.pieceList.getPiece.1 := rfl

@[simp] theorem getPiece_pieceList (s : Peer β φ) :
    s.getPiece.shared.pieceList = s.shared.pieceList.getPiece.2.2 := rfl

@[simp] theorem getPiece_calls (s : Peer β φ) : s.getPiece.shared.calls = s.shared.calls ++
    [.getPiece s.shared.pieceList.getPiece.1 s.shared.pieceList.getPiece.2.1] := rfl

theorem createRequest_custody (s : Peer β φ) : SameCustody s s.createRequest.state := by
  unfold createRequest
  split <;> exact ⟨rfl, rfl⟩

section
variable [BitSet β]

/-- The induction over the attempts. `P` holds before each of them, `Q` when
`get_piece` has returned, and `R` however the attempts end. -/
theorem attempt_rule {P Q R : Peer β φ → Prop} (get : ∀ s, P s → Q s.getPiece)
    (kept : ∀ s, Q s → R s) (back : ∀ s, Q s → P s.returnPiece ∧ R s.returnPiece)
    (attempts : Nat) : ∀ s : Peer β φ, P s → R (attempt (attempts + 1) s).state := by
  induction attempts with
  | zero =>
    intro s h
    have got := get s h
    unfold attempt
    dsimp only
    split
    · exact kept _ got
    · exact kept _ got
    · exact (back _ got).2
  | succ attempts ih =>
    intro s h
    have got := get s h
    unfold attempt
    dsimp only
    split
    · exact kept _ got
    · exact kept _ got
    · exact ih _ (back _ got).1

/-- Assigning a piece and requesting its blocks comes down to the attempts. -/
theorem nextPiece_custody (s : Peer β φ) :
    SameCustody (attempt numberOfAttempts s).state s.nextPiece.state := by
  unfold nextPiece getPieceIndex
  cases attempt numberOfAttempts s with
  | done _ t =>
    rw [Outcome.bind_done]
    split
    · exact .refl t
    · rw [Outcome.bind_done, if_pos rfl]
      apply SameCustody.trans ?_ (createRequest_custody _)
      exact ⟨rfl, rfl⟩
  | thrown e t => exact .refl t
  | fault r t => exact .refl t

/-- A piece that was assigned starts without a block. -/
theorem getPieceIndex_true {s s' : Peer β φ} (h : s.getPieceIndex = .done true s') :
    SameCustody (attempt numberOfAttempts s).state s' ∧
    s'.protocol.piece = .init s'.protocol.pieceIndex s'.protocol.pieceSize := by
  obtain ⟨_, t, attempted, assigned⟩ := Outcome.bind_eq_done h
  split at assigned
  · cases assigned
  · cases assigned
    rw [attempted]
    exact ⟨⟨rfl, rfl⟩, rfl⟩

theorem processHave_custody (s : Peer β φ) (data : List UInt8) :
    SameCustody s (s.processHave data).state := by
  unfold processHave
  split
  · exact .refl s
  · split <;> exact ⟨rfl, rfl⟩

theorem processBitfield_custody (s : Peer β φ) (data : List UInt8) (size : Nat) :
    SameCustody s (s.processBitfield data size).state := by
  unfold processBitfield
  split
  · exact .refl s
  · split <;> exact ⟨rfl, rfl⟩

end

/-! ## A block of a piece -/

section
variable {s : Peer β φ}

theorem addBlock_other {data : List UInt8} {index : Nat} (size : Nat)
    (hi : ntohlAt data baseMessageSize = some index)
    (other : (index : Int) ≠ s.protocol.pieceIndex) : s.addBlock data size = .done false s := by
  simp only [addBlock, hi, if_pos other]

theorem addBlock_held {data : List UInt8} {size index offset : Nat}
    (hi : ntohlAt data baseMessageSize = some index) (held : (index : Int) = s.protocol.pieceIndex)
    (ho : ntohlAt data (baseMessageSize + 4) = some offset) (long : baseMessageSize + 8 ≤ size)
    (word : size < 2 ^ 64) :
    s.addBlock data size =
      ((s.protocol.piece.add index (data.drop (baseMessageSize + 8)) (size - (baseMessageSize + 8))
        offset).lift fun piece => { s with protocol := { s.protocol with piece := piece } }).map
        fun _ => true := by
  have length : sub64 (sub64 size baseMessageSize) 8 = size - (baseMessageSize + 8) := by
    rw [sub64_eq (a := size) word (by omega), sub64_eq (by omega) (by omega)]
    omega
  simp only [addBlock, hi, held, ne_eq, not_true_eq_false, if_false, ho, length]

end

theorem addBlock_custody (s : Peer β φ) (data : List UInt8) (size : Nat) :
    SameCustody s (s.addBlock data size).state := by
  unfold addBlock
  split
  · exact ⟨rfl, rfl⟩
  · split
    · exact ⟨rfl, rfl⟩
    · split
      · exact ⟨rfl, rfl⟩
      · dsimp only
        generalize s.protocol.piece.add _ _ _ _ = added
        cases added <;> exact ⟨rfl, rfl⟩

/-- A block is added only to the piece the peer holds. -/
theorem addBlock_true {s s' : Peer β φ} {data : List UInt8} {size : Nat}
    (h : s.addBlock data size = .done true s') : ∃ index : Nat, s.protocol.pieceIndex = index := by
  unfold addBlock at h
  split at h
  · cases h
  · rename_i index _
    split at h
    · cases h
    · rename_i same
      exact ⟨index, (not_not.1 same).symm⟩

variable [Files φ]

theorem writePiece_done {s s' : Peer β φ} (h : s.writePiece = .done () s') :
    s'.protocol.pieceIndex = s.protocol.pieceIndex ∧
    s'.shared.pieceList = s.shared.pieceList ∧
    ∃ source, s'.shared.calls = s.shared.calls ++
      [.writePiece (toUInt64 s.protocol.pieceIndex) source s.protocol.pieceSize true] := by
  unfold writePiece at h
  dsimp only at h
  split at h
  · cases h
    exact ⟨rfl, rfl, _, rfl⟩
  · cases h
  · cases h

theorem writePiece_calls (s : Peer β φ) : ∃ returned, s.writePiece.state.shared.calls =
    s.shared.calls ++ [.writePiece (toUInt64 s.protocol.pieceIndex) s.protocol.piece.data
      s.protocol.pieceSize returned] := by
  unfold writePiece
  dsimp only [Piece.get]
  split <;> exact ⟨_, rfl⟩

/-- The buffer has left the piece, however the write ends. -/
theorem writePiece_data (s : Peer β φ) : s.writePiece.state.protocol.piece.data = none := by
  unfold writePiece
  dsimp only [Piece.get]
  split <;> rfl

theorem writePiece_failed {s : Peer β φ} (h : ∀ s', s.writePiece ≠ .done () s') :
    FailedWrite s s.writePiece.state := by
  unfold writePiece at *
  dsimp only at *
  split at h
  · exact absurd rfl (h _)
  · exact ⟨rfl, rfl, _, _, _, rfl⟩
  · exact ⟨rfl, rfl, _, _, _, rfl⟩

/-- The block completes its piece, and the write of the piece returns in the
state `written`. -/
def Completes (s : Peer β φ) (data : List UInt8) (size : Nat) (written : Peer β φ) : Prop :=
  ∃ added, s.addBlock data size = .done true added ∧ added.protocol.piece.full = true ∧
    added.writePiece = .done () written

/-- The peer holds no piece any more. -/
def released (s : Peer β φ) : Peer β φ :=
  { s with protocol := { s.protocol with offset := 0, pieceIndex := -1 } }

variable [BitSet β]

theorem Completes.processPiece {s written : Peer β φ} {data : List UInt8} {size : Nat}
    (completes : s.Completes data size written) :
    s.processPiece data size = written.released.nextPiece := by
  obtain ⟨added, returned, full, wrote⟩ := completes
  rw [Peer.processPiece, returned, Outcome.bind_done, if_pos rfl, completePiece, if_pos full, wrote]
  rfl

/-- A block either completes the piece, which is written and followed by the
next one, or the piece stays where it is. -/
theorem processPiece_cases (s : Peer β φ) (data : List UInt8) (size : Nat) :
    (∃ written, s.Completes data size written ∧
      s.processPiece data size = written.released.nextPiece) ∨
    ((∀ written, ¬ s.Completes data size written) ∧
      (SameCustody s (s.processPiece data size).state ∨
        FailedWrite s (s.processPiece data size).state)) := by
  have custody := addBlock_custody s data size
  unfold processPiece
  cases ha : s.addBlock data size with
  | thrown e added =>
    rw [ha] at custody
    refine Or.inr ⟨?_, Or.inl custody⟩
    rintro written ⟨_, returned, _⟩
    rw [ha] at returned
    cases returned
  | fault r added =>
    rw [ha] at custody
    refine Or.inr ⟨?_, Or.inl custody⟩
    rintro written ⟨_, returned, _⟩
    rw [ha] at returned
    cases returned
  | done held added =>
    rw [ha] at custody
    have only {written : Peer β φ} (h : s.Completes data size written) :
        held = true ∧ added.protocol.piece.full = true ∧ added.writePiece = .done () written := by
      obtain ⟨_, returned, full, wrote⟩ := h
      rw [ha] at returned
      cases returned
      exact ⟨rfl, full, wrote⟩
    rw [Outcome.bind_done]
    split
    · rename_i isHeld
      unfold completePiece
      split
      · rename_i full
        by_cases hw : ∃ written, added.writePiece = .done () written
        · obtain ⟨written, hw⟩ := hw
          refine Or.inl ⟨written, ⟨added, isHeld ▸ ha, full, hw⟩, ?_⟩
          rw [hw]
          rfl
        · refine Or.inr ⟨fun written h => hw ⟨written, (only h).2.2⟩, Or.inr ?_⟩
          have failed := writePiece_failed fun written h => hw ⟨written, h⟩
          have ended : (added.writePiece.bind fun _ t => t.released.nextPiece).state =
              added.writePiece.state := by
            cases h : added.writePiece with
            | done _ written => exact absurd ⟨written, h⟩ hw
            | thrown e t => rfl
            | fault r t => rfl
          exact custody.then_failed (ended ▸ failed)
      · rename_i notFull
        exact Or.inr ⟨fun _ h => notFull (only h).2.1, Or.inl custody⟩
    · rename_i notHeld
      exact Or.inr ⟨fun _ h => notHeld (only h).1, Or.inl custody⟩

/-! ## The memory of a frame -/

omit [Files φ] [BitSet β] in
theorem addBlock_more {s : Peer β φ} {data : List UInt8} {size : Nat}
    (safe : (s.addBlock data size).Safe) (more : List UInt8) :
    s.addBlock (data ++ more) size = s.addBlock data size := by
  revert safe
  unfold addBlock
  cases first : ntohlAt data baseMessageSize with
  | none => exact fun safe => absurd safe Outcome.not_safe_fault
  | some index =>
    simp only [(ntohlAt_more first more).1]
    split
    · exact fun _ => rfl
    · cases second : ntohlAt data (baseMessageSize + 4) with
      | none => exact fun safe => absurd safe Outcome.not_safe_fault
      | some offset =>
        obtain ⟨read, inside⟩ := ntohlAt_more second more
        simp only [read]
        rw [List.drop_append_of_le_length (by omega)]
        intro safe
        rw [Piece.add_more (Outcome.lift_safe.1 (Outcome.map_safe.1 safe))]

/-- A handler that stays inside its memory looks at nothing behind its frame. -/
theorem handlers_stable : Stable (handlers : Handlers (Peer β φ)) := by
  intro kind data more size s safe
  cases kind with
  | handshake => rfl
  | message type =>
    cases type with
    | have_ =>
      change (s.processHave data).Safe at safe
      change s.processHave (data ++ more) = s.processHave data
      unfold processHave at *
      cases read : ntohlAt data baseMessageSize with
      | none =>
        rw [read] at safe
        exact absurd safe Outcome.not_safe_fault
      | some pieceId => simp only [(ntohlAt_more read more).1]
    | bitfield =>
      change (s.processBitfield data size).Safe at safe
      change s.processBitfield (data ++ more) size = s.processBitfield data size
      unfold processBitfield at *
      cases read : bytesAt data baseMessageSize (sub64 size baseMessageSize) with
      | none =>
        rw [read] at safe
        exact absurd safe Outcome.not_safe_fault
      | some bits => simp only [bytesAt_more read more]
    | piece =>
      change (s.processPiece data size).Safe at safe
      change s.processPiece (data ++ more) size = s.processPiece data size
      unfold processPiece at *
      rw [addBlock_more (Outcome.bind_safe.1 safe).1]
    | choke | unchoke | interested | notInterested | request | cancel | port => rfl

end Peer

end TorrentClient
