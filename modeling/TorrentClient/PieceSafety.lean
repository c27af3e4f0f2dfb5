import TorrentClient.Assembly
import TorrentClient.Handlers

/-!
# What a block of a peer can reach

The length of a PIECE frame, its offset and its payload are the peer's choice.
`frame_confined_iff` says for which frames `process_piece` stays inside the bytes
of the frame and inside the buffer of the piece.
-/

namespace TorrentClient

namespace Piece

/-- What holds of a piece and its buffer between messages. -/
structure Bounded (p : Piece) : Prop where
  buffer : ∀ buf, p.data = some buf → buf.length = p.fullPieceSize
  apart : p.blocks.Apart
  stops : ∀ b ∈ p.blocks, b.stop < 2 ^ 64
  within : ∀ x ∈ p.blocks.covered, x < p.fullPieceSize

theorem bounded_empty {data : Option (List Cell)} {id : Int} {size : Nat}
    (h : ∀ buf, data = some buf → buf.length = size) : Bounded ⟨data, id, size, .empty⟩ where
  buffer := h
  apart := fun b hb => absurd hb (OrderedSet.not_mem_empty b)
  stops := fun b hb => absurd hb (OrderedSet.not_mem_empty b)
  within := fun _ ⟨b, hb, _⟩ => absurd hb (OrderedSet.not_mem_empty b)

theorem bounded_init (id : Int) (size : Nat) : Bounded (init id size) :=
  bounded_empty fun buf h => by
    cases h
    exact List.length_replicate

/-- `add` refuses the block, or copies nothing past the end of the piece. -/
def Takes (p : Piece) (id : Int) (offset size : Nat) : Prop :=
  p.data = none ∨ (p.id ≠ -1 ∧ p.id ≠ id) ∨ size = 0 ∨ offset + size ≤ p.fullPieceSize ∨
    ∃ q ∈ p.blocks.upperBound offset, q.stop < offset + size

instance (p : Piece) (id : Int) (offset size : Nat) : Decidable (p.Takes id offset size) :=
  inferInstanceAs (Decidable (_ ∨ _))

section
variable {p : Piece} {id : Int} {source : List UInt8} {size offset : Nat} {buf : List Cell}
  {s' : Blocks} {t : Block}

theorem Bounded.claimed (b : p.Bounded) (id : Int) : (p.claimed id).Bounded where
  buffer := by
    rw [claimed_data, claimed_fullPieceSize]
    exact b.buffer
  apart := claimed_blocks p id ▸ b.apart
  stops := claimed_blocks p id ▸ b.stops
  within := by
    rw [claimed_blocks, claimed_fullPieceSize]
    exact b.within

/-- What is left of a block stays inside the piece exactly when the block does:
what was cut away was inside. -/
theorem Bounded.stop_le_iff (b : p.Bounded) (st : Stored p.blocks s' ⟨offset, size⟩ t) :
    (t.size = 0 ∨ t.stop ≤ p.fullPieceSize) ↔ (size = 0 ∨ offset + size ≤ p.fullPieceSize) := by
  have lo : offset ≤ t.offset := st.lo
  have hi : t.stop ≤ offset + size := st.hi
  constructor
  · intro inside
    by_cases zero : size = 0
    · exact Or.inl zero
    · right
      have last : offset ≤ offset + size - 1 ∧ offset + size - 1 < offset + size := by omega
      rcases st.rest (offset + size - 1) last.1 last.2 with ⟨_, inside⟩ | cov
      · simp only [Block.stop] at *
        omega
      · have := b.within _ cov
        omega
  · simp only [Block.stop] at *
    omega

/-- A block that was stored inside the piece leaves it bounded. -/
theorem Bounded.stored (b : p.Bounded) (bn : offset + size < 2 ^ 64)
    (st : Stored p.blocks s' ⟨offset, size⟩ t) (length : buf.length = p.fullPieceSize)
    (inside : t.size = 0 ∨ t.stop ≤ p.fullPieceSize) :
    Bounded { p.claimed id with data := some buf, blocks := s' } where
  buffer := by
    rintro _ ⟨⟩
    exact length.trans (claimed_fullPieceSize p id).symm
  apart := st.apart
  stops := by
    intro c hc
    have hi : t.stop ≤ offset + size := st.hi
    rcases st.stops c hc with old | eq | ⟨q, hq, _, eq⟩
    · exact b.stops c old
    · omega
    · exact eq ▸ b.stops q hq
  within := by
    intro x hx
    change x < (p.claimed id).fullPieceSize
    rw [claimed_fullPieceSize]
    rcases st.covered ▸ hx with old | ⟨lo, hi⟩
    · exact b.within x old
    · simp only [Block.stop] at *
      omega

/-- A copy from a source that has the bytes announced stays inside the buffer
exactly when what is left of the block does. -/
theorem store_cases (st : Stored p.blocks s' ⟨offset, size⟩ t) (sourced : size ≤ source.length)
    (length : buf.length = p.fullPieceSize) (r : Piece) :
    ((t.size = 0 ∨ t.stop ≤ p.fullPieceSize) ∧ ∃ out, out.length = p.fullPieceSize ∧
      r.store buf source (t.offset - offset) t s' =
        .done () { r with data := some out, blocks := s' }) ∨
    (¬ (t.size = 0 ∨ t.stop ≤ p.fullPieceSize) ∧
      r.store buf source (t.offset - offset) t s' = .fault .outOfBounds r) := by
  have lo : offset ≤ t.offset := st.lo
  have hi : t.stop ≤ offset + size := st.hi
  have copies : (memcpy buf t.offset source (t.offset - offset) t.size).isSome ↔
      (t.size = 0 ∨ t.stop ≤ p.fullPieceSize) := by
    rw [memcpy_isSome, length]
    simp only [Block.stop] at *
    omega
  unfold store
  cases hc : memcpy buf t.offset source (t.offset - offset) t.size with
  | none =>
    rw [hc] at copies
    exact Or.inr ⟨fun inside => Bool.false_ne_true (copies.2 inside), rfl⟩
  | some out =>
    rw [hc] at copies
    exact Or.inl ⟨copies.1 rfl, out, (memcpy_length hc).trans length, rfl⟩

/-- **Where `add` copies to.** It stays inside the buffer exactly when it takes
the block, and one that reaches past the end is refused then. -/
theorem Bounded.add (b : p.Bounded) (id : Int) (source : List UInt8) (offset : Nat)
    (bn : offset + size < 2 ^ 64) (sourced : size ≤ source.length) :
    ((∀ r t, p.add id source size offset ≠ .fault r t) ↔ p.Takes id offset size) ∧
    (p.Takes id offset size → (p.add id source size offset).state.Bounded) ∧
    (p.Takes id offset size → size ≠ 0 → p.fullPieceSize < offset + size →
      ∃ e r, p.add id source size offset = .thrown e r ∧ r.blocks = p.blocks ∧
        r.data = p.data) := by
  cases hd : p.data with
  | none =>
    obtain ⟨e, hadd⟩ := add_refused id source size offset (Or.inl hd)
    rw [hadd]
    exact ⟨iff_of_true nofun (Or.inl hd), fun _ => b, fun _ _ _ => ⟨e, p, rfl, rfl, hd⟩⟩
  | some buf =>
    by_cases other : p.id ≠ -1 ∧ p.id ≠ id
    · obtain ⟨e, hadd⟩ := add_refused id source size offset (Or.inr other)
      rw [hadd]
      exact ⟨iff_of_true nofun (Or.inr (Or.inl other)), fun _ => b,
        fun _ _ _ => ⟨e, p, rfl, rfl, hd⟩⟩
    · have hid : p.id = -1 ∨ p.id = id := by omega
      have takes_iff : p.Takes id offset size ↔ (size = 0 ∨ offset + size ≤ p.fullPieceSize) ∨
          ∃ q ∈ p.blocks.upperBound offset, q.stop < offset + size := by
        simp only [Takes, hd, reduceCtorEq, other, false_or, or_assoc]
      rcases add_cases source hd hid b.apart b.stops bn with ⟨hadd, inside⟩ |
        ⟨t, s', st, hadd⟩ | ⟨hadd, swallows⟩
      · have fits : size = 0 ∨ offset + size ≤ p.fullPieceSize := by
          by_cases zero : size = 0
          · exact Or.inl zero
          · have := b.within _ (inside (offset + size - 1) (by omega) (by omega))
            omega
        rw [hadd]
        exact ⟨iff_of_true nofun (takes_iff.2 (Or.inl fits)), fun _ => b.claimed id,
          fun _ nonzero past => by omega⟩
      · rw [hadd]
        rcases store_cases st sourced (b.buffer buf hd) (p.claimed id) with
          ⟨inside, out, length, stored⟩ | ⟨past, fault⟩
        · have fits := (b.stop_le_iff st).1 inside
          rw [stored]
          exact ⟨iff_of_true nofun (takes_iff.2 (Or.inl fits)),
            fun _ => b.stored bn st length inside, fun _ nonzero past => by omega⟩
        · have refused : ¬ p.Takes id offset size := by
            rw [takes_iff]
            rintro (fits | ⟨q, hq, swallows⟩)
            · exact past ((b.stop_le_iff st).2 fits)
            · exact absurd (st.reach q hq) (Nat.not_le.2 swallows)
          rw [fault]
          exact ⟨iff_of_false (fun h => h _ _ rfl) refused, fun takes => absurd takes refused,
            fun takes => absurd takes refused⟩
      · obtain ⟨q, hq, swallows⟩ := swallows
        rw [hadd]
        exact ⟨iff_of_true nofun (takes_iff.2 (Or.inr ⟨q, hq, swallows⟩)), fun _ => b.claimed id,
          fun _ _ _ => ⟨_, _, rfl, claimed_blocks p id, (claimed_data p id).trans hd⟩⟩

end

end Piece

variable {β φ : Type}

namespace Peer

variable {s : Peer β φ}

/-! ## A frame -/

/-- The frame has an index, and when it is that of the piece the peer holds, an
offset and a payload the piece takes. -/
def FrameFits (s : Peer β φ) (frame : Bytes) : Prop :=
  ∃ index ∈ ntohlAt frame baseMessageSize, (index : Int) = s.protocol.pieceIndex →
    ∃ offset ∈ ntohlAt frame (baseMessageSize + 4),
      s.protocol.piece.Takes index offset (frame.drop (baseMessageSize + 8)).length

instance (s : Peer β φ) (frame : Bytes) : Decidable (s.FrameFits frame) :=
  inferInstanceAs (Decidable (∃ _ ∈ _, _))

/-- The payload of the frame reaches past the end of the piece. -/
def Overflows (s : Peer β φ) (frame : Bytes) : Prop :=
  ∃ offset ∈ ntohlAt frame (baseMessageSize + 4),
    (frame.drop (baseMessageSize + 8)).length ≠ 0 ∧
    s.protocol.piece.fullPieceSize < offset + (frame.drop (baseMessageSize + 8)).length

/-- A frame that fits leaves the piece bounded, also with other memory behind it. -/
theorem addBlock_bounded {data : List UInt8} {size : Nat} (bounded : s.protocol.piece.Bounded)
    (inside : size ≤ data.length) (short : size < 2 ^ 33) (fits : s.FrameFits (data.take size)) :
    (s.addBlock data size).state.protocol.piece.Bounded := by
  obtain ⟨index, hi, fits⟩ := fits
  obtain ⟨hi, _⟩ := ntohlAt_take hi
  by_cases held : (index : Int) = s.protocol.pieceIndex
  · obtain ⟨offset, ho, takes⟩ := fits held
    obtain ⟨ho, long⟩ := ntohlAt_take ho
    have below := ntohlAt_lt ho
    rw [List.length_drop, List.length_take, Nat.min_eq_left inside] at takes
    rw [addBlock_held hi held ho long (by omega), Outcome.map_state, Outcome.lift_state]
    apply (bounded.add _ _ _ (by omega) ?_).2.1 takes
    rw [List.length_drop]
    omega
  · rw [addBlock_other size hi held]
    exact bounded

variable [BitSet β] [Files φ]

/-- Given the bytes of the frame and no others, `process_piece` stays inside them
and inside a buffer of the size of the piece; and a frame that reaches past the
end of the piece changes neither the blocks nor the buffer. -/
structure Confined (s : Peer β φ) (frame : Bytes) : Prop where
  inside : ∀ r t, s.addBlock frame frame.length ≠ .fault r t
  buffer : ∀ buf, s.protocol.piece.data = some buf → buf.length = s.protocol.piece.fullPieceSize
  refused : s.Overflows frame →
    (s.processPiece frame frame.length).state.protocol.piece.blocks = s.protocol.piece.blocks ∧
    (s.processPiece frame frame.length).state.protocol.piece.data = s.protocol.piece.data

/-- **Which frames are confined.** -/
theorem frame_confined_iff {frame : Bytes} (bounded : s.protocol.piece.Bounded)
    (short : frame.length < 2 ^ 33) : s.Confined frame ↔ s.FrameFits frame := by
  constructor
  · intro confined
    cases hi : ntohlAt frame baseMessageSize with
    | none => exact absurd (by simp only [addBlock, hi]) (confined.inside .outOfBounds s)
    | some index =>
      refine ⟨index, hi, fun held => ?_⟩
      cases ho : ntohlAt frame (baseMessageSize + 4) with
      | none =>
        apply absurd ?_ (confined.inside .outOfBounds s)
        simp only [addBlock, hi, held, ne_eq, not_true_eq_false, if_false, ho]
      | some offset =>
        have long := ntohlAt_isSome.1 (Option.isSome_of_mem ho)
        have below := ntohlAt_lt ho
        have inside := confined.inside
        rw [addBlock_held hi held ho long (by omega), ← List.length_drop] at inside
        have adds := bounded.add index (frame.drop (baseMessageSize + 8)) offset
          (by rw [List.length_drop]; omega) (Nat.le_refl _)
        exact ⟨offset, rfl, adds.1.1 (Outcome.map_lift_ne_fault.1 inside)⟩
  · rintro ⟨index, hi, fits⟩
    by_cases held : (index : Int) = s.protocol.pieceIndex
    · obtain ⟨offset, ho, takes⟩ := fits held
      have long := ntohlAt_isSome.1 (Option.isSome_of_mem ho)
      have below := ntohlAt_lt ho
      have called := addBlock_held hi held ho long (by omega)
      rw [← List.length_drop] at called
      obtain ⟨inside, _, refused⟩ := bounded.add index
        (frame.drop (baseMessageSize + 8)) offset (by rw [List.length_drop]; omega) (Nat.le_refl _)
      refine ⟨?_, bounded.buffer, ?_⟩
      · rw [called]
        exact Outcome.map_lift_ne_fault.2 (inside.2 takes)
      · rintro ⟨offset', ho', nonempty, past⟩
        cases ho.symm.trans ho'
        obtain ⟨e, piece, ha, blocks, data⟩ := refused takes nonempty past
        rw [processPiece, called, ha]
        exact ⟨blocks, data⟩
    · have other := addBlock_other frame.length hi held
      refine ⟨?_, bounded.buffer, ?_⟩
      · rw [other]
        intro r t faulted
        cases faulted
      · rw [processPiece, other]
        exact fun _ => ⟨rfl, rfl⟩

/-! ## The piece of a peer -/

omit [Files φ] in
theorem attempt_piece (attempts : Nat) :
    ∀ s : Peer β φ, (attempt attempts s).state.protocol.piece = s.protocol.piece := by
  induction attempts with
  | zero => exact fun s => rfl
  | succ attempts ih =>
    intro s
    rw [attempt]
    split
    · rfl
    · rfl
    · exact ih s.getPiece.returnPiece

section
variable {P : Piece → Prop} (cleared : P .new) (assigned : ∀ id size, P (.init id size))
include cleared assigned

omit cleared [Files φ] in
theorem nextPiece_piece (h : P s.protocol.piece) : P s.nextPiece.state.protocol.piece := by
  have kept := attempt_piece numberOfAttempts s
  unfold nextPiece getPieceIndex
  cases ha : attempt numberOfAttempts s with
  | done _ t =>
    rw [ha] at kept
    rw [Outcome.bind_done]
    split
    · exact kept.symm ▸ h
    · rw [Outcome.bind_done, if_pos rfl]
      unfold createRequest
      split <;> exact assigned _ _
  | thrown e t =>
    rw [ha] at kept
    exact kept.symm ▸ h
  | fault r t =>
    rw [ha] at kept
    exact kept.symm ▸ h

omit [BitSet β] assigned in
theorem writePiece_piece : P s.writePiece.state.protocol.piece := by
  unfold writePiece
  dsimp only
  split <;> exact cleared

theorem completePiece_piece (h : P s.protocol.piece) :
    P s.completePiece.state.protocol.piece := by
  unfold completePiece
  split
  · refine Outcome.bind_keeps (P := fun t : Peer β φ => P t.protocol.piece)
      (writePiece_piece cleared) ?_
    intro _ written wrote
    have empty := writePiece_piece (s := s) cleared
    rw [wrote] at empty
    exact nextPiece_piece (s := written.released) assigned empty
  · exact h

/-- What holds of a piece that was cleared or assigned holds after every message,
as long as `add` keeps it. -/
theorem handlers_piece (h : P s.protocol.piece) (type : MessageType) (data : List UInt8)
    (size : Nat) (added : type = .piece → P (s.addBlock data size).state.protocol.piece) :
    P (handlers (.message type) data size s).state.protocol.piece := by
  cases type with
  | choke => exact cleared
  | unchoke => exact nextPiece_piece assigned h
  | have_ =>
    change P (s.processHave data).state.protocol.piece
    unfold processHave
    split
    · exact h
    · split <;> exact h
  | bitfield =>
    change P (s.processBitfield data size).state.protocol.piece
    unfold processBitfield
    split
    · exact h
    · split <;> exact h
  | piece =>
    change P (s.processPiece data size).state.protocol.piece
    refine Outcome.bind_keeps (P := fun t : Peer β φ => P t.protocol.piece) (added rfl) ?_
    intro held t returned
    have kept := added rfl
    rw [returned] at kept
    split
    · exact completePiece_piece cleared assigned kept
    · exact kept
  | interested | notInterested | request | cancel | port => exact h

end

end Peer

theorem Dispatched.short {type : MessageType} {data : List UInt8} {size : Nat}
    (h : Dispatched type data size) : size < 2 ^ 33 := by
  obtain ⟨long, _, length, _⟩ := h
  have := ntohlAt_lt length
  simp only [messageLengthSize] at *
  omega

namespace Swarm

variable {w w' : Swarm β φ}

def NoPeers (w : Swarm β φ) : Prop := w.peers = []

/-- The bytes of a PIECE frame fit the peer that is to process it. -/
def FramesFit (w : Swarm β φ) : Action → Prop
  | .message peer type data size =>
    type = .piece → ∀ s ∈ w.view peer, s.FrameFits (data.take size)
  | .connect _ _ | .destroy _ => True

instance (w : Swarm β φ) (a : Action) : Decidable (w.FramesFit a) :=
  match a with
  | .message _ _ _ _ => inferInstanceAs (Decidable (_ → ∀ _ ∈ _, _))
  | .connect _ _ | .destroy _ => inferInstanceAs (Decidable True)

variable [BitSet β] [Files φ]

theorem step_bounded (h : ∀ p, some p ∈ w.peers → p.piece.Bounded) {a : Action}
    (fits : w.FramesFit a) (stepped : w.step a = some w') :
    ∀ p, some p ∈ w'.peers → p.piece.Bounded := by
  rcases step_cases stepped with ⟨infoHash, random, p, rfl, hn, rfl⟩ | ⟨peer, p, rfl, _, rfl⟩ |
    ⟨peer, type, data, size, s, rfl, dispatched, hs, _, rfl⟩
  · intro q hq
    cases List.mem_append.1 hq with
    | inl old => exact h q old
    | inr new =>
      cases List.mem_singleton.1 new
      rw [(new_done hn).2.2]
      exact Piece.bounded_empty nofun
  · intro q hq
    cases List.mem_or_eq_of_mem_set hq with
    | inl old => exact h q old
    | inr new => cases new
  · have bounded : s.protocol.piece.Bounded :=
      h _ (List.mem_of_getElem? (peer?_eq_some.1 (view_eq_some.1 hs).1))
    intro q hq
    cases List.mem_or_eq_of_mem_set hq with
    | inl old => exact h q old
    | inr new =>
      cases new
      refine Peer.handlers_piece (P := Piece.Bounded) (Piece.bounded_empty nofun)
        Piece.bounded_init bounded type data size fun isPiece => ?_
      exact Peer.addBlock_bounded bounded dispatched.2.1 dispatched.short (fits isPiece s hs)

theorem reach_bounded (h : Reach NoPeers step FramesFit w) :
    ∀ p, some p ∈ w.peers → p.piece.Bounded := by
  refine Reach.invariant (P := fun w => ∀ p, some p ∈ w.peers → p.piece.Bounded) ?_ ?_ h
  · intro w none p hp
    exact absurd (none ▸ hp) List.not_mem_nil
  · exact fun w a w' bounded fits stepped => step_bounded bounded fits stepped

/-- **Which PIECE frames are confined**, whatever was dispatched before them. -/
theorem piece_confined_iff (h : Reach NoPeers step FramesFit w) {peer : Nat} {s : Peer β φ}
    (hs : w.view peer = some s) {frame : Bytes}
    (dispatched : Dispatched .piece frame frame.length) : s.Confined frame ↔ s.FrameFits frame := by
  apply Peer.frame_confined_iff (reach_bounded h _ ?_) dispatched.short
  exact List.mem_of_getElem? (peer?_eq_some.1 (view_eq_some.1 hs).1)

theorem piece_confined_unchoked :
    ∃ w : Swarm (List Bool) (List Bool),
      replay step FramesFit (initial twoPieces []) unchoked = some w ∧
      ∃ s, w.view 0 = some s ∧
        (s.Confined (pieceMessage 0 0 [7]) ↔ s.FrameFits (pieceMessage 0 0 [7])) := by
  have enabled : (replay step FramesFit (initial twoPieces [] : Swarm (List Bool) (List Bool))
      unchoked).any (fun w => (w.view 0).isSome) := by decide +kernel
  obtain ⟨w, run, live⟩ := (Option.any_eq_true _ _).1 enabled
  obtain ⟨s, hs⟩ := Option.isSome_iff_exists.1 live
  have start : NoPeers (initial twoPieces [] : Swarm (List Bool) (List Bool)) := rfl
  exact ⟨w, run, s, hs, piece_confined_iff (Reach.replay (.start start) run) hs (by decide)⟩

/-- A block behind the end of the piece is copied there, and the index is read
also of a frame that has none. -/
theorem piece_not_confined :
    ∃ w : Swarm (List Bool) (List Bool), Reach NoPeers step anyStep w ∧
      ∃ s, w.view 0 = some s ∧ ∀ frame ∈ [pieceMessage 0 5 [7], baseMessage 1 .piece],
        Dispatched .piece frame frame.length ∧ ¬ s.Confined frame := by
  have enabled : (replay step FramesFit (initial twoPieces [] : Swarm (List Bool) (List Bool))
      unchoked).any (fun w => (w.view 0).any fun s =>
        ∀ frame ∈ [pieceMessage 0 5 [7], baseMessage 1 .piece],
          Dispatched .piece frame frame.length ∧ ¬ s.FrameFits frame) := by decide +kernel
  obtain ⟨w, run, live⟩ := (Option.any_eq_true _ _).1 enabled
  obtain ⟨s, hs, outside⟩ := (Option.any_eq_true _ _).1 live
  have start : NoPeers (initial twoPieces [] : Swarm (List Bool) (List Bool)) := rfl
  have reached : Reach NoPeers step FramesFit w := Reach.replay (.start start) run
  refine ⟨w, reached.mono fun _ _ _ => trivial, s, hs, fun frame hf => ?_⟩
  obtain ⟨dispatched, outside⟩ := of_decide_eq_true outside frame hf
  have bounded := reach_bounded reached _
    (List.mem_of_getElem? (peer?_eq_some.1 (view_eq_some.1 hs).1))
  exact ⟨dispatched, fun confined =>
    outside ((Peer.frame_confined_iff bounded dispatched.short).1 confined)⟩

end Swarm

end TorrentClient
