import TorrentClient.Attempts
import TorrentClient.PieceSafety

/-!
# The piece a peer holds

A peer and its piece each keep the index and the size of what is assembled.
They agree between messages, so `Piece::add` finds a buffer and its own index.
-/

namespace TorrentClient

variable {β φ : Type}

namespace Piece

variable {p : Piece}

/-- Two states of one piece: the buffer, the index and the size are as before. -/
structure SamePiece (p p' : Piece) : Prop where
  buffer : p'.data.isSome = p.data.isSome
  id : p'.id = p.id
  size : p'.fullPieceSize = p.fullPieceSize

theorem SamePiece.refl (p : Piece) : SamePiece p p := ⟨rfl, rfl, rfl⟩

theorem store_same {data : List Cell} (allocated : p.data = some data) (source : List UInt8)
    (skip : Nat) (block : Block) (blocks : Blocks) :
    SamePiece p (p.store data source skip block blocks).state := by
  unfold store
  split
  · exact .refl p
  · refine ⟨?_, rfl, rfl⟩
    rw [allocated]
    rfl

theorem claimed_of_ne (claimed : p.id ≠ -1) (id : Int) : p.claimed id = p := if_neg claimed

/-- `add` keeps what a piece that was assigned is about, however it ends. -/
theorem add_same (claimed : p.id ≠ -1) (id : Int) (source : List UInt8) (size offset : Nat) :
    SamePiece p (p.add id source size offset).state := by
  unfold add
  split
  · exact .refl p
  · rename_i data allocated
    split
    · exact .refl p
    · dsimp only
      rw [claimed_of_ne claimed]
      split
      · exact store_same allocated source _ _ _
      · split
        · exact .refl p
        · exact .refl p
        · split
          · exact .refl p
          · exact store_same allocated source _ _ _

/-- A piece that has a buffer takes the blocks of its index. -/
theorem add_not_refused (allocated : p.data.isSome) (source : List UInt8) (size offset : Nat)
    (what : String) (t : Piece) :
    p.add p.id source size offset ≠ .thrown (.runtimeError what) t := by
  obtain ⟨data, hd⟩ := Option.isSome_iff_exists.1 allocated
  by_cases first : p.blocks.isEmpty = true
  · rw [add_first source hd (Or.inr rfl) first, store]
    split <;> rintro ⟨⟩
  · cases hf : fit ⟨offset, size⟩ (p.blocks.lastUpTo offset) (p.blocks.upperBound offset) with
    | error e =>
      rw [add_error source hd (Or.inr rfl) first hf]
      split <;> rintro ⟨⟩
    | ok block =>
      rw [add_fitted source hd (Or.inr rfl) first hf, store]
      split
      · rintro ⟨⟩
      · split <;> rintro ⟨⟩

end Piece

/-- A piece is handed out with its size. -/
theorem PieceList.getPiece_size {pl : PieceList} (handed : pl.getPiece.1 ≠ 0) :
    pl.getPiece.1 = pl.sizeOf pl.getPiece.2.1 := by
  revert handed
  unfold getPiece
  split
  · exact fun _ => rfl
  · split
    · exact fun _ => rfl
    · exact fun handed => absurd rfl handed

namespace Peer

variable {s s' : Peer β φ}

/-- The piece is the one whose index the peer holds, and of its size. -/
structure Holds (s : Peer β φ) : Prop where
  buffer : s.protocol.piece.data.isSome
  id : s.protocol.piece.id = s.protocol.pieceIndex
  full : s.protocol.piece.fullPieceSize = s.protocol.pieceSize
  nonzero : s.protocol.pieceSize ≠ 0
  size : s.protocol.pieceSize = s.shared.pieceList.sizeOf s.protocol.pieceIndex

def Agrees (s : Peer β φ) : Prop := 0 ≤ s.protocol.pieceIndex → s.Holds

theorem agrees_of_none (none : s.protocol.pieceIndex = -1) : s.Agrees := by
  intro held
  rw [none] at held
  exact absurd held (by decide)

/-- Only the index, the size and the piece of a peer decide whether they agree. -/
theorem Agrees.congr (h : s.Agrees) (index : s'.protocol.pieceIndex = s.protocol.pieceIndex)
    (size : s'.protocol.pieceSize = s.protocol.pieceSize)
    (piece : s.protocol.pieceIndex ≠ -1 → s.protocol.piece.SamePiece s'.protocol.piece)
    (sizes : s'.shared.pieceList.sizeOf = s.shared.pieceList.sizeOf) : s'.Agrees := by
  intro held
  rw [index] at held
  have before := h held
  have same := piece (by omega)
  refine ⟨?_, ?_, ?_, ?_, ?_⟩
  · rw [same.buffer]
    exact before.buffer
  · rw [same.id, index]
    exact before.id
  · rw [same.size, size]
    exact before.full
  · rw [size]
    exact before.nonzero
  · rw [size, index, sizes]
    exact before.size

/-! ## A piece is assigned -/

theorem createRequest_done (h : s.createRequest = .done () s') : ∃ offset messages,
    s' = { s with protocol := { s.protocol with offset := offset, messages := messages } } := by
  unfold createRequest at h
  split at h
  · cases h
  · cases h
    exact ⟨_, _, rfl⟩

section
variable [BitSet β]

theorem wanted_size {s : Peer β φ} (useful : s.getPiece.wanted = some true) :
    s.getPiece.protocol.pieceSize ≠ 0 ∧ s.getPiece.protocol.pieceSize =
      s.getPiece.shared.pieceList.sizeOf s.getPiece.protocol.pieceIndex := by
  have nonzero : s.getPiece.protocol.pieceSize ≠ 0 := by
    intro zero
    rw [wanted, if_pos zero] at useful
    cases useful
  refine ⟨nonzero, ?_⟩
  rw [getPiece_sizeOf]
  exact PieceList.getPiece_size nonzero

/-- Attempts that return leave the peer with no piece, or with one and its size. -/
theorem attempt_done (attempts : Nat) : ∀ s : Peer β φ, attempt (attempts + 1) s = .done () s' →
    s'.protocol.pieceIndex = -1 ∧ s'.protocol.pieceSize = 0 ∨
      s'.protocol.pieceSize ≠ 0 ∧
        s'.protocol.pieceSize = s'.shared.pieceList.sizeOf s'.protocol.pieceIndex := by
  induction attempts with
  | zero =>
    intro s attempted
    rw [attempt] at attempted
    split at attempted
    · cases attempted
    · rename_i useful
      cases attempted
      exact Or.inr (wanted_size useful)
    · cases attempted
      exact Or.inl ⟨rfl, rfl⟩
  | succ attempts ih =>
    intro s attempted
    rw [attempt] at attempted
    split at attempted
    · cases attempted
    · rename_i useful
      cases attempted
      exact Or.inr (wanted_size useful)
    · exact ih s.getPiece.returnPiece attempted

theorem attempt_sizeOf (s : Peer β φ) :
    (attempt numberOfAttempts s).state.shared.pieceList.sizeOf = s.shared.pieceList.sizeOf := by
  apply attempt_rule (P := fun r => r.shared.pieceList.sizeOf = s.shared.pieceList.sizeOf)
    (Q := fun r => r.shared.pieceList.sizeOf = s.shared.pieceList.sizeOf) ?_ (fun _ => id) ?_
    19 s rfl
  · intro r same
    exact (getPiece_sizeOf r).trans same
  · intro r same
    exact ⟨same, same⟩

theorem nextPiece_sizeOf (s : Peer β φ) :
    s.nextPiece.state.shared.pieceList.sizeOf = s.shared.pieceList.sizeOf := by
  rw [(nextPiece_custody s).shared]
  exact attempt_sizeOf s

/-- What is assigned agrees, also when a piece was held before. -/
theorem nextPiece_agrees (h : s.nextPiece = .done () s') : s'.Agrees := by
  obtain ⟨assigned, r, given, requested⟩ := Outcome.bind_eq_done h
  obtain ⟨_, t, attempted, given⟩ := Outcome.bind_eq_done given
  have ended := attempt_done 19 s attempted
  split at given
  · rename_i none
    cases given
    cases requested
    rcases ended with ⟨index, -⟩ | ⟨some, -⟩
    · exact agrees_of_none index
    · exact absurd none some
  · rename_i some
    cases given
    rcases ended with ⟨-, none⟩ | ⟨nonzero, size⟩
    · exact absurd none some
    · obtain ⟨offset, messages, rfl⟩ := createRequest_done requested
      exact fun _ => ⟨rfl, rfl, rfl, nonzero, size⟩

end

/-! ## The handlers -/

/-- **Everything `process_piece` does before it looks whether the piece is full.** -/
theorem addBlock_cases (s : Peer β φ) (data : List UInt8) (size : Nat) :
    s.addBlock data size = .fault .outOfBounds s ∨ s.addBlock data size = .done false s ∨
      ∃ (index : Nat) (payload : Bytes) (length offset : Nat), s.protocol.pieceIndex = index ∧
        s.addBlock data size = ((s.protocol.piece.add index payload length offset).lift
          fun piece => { s with protocol := { s.protocol with piece := piece } }).map
            fun _ => true := by
  unfold addBlock
  split
  · exact Or.inl rfl
  · rename_i index _
    split
    · exact Or.inr (Or.inl rfl)
    · rename_i held
      split
      · exact Or.inl rfl
      · exact Or.inr (Or.inr ⟨index, _, _, _, (not_not.1 held).symm, rfl⟩)

theorem addBlock_agrees (h : s.Agrees) (data : List UInt8) (size : Nat) :
    (s.addBlock data size).state.Agrees := by
  rcases addBlock_cases s data size with eq | eq | ⟨index, payload, length, offset, held, eq⟩
  · rwa [eq]
  · rwa [eq]
  · have holds := h (by omega)
    have claimed : s.protocol.piece.id ≠ -1 := by
      rw [holds.id]
      omega
    rw [eq, Outcome.map_state, Outcome.lift_state]
    apply h.congr
    · rfl
    · rfl
    · exact fun _ => Piece.add_same claimed index payload length offset
    · rfl

/-- A piece that agrees with its peer is handed its own blocks only. -/
theorem addBlock_not_refused (h : s.Agrees) (data : List UInt8) (size : Nat) (what : String)
    (t : Peer β φ) : s.addBlock data size ≠ .thrown (.runtimeError what) t := by
  rcases addBlock_cases s data size with eq | eq | ⟨index, payload, length, offset, held, eq⟩
  · rw [eq]
    rintro ⟨⟩
  · rw [eq]
    rintro ⟨⟩
  · have holds := h (by omega)
    have id : s.protocol.piece.id = index := holds.id.trans held
    have taken := Piece.add_not_refused holds.buffer payload length offset what
    rw [id] at taken
    rw [eq]
    cases added : s.protocol.piece.add index payload length offset with
    | done _ p => rintro ⟨⟩
    | fault r p => rintro ⟨⟩
    | thrown e p =>
      rintro ⟨⟩
      exact taken p added

variable [BitSet β] [Files φ]

theorem handlers_sizeOf (s : Peer β φ) (type : MessageType) (data : List UInt8) (size : Nat) :
    (handlers (.message type) data size s).state.shared.pieceList.sizeOf =
      s.shared.pieceList.sizeOf := by
  cases type with
  | choke => rfl
  | unchoke => exact nextPiece_sizeOf s
  | have_ =>
    have same : SameCustody s (handlers (.message .have_) data size s).state :=
      processHave_custody s data
    rw [same.shared]
  | bitfield =>
    have same : SameCustody s (handlers (.message .bitfield) data size s).state :=
      processBitfield_custody s data size
    rw [same.shared]
  | piece =>
    show (s.processPiece data size).state.shared.pieceList.sizeOf = _
    rcases processPiece_cases s data size with ⟨written, ⟨added, returned, _, wrote⟩, eq⟩ |
      ⟨_, same | failed⟩
    · have custody := addBlock_custody s data size
      rw [returned] at custody
      rw [eq, nextPiece_sizeOf]
      show written.shared.pieceList.sizeOf = _
      rw [(writePiece_done wrote).2.1, ← custody.shared]
      rfl
    · rw [same.shared]
    · rw [failed.pieceList]
  | interested | notInterested | request | cancel | port => rfl

theorem handlers_agrees (h : s.Agrees) {type : MessageType} {data : List UInt8} {size : Nat}
    (returned : handlers (.message type) data size s = .done () s') : s'.Agrees := by
  cases type with
  | choke =>
    cases returned
    exact agrees_of_none rfl
  | unchoke => exact nextPiece_agrees returned
  | have_ =>
    change s.processHave data = _ at returned
    unfold processHave at returned
    split at returned
    · cases returned
    · split at returned
      · cases returned
      · cases returned
        exact h.congr rfl rfl (fun _ => .refl _) rfl
  | bitfield =>
    change s.processBitfield data size = _ at returned
    unfold processBitfield at returned
    split at returned
    · cases returned
    · split at returned
      · cases returned
      · cases returned
        exact h.congr rfl rfl (fun _ => .refl _) rfl
  | piece =>
    obtain ⟨held, added, wasAdded, rest⟩ := Outcome.bind_eq_done returned
    have kept := addBlock_agrees h data size
    rw [wasAdded] at kept
    split at rest
    · unfold completePiece at rest
      split at rest
      · obtain ⟨_, written, _, next⟩ := Outcome.bind_eq_done rest
        exact nextPiece_agrees next
      · cases rest
        exact kept
    · cases rest
      exact kept
  | interested | notInterested | request | cancel | port =>
    cases returned
    exact h

end Peer

namespace Swarm

variable {w w' : Swarm β φ}

/-- The peer whose message was processed is in its new state, the others in their own. -/
theorem view_put {peer other : Nat} {s r : Peer β φ} (h : (w.put other s).view peer = some r) :
    peer = other ∧ r = s ∨
      ∃ p, w.view peer = some ⟨p, w.shared⟩ ∧ r = ⟨p, s.shared⟩ := by
  obtain ⟨hp, shared⟩ := view_eq_some.1 h
  rw [peer?_eq_some] at hp
  by_cases own : peer = other
  · subst own
    rw [put, List.getElem?_set_self'] at hp
    obtain ⟨_, -, same⟩ := Option.map_eq_some_iff.1 hp
    injection same with same
    have whole : r = ⟨r.protocol, r.shared⟩ := rfl
    rw [whole, ← same, shared]
    exact Or.inl ⟨rfl, rfl⟩
  · rw [put, List.getElem?_set_ne (Ne.symm own)] at hp
    refine Or.inr ⟨r.protocol, view_eq_some.2 ⟨peer?_eq_some.2 hp, rfl⟩, ?_⟩
    rw [show s.shared = _ from shared.symm]

theorem view_connect {peer : Nat} {p : PeerProtocol β} {r : Peer β φ}
    (h : view { w with peers := w.peers ++ [some p] } peer = some r) :
    w.view peer = some r ∨ peer = w.peers.length ∧ r.protocol = p := by
  obtain ⟨hp, shared⟩ := view_eq_some.1 h
  rw [peer?_eq_some] at hp
  by_cases old : peer < w.peers.length
  · rw [List.getElem?_append_left old] at hp
    exact Or.inl (view_eq_some.2 ⟨peer?_eq_some.2 hp, shared⟩)
  · rw [List.getElem?_append_right (Nat.not_lt.1 old)] at hp
    obtain ⟨first, -⟩ := List.getElem?_eq_some_iff.1 hp
    rw [List.length_singleton] at first
    have mem := List.mem_singleton.1 (List.mem_of_getElem? hp)
    injection mem with same
    exact Or.inr ⟨by omega, same⟩

theorem view_destroy {peer other : Nat} {r : Peer β φ}
    (h : view { w with peers := w.peers.set other none } peer = some r) :
    w.view peer = some r := by
  obtain ⟨hp, shared⟩ := view_eq_some.1 h
  rw [peer?_eq_some] at hp
  by_cases own : other = peer
  · subst own
    rw [List.getElem?_set_self'] at hp
    obtain ⟨_, -, ⟨⟩⟩ := Option.map_eq_some_iff.1 hp
  · rw [List.getElem?_set_ne own] at hp
    exact view_eq_some.2 ⟨peer?_eq_some.2 hp, shared⟩

variable [BitSet β] [Files φ]

/-- No message of the peer ends in an exception. -/
def Returns (peer : Nat) (w : Swarm β φ) : Action → Prop
  | .message other type data size => other = peer →
      ∀ s ∈ w.view peer, (Peer.handlers (.message type) data size s).Returns
  | .connect _ _ | .destroy _ => True

instance (peer : Nat) (w : Swarm β φ) (a : Action) : Decidable (w.Returns peer a) :=
  match a with
  | .message _ _ _ _ => inferInstanceAs (Decidable (_ → ∀ _ ∈ _, _))
  | .connect _ _ | .destroy _ => inferInstanceAs (Decidable True)

/-- The peer agrees with its piece as long as it is there. -/
def PeerAgrees (peer : Nat) (w : Swarm β φ) : Prop := ∀ s, w.view peer = some s → s.Agrees

theorem step_agrees {peer : Nat} (h : w.PeerAgrees peer) {a : Action}
    (returns : w.Returns peer a) (stepped : w.step a = some w') : w'.PeerAgrees peer := by
  rcases step_cases stepped with ⟨infoHash, random, p, rfl, made, rfl⟩ | ⟨other, p, rfl, _, rfl⟩ |
    ⟨other, type, data, size, s, rfl, _, hs, _, rfl⟩
  · intro r hr
    rcases view_connect hr with old | ⟨-, new⟩
    · exact h r old
    · apply Peer.agrees_of_none
      rw [new]
      exact (new_done made).1
  · intro r hr
    exact h r (view_destroy hr)
  · intro r hr
    rcases view_put hr with ⟨rfl, rfl⟩ | ⟨p, before, rfl⟩
    · obtain ⟨_, s', returned⟩ := returns rfl s hs
      rw [returned]
      exact Peer.handlers_agrees (h s hs) returned
    · have sizes := Peer.handlers_sizeOf s type data size
      rw [(view_eq_some.1 hs).2] at sizes
      apply (h _ before).congr
      · rfl
      · rfl
      · exact fun _ => .refl p.piece
      · exact sizes

theorem reach_agrees {peer : Nat} (h : Reach NoPeers step (Returns peer) w) :
    w.PeerAgrees peer := by
  apply Reach.invariant ?_ ?_ h
  · intro w none r hr
    have hp := peer?_eq_some.1 (view_eq_some.1 hr).1
    rw [show w.peers = [] from none] at hp
    cases hp
  · intro w a w' agrees returns stepped
    exact step_agrees agrees returns stepped

/-- **A peer and its piece agree** until a message of the peer ends in an exception,
whatever the other peers do; and no block it is sent is refused as one of another
piece, or for want of a buffer. -/
theorem piece_agrees {peer : Nat} (h : Reach NoPeers step (Returns peer) w) {s : Peer β φ}
    (hs : w.view peer = some s) :
    (0 ≤ s.protocol.pieceIndex → s.Holds) ∧
    ∀ data size what t, s.addBlock data size ≠ .thrown (.runtimeError what) t := by
  have agrees := reach_agrees h s hs
  exact ⟨agrees, Peer.addBlock_not_refused agrees⟩

/-- A peer that was assigned a piece. -/
theorem piece_agrees_unchoked :
    ∃ w : Swarm (List Bool) (List Bool),
      replay step (Returns 0) (initial twoPieces []) unchoked = some w ∧
      ∃ s, w.view 0 = some s ∧ s.protocol.pieceIndex = 0 ∧
        (0 ≤ s.protocol.pieceIndex → s.Holds) ∧
        ∀ data size what t, s.addBlock data size ≠ .thrown (.runtimeError what) t := by
  have enabled : (replay step (Returns 0) (initial twoPieces [] : Swarm (List Bool) (List Bool))
      unchoked).any (fun w => (w.view 0).any fun s => s.protocol.pieceIndex = 0) := by
    decide +kernel
  obtain ⟨w, run, live⟩ := (Option.any_eq_true _ _).1 enabled
  obtain ⟨s, hs, first⟩ := (Option.any_eq_true _ _).1 live
  have start : NoPeers (initial twoPieces [] : Swarm (List Bool) (List Bool)) := rfl
  exact ⟨w, run, s, hs, of_decide_eq_true first,
    piece_agrees (Reach.replay (.start start) run) hs⟩

end Swarm

end TorrentClient
