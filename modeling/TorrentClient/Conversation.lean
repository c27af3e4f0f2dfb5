import TorrentClient.Base.Simulation
import TorrentClient.BitBounds
import TorrentClient.PieceAgreement
import TorrentClient.Requests

/-!
# What a peer is told

After its handshake a client says that it is interested, and asks for whole pieces: for
those that the peer has said it has, and while the peer lets itself be asked.
-/

namespace TorrentClient

variable {β φ : Type}

/-- What a client says to a peer after its handshake. -/
inductive Utterance where
  | interested
  | wants (piece : Int)
  deriving DecidableEq, Repr

def Utterance.messages (sizeOf : Int → Nat) : Utterance → List Message
  | interested => [interestedMessage.map some]
  | wants piece => (requests (sizeOf piece)).map (Request.message (toUInt64 piece))

namespace Peer

/-- The messages that `s'` has queued behind those of `s`. -/
def Tells (s s' : Peer β φ) (said : List Utterance) : Prop :=
  s'.protocol.messages =
    s.protocol.messages ++ said.flatMap (·.messages s.shared.pieceList.sizeOf)

variable {s s' : Peer β φ}

theorem tells_nothing (same : s'.protocol.messages = s.protocol.messages) : s.Tells s' [] := by
  rw [Tells, same, List.flatMap_nil, List.append_nil]

/-! ## The requests for a piece -/

/-- The loop ends only for a size that `m_offset` can pass. -/
theorem requestLoop_word (pieceIndex : Int) (size offset : Nat) (messages : List Message) :
    offset % blockSize = 0 → ∀ r, requestLoop pieceIndex size offset messages = some r →
      size ≤ offset ∨ size + blockSize ≤ 2 ^ 64 := by
  fun_induction requestLoop pieceIndex size offset messages with
  | case1 offset messages inside length request word ih =>
    intro aligned r looped
    have later := ih (by simp only [blockSize] at *; omega) r looped
    simp only [blockSize] at *
    omega
  | case2 => exact fun _ _ looped => by cases looped
  | case3 offset messages past => exact fun _ _ _ => Or.inl (Nat.not_lt.1 past)

theorem createRequest_tells (sized : s.protocol.pieceSize =
      s.shared.pieceList.sizeOf s.protocol.pieceIndex) (h : s.createRequest = .done () s') :
    s.Tells s' [.wants s.protocol.pieceIndex] := by
  have word : s.protocol.pieceSize + blockSize ≤ 2 ^ 64 := by
    have returned := h
    unfold createRequest at returned
    split at returned
    · cases returned
    · rename_i offset messages looped
      have ends := requestLoop_word _ _ 0 _ (by decide) _ looped
      simp only [blockSize] at *
      omega
  rw [createRequest_eq s word] at h
  cases h
  rw [Tells, List.flatMap_singleton, Utterance.messages, ← sized]

/-- Nothing is said, and nothing that decides what is said next has changed. -/
structure Quiet (s s' : Peer β φ) : Prop where
  messages : s'.protocol.messages = s.protocol.messages
  bits : s'.protocol.clientsPieces = s.protocol.clientsPieces
  sizes : s'.shared.pieceList.sizeOf = s.shared.pieceList.sizeOf

theorem Quiet.trans {s₁ s₂ s₃ : Peer β φ} (h : s₁.Quiet s₂) (h' : s₂.Quiet s₃) : s₁.Quiet s₃ :=
  ⟨h'.messages.trans h.messages, h'.bits.trans h.bits, h'.sizes.trans h.sizes⟩

theorem Quiet.tells (h : s.Quiet s') : s.Tells s' [] := tells_nothing h.messages

theorem addBlock_quiet (s : Peer β φ) (data : List UInt8) (size : Nat) :
    s.Quiet (s.addBlock data size).state := by
  rcases addBlock_cases s data size with eq | eq | ⟨index, payload, length, offset, -, eq⟩
  · rw [eq]
    exact ⟨rfl, rfl, rfl⟩
  · rw [eq]
    exact ⟨rfl, rfl, rfl⟩
  · rw [eq, Outcome.map_state, Outcome.lift_state]
    exact ⟨rfl, rfl, rfl⟩

theorem writePiece_quiet [Files φ] (s : Peer β φ) : s.Quiet s.writePiece.state := by
  unfold writePiece
  dsimp only
  split <;> exact ⟨rfl, rfl, rfl⟩

section
variable [BitSet β]

theorem attempt_quiet (s : Peer β φ) : s.Quiet (attempt numberOfAttempts s).state := by
  apply attempt_rule (P := s.Quiet) (Q := s.Quiet) ?_ (fun _ => id) ?_ 19 s ⟨rfl, rfl, rfl⟩
  · intro r quiet
    exact ⟨quiet.messages, quiet.bits, (getPiece_sizeOf r).trans quiet.sizes⟩
  · intro r quiet
    exact ⟨⟨quiet.messages, quiet.bits, quiet.sizes⟩, quiet.messages, quiet.bits, quiet.sizes⟩

/-- A piece that the attempts end with is one that the bits of the peer answer for. -/
theorem attempt_wanted (attempts : Nat) : ∀ s : Peer β φ, attempt (attempts + 1) s = .done () s' →
    s'.protocol.pieceSize ≠ 0 → s'.wanted = some true := by
  induction attempts with
  | zero =>
    intro s attempted nonzero
    rw [attempt] at attempted
    split at attempted
    · cases attempted
    · rename_i useful
      cases attempted
      exact useful
    · cases attempted
      exact absurd rfl nonzero
  | succ attempts ih =>
    intro s attempted
    rw [attempt] at attempted
    split at attempted
    · cases attempted
    · rename_i useful
      cases attempted
      exact fun _ => useful
    · exact ih s.getPiece.returnPiece attempted

/-- The peer is asked for the piece that it is assigned, or for none. -/
def AsksNext (s s' : Peer β φ) : Prop :=
  s'.protocol.clientsPieces = s.protocol.clientsPieces ∧
    (s.Tells s' [] ∨ s.Tells s' [.wants s'.protocol.pieceIndex] ∧
      BitSet.test s.protocol.clientsPieces (toUInt64 s'.protocol.pieceIndex) = some true)

theorem Quiet.asksNothing (h : s.Quiet s') : s.AsksNext s' := ⟨h.bits, Or.inl h.tells⟩

theorem Quiet.asks {r : Peer β φ} (h : s.Quiet r) (asks : r.AsksNext s') : s.AsksNext s' := by
  unfold AsksNext Tells at *
  rwa [h.messages, h.bits, h.sizes] at asks

/-- A piece that is assigned is asked for. -/
theorem createRequest_asks {piece : Piece} (wanted : s.wanted = some true)
    (sized : s.protocol.pieceSize = s.shared.pieceList.sizeOf s.protocol.pieceIndex)
    (nonzero : s.protocol.pieceSize ≠ 0) (safe : Outcome.Safe (createRequest
      { s with protocol := { s.protocol with piece := piece } })) :
    s.AsksNext (createRequest { s with protocol := { s.protocol with piece := piece } }).state := by
  cases asked : createRequest { s with protocol := { s.protocol with piece := piece } } with
  | thrown e u =>
    unfold createRequest at asked
    split at asked <;> cases asked
  | fault r u => exact absurd asked (safe r u)
  | done _ u =>
    have told := createRequest_tells
      (s := { s with protocol := { s.protocol with piece := piece } }) sized asked
    obtain ⟨offset, messages, rfl⟩ := createRequest_done asked
    rw [Peer.wanted, if_neg nonzero] at wanted
    exact ⟨rfl, Or.inr ⟨told, wanted⟩⟩

theorem nextPiece_asks (safe : s.nextPiece.Safe) : s.AsksNext s.nextPiece.state := by
  have quiet := attempt_quiet s
  revert safe
  unfold nextPiece getPieceIndex
  cases attempted : attempt numberOfAttempts s with
  | thrown e t =>
    rw [attempted] at quiet
    exact fun _ => quiet.asksNothing
  | fault r t => exact fun safe => absurd safe Outcome.not_safe_fault
  | done _ t =>
    rw [attempted] at quiet
    rw [Outcome.bind_done]
    by_cases none : t.protocol.pieceSize = 0
    · rw [if_pos none]
      exact fun _ => quiet.asksNothing
    · rw [if_neg none, Outcome.bind_done, if_pos rfl]
      intro safe
      obtain ⟨-, zero⟩ | ⟨-, sized⟩ := attempt_done 19 s attempted
      · exact absurd zero none
      · exact quiet.asks (createRequest_asks (attempt_wanted 19 s attempted none) sized none safe)

variable [Files φ]

/-! ## The handlers -/

theorem completePiece_asks (safe : s.completePiece.Safe) : s.AsksNext s.completePiece.state := by
  have quiet := writePiece_quiet s
  revert safe
  unfold completePiece
  split
  · cases written : s.writePiece with
    | thrown e r =>
      rw [written] at quiet
      exact fun _ => quiet.asksNothing
    | fault _ r => exact fun safe => absurd safe Outcome.not_safe_fault
    | done _ r =>
      rw [written] at quiet
      have released : s.Quiet r.released := ⟨quiet.messages, quiet.bits, quiet.sizes⟩
      exact fun safe => released.asks (nextPiece_asks (s := r.released) safe)
  · exact fun _ => (⟨rfl, rfl, rfl⟩ : s.Quiet s).asksNothing

/-- A block says nothing, or it is the last one of its piece and the next one is asked for. -/
theorem processPiece_asks {data : List UInt8} {size : Nat}
    (safe : (s.processPiece data size).Safe) :
    s.AsksNext (s.processPiece data size).state ∧
      (s.protocol.pieceIndex = -1 → s.Tells (s.processPiece data size).state []) := by
  have quiet := addBlock_quiet s data size
  revert safe
  unfold processPiece
  cases added : s.addBlock data size with
  | thrown e t =>
    rw [added] at quiet
    exact fun _ => ⟨quiet.asksNothing, fun _ => quiet.tells⟩
  | fault r t => exact fun safe => absurd safe Outcome.not_safe_fault
  | done held t =>
    rw [added] at quiet
    cases held with
    | false => exact fun _ => ⟨quiet.asksNothing, fun _ => quiet.tells⟩
    | true =>
      obtain ⟨index, holds⟩ := addBlock_true added
      exact fun safe => ⟨quiet.asks (completePiece_asks safe), fun none => by omega⟩

/-- **What a handler says.** Only UNCHOKE, and the last block of a piece, ask for one. -/
theorem handlers_tells {type : MessageType} {data : List UInt8} {size : Nat}
    (safe : (handlers (.message type) data size s).Safe) :
    ∃ said, s.Tells (handlers (.message type) data size s).state said ∧
      ∀ z, .wants z ∈ said →
        z = (handlers (.message type) data size s).state.protocol.pieceIndex ∧
        BitSet.test s.protocol.clientsPieces (toUInt64 z) = some true ∧
        (type = .unchoke ∨ type = .piece ∧ s.protocol.pieceIndex ≠ -1) := by
  have quiet {s' : Peer β φ} (same : s'.protocol.messages = s.protocol.messages)
      {P : Int → Prop} : ∃ said, s.Tells s' said ∧ ∀ z, .wants z ∈ said → P z :=
    ⟨[], tells_nothing same, fun _ mem => absurd mem List.not_mem_nil⟩
  have asks {s' : Peer β φ} (asks : s.AsksNext s')
      (because : type = .unchoke ∨ type = .piece ∧ s.protocol.pieceIndex ≠ -1) :
      ∃ said, s.Tells s' said ∧ ∀ z, .wants z ∈ said → z = s'.protocol.pieceIndex ∧
        BitSet.test s.protocol.clientsPieces (toUInt64 z) = some true ∧
        (type = .unchoke ∨ type = .piece ∧ s.protocol.pieceIndex ≠ -1) := by
    rcases asks.2 with nothing | ⟨told, marked⟩
    · exact ⟨[], nothing, fun _ mem => absurd mem List.not_mem_nil⟩
    · refine ⟨_, told, fun z mem => ?_⟩
      cases List.mem_singleton.1 mem
      exact ⟨rfl, marked, because⟩
  cases type with
  | choke => exact quiet rfl
  | unchoke => exact asks (nextPiece_asks safe) (Or.inl rfl)
  | have_ =>
    apply quiet
    show (s.processHave data).state.protocol.messages = _
    unfold processHave
    split
    · rfl
    · split <;> rfl
  | bitfield =>
    show ∃ said, s.Tells (s.processBitfield data size).state said ∧ _
    unfold processBitfield
    split
    · exact quiet rfl
    · split
      · exact quiet rfl
      · refine ⟨[.interested], rfl, fun z mem => ?_⟩
        cases List.mem_singleton.1 mem
  | piece =>
    obtain ⟨next, none⟩ := processPiece_asks safe
    by_cases held : s.protocol.pieceIndex = -1
    · exact ⟨[], none held, fun _ mem => absurd mem List.not_mem_nil⟩
    · exact asks next (Or.inr ⟨rfl, held⟩)
  | interested | notInterested | request | cancel | port => exact quiet rfl

/-- A peer that holds no piece is given one by UNCHOKE only, and CHOKE takes it back. -/
theorem handlers_choked (type : MessageType) (data : List UInt8) (size : Nat)
    (choked : type = .choke ∨ type ≠ .unchoke ∧ s.protocol.pieceIndex = -1) :
    (handlers (.message type) data size s).state.protocol.pieceIndex = -1 := by
  have kept {s' : Peer β φ} (same : SameCustody s s') (other : type ≠ .choke) :
      s'.protocol.pieceIndex = -1 :=
    same.pieceIndex.trans (choked.resolve_left other).2
  cases type with
  | choke => rfl
  | unchoke =>
    rcases choked with eq | ⟨ne, -⟩
    · cases eq
    · exact absurd rfl ne
  | have_ => exact kept (processHave_custody s data) (by rintro ⟨⟩)
  | bitfield => exact kept (processBitfield_custody s data size) (by rintro ⟨⟩)
  | piece =>
    rcases processPiece_cases s data size with ⟨written, ⟨added, wasAdded, -⟩, -⟩ |
      ⟨-, same | failed⟩
    · obtain ⟨index, held⟩ := addBlock_true wasAdded
      have none : s.protocol.pieceIndex = -1 := (choked.resolve_left (by rintro ⟨⟩)).2
      omega
    · exact kept same (by rintro ⟨⟩)
    · exact failed.pieceIndex.trans (choked.resolve_left (by rintro ⟨⟩)).2
  | interested | notInterested | request | cancel | port => exact kept (.refl s) (by rintro ⟨⟩)

end

/-! ## What a peer has said it has -/

end Peer

/-- A bit set in which no bit is set but those that were given to it. -/
class LawfulBitSet (β : Type) [BitSet β] : Prop where
  test_bind {bits bits' : β} {size : Nat} (bound : BitSet.bind bits size = some bits') (i : Nat) :
    BitSet.test bits' i ≠ some true
  test_bindData {bits bits' : β} {bytes : Bytes} (bound : BitSet.bindData bits bytes = some bits')
    {i : Nat} (marked : BitSet.test bits' i = some true) : i < 8 * bytes.length
  test_set {bits bits' : β} {i j : Nat} {value : Bool}
    (changed : BitSet.set bits i value = some bits') (marked : BitSet.test bits' j = some true) :
    j = i ∨ BitSet.test bits j = some true

instance : LawfulBitSet (List Bool) where
  test_bind := by
    rintro bits _ size ⟨⟩ i set
    have mem := List.mem_of_getElem? set
    cases List.eq_of_mem_replicate mem
  test_bindData := by
    rintro bits _ bytes ⟨⟩ i set
    obtain ⟨below, -⟩ := List.getElem?_eq_some_iff.1 set
    rw [List.length_flatMap] at below
    simpa [Nat.mul_comm] using below
  test_set := by
    intro bits bits' i j value changed marked
    by_cases own : j = i
    · exact Or.inl own
    · right
      simp only [BitSet.set] at changed
      split at changed
      · cases changed
        simp only [BitSet.test, List.getElem?_set_ne (Ne.symm own)] at marked
        exact marked
      · cases changed

/-- The bits that a bit set takes from the bytes of a bitfield. -/
def Marks (β : Type) [BitSet β] (bytes : Bytes) (i : Nat) : Prop :=
  ∃ bits bits' : β, BitSet.bindData bits bytes = some bits' ∧ BitSet.test bits' i = some true

/-- The action is a message in which the peer says that it has a piece. -/
def Action.Announces (β : Type) [BitSet β] (peer piece : Nat) : Action → Prop
  | .message other .have_ data _ => other = peer ∧ ntohlAt data baseMessageSize = some piece
  | .message other .bitfield data size => other = peer ∧
    ∃ bytes ∈ bytesAt data baseMessageSize (sub64 size baseMessageSize), Marks β bytes piece
  | _ => False

/-- Whether a peer lets itself be asked, after an action. -/
def Action.lets (peer : Nat) (before : Bool) : Action → Bool
  | .message other .unchoke _ _ => if other = peer then true else before
  | .message other .choke _ _ => if other = peer then false else before
  | _ => before

/-- What the connection is made with. -/
def Action.connects : Action → Option (Bytes × Bytes)
  | .connect infoHash random => some (infoHash, random)
  | .destroy _ | .message _ _ _ _ => none

def Announced (β : Type) [BitSet β] (actions : List Action) (peer piece : Nat) : Prop :=
  ∃ a ∈ actions, a.Announces β peer piece

/-- The last of the CHOKE and UNCHOKE messages of a peer is UNCHOKE. -/
def Unchoked (actions : List Action) (peer : Nat) : Prop :=
  actions.foldl (Action.lets peer) false = true

instance (actions : List Action) (peer : Nat) : Decidable (Unchoked actions peer) :=
  inferInstanceAs (Decidable (_ = _))

/-- The action is no message of the peer. -/
def Action.Foreign (peer : Nat) (a : Action) : Prop :=
  ∀ type data size, a ≠ .message peer type data size

theorem Action.Foreign.lets {a : Action} {peer : Nat} (foreign : a.Foreign peer) (before : Bool) :
    a.lets peer before = before := by
  cases a with
  | connect | destroy => rfl
  | message other type data size =>
    have ne : other ≠ peer := by
      rintro rfl
      exact foreign type data size rfl
    cases type with
    | choke | unchoke => exact if_neg ne
    | _ => rfl

theorem bytesAt_length {data bytes : List UInt8} {i n : Nat} (h : bytesAt data i n = some bytes) :
    bytes.length = n := by
  unfold bytesAt at h
  split at h
  · rename_i zero
    cases h
    exact zero.symm
  · split at h
    · rename_i inside
      cases h
      rw [List.length_take, List.length_drop]
      omega
    · cases h

section
variable [BitSet β] [LawfulBitSet β] [Files φ] {s : Peer β φ}

/-- A bit is set by a message that announces its piece. -/
theorem Peer.handlers_marks {type : MessageType} {data : List UInt8} {size : Nat}
    (safe : (handlers (.message type) data size s).Safe) (peer : Nat) {j : Nat}
    (marked : BitSet.test (handlers (.message type) data size s).state.protocol.clientsPieces j =
      some true) :
    BitSet.test s.protocol.clientsPieces j = some true ∨
      (Action.message peer type data size).Announces β peer j := by
  have same {s' : Peer β φ} (bits : s'.protocol.clientsPieces = s.protocol.clientsPieces)
      (marked : BitSet.test s'.protocol.clientsPieces j = some true) {P : Prop} :
      BitSet.test s.protocol.clientsPieces j = some true ∨ P := Or.inl (bits ▸ marked)
  cases type with
  | unchoke => exact same (nextPiece_asks safe).1 marked
  | piece => exact same (processPiece_asks safe).1.1 marked
  | have_ =>
    change BitSet.test (s.processHave data).state.protocol.clientsPieces j = _ at marked
    unfold processHave at marked
    split at marked
    · exact same rfl marked
    · rename_i pieceId read
      split at marked
      · exact same rfl marked
      · rename_i bits changed
        rcases LawfulBitSet.test_set changed marked with rfl | before
        · exact Or.inr ⟨rfl, read⟩
        · exact Or.inl before
  | bitfield =>
    change BitSet.test (s.processBitfield data size).state.protocol.clientsPieces j = _ at marked
    unfold processBitfield at marked
    split at marked
    · exact same rfl marked
    · rename_i bytes read
      split at marked
      · exact same rfl marked
      · rename_i bits bound
        exact Or.inr ⟨rfl, bytes, read, _, bits, bound, marked⟩
  | choke | interested | notInterested | request | cancel | port => exact same rfl marked

/-- What is announced is a number that no marker is converted to. -/
theorem Action.Announces.small {peer j size : Nat} {type : MessageType} {data : List UInt8}
    (h : (Action.message peer type data size).Announces β peer j)
    (dispatched : Dispatched type data size) : j < 2 ^ 36 := by
  have short := dispatched.short
  have long := dispatched.1
  simp only [messageLengthSize] at short long
  cases type with
  | have_ =>
    have := ntohlAt_lt h.2
    omega
  | bitfield =>
    obtain ⟨-, bytes, read, bits, bits', bound, marked⟩ := h
    have below := LawfulBitSet.test_bindData bound marked
    have length := bytesAt_length read
    simp only [baseMessageSize] at length
    rw [sub64_eq (by omega) (by omega)] at length
    omega
  | _ => cases h

end

/-! ## Runs -/

namespace Swarm

/-- What the peers of a run were made with, one after another. -/
def connections (actions : List Action) : List (Bytes × Bytes) :=
  actions.filterMap Action.connects

/-- The actions of a run so far account for what a peer was told. -/
structure Accounts [BitSet β] (actions : List Action) (peer : Nat) (s : Peer β φ)
    (said : List Utterance) : Prop where
  told : ∃ infoHash random hello, (connections actions)[peer]? = some (infoHash, random) ∧
    PeerProtocol.handshake infoHash random = some hello ∧
    s.protocol.messages = hello :: said.flatMap (·.messages s.shared.pieceList.sizeOf)
  wanted : ∀ z, .wants z ∈ said → s.shared.pieceList.Contains z ∧
    Announced β actions peer (toUInt64 z)

/-- What a peer was told, and what it has said, follow from the actions. -/
structure Follows [BitSet β] (actions : List Action) (peer : Nat) (s : Peer β φ) : Prop where
  accounts : ∃ said, Accounts actions peer s said
  bits : ∀ j, BitSet.test s.protocol.clientsPieces j = some true →
    j < 2 ^ 36 ∧ Announced β actions peer j

section
variable [BitSet β] {actions : List Action} {peer : Nat} {s s' : Peer β φ}

theorem connections_append (actions : List Action) (a : Action) :
    connections (actions ++ [a]) = connections actions ++ a.connects.toList := by
  rw [connections, List.filterMap_append]
  cases a <;> rfl

theorem connections_later {a : Action} {made : Bytes × Bytes}
    (h : (connections actions)[peer]? = some made) :
    (connections (actions ++ [a]))[peer]? = some made := by
  obtain ⟨inside, -⟩ := List.getElem?_eq_some_iff.1 h
  rw [connections_append, List.getElem?_append_left inside, h]

theorem announced_later {a : Action} {j : Nat} (h : Announced β actions peer j) :
    Announced β (actions ++ [a]) peer j := by
  obtain ⟨b, mem, announces⟩ := h
  exact ⟨b, List.mem_append_left _ mem, announces⟩

theorem announced_now {a : Action} {j : Nat} (h : a.Announces β peer j) :
    Announced β (actions ++ [a]) peer j :=
  ⟨a, List.mem_append_right _ (List.mem_singleton.2 rfl), h⟩

theorem unchoked_append {a : Action} : Unchoked (actions ++ [a]) peer ↔
    a.lets peer (actions.foldl (Action.lets peer) false) = true := by
  rw [Unchoked, List.foldl_append]
  rfl

/-- What a peer was told stays accounted for, and so does what it is told next. -/
theorem Accounts.next {said more : List Utterance} (h : Accounts actions peer s said) (a : Action)
    (tells : s.Tells s' more) (sizes : s'.shared.pieceList.sizeOf = s.shared.pieceList.sizeOf)
    (max : s'.shared.pieceList.maxPieceNum = s.shared.pieceList.maxPieceNum)
    (wanted : ∀ z, .wants z ∈ more → s'.shared.pieceList.Contains z ∧
      Announced β (actions ++ [a]) peer (toUInt64 z)) :
    Accounts (actions ++ [a]) peer s' (said ++ more) := by
  obtain ⟨infoHash, random, hello, connected, built, told⟩ := h.told
  refine ⟨⟨infoHash, random, hello, connections_later connected, built, ?_⟩, ?_⟩
  · rw [tells, told, sizes, List.flatMap_append, List.cons_append]
  · intro z mem
    rcases List.mem_append.1 mem with old | new
    · obtain ⟨contained, announced⟩ := h.wanted z old
      exact ⟨⟨contained.1, max ▸ contained.2⟩, announced_later announced⟩
    · exact wanted z new

end

/-- A peer that is not touched is seen as before. -/
theorem view_of_getElem? {w : Swarm β φ} {other : Nat} {r : Peer β φ}
    {peers : List (Option (PeerProtocol β))} (hr : w.view other = some r)
    (kept : peers[other]? = w.peers[other]?) : view { w with peers := peers } other = some r := by
  obtain ⟨live, shared⟩ := view_eq_some.1 hr
  rw [peer?_eq_some] at live
  exact view_eq_some.2 ⟨peer?_eq_some.2 (kept.trans live), shared⟩

variable [BitSet β] {w w' : Swarm β φ} {actions : List Action} {peer : Nat} {s s' : Peer β φ}

theorem new_told {infoHash random : Bytes} {pl : PieceList} {p : PeerProtocol β}
    (made : PeerProtocol.new infoHash random pl = .done () p) :
    (∃ bits size, BitSet.bind (bits : β) size = some p.clientsPieces) ∧
      ∃ hello, PeerProtocol.handshake infoHash random = some hello ∧ p.messages = [hello] := by
  unfold PeerProtocol.new at made
  dsimp only at made
  split at made
  · cases made
  · rename_i bits bound
    split at made
    · cases made
    · rename_i hello built
      cases made
      exact ⟨⟨_, _, bound⟩, hello, built, rfl⟩

section
variable [Files φ]

/-- There is a peer for each connection that was made. -/
theorem count_step (count : w.peers.length = (connections actions).length) {a : Action}
    (stepped : w.step a = some w') : w'.peers.length = (connections (actions ++ [a])).length := by
  rw [connections_append, List.length_append, ← count]
  rcases step_cases stepped with ⟨infoHash, random, p, rfl, -, rfl⟩ | ⟨other, p, rfl, -, rfl⟩ |
    ⟨other, type, data, size, s, rfl, -, -, -, rfl⟩
  · exact List.length_append
  · exact List.length_set
  · exact List.length_set

/-- **The induction for one peer of a run**: it is connected, the others act, and it sends
messages. -/
theorem run_view {P : List Action → Nat → Peer β φ → Prop}
    (connected : ∀ actions peer s infoHash random pl, peer = (connections actions).length →
      PeerProtocol.new infoHash random pl = .done () s.protocol →
      P (actions ++ [.connect infoHash random]) peer s)
    (others : ∀ actions peer a s s', P actions peer s → a.Foreign peer →
      s'.protocol = s.protocol → s'.shared.pieceList.sizeOf = s.shared.pieceList.sizeOf →
      s'.shared.pieceList.maxPieceNum = s.shared.pieceList.maxPieceNum →
      P (actions ++ [a]) peer s')
    (message : ∀ actions peer type data size s, P actions peer s → s.Sound →
      Dispatched type data size → (Peer.handlers (.message type) data size s).Safe →
      P (actions ++ [.message peer type data size]) peer
        (Peer.handlers (.message type) data size s).state)
    (h : Run Start step anyStep actions w) : ∀ peer s, w.view peer = some s → P actions peer s := by
  suffices every : w.Sound ∧ w.peers.length = (connections actions).length ∧
      ∀ peer s, w.view peer = some s → P actions peer s from every.2.2
  apply Run.invariant (P := fun actions w =>
    w.Sound ∧ w.peers.length = (connections actions).length ∧
      ∀ peer s, w.view peer = some s → P actions peer s) ?_ ?_ h
  · intro w started
    refine ⟨(start_places started).1, ?_⟩
    obtain ⟨tf, files, -, rfl⟩ := started
    refine ⟨rfl, fun peer s live => ?_⟩
    exact absurd (view_eq_some.1 live).1 (by simp [peer?, initial])
  · rintro actions w a w' ⟨sound, count, each⟩ _ stepped
    refine ⟨(step_sound sound stepped).1, count_step count stepped, ?_⟩
    intro peer r hr
    rcases step_cases stepped with ⟨infoHash, random, p, rfl, made, rfl⟩ |
      ⟨other, p, rfl, _, rfl⟩ | ⟨other, type, data, size, s, rfl, dispatched, hs, safe, rfl⟩
    · rcases view_connect hr with old | ⟨last, rfl⟩
      · exact others _ _ _ r r (each peer r old) (by rintro _ _ _ ⟨⟩) rfl rfl rfl
      · exact connected _ _ _ _ _ _ (last.trans count) made
    · exact others _ _ _ r r (each peer r (view_destroy hr)) (by rintro _ _ _ ⟨⟩) rfl rfl rfl
    · by_cases own : other = peer
      · subst own
        rw [view_put_self hs] at hr
        cases hr
        exact message _ _ _ _ _ _ (each other s hs) (sound.view hs) dispatched safe
      · rcases view_put hr with ⟨rfl, -⟩ | ⟨p, before, rfl⟩
        · exact absurd rfl own
        · have sizes := Peer.handlers_sizeOf s type data size
          have max := (Peer.handlers_moves (sound.view hs) (t := 0)
            ⟨Int.le_refl 0, Int.natCast_nonneg _⟩ type data size).max
          rw [(view_eq_some.1 hs).2] at sizes max
          refine others _ _ _ _ _ (each peer _ before) ?_ rfl sizes max
          rintro _ _ _ ⟨⟩
          exact own rfl

/-- A peer that does not let itself be asked holds no piece. -/
theorem choked_holds_none (h : Run Start step anyStep actions w) :
    ∀ peer s, w.view peer = some s → ¬ Unchoked actions peer → s.protocol.pieceIndex = -1 := by
  apply run_view (P := fun actions peer (s : Peer β φ) =>
    ¬ Unchoked actions peer → s.protocol.pieceIndex = -1) ?_ ?_ ?_ h
  · exact fun _ _ s _ _ _ _ made _ => (new_done made).1
  · intro actions peer a s s' before foreign same _ _ choked
    rw [unchoked_append, foreign.lets] at choked
    rw [same]
    exact before choked
  · intro actions peer type data size s before _ _ _ choked
    rw [unchoked_append] at choked
    apply Peer.handlers_choked
    cases type with
    | choke => exact Or.inl rfl
    | unchoke => exact absurd (if_pos rfl) choked
    | _ => exact Or.inr ⟨by rintro ⟨⟩, before choked⟩

/-- **Nothing is asked of a peer that does not let itself be asked**: it holds no piece, and
is told no more than that the client is interested. -/
theorem choked_not_asked (h : Run Start step anyStep actions w) (hs : w.view peer = some s)
    {a : Action} (stepped : w.step a = some w') (hs' : w'.view peer = some s')
    (choked : ¬ Unchoked (actions ++ [a]) peer) :
    s'.protocol.pieceIndex = -1 ∧
      ∃ said, s.Tells s' said ∧ ∀ u ∈ said, u = .interested := by
  refine ⟨choked_holds_none (.next h trivial stepped) peer s' hs' choked, ?_⟩
  have silent (same : s'.protocol.messages = s.protocol.messages) :
      ∃ said, s.Tells s' said ∧ ∀ u ∈ said, u = .interested :=
    ⟨[], Peer.tells_nothing same, fun _ mem => absurd mem List.not_mem_nil⟩
  rcases step_cases stepped with ⟨infoHash, random, p, rfl, made, rfl⟩ | ⟨other, p, rfl, _, rfl⟩ |
    ⟨other, type, data, size, t, rfl, dispatched, ht, safe, rfl⟩
  · obtain ⟨below, -⟩ := List.getElem?_eq_some_iff.1 (peer?_eq_some.1 (view_eq_some.1 hs).1)
    simp only [view, peer?, List.getElem?_append_left below] at hs hs'
    rw [hs] at hs'
    cases hs'
    exact silent rfl
  · rw [view_destroy hs'] at hs
    cases hs
    exact silent rfl
  · by_cases own : other = peer
    · subst own
      rw [view_put_self ht] at hs'
      rw [ht] at hs
      cases hs
      cases hs'
      obtain ⟨said, tells, because⟩ := Peer.handlers_tells safe
      refine ⟨said, tells, ?_⟩
      intro u mem
      cases u with
      | interested => rfl
      | wants z =>
        rw [unchoked_append] at choked
        rcases (because z mem).2.2 with rfl | ⟨rfl, held⟩
        · exact absurd (if_pos rfl) choked
        · exact absurd (choked_holds_none h other _ ht choked) held
    · rcases view_put hs' with ⟨rfl, -⟩ | ⟨p, before, rfl⟩
      · exact absurd rfl own
      · rw [before] at hs
        cases hs
        exact silent rfl

end

/-- A peer that stops letting itself be asked. -/
theorem choked_not_asked_again :
    ∃ (w w' : Swarm (List Bool) (List Bool)) (s s' : Peer (List Bool) (List Bool)),
      replay step anyStep (initial twoPieces []) unchoked = some w ∧ w.view 0 = some s ∧
      w.step (send .choke []) = some w' ∧ w'.view 0 = some s' ∧
      s'.protocol.pieceIndex = -1 ∧ ∃ said, s.Tells s' said ∧ ∀ u ∈ said, u = .interested := by
  have enabled : (replay step anyStep (initial twoPieces [] : Swarm (List Bool) (List Bool))
      unchoked).any (fun w => (w.view 0).isSome && (w.step (send .choke [])).any fun w' =>
        (w'.view 0).isSome) := by decide +kernel
  obtain ⟨w, run, both⟩ := (Option.any_eq_true _ _).1 enabled
  obtain ⟨live, ends⟩ := Bool.and_eq_true_iff.1 both
  obtain ⟨w', stepped, live'⟩ := (Option.any_eq_true _ _).1 ends
  obtain ⟨s, hs⟩ := Option.isSome_iff_exists.1 live
  obtain ⟨s', hs'⟩ := Option.isSome_iff_exists.1 live'
  exact ⟨w, w', s, s', run, hs, stepped, hs',
    choked_not_asked (Run.replay (.start (start_initial _ _ (by decide))) run) hs stepped hs'
      (by decide)⟩

/-- What the other peers do changes nothing about a peer. -/
theorem Follows.other (h : Follows actions peer s) {a : Action}
    (same : s'.protocol = s.protocol)
    (sizes : s'.shared.pieceList.sizeOf = s.shared.pieceList.sizeOf)
    (max : s'.shared.pieceList.maxPieceNum = s.shared.pieceList.maxPieceNum) :
    Follows (actions ++ [a]) peer s' := by
  obtain ⟨said, accounts⟩ := h.accounts
  refine ⟨⟨said ++ [], accounts.next a ?_ sizes max ?_⟩, ?_⟩
  · exact Peer.tells_nothing (by rw [same])
  · exact fun z mem => absurd mem List.not_mem_nil
  · rw [same]
    exact fun j marked => ⟨(h.bits j marked).1, announced_later (h.bits j marked).2⟩

variable [LawfulBitSet β]

theorem follows_connect {infoHash random : Bytes} {pl : PieceList}
    (last : peer = (connections actions).length)
    (made : PeerProtocol.new infoHash random pl = .done () s.protocol) :
    Follows (actions ++ [.connect infoHash random]) peer s := by
  obtain ⟨⟨bits, size, bound⟩, hello, built, told⟩ := new_told made
  refine ⟨⟨[], ⟨infoHash, random, hello, ?_, built, told⟩, ?_⟩, ?_⟩
  · rw [connections_append, last]
    exact List.getElem?_concat_length
  · exact fun z mem => absurd mem List.not_mem_nil
  · exact fun j marked => absurd marked (LawfulBitSet.test_bind bound j)

variable [Files φ]

/-- A message of a peer accounts for what the peer is told in return. -/
theorem Follows.message (h : Follows actions peer s) (sound : s.Sound) {type : MessageType}
    {data : List UInt8} {size : Nat} (dispatched : Dispatched type data size)
    (safe : (Peer.handlers (.message type) data size s).Safe) :
    Follows (actions ++ [.message peer type data size]) peer
      (Peer.handlers (.message type) data size s).state := by
  obtain ⟨said, accounts⟩ := h.accounts
  obtain ⟨more, tells, because⟩ := Peer.handlers_tells safe
  have sizes := Peer.handlers_sizeOf s type data size
  have moves := Peer.handlers_moves sound (t := 0) ⟨Int.le_refl 0, Int.natCast_nonneg _⟩ type data
    size
  refine ⟨⟨said ++ more, accounts.next _ tells sizes moves.max ?_⟩, ?_⟩
  · intro z mem
    obtain ⟨rfl, marked, -⟩ := because z mem
    obtain ⟨small, announced⟩ := h.bits _ marked
    refine ⟨moves.sound.index.resolve_left ?_, announced_later announced⟩
    intro none
    rw [none] at small
    exact absurd small (by decide)
  · intro j marked
    rcases Peer.handlers_marks safe peer marked with before | now
    · exact ⟨(h.bits j before).1, announced_later (h.bits j before).2⟩
    · exact ⟨now.small dispatched, announced_now now⟩

theorem run_follows (h : Run Start step anyStep actions w) :
    ∀ peer s, w.view peer = some s → Follows actions peer s := by
  apply run_view (P := Follows) ?_ ?_ ?_ h
  · exact fun _ _ _ _ _ _ last made => follows_connect last made
  · exact fun _ _ _ _ _ before _ same sizes max => before.other same sizes max
  · exact fun _ _ _ _ _ _ before sound dispatched safe => before.message sound dispatched safe

/-- **What a peer is told.** After the handshake that its own connection was made with, every
message is that the client is interested, or one of the requests for a whole piece that the
peer has said it has. -/
theorem asked_for_announced (h : Run Start step anyStep actions w) (hs : w.view peer = some s) :
    ∃ infoHash random hello, ∃ said : List Utterance,
      (connections actions)[peer]? = some (infoHash, random) ∧
      PeerProtocol.handshake infoHash random = some hello ∧
      s.protocol.messages = hello :: said.flatMap (·.messages s.shared.pieceList.sizeOf) ∧
      ∀ z, .wants z ∈ said → s.shared.pieceList.Contains z ∧
        Announced β actions peer (toUInt64 z) := by
  obtain ⟨said, ⟨infoHash, random, hello, connected, built, told⟩, wanted⟩ :=
    (run_follows h peer s hs).accounts
  exact ⟨infoHash, random, hello, said, connected, built, told, wanted⟩

/-- Two peers with handshakes of their own, of which the second has both pieces and lets
itself be asked. -/
def twoGreeted : List Action :=
  [.connect [] (List.replicate 20 1), .connect [] (List.replicate 20 2),
    .message 1 .bitfield (bitfieldHeader 2 ++ [0xc0]) 6,
    .message 1 .unchoke unchokeMessage 5]

theorem asked_for_announced_second :
    ∃ (w : Swarm (List Bool) (List Bool)) (s : Peer (List Bool) (List Bool)),
      replay step anyStep (initial twoPieces []) twoGreeted = some w ∧ w.view 1 = some s ∧
      s.protocol.messages.length = 3 ∧
      ∃ infoHash random hello, ∃ said : List Utterance,
        (connections twoGreeted)[1]? = some (infoHash, random) ∧
        PeerProtocol.handshake infoHash random = some hello ∧
        s.protocol.messages = hello :: said.flatMap (·.messages s.shared.pieceList.sizeOf) ∧
        ∀ z, .wants z ∈ said → s.shared.pieceList.Contains z ∧
          Announced (List Bool) twoGreeted 1 (toUInt64 z) := by
  have enabled : (replay step anyStep (initial twoPieces [] : Swarm (List Bool) (List Bool))
      twoGreeted).any (fun w => (w.view 1).any fun s => s.protocol.messages.length = 3) := by
    decide +kernel
  obtain ⟨w, run, live⟩ := (Option.any_eq_true _ _).1 enabled
  obtain ⟨s, hs, three⟩ := (Option.any_eq_true _ _).1 live
  exact ⟨w, s, run, hs, of_decide_eq_true three,
    asked_for_announced (Run.replay (.start (start_initial _ _ (by decide))) run) hs⟩

end Swarm

end TorrentClient
