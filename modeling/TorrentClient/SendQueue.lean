import TorrentClient.Base.System
import TorrentClient.Delivery
import TorrentClient.Handlers

/-!
# Waiting to read and waiting to write

A connection waits to write as long as messages are queued, and to read when none
are. The handlers queue messages, and `on_read` and `on_write` look at the queue
only when they return.
-/

namespace TorrentClient

variable {β φ : Type}

theorem PeerProtocol.getMessage_shorter (p : PeerProtocol β)
    (some : ¬ p.getMessage.1.length = 0) :
    p.getMessage.2.messages.length < p.messages.length := by
  unfold getMessage at *
  split at some
  · exact absurd rfl some
  · rename_i queue
    rw [queue]
    exact Nat.lt_succ_self _

namespace ClientLogic

/-- The loop of `on_write`. `write` is what the socket throws at a message, after
those it was given before. -/
def writeLoop (write : List Message → Message → Option Thrown) (sent : List Message)
    (p : PeerProtocol β) : Outcome Thrown (PeerProtocol β) (List Message) :=
  if _h : p.getMessage.1.length = 0 then .done sent p.getMessage.2
  else
    match write sent p.getMessage.1 with
    | some e => .thrown e p.getMessage.2
    | none => writeLoop write (sent ++ [p.getMessage.1]) p.getMessage.2
  termination_by p.messages.length
  decreasing_by exact p.getMessage_shorter _h

/-- `on_write`, with the messages that were written. -/
def onWrite (write : List Message → Message → Option Thrown) (c : ClientLogic (Peer β φ)) :
    Outcome Thrown (ClientLogic (Peer β φ)) (List Message) :=
  if c.state ≠ .waitForWrite then .done [] c
  else
    let (state, peer) := c.protocol
    let written := (writeLoop write [] peer.protocol).lift fun p =>
      { c with protocol := (state, { peer with protocol := p }) }
    written.bind fun sent c =>
      .done sent { c with state := if sent = [] then .waitForWrite else .waitForRead }

/-- What a socket is added to the poller for. -/
inductive PollerAction where
  | read
  | write
  deriving DecidableEq, Repr

def onRearm {σ : Type} (c : ClientLogic σ) : Option PollerAction :=
  if c.state = .waitForWrite then some .write
  else if c.state = .waitForRead then some .read
  else none

theorem onRearm_write {σ : Type} (c : ClientLogic σ) :
    c.onRearm = some .write ↔ c.state = .waitForWrite := by
  unfold onRearm
  cases c.state <;> decide

theorem onRearm_read {σ : Type} (c : ClientLogic σ) :
    c.onRearm = some .read ↔ c.state = .waitForRead := by
  unfold onRearm
  cases c.state <;> decide

end ClientLogic

/-! ## What is queued -/

namespace Peer

variable {s s' : Peer β φ}

/-- No message that is queued is an empty one. -/
def Sendable (s : Peer β φ) : Prop := ∀ m ∈ s.protocol.messages, m ≠ []

theorem sendable_append {messages : List Message} {m : Message} (h : ∀ m ∈ messages, m ≠ [])
    (nonempty : m ≠ []) : ∀ m' ∈ messages ++ [m], m' ≠ [] := by
  intro m' mem
  rcases List.mem_append.1 mem with old | new
  · exact h m' old
  · rw [List.mem_singleton.1 new]
    exact nonempty

theorem requestLoop_sendable (pieceIndex : Int) (size offset : Nat) (messages : List Message) :
    (∀ m ∈ messages, m ≠ []) →
      ∀ r ∈ requestLoop pieceIndex size offset messages, ∀ m ∈ r.2, m ≠ [] := by
  fun_induction requestLoop pieceIndex size offset messages with
  | case1 offset messages inside length request word ih =>
    intro h
    exact ih (sendable_append h (by rintro ⟨⟩))
  | case2 offset messages inside wraps =>
    intro _ r hr
    cases hr
  | case3 offset messages past =>
    intro h r hr
    cases hr
    exact h

theorem createRequest_sendable (h : s.Sendable) : s.createRequest.state.Sendable := by
  have queued := requestLoop_sendable s.protocol.pieceIndex s.protocol.pieceSize 0 _ h
  unfold createRequest
  split
  · exact h
  · rename_i offset messages sent
    exact queued _ sent

theorem addBlock_sendable (h : s.Sendable) (data : List UInt8) (size : Nat) :
    (s.addBlock data size).state.Sendable := by
  unfold addBlock
  split
  · exact h
  · split
    · exact h
    · split
      · exact h
      · rw [Outcome.map_state, Outcome.lift_state]
        exact h

section
variable [BitSet β]

theorem getPieceIndex_sendable (h : s.Sendable) : s.getPieceIndex.state.Sendable := by
  have attempted : (attempt numberOfAttempts s).state.Sendable :=
    attempt_rule (P := Sendable) (Q := Sendable) (fun _ => id) (fun _ => id)
      (fun _ kept => ⟨kept, kept⟩) 19 s h
  apply Outcome.bind_keeps attempted
  intro _ r returned
  rw [returned] at attempted
  split <;> exact attempted

theorem nextPiece_sendable (h : s.Sendable) : s.nextPiece.state.Sendable := by
  have assigned := getPieceIndex_sendable h
  apply Outcome.bind_keeps assigned
  intro _ r returned
  rw [returned] at assigned
  split
  · exact createRequest_sendable assigned
  · exact assigned

theorem processHave_sendable (h : s.Sendable) (data : List UInt8) :
    (s.processHave data).state.Sendable := by
  unfold processHave
  split
  · exact h
  · split <;> exact h

theorem processBitfield_sendable (h : s.Sendable) (data : List UInt8) (size : Nat) :
    (s.processBitfield data size).state.Sendable := by
  unfold processBitfield
  split
  · exact h
  · split
    · exact h
    · exact sendable_append h (by rintro ⟨⟩)

end

variable [Files φ]

theorem writePiece_sendable (h : s.Sendable) : s.writePiece.state.Sendable := by
  unfold writePiece
  dsimp only
  split <;> exact h

variable [BitSet β]

theorem completePiece_sendable (h : s.Sendable) : s.completePiece.state.Sendable := by
  unfold completePiece
  split
  · have wrote := writePiece_sendable h
    apply Outcome.bind_keeps wrote
    intro _ written returned
    rw [returned] at wrote
    exact nextPiece_sendable (s := written.released) wrote
  · exact h

theorem processPiece_sendable (h : s.Sendable) (data : List UInt8) (size : Nat) :
    (s.processPiece data size).state.Sendable := by
  have added := addBlock_sendable h data size
  apply Outcome.bind_keeps added
  intro _ r returned
  rw [returned] at added
  split
  · exact completePiece_sendable added
  · exact added

/-- The handlers queue whole messages. -/
theorem handlers_sendable (h : s.Sendable) (kind : FrameKind) (data : List UInt8) (size : Nat) :
    (handlers kind data size s).state.Sendable := by
  cases kind with
  | handshake => exact h
  | message type =>
    cases type with
    | choke => exact h
    | unchoke => exact nextPiece_sendable h
    | have_ => exact processHave_sendable h data
    | bitfield => exact processBitfield_sendable h data size
    | piece => exact processPiece_sendable h data size
    | interested | notInterested | request | cancel | port => exact h

end Peer

/-! ## What the handlers keep -/

section
variable {σ : Type} {handlers : Handlers σ} {P : σ → Prop}
  (kept : ∀ kind data size s, P s → P (handlers kind data size s).state)
include kept

theorem messageLoop_keeps (data : List UInt8) (size curr : Nat) (s : σ) :
    P s → P (messageLoop handlers data size curr s).state := by
  fun_induction messageLoop handlers data size curr s with
  | case1 | case3 | case4 | case5 | case9 => exact id
  | case2 curr s _ _ ih => exact ih
  | case6 curr s _ n _ _ _ id _ type _ _ s' returned ih =>
    intro h
    have handled := kept (.message type) (data.drop curr) (n + messageLengthSize) s h
    rw [returned] at handled
    exact ih handled
  | case7 curr s _ n _ _ _ id _ type _ e s' threw =>
    intro h
    have handled := kept (.message type) (data.drop curr) (n + messageLengthSize) s h
    rw [threw] at handled
    exact handled
  | case8 curr s _ n _ _ _ id _ type _ r s' faulted =>
    intro h
    have handled := kept (.message type) (data.drop curr) (n + messageLengthSize) s h
    rw [faulted] at handled
    exact handled

theorem processMessage_keeps (data : List UInt8) (size : Nat) (t : State × σ) (h : P t.2) :
    P (processMessage handlers data size t).state.2 := by
  obtain ⟨m, s⟩ := t
  cases m with
  | action =>
    rw [processMessage, Outcome.lift_state]
    exact messageLoop_keeps kept data size 0 s h
  | handshake =>
    have handled := kept .handshake data handshakeSize s h
    rw [processMessage]
    split
    · exact h
    · split
      · rename_i returned
        rw [returned] at handled
        rw [Outcome.lift_state]
        exact messageLoop_keeps kept data size handshakeSize _ handled
      · rename_i threw
        rw [threw] at handled
        exact handled
      · rename_i faulted
        rw [faulted] at handled
        exact handled

omit kept in
theorem checkWaiting_kept (c : ClientLogic σ) :
    c.checkWaiting.state.protocol = c.protocol ∧ c.checkWaiting.state.state = c.state := by
  unfold ClientLogic.checkWaiting
  dsimp only
  split
  · exact ⟨rfl, rfl⟩
  · split <;> exact ⟨rfl, rfl⟩

omit kept in
theorem consume_kept (c : ClientLogic σ) (processed : Nat) :
    (c.consume processed).state.protocol = c.protocol ∧
      (c.consume processed).state.state = c.state := by
  unfold ClientLogic.consume
  split
  · dsimp only
    split
    · exact ⟨rfl, rfl⟩
    · split <;> exact ⟨rfl, rfl⟩
  · exact ⟨rfl, rfl⟩

theorem processRead_keeps (c : ClientLogic σ) (result : ReadResult) (h : P c.protocol.2) :
    P (c.processRead handlers result).state.protocol.2 ∧
      (c.processRead handlers result).state.state = c.state := by
  have filled (c' : ClientLogic σ) (hf : c.filled result = some c') :
      c'.protocol = c.protocol ∧ c'.state = c.state := by
    cases result with
    | bytes data =>
      obtain ⟨buffer, -, rfl⟩ := Option.map_eq_some_iff.1 hf
      exact ⟨rfl, rfl⟩
    | failed n =>
      cases hf
      exact ⟨rfl, rfl⟩
  unfold ClientLogic.processRead
  split
  · exact ⟨h, rfl⟩
  · rename_i c' hf
    obtain ⟨protocol, state⟩ := filled c' hf
    have handled := processMessage_keeps kept c'.buffer.val c'.bufferSize c.protocol h
    rw [← protocol] at handled
    split
    · rename_i threw
      rw [threw] at handled
      exact ⟨handled, state⟩
    · rename_i faulted
      rw [faulted] at handled
      exact ⟨handled, state⟩
    · rename_i processed t returned
      rw [returned] at handled
      dsimp only
      split
      · have same := checkWaiting_kept { c' with protocol := t }
        exact ⟨same.1 ▸ handled, same.2.trans state⟩
      · have same := consume_kept { c' with protocol := t } processed
        exact ⟨same.1 ▸ handled, same.2.trans state⟩

theorem readLoop_keeps (results : List ReadResult) : ∀ c : ClientLogic σ, P c.protocol.2 →
    P (c.readLoop handlers results).state.protocol.2 ∧
      (c.readLoop handlers results).state.state = c.state := by
  induction results with
  | nil => exact fun c h => ⟨h, rfl⟩
  | cons result results ih =>
    intro c h
    rw [ClientLogic.readLoop]
    split
    · exact ⟨h, rfl⟩
    · have read := processRead_keeps kept c result h
      apply Outcome.bind_keeps
        (P := fun r : ClientLogic σ => P r.protocol.2 ∧ r.state = c.state) read
      intro _ r returned
      rw [returned] at read
      have later := ih r read.1
      exact ⟨later.1, later.2.trans read.2⟩

end

/-! ## The callbacks -/

/-- What happens to a connection from one callback to the next. The other peers may
change what it shares with them. -/
inductive Callback (φ : Type) where
  | read (results : List ReadResult)
  | write (throws : List Message → Message → Option Thrown)
  | others (shared : Shared φ)

namespace ClientLogic

/-- A connection that was just made, with its handshake queued. -/
def Made [BitSet β] (c : ClientLogic (Peer β φ)) : Prop :=
  ∃ buffer infoHash random p shared,
    PeerProtocol.new infoHash random shared.pieceList = .done () p ∧
    c = .connected buffer (⟨p, shared⟩ : Peer β φ)

/-- A callback that returns. -/
def callback [BitSet β] [Files φ] (c : ClientLogic (Peer β φ)) :
    Callback φ → Option (ClientLogic (Peer β φ))
  | .read results =>
    match c.onRead Peer.handlers (fun s => s.protocol.hasMessage) results with
    | .done _ c => some c
    | .thrown _ _ | .fault _ _ => none
  | .write throws =>
    match c.onWrite throws with
    | .done _ c => some c
    | .thrown _ _ | .fault _ _ => none
  | .others shared =>
    let (state, peer) := c.protocol
    some { c with protocol := (state, { peer with shared := shared }) }

variable {c c' : ClientLogic (Peer β φ)}

/-- What a connection waits for is decided by the messages that are queued. -/
structure Waits (c : ClientLogic (Peer β φ)) : Prop where
  sendable : c.protocol.2.Sendable
  write : c.state = .waitForWrite ↔ c.protocol.2.protocol.messages ≠ []
  read : c.state = .waitForRead ↔ c.protocol.2.protocol.messages = []

theorem handshake_length {infoHash random : Bytes} {message : Message}
    (h : PeerProtocol.handshake infoHash random = some message) :
    message.length = handshakeSize := by
  simp only [PeerProtocol.handshake, Option.bind_eq_some_iff] at h
  obtain ⟨first, h₁, second, h₂, third, h₃, h⟩ := h
  rw [memcpy_length h, memcpy_length h₃, memcpy_length h₂, memcpy_length h₁]
  exact List.length_replicate

theorem made_waits [BitSet β] (h : c.Made) : c.Waits := by
  obtain ⟨buffer, infoHash, random, p, shared, made, rfl⟩ := h
  unfold PeerProtocol.new at made
  dsimp only at made
  split at made
  · cases made
  · split at made
    · cases made
    · rename_i message built
      cases made
      have length := handshake_length built
      refine ⟨?_, iff_of_true rfl (List.cons_ne_nil _ _), iff_of_false ?_ (List.cons_ne_nil _ _)⟩
      · intro m mem empty
        rw [List.mem_singleton.1 mem] at empty
        rw [empty] at length
        cases length
      · rintro ⟨⟩

theorem writeLoop_done (write : List Message → Message → Option Thrown) (sent : List Message)
    (p : PeerProtocol β) : (∀ m ∈ p.messages, m ≠ []) →
      ∀ all p', writeLoop write sent p = .done all p' →
        all = sent ++ p.messages ∧ p'.messages = [] := by
  fun_induction writeLoop write sent p with
  | case1 sent p empty =>
    intro sendable all p' returned
    cases queue : p.messages with
    | nil =>
      simp only [PeerProtocol.getMessage, queue] at returned
      cases returned
      exact ⟨(List.append_nil _).symm, queue⟩
    | cons message rest =>
      simp only [PeerProtocol.getMessage, queue] at empty
      rw [queue] at sendable
      exact absurd (List.length_eq_zero_iff.1 empty) (sendable message List.mem_cons_self)
  | case2 sent p _ e threw =>
    intro _ all p' returned
    cases returned
  | case3 sent p nonempty _ ih =>
    intro sendable all p' returned
    cases queue : p.messages with
    | nil =>
      simp only [PeerProtocol.getMessage, queue] at nonempty
      exact absurd rfl nonempty
    | cons message rest =>
      simp only [PeerProtocol.getMessage, queue] at ih returned
      rw [queue] at sendable
      have later := ih (fun m mem => sendable m (List.mem_cons_of_mem _ mem)) all p' returned
      rwa [List.append_assoc] at later

/-- A socket that throws at no message is given all of them. -/
theorem writeLoop_returns (sent : List Message) (p : PeerProtocol β) :
    ∃ all p', writeLoop (fun _ _ => none) sent p = .done all p' := by
  fun_induction writeLoop (fun _ _ => none) sent p with
  | case1 sent p empty => exact ⟨_, _, rfl⟩
  | case2 sent p _ e threw => cases threw
  | case3 sent p _ _ ih => exact ih

theorem onWrite_returns (writes : c.state = .waitForWrite) (sendable : c.protocol.2.Sendable) :
    ∃ c', c.onWrite (fun _ _ => none) = .done c.protocol.2.protocol.messages c' := by
  obtain ⟨all, p', looped⟩ := writeLoop_returns [] c.protocol.2.protocol
  obtain ⟨rfl, -⟩ := writeLoop_done _ [] _ sendable _ _ looped
  rw [onWrite, if_neg (not_not.2 writes)]
  show ∃ c', ((writeLoop _ [] c.protocol.2.protocol).lift _).bind _ = .done _ c'
  rw [looped]
  exact ⟨_, rfl⟩

theorem onWrite_waits (h : c.Waits) {write : List Message → Message → Option Thrown}
    {sent : List Message} (returned : c.onWrite write = .done sent c') : c'.Waits := by
  unfold onWrite at returned
  split at returned
  · cases returned
    exact h
  · rename_i writes
    obtain ⟨all, r, looped, last⟩ := Outcome.bind_eq_done returned
    obtain ⟨p, wrote, rfl⟩ := Outcome.lift_eq_done looped
    cases last
    obtain ⟨whole, emptied⟩ := writeLoop_done write [] _ h.sendable _ _ wrote
    have some : sent ≠ [] := by
      rw [whole]
      exact h.write.1 (not_not.1 writes)
    rw [if_neg some]
    refine ⟨?_, iff_of_false ?_ (not_not.2 emptied), iff_of_true rfl emptied⟩
    · intro m mem
      rw [show _ = [] from emptied] at mem
      cases mem
    · rintro ⟨⟩

variable [BitSet β] [Files φ]

theorem onRead_waits (h : c.Waits) {results : List ReadResult}
    (returned : c.onRead Peer.handlers (fun s => s.protocol.hasMessage) results = .done () c') :
    c'.Waits := by
  unfold onRead at returned
  split at returned
  · cases returned
    exact h
  · rename_i reads
    obtain ⟨_, r, looped, last⟩ := Outcome.bind_eq_done returned
    have kept := readLoop_keeps (P := Peer.Sendable)
      (fun kind data size s h => Peer.handlers_sendable h kind data size) results c h.sendable
    rw [looped] at kept
    have waiting : r.state = .waitForRead := kept.2.trans (not_not.1 reads)
    cases last
    cases queue : r.protocol.2.protocol.messages with
    | nil =>
      have none : r.protocol.2.protocol.hasMessage = false := by
        rw [PeerProtocol.hasMessage, queue]
        rfl
      rw [if_neg (by simp only [none]; exact Bool.false_ne_true)]
      refine ⟨kept.1, iff_of_false ?_ (not_not.2 queue), iff_of_true waiting queue⟩
      rw [waiting]
      rintro ⟨⟩
    | cons message rest =>
      have some : r.protocol.2.protocol.hasMessage = true := by
        rw [PeerProtocol.hasMessage, queue]
        rfl
      have nonempty : r.protocol.2.protocol.messages ≠ [] := by
        rw [queue]
        exact List.cons_ne_nil _ _
      rw [if_pos some]
      refine ⟨kept.1, iff_of_true rfl nonempty, iff_of_false ?_ nonempty⟩
      rintro ⟨⟩

theorem callback_read {results : List ReadResult} (returned :
    c.onRead Peer.handlers (fun s => s.protocol.hasMessage) results = .done () c') :
    c.callback (.read results) = some c' := by
  simp only [callback, returned]

theorem callback_write {throws : List Message → Message → Option Thrown} {sent : List Message}
    (returned : c.onWrite throws = .done sent c') : c.callback (.write throws) = some c' := by
  simp only [callback, returned]

/-- What a callback that returns has done. -/
theorem callback_cases {a : Callback φ} (called : c.callback a = some c') :
    (∃ results, a = .read results ∧
      c.onRead Peer.handlers (fun s => s.protocol.hasMessage) results = .done () c') ∨
    (∃ throws sent, a = .write throws ∧ c.onWrite throws = .done sent c') ∨
    ∃ shared, a = .others shared ∧
      c' = { c with protocol := (c.protocol.1, { c.protocol.2 with shared := shared }) } := by
  cases a with
  | read results =>
    simp only [callback] at called
    split at called
    · rename_i returned
      cases called
      exact Or.inl ⟨results, rfl, returned⟩
    · cases called
    · cases called
  | write throws =>
    simp only [callback] at called
    split at called
    · rename_i sent _ returned
      cases called
      exact Or.inr (Or.inl ⟨throws, sent, rfl, returned⟩)
    · cases called
    · cases called
  | others shared =>
    cases called
    exact Or.inr (Or.inr ⟨shared, rfl, rfl⟩)

theorem callback_waits (h : c.Waits) {a : Callback φ} (called : c.callback a = some c') :
    c'.Waits := by
  rcases callback_cases called with ⟨results, -, returned⟩ | ⟨throws, sent, -, returned⟩ |
    ⟨shared, -, rfl⟩
  · exact onRead_waits h returned
  · exact onWrite_waits h returned
  · exact ⟨h.sendable, h.write, h.read⟩

/-- **What a connection waits for**, between callbacks that return: to write as long as
messages are queued, and to read once there are none. -/
theorem waits_for_queue (h : Reach Made callback anyStep c) :
    (c.state = .waitForWrite ↔ c.protocol.2.protocol.messages ≠ []) ∧
    (c.state = .waitForRead ↔ c.protocol.2.protocol.messages = []) ∧
    (c.onRearm = some .write ↔ c.protocol.2.protocol.messages ≠ []) ∧
    (c.onRearm = some .read ↔ c.protocol.2.protocol.messages = []) := by
  have waits : c.Waits := Reach.invariant (fun _ made => made_waits made)
    (fun _ _ _ waits _ called => callback_waits waits called) h
  refine ⟨waits.write, waits.read, (onRearm_write c).trans waits.write,
    (onRearm_read c).trans waits.read⟩

/-- A connection for a torrent of two pieces. -/
def fresh : ClientLogic (Peer (List Bool) (List Bool)) :=
  .connected zeroBuffer
    ⟨(PeerProtocol.new [] (List.replicate 20 0) (.new Swarm.twoPieces)).state,
      .new Swarm.twoPieces, [], []⟩

theorem made_fresh : fresh.Made :=
  ⟨zeroBuffer, [], List.replicate 20 0, _, ⟨.new Swarm.twoPieces, [], []⟩, rfl, rfl⟩

/-- Its peer, once the handshake was written. -/
def greetedPeer : Peer (List Bool) (List Bool) :=
  { fresh.protocol.2 with protocol := { fresh.protocol.2.protocol with messages := [] } }

/-- The other end has both pieces, and lets itself be asked. -/
def offer : Bytes := [0, 0, 0, 2, 5, 0xc0, 0, 0, 0, 1, 1]

/-- The handshake of the other end comes with two bytes of its bitfield. -/
def offerReads : List Bytes := [zeroHandshake ++ offer.take 2, offer.drop 2]

/-- The client is interested, and asks for a piece. -/
theorem onRead_offer {c : ClientLogic (Peer (List Bool) (List Bool))}
    (h : Holding c (.handshake, greetedPeer) []) (reads : c.state = .waitForRead) :
    ∃ c' t, c.onRead Peer.handlers (fun s => s.protocol.hasMessage) (offerReads.map .bytes) =
        .done () c' ∧ Holding c' t [] ∧ c'.state = .waitForWrite ∧
      t.2.protocol.messages.length = 2 ∧ t.2.Sendable ∧ t.2.protocol.pieceIndex = 0 := by
  have called : processMessage Peer.handlers (zeroHandshake ++ offer.take 2)
      (zeroHandshake ++ offer.take 2).length (.handshake, greetedPeer) =
        .done 68 (.action, greetedPeer) := by
    rw [processMessage, if_neg (by decide)]
    show (messageLoop Peer.handlers _ _ handshakeSize greetedPeer).lift _ = _
    rw [messageLoop, if_neg (by decide)]
    rfl
  have dispatched : (processMessage Peer.handlers (offer.take 2 ++ offer.drop 2)
      (offer.take 2 ++ offer.drop 2).length (.action, greetedPeer)).any (fun count t =>
        count = 11 ∧ t.2.protocol.messages.length = 2 ∧ (∀ m ∈ t.2.protocol.messages, m ≠ []) ∧
          t.2.protocol.pieceIndex = 0) := by
    decide +kernel
  obtain ⟨count, t, returned, at_t⟩ := Outcome.any_eq_true dispatched
  obtain ⟨rfl, queued, sendable, holds⟩ := of_decide_eq_true at_t
  have handshake : ∃ c₁, c.processRead Peer.handlers
      (.bytes (zeroHandshake ++ offer.take 2)) = .done () c₁ ∧
        Holding c₁ (.action, greetedPeer) (offer.take 2) :=
    h.read_consumes Peer.handlers_stable (by decide) (by decide) (by decide) called
  obtain ⟨c₁, first, h₁⟩ := handshake
  have frames : ∃ c₂, c₁.processRead Peer.handlers (.bytes (offer.drop 2)) =
      .done () c₂ ∧ Holding c₂ t [] :=
    h₁.read_consumes Peer.handlers_stable (by decide) (by decide) (by decide) returned
  obtain ⟨c₂, second, h₂⟩ := frames
  have some : c₂.protocol.2.protocol.hasMessage = true := by
    rw [h₂.protocol, PeerProtocol.hasMessage, List.isEmpty_eq_false_iff.2]
    · rfl
    · exact List.ne_nil_of_length_pos (by omega)
  refine ⟨{ c₂ with state := .waitForWrite }, t, ?_, ⟨h₂.protocol, h₂.size, h₂.bytes⟩, rfl, queued,
    sendable, holds⟩
  have looped : c.readLoop Peer.handlers (offerReads.map .bytes) = .done () c₂ := by
    rw [offerReads, List.map_cons, List.map_singleton, readLoop, if_neg (by decide), first,
      Outcome.bind_done, readLoop, if_neg (by decide)]
    rw [second]
    rfl
  rw [onRead, if_neg (not_not.2 reads), looped, Outcome.bind_done, if_pos some]

theorem fresh_onWrite : fresh.onWrite (fun _ _ => none) =
    .done fresh.protocol.2.protocol.messages
      { fresh with state := .waitForRead, protocol := (.handshake, greetedPeer) } := by
  rw [onWrite, if_neg (by decide)]
  show ((writeLoop _ [] fresh.protocol.2.protocol).lift _).bind _ = _
  rw [writeLoop, dif_neg (by decide), writeLoop, dif_pos (by decide)]
  rfl

/-- The handshake is written, and the other end answers with one of its own, its bitfield and
an UNCHOKE. -/
theorem waits_for_queue_offer :
    ∃ c, replay callback anyStep fresh
        [.write fun _ _ => none, .read (offerReads.map .bytes)] = some c ∧
      c.state = .waitForWrite ∧ c.protocol.2.protocol.messages.length = 2 ∧
      (c.state = .waitForWrite ↔ c.protocol.2.protocol.messages ≠ []) ∧
      (c.state = .waitForRead ↔ c.protocol.2.protocol.messages = []) ∧
      (c.onRearm = some .write ↔ c.protocol.2.protocol.messages ≠ []) ∧
      (c.onRearm = some .read ↔ c.protocol.2.protocol.messages = []) := by
  have held : Holding { fresh with state := .waitForRead, protocol := (.handshake, greetedPeer) }
      (.handshake, greetedPeer) [] := ⟨rfl, rfl, List.take_zero⟩
  obtain ⟨c, t, returned, after, waits, queued, -, -⟩ := onRead_offer held rfl
  have run : replay callback anyStep fresh
      [.write fun _ _ => none, .read (offerReads.map .bytes)] = some c := by
    have read : callback { fresh with state := .waitForRead, protocol := (.handshake, greetedPeer) }
        (.read (offerReads.map .bytes)) = some c := callback_read returned
    have written : fresh.callback (.write fun _ _ => none) =
        some { fresh with state := .waitForRead, protocol := (.handshake, greetedPeer) } :=
      callback_write fresh_onWrite
    rw [replay_cons trivial written, replay_cons trivial read]
    rfl
  exact ⟨c, run, waits, after.protocol ▸ queued,
    waits_for_queue (Reach.replay (.start made_fresh) run)⟩

end ClientLogic

end TorrentClient
