import Mathlib.Tactic.IntervalCases
import TorrentClient.Base.Simulation
import TorrentClient.BufferBounds
import TorrentClient.Ownership
import TorrentClient.QueueBlind

/-!
# The connections of a torrent

Every peer is reached over a connection of its own, which reads and writes bytes when the
poller calls it back. What the connections do to the pieces is a run of the peers of the
torrent, message after message, however the bytes arrive.
-/

namespace TorrentClient

/-- What has become of the messages of a connection. -/
structure Sent where
  /-- Those that have left the queue. -/
  taken : List Message
  /-- Those that the socket was given by a `write` that returned. -/
  written : List Message
  /-- A callback has thrown, and `perform` closes the socket. -/
  threw : Bool

/-- The client and its peer protocol. -/
structure Connection (β : Type) where
  sent : Sent
  client : ClientLogic (PeerProtocol β)

/-- A connection that was just made. -/
def Connection.made {β : Type} (buffer : Buffer) (p : PeerProtocol β) : Connection β :=
  ⟨⟨[], [], false⟩, .connected buffer p⟩

/-- A connection that was destroyed leaves `none` behind. -/
structure Connections (β φ : Type) where
  connections : List (Option (Connection β))
  shared : Shared φ

/-- The same client with another protocol object. -/
def ClientLogic.map {σ τ : Type} (f : σ → τ) (c : ClientLogic σ) : ClientLogic τ where
  state := c.state
  buffer := c.buffer
  bufferSize := c.bufferSize
  protocol := (c.protocol.1, f c.protocol.2)

inductive PollerEvent where
  | connect (infoHash random : Bytes) (buffer : Buffer)
  | read (connection : Nat) (results : List ReadResult)
  | write (connection : Nat) (throws : List Message → Message → Option Thrown)
  | destroy (connection : Nat)

/-! ## What the frames of a read change -/

theorem MessageType.ofId_eq_some {id : UInt8} {type : MessageType} (h : ofId id = some type) :
    type.id = id := by
  obtain ⟨lt, eq⟩ := List.getElem?_eq_some_iff.1 h
  have below : id.toNat < 10 := lt
  rw [← UInt8.ofNat_toNat (x := id)]
  generalize id.toNat = n at *
  interval_cases n <;> rw [← eq] <;> rfl

theorem ntohlAt_drop (data : List UInt8) (curr i : Nat) :
    ntohlAt (data.drop curr) i = ntohlAt data (curr + i) := by
  unfold ntohlAt
  rw [List.drop_drop, List.length_drop]
  have same : i + 4 ≤ data.length - curr ↔ curr + i + 4 ≤ data.length := by omega
  simp only [same]

section
variable {σ : Type} {handlers : Handlers σ} {P : σ → Prop}

/-- The frames that are handed on are whole frames of the window. -/
theorem messageLoop_dispatched
    (kept : ∀ type data size s, P s → Dispatched type data size →
      (handlers (.message type) data size s).Safe → P (handlers (.message type) data size s).state)
    (data : List UInt8) (size curr : Nat) (s : σ) (within : size ≤ data.length) :
    P s → (messageLoop handlers data size curr s).Safe →
      P (messageLoop handlers data size curr s).state := by
  have dispatched (curr n : Nat) (id : UInt8) (type : MessageType)
      (read : ntohlAt data curr = some n) (nonzero : ¬ n = 0)
      (fits : ¬ curr + n + messageLengthSize > size)
      (byte : data[curr + messageLengthSize]? = some id) (known : MessageType.ofId id = some type) :
      Dispatched type (data.drop curr) (n + messageLengthSize) := by
    refine ⟨by omega, ?_, ?_, ?_⟩
    · rw [List.length_drop]
      omega
    · rw [Nat.add_sub_cancel, ntohlAt_drop, Nat.add_zero, read]
    · rw [List.getElem?_drop, byte, MessageType.ofId_eq_some known]
  fun_induction messageLoop handlers data size curr s with
  | case1 | case3 | case4 | case5 | case9 => exact fun h _ => h
  | case2 curr s _ _ ih => exact ih
  | case6 curr s _ n read nonzero fits id byte type known _ s' returned ih =>
    intro h
    apply ih
    have handled := kept type _ _ s h (dispatched curr n id type read nonzero fits byte known)
    rw [returned] at handled
    exact handled Outcome.safe_done
  | case7 curr s _ n read nonzero fits id byte type known e s' threw =>
    intro h safe
    have handled := kept type _ _ s h (dispatched curr n id type read nonzero fits byte known)
    rw [threw] at handled
    exact handled Outcome.safe_thrown
  | case8 => exact fun _ safe => absurd safe Outcome.not_safe_fault

/-- What the frames of the window keep, and a handshake does not touch. -/
structure KeptByFrames (handlers : Handlers σ) (P : σ → Prop) : Prop where
  handshake : ∀ data size s, P s → P (handlers .handshake data size s).state
  message : ∀ type data size s, P s → Dispatched type data size →
    (handlers (.message type) data size s).Safe → P (handlers (.message type) data size s).state

theorem processMessage_dispatched (kept : KeptByFrames handlers P) (data : List UInt8) (size : Nat)
    (within : size ≤ data.length) (t : State × σ) (h : P t.2)
    (safe : (processMessage handlers data size t).Safe) :
    P (processMessage handlers data size t).state.2 := by
  obtain ⟨m, s⟩ := t
  cases m with
  | action =>
    rw [processMessage] at safe ⊢
    rw [Outcome.lift_state]
    exact messageLoop_dispatched kept.message data size 0 s within h (Outcome.lift_safe.1 safe)
  | handshake =>
    have handled := kept.handshake data handshakeSize s h
    revert safe
    rw [processMessage]
    split
    · exact fun _ => h
    · split
      · rename_i s' returned
        rw [returned] at handled
        intro safe
        rw [Outcome.lift_state]
        exact messageLoop_dispatched kept.message data size handshakeSize s' within handled
          (Outcome.lift_safe.1 safe)
      · rename_i threw
        rw [threw] at handled
        exact fun _ => handled
      · exact fun safe => absurd safe Outcome.not_safe_fault

namespace ClientLogic

/-- There may be no room left in the buffer, after a callback that threw. -/
def Inside (c : ClientLogic σ) : Prop := c.bufferSize ≤ bufferCapacity

instance (level : Nat) (result : ReadResult) : Decidable (Bounded level result) :=
  inferInstanceAs (Decidable (_ ∧ _))

instance decidableEachResult {Q : Nat → ReadResult → Prop}
    [∀ level result, Decidable (Q level result)] :
    ∀ (results : List ReadResult) (c : ClientLogic σ), Decidable (c.EachResult handlers Q results)
  | [], _ => .isTrue trivial
  | result :: results, c =>
    have : Decidable (∀ c', c.processRead handlers result = .done () c' →
        c'.EachResult handlers Q results) :=
      match c.processRead handlers result with
      | .done _ c' =>
        have := decidableEachResult (Q := Q) results c'
        decidable_of_iff (c'.EachResult handlers Q results)
          ⟨by rintro h _ ⟨⟩; exact h, fun h => h c' rfl⟩
      | .thrown _ _ | .fault _ _ => .isTrue (by rintro _ ⟨⟩)
    inferInstanceAs (Decidable (_ ∨ _ ∧ _))

theorem filled_inside {c c' : ClientLogic σ} {result : ReadResult} (inside : c.Inside)
    (bounded : Bounded c.bufferSize result) (hf : c.filled result = some c') :
    c'.Inside ∧ c'.protocol = c.protocol := by
  obtain ⟨granted, keeps⟩ := bounded
  unfold Inside at *
  cases result with
  | bytes data =>
    have asked : data.length ≤ sub64 bufferCapacity c.bufferSize := Int.ofNat_le.1 granted
    rw [sub64_eq (by decide) inside] at asked
    obtain ⟨buffer, -, rfl⟩ := Option.map_eq_some_iff.1 hf
    refine ⟨?_, rfl⟩
    show add64 c.bufferSize data.length ≤ bufferCapacity
    have word : bufferCapacity < 2 ^ 64 := by decide
    rw [add64_eq (by omega)]
    omega
  | failed n =>
    cases hf
    have back : -Int.negSucc n ≤ c.bufferSize := keeps
    refine ⟨?_, rfl⟩
    show add64 c.bufferSize (toUInt64 (Int.negSucc n)) ≤ bufferCapacity
    unfold add64 toUInt64
    have word : bufferCapacity < 2 ^ 64 := by decide
    omega

theorem checkWaiting_state (c : ClientLogic σ) : c.checkWaiting.state = c := by
  unfold checkWaiting
  dsimp only
  split
  · rfl
  · split <;> rfl

theorem consume_inside {c : ClientLogic σ} (processed : Nat) (inside : c.Inside) :
    (c.consume processed).state.Inside := by
  unfold consume
  split
  · dsimp only
    split
    · exact inside
    · split <;> exact Nat.le_trans (Nat.sub_le _ _) inside
  · exact Nat.zero_le _

theorem processRead_dispatched (kept : KeptByFrames handlers P) {c : ClientLogic σ}
    {result : ReadResult} (inside : c.Inside) (bounded : Bounded c.bufferSize result)
    (h : P c.protocol.2) (safe : (c.processRead handlers result).Safe) :
    P (c.processRead handlers result).state.protocol.2 ∧
      (c.processRead handlers result).state.Inside := by
  revert safe
  unfold processRead
  split
  · exact fun safe => absurd safe Outcome.not_safe_fault
  · rename_i c' hf
    obtain ⟨inside', same⟩ := filled_inside inside bounded hf
    have within : c'.bufferSize ≤ c'.buffer.val.length := by
      rw [c'.buffer.property]
      exact inside'
    have handled := processMessage_dispatched kept _ _ within c'.protocol (same ▸ h)
    split
    · rename_i threw
      rw [threw] at handled
      exact fun _ => ⟨handled Outcome.safe_thrown, inside'⟩
    · exact fun safe => absurd safe Outcome.not_safe_fault
    · rename_i processed t returned
      rw [returned] at handled
      have after := handled Outcome.safe_done
      intro _
      dsimp only
      split
      · rw [checkWaiting_state]
        exact ⟨after, inside'⟩
      · rw [(consume_kept { c' with protocol := t } processed).1]
        exact ⟨after, consume_inside (c := { c' with protocol := t }) processed inside'⟩

theorem readLoop_dispatched (kept : KeptByFrames handlers P) (results : List ReadResult) :
    ∀ c : ClientLogic σ, c.Inside → c.EachResult handlers Bounded results → P c.protocol.2 →
      (c.readLoop handlers results).Safe →
        P (c.readLoop handlers results).state.protocol.2 ∧
          (c.readLoop handlers results).state.Inside := by
  induction results with
  | nil => exact fun c inside _ h _ => ⟨h, inside⟩
  | cons result results ih =>
    intro c inside each h
    rw [readLoop]
    split
    · exact fun _ => ⟨h, inside⟩
    · rename_i more
      intro safe
      obtain ⟨bounded, later⟩ := each.resolve_left more
      obtain ⟨first, rest⟩ := Outcome.bind_safe.1 safe
      have read := processRead_dispatched kept inside bounded h first
      apply Outcome.bind_keeps
        (P := fun r : ClientLogic σ => P r.protocol.2 ∧ r.Inside) read
      intro _ r returned
      rw [returned] at read
      exact ih r read.2 (later r returned) read.1 (rest _ r returned)

theorem onRead_dispatched (kept : KeptByFrames handlers P) {hasMessage : σ → Bool}
    {c : ClientLogic σ} {results : List ReadResult} (inside : c.Inside)
    (each : c.state = .waitForRead → c.EachResult handlers Bounded results) (h : P c.protocol.2)
    (safe : (c.onRead handlers hasMessage results).Safe) :
    P (c.onRead handlers hasMessage results).state.protocol.2 ∧
      (c.onRead handlers hasMessage results).state.Inside := by
  revert safe
  unfold onRead
  split
  · exact fun _ => ⟨h, inside⟩
  · rename_i reads
    intro safe
    have looped := readLoop_dispatched kept results c inside (each (not_not.1 reads)) h
      (Outcome.bind_safe.1 safe).1
    apply Outcome.bind_keeps
      (P := fun r : ClientLogic σ => P r.protocol.2 ∧ r.Inside) looped
    intro _ r returned
    rw [returned] at looped
    show P (if _ then _ else r).protocol.2 ∧ (if _ then _ else r).Inside
    split <;> exact looped

end ClientLogic

end

variable {β φ : Type}

/-- The messages that `on_write` has taken out of the queue. -/
def takenBy (c c' : ClientLogic (Peer β φ)) : List Message :=
  let messages := c.protocol.2.protocol.messages
  messages.take (messages.length - c'.protocol.2.protocol.messages.length)

/-- A `write` that throws is the last of its callback. -/
def Sent.after (sent : Sent) (c : ClientLogic (Peer β φ)) :
    Outcome Thrown (ClientLogic (Peer β φ)) (List Message) → Sent
  | .done messages c' =>
    ⟨sent.taken ++ takenBy c c', sent.written ++ messages, sent.threw⟩
  | .thrown _ c' | .fault _ c' =>
    ⟨sent.taken ++ takenBy c c', sent.written ++ (takenBy c c').dropLast, true⟩

namespace Connections

/-- No connection yet, and nothing handed out. -/
def Start (n : Connections β φ) : Prop :=
  ∃ tf files, tf.pieces.val ≠ [] ∧ n = ⟨[], .new tf, files, []⟩

def connection? (n : Connections β φ) (i : Nat) : Option (Connection β) :=
  (n.connections[i]?).join

/-- The client of a connection, with what it shares with the others. -/
def client (n : Connections β φ) (c : Connection β) : ClientLogic (Peer β φ) :=
  c.client.map fun protocol => ⟨protocol, n.shared⟩

def put (n : Connections β φ) (i : Nat) (sent : Sent) (c : ClientLogic (Peer β φ)) :
    Connections β φ :=
  ⟨n.connections.set i (some ⟨sent, c.map (·.protocol)⟩), c.protocol.2.shared⟩

/-- A callback that throws leaves the connection as it is then, until it is closed. -/
def step [BitSet β] [Files φ] (n : Connections β φ) : PollerEvent → Option (Connections β φ)
  | .connect infoHash random buffer =>
    match PeerProtocol.new infoHash random n.shared.pieceList with
    | .done _ p => some { n with connections := n.connections ++ [some (.made buffer p)] }
    | .thrown _ _ | .fault _ _ => none
  | .read i results =>
    (n.connection? i).bind fun connection =>
      match (n.client connection).onRead Peer.handlers (fun s => s.protocol.hasMessage) results with
      | .done _ c' => some (n.put i connection.sent c')
      | .thrown _ c' => some (n.put i { connection.sent with threw := true } c')
      | .fault _ _ => none
  | .write i throws =>
    (n.connection? i).bind fun connection =>
      let c := n.client connection
      let written := c.onWrite throws
      match written with
      | .done _ c' | .thrown _ c' => some (n.put i (connection.sent.after c written) c')
      | .fault _ _ => none
  | .destroy i => (n.connection? i).map fun _ => { n with connections := n.connections.set i none }

/-- The reads of a callback return what they may. -/
def ReadsBounded [BitSet β] [Files φ] (n : Connections β φ) : PollerEvent → Prop
  | .read i results => ∀ connection ∈ n.connection? i, connection.client.state = .waitForRead →
      (n.client connection).EachResult Peer.handlers ClientLogic.Bounded results
  | .connect _ _ _ | .write _ _ | .destroy _ => True

instance [BitSet β] [Files φ] (n : Connections β φ) (e : PollerEvent) :
    Decidable (n.ReadsBounded e) :=
  match e with
  | .read i _ => inferInstanceAs (Decidable (∀ connection ∈ n.connection? i, _ → _))
  | .connect _ _ _ | .write _ _ | .destroy _ => .isTrue trivial

/-- The number of connections that hold a piece. -/
def holders (n : Connections β φ) (t : Int) : Nat :=
  n.connections.countP fun c => c.any fun c => c.client.protocol.2.pieceIndex = t

/-- The peers behind the connections, with all the messages they ever queued. -/
def swarm (n : Connections β φ) : Swarm β φ where
  peers := n.connections.map (·.map fun c =>
    { c.client.protocol.2 with
      messages := c.sent.taken ++ c.client.protocol.2.messages })
  shared := n.shared

end Connections

/-! ## What a write takes out of the queue -/

/-- Nothing but messages in front of the queue of `q` is gone from `p`. -/
def TakenFrom (p q : PeerProtocol β) : Prop :=
  ∃ taken, p = { q with messages := taken ++ q.messages }

theorem TakenFrom.trans {p q r : PeerProtocol β} : TakenFrom p q → TakenFrom q r →
    TakenFrom p r := by
  rintro ⟨taken, rfl⟩ ⟨taken', rfl⟩
  exact ⟨taken ++ taken', by rw [List.append_assoc]⟩

theorem getMessage_takes (p : PeerProtocol β) : TakenFrom p p.getMessage.2 := by
  unfold PeerProtocol.getMessage
  split
  · exact ⟨[], rfl⟩
  · rename_i message rest queue
    exact ⟨[message], by rw [List.singleton_append, ← queue]⟩

theorem writeLoop_takes (throws : List Message → Message → Option Thrown) (sent : List Message)
    (p : PeerProtocol β) : TakenFrom p (ClientLogic.writeLoop throws sent p).state := by
  fun_induction ClientLogic.writeLoop throws sent p with
  | case1 sent p empty => exact getMessage_takes p
  | case2 sent p _ e threw => exact getMessage_takes p
  | case3 sent p _ _ ih => exact (getMessage_takes p).trans ih

theorem onWrite_takes (throws : List Message → Message → Option Thrown)
    (c : ClientLogic (Peer β φ)) :
    TakenFrom c.protocol.2.protocol (c.onWrite throws).state.protocol.2.protocol ∧
      (c.onWrite throws).state.protocol.2.shared = c.protocol.2.shared ∧
      (c.onWrite throws).state.bufferSize = c.bufferSize := by
  have taken := writeLoop_takes throws [] c.protocol.2.protocol
  unfold ClientLogic.onWrite
  split
  · exact ⟨⟨[], rfl⟩, rfl, rfl⟩
  · dsimp only
    cases wrote : ClientLogic.writeLoop throws [] c.protocol.2.protocol with
    | done sent p | thrown e p | fault r p =>
      rw [wrote] at taken
      exact ⟨taken, rfl, rfl⟩

theorem Sent.after_taken (sent : Sent) (c : ClientLogic (Peer β φ))
    (o : Outcome Thrown (ClientLogic (Peer β φ)) (List Message)) :
    (sent.after c o).taken = sent.taken ++ takenBy c o.state := by
  cases o <;> rfl

namespace Connections

variable {n n' : Connections β φ} {i : Nat} {connection : Connection β}

theorem swarm_put (sent : Sent) (c : ClientLogic (Peer β φ)) :
    (n.put i sent c).swarm = n.swarm.put i (c.protocol.2.behind sent.taken) := by
  simp [swarm, put, Swarm.put, List.map_set, Peer.behind, ClientLogic.map]

theorem swarm_view (hc : n.connection? i = some connection) :
    n.swarm.view i = some ((n.client connection).protocol.2.behind connection.sent.taken) := by
  have at_i : n.connections[i]? = some (some connection) := Option.join_eq_some_iff.1 hc
  apply Swarm.view_eq_some.2
  refine ⟨Swarm.peer?_eq_some.2 ?_, rfl⟩
  rw [swarm, List.getElem?_map, at_i]
  rfl

theorem takenBy_behind {c c' : ClientLogic (Peer β φ)}
    (gone : TakenFrom c.protocol.2.protocol c'.protocol.2.protocol)
    (shared : c'.protocol.2.shared = c.protocol.2.shared) (taken : List Message) :
    c'.protocol.2.behind (taken ++ takenBy c c') = c.protocol.2.behind taken := by
  obtain ⟨front, hp⟩ := gone
  have split : takenBy c c' = front := by
    rw [takenBy, hp]
    simp
  rw [split, Peer.behind, Peer.behind, hp, shared, List.append_assoc]

theorem put_connection? (hc : n.connection? i = some connection) (sent : Sent)
    (c : ClientLogic (Peer β φ)) :
    (n.put i sent c).connection? i = some ⟨sent, c.map (·.protocol)⟩ := by
  obtain ⟨inside, -⟩ := List.getElem?_eq_some_iff.1 (Option.join_eq_some_iff.1 hc)
  rw [connection?, put, List.getElem?_set_self inside]
  rfl

/-- The clients never hold more than fits into their buffers. -/
def Inside (n : Connections β φ) : Prop := ∀ c, some c ∈ n.connections → c.client.Inside

theorem Inside.of_connection (h : n.Inside) (hc : n.connection? i = some connection) :
    connection.client.Inside :=
  h _ (List.mem_of_getElem? (Option.join_eq_some_iff.1 hc))

theorem Inside.put (h : n.Inside) {c : ClientLogic (Peer β φ)} (inside : c.Inside)
    (i : Nat) (sent : Sent) : (n.put i sent c).Inside := by
  intro other mem
  rcases List.mem_or_eq_of_mem_set mem with old | new
  · exact h other old
  · cases new
    exact inside

theorem start_inside (h : Start n) : Swarm.Start n.swarm ∧ n.Inside := by
  obtain ⟨tf, files, nonempty, rfl⟩ := h
  exact ⟨⟨tf, files, nonempty, rfl⟩, fun c mem => absurd mem List.not_mem_nil⟩

variable [BitSet β] [Files φ]

theorem step_read {connection : Connection β} (live : n.connection? i = some connection)
    {results : List ReadResult} {c : ClientLogic (Peer β φ)}
    (returned : (n.client connection).onRead Peer.handlers (fun s => s.protocol.hasMessage)
      results = .done () c) : n.step (.read i results) = some (n.put i connection.sent c) := by
  simp only [step, live, Option.bind_some, returned]

theorem step_write {connection : Connection β} (live : n.connection? i = some connection)
    {throws : List Message → Message → Option Thrown} {messages : List Message}
    {c : ClientLogic (Peer β φ)}
    (returned : (n.client connection).onWrite throws = .done messages c) :
    n.step (.write i throws) =
      some (n.put i (connection.sent.after (n.client connection) (.done messages c)) c) := by
  simp only [step, live, Option.bind_some, returned]

/-- The frames that are handed on are messages of the peer to the swarm. -/
theorem keptByFrames {w : Swarm β φ} {s : Peer β φ} (hs : w.view i = some s)
    (taken : List Message) :
    KeptByFrames (Peer.handlers : Handlers (Peer β φ))
      (fun s' => Steps Swarm.step anyStep w (w.put i (s'.behind taken))) where
  handshake _ _ _ h := h
  message type data size s' h dispatched safe := by
    refine .next (a := .message i type data size) h trivial ?_
    have safe' : (Peer.handlers (.message type) data size (s'.behind taken)).Safe := by
      rw [Peer.handlers_behind]
      exact Outcome.lift_safe.2 safe
    rw [Swarm.step_message (Swarm.view_put_self hs _) dispatched safe', Swarm.put_put,
      Peer.handlers_behind, Outcome.lift_state]

/-- Everything the poller can do is a run of the swarm. -/
theorem step_swarm (h : n.Inside) {e : PollerEvent} (bounded : n.ReadsBounded e)
    (stepped : n.step e = some n') :
    Steps Swarm.step anyStep n.swarm n'.swarm ∧ n'.Inside := by
  cases e with
  | connect infoHash random buffer =>
    simp only [step] at stepped
    split at stepped
    · rename_i p made
      cases stepped
      constructor
      · refine .next (a := .connect infoHash random) (.refl _) trivial ?_
        simp only [Swarm.step]
        rw [show n.swarm.shared = n.shared from rfl, made]
        simp [swarm, Connection.made, ClientLogic.connected]
      · intro c mem
        rcases List.mem_append.1 mem with old | new
        · exact h c old
        · cases List.mem_singleton.1 new
          exact Nat.zero_le _
    · cases stepped
    · cases stepped
  | read i results =>
    obtain ⟨connection, hc, stepped⟩ := Option.bind_eq_some_iff.1 stepped
    have view := swarm_view hc
    have start : Steps Swarm.step anyStep n.swarm
        (n.swarm.put i ((n.client connection).protocol.2.behind connection.sent.taken)) := by
      rw [Swarm.put_view view]
      exact .refl _
    have inside : (n.client connection).Inside := h.of_connection hc
    have read := @ClientLogic.onRead_dispatched _ _ _ (keptByFrames view connection.sent.taken)
      (fun s => s.protocol.hasMessage) _ _ inside (bounded connection hc) start
    split at stepped
    · rename_i returned
      cases stepped
      rw [returned] at read
      obtain ⟨run, inside⟩ := read Outcome.safe_done
      rw [swarm_put]
      exact ⟨run, h.put inside _ _⟩
    · rename_i threw
      cases stepped
      rw [threw] at read
      obtain ⟨run, inside⟩ := read Outcome.safe_thrown
      rw [swarm_put]
      exact ⟨run, h.put inside _ _⟩
    · cases stepped
  | write i throws =>
    obtain ⟨connection, hc, stepped⟩ := Option.bind_eq_some_iff.1 stepped
    obtain ⟨gone, shared, level⟩ := onWrite_takes throws (n.client connection)
    have same (c' : ClientLogic (Peer β φ))
        (left : ((n.client connection).onWrite throws).state = c') :
        (n.put i (connection.sent.after (n.client connection)
          ((n.client connection).onWrite throws)) c').swarm = n.swarm ∧ c'.Inside := by
      subst left
      constructor
      · rw [swarm_put, Sent.after_taken, takenBy_behind gone shared]
        exact Swarm.put_view (swarm_view hc)
      · rw [ClientLogic.Inside, level]
        exact h.of_connection hc
    dsimp only at stepped
    split at stepped
    · rename_i _ c' returned
      cases stepped
      obtain ⟨unchanged, inside⟩ := same c' (congrArg Outcome.state returned)
      rw [returned] at unchanged ⊢
      rw [unchanged]
      exact ⟨.refl _, h.put inside _ _⟩
    · rename_i _ c' threw
      cases stepped
      obtain ⟨unchanged, inside⟩ := same c' (congrArg Outcome.state threw)
      rw [threw] at unchanged ⊢
      rw [unchanged]
      exact ⟨.refl _, h.put inside _ _⟩
    · cases stepped
  | destroy i =>
    obtain ⟨connection, hc, rfl⟩ := Option.map_eq_some_iff.1 stepped
    constructor
    · refine .next (a := .destroy i) (.refl _) trivial ?_
      have live := (Swarm.view_eq_some.1 (swarm_view hc)).1
      rw [Swarm.step, live, Option.map_some]
      simp [swarm, List.map_set]
    · intro c mem
      rcases List.mem_or_eq_of_mem_set mem with old | new
      · exact h c old
      · cases new

theorem reach_swarm (h : Reach Start step ReadsBounded n) :
    Reach Swarm.Start Swarm.step anyStep n.swarm ∧ n.Inside := by
  have initial : ∀ n : Connections β φ, Start n →
      ∃ w, Swarm.Start w ∧ n.swarm = w ∧ n.Inside :=
    fun n started => ⟨_, (start_inside started).1, rfl, (start_inside started).2⟩
  have matched : ∀ (n : Connections β φ) (w : Swarm β φ) (e : PollerEvent) (n' : Connections β φ),
      n.swarm = w ∧ n.Inside → n.ReadsBounded e → n.step e = some n' →
        ∃ w', Steps Swarm.step anyStep w w' ∧ n'.swarm = w' ∧ n'.Inside := by
    rintro n _ e n' ⟨rfl, inside⟩ bounded stepped
    obtain ⟨run, inside'⟩ := step_swarm inside bounded stepped
    exact ⟨n'.swarm, run, rfl, inside'⟩
  obtain ⟨_, reached, rfl, inside⟩ := Reach.simulated initial matched h
  exact ⟨reached, inside⟩

/-- **The connections refine the swarm.** However the bytes of the peers are cut into reads,
and in whatever order the poller calls the connections back, the peers behind them are in a
state that the swarm reaches message after message. -/
theorem swarm_refined (h : Reach Start step ReadsBounded n) :
    Reach Swarm.Start Swarm.step anyStep n.swarm := (reach_swarm h).1

/-- A torrent of two pieces. -/
def pair : Connections (List Bool) (List Bool) := ⟨[], .new Swarm.twoPieces, [], []⟩

theorem start_pair : Start pair := ⟨Swarm.twoPieces, [], by decide, rfl⟩

/-- A connection writes its handshake. The other end answers with one of its own, of which a
bitfield and an UNCHOKE come after, cut in the bitfield. -/
def greeted : List PollerEvent :=
  [.connect [] (List.replicate 20 0) zeroBuffer, .write 0 fun _ _ => none,
    .read 0 (ClientLogic.offerReads.map .bytes)]

/-- The client has asked for the first piece, and is about to write that. -/
structure Asking (connection : Connection (List Bool)) : Prop where
  sent : connection.sent =
    ⟨ClientLogic.fresh.protocol.2.protocol.messages,
      ClientLogic.fresh.protocol.2.protocol.messages, false⟩
  state : connection.client.state = .waitForWrite
  queued : connection.client.protocol.2.messages.length = 2
  sendable : ∀ m ∈ connection.client.protocol.2.messages, m ≠ []
  holds : connection.client.protocol.2.pieceIndex = 0

def justMade : Connection (List Bool) := .made zeroBuffer ClientLogic.fresh.protocol.2.protocol

/-- Its client, once the handshake was written. -/
def waiting : ClientLogic (Peer (List Bool) (List Bool)) := { ClientLogic.fresh with
  state := .waitForRead
  protocol := (.handshake, ClientLogic.greetedPeer) }

def pairConnected : Connections (List Bool) (List Bool) :=
  { pair with connections := [some justMade] }

def pairWritten : Connections (List Bool) (List Bool) := pairConnected.put 0
  ⟨ClientLogic.fresh.protocol.2.protocol.messages,
    ClientLogic.fresh.protocol.2.protocol.messages, false⟩ waiting

theorem pair_connects : pair.step (.connect [] (List.replicate 20 0) zeroBuffer) =
    some pairConnected := rfl

theorem pairConnected_writes : pairConnected.step (.write 0 fun _ _ => none) =
    some pairWritten := by
  have writes : (pairConnected.client justMade).onWrite (fun _ _ => none) =
      .done ClientLogic.fresh.protocol.2.protocol.messages waiting := ClientLogic.fresh_onWrite
  have live : pairConnected.connection? 0 = some justMade := rfl
  rw [step_write live writes]
  rfl

theorem pairWritten_reads : ∃ n connection,
    pairWritten.ReadsBounded (.read 0 (ClientLogic.offerReads.map .bytes)) ∧
      pairWritten.step (.read 0 (ClientLogic.offerReads.map .bytes)) = some n ∧
      n.connection? 0 = some connection ∧ Asking connection := by
  have held : Holding waiting (.handshake, ClientLogic.greetedPeer) [] :=
    ⟨rfl, rfl, List.take_zero⟩
  obtain ⟨c, t, reads, after, waits, queued, sendable, holds⟩ := ClientLogic.onRead_offer held rfl
  let sent : Sent := ⟨ClientLogic.fresh.protocol.2.protocol.messages,
    ClientLogic.fresh.protocol.2.protocol.messages, false⟩
  have live : pairWritten.connection? 0 = some ⟨sent, waiting.map (·.protocol)⟩ := rfl
  have reads' : (pairWritten.client ⟨sent, waiting.map (·.protocol)⟩).onRead Peer.handlers
      (fun s => s.protocol.hasMessage) (ClientLogic.offerReads.map .bytes) = .done () c := reads
  have same : (c.map (·.protocol)).protocol.2 = t.2.protocol :=
    congrArg (fun r => r.2.protocol) after.protocol
  refine ⟨pairWritten.put 0 sent c, ⟨sent, c.map (·.protocol)⟩, ?_, ?_, rfl, rfl, waits,
    same ▸ queued, same ▸ sendable, same ▸ holds⟩
  · intro connection live _
    cases live
    exact ClientLogic.each_bounded _ _ (by decide)
  · exact step_read live reads'

/-- The first piece is with the connection that asks for it. -/
theorem swarm_refined_greeted :
    ∃ n connection, replay step ReadsBounded pair greeted = some n ∧
      n.connection? 0 = some connection ∧ Asking connection ∧
      Reach Swarm.Start Swarm.step anyStep n.swarm := by
  obtain ⟨n, connection, bounded, read, live, asking⟩ := pairWritten_reads
  have run : replay step ReadsBounded pair greeted = some n := by
    have first : pair.ReadsBounded (.connect [] (List.replicate 20 0) zeroBuffer) := trivial
    have second : pairConnected.ReadsBounded (.write 0 fun _ _ => none) := trivial
    rw [greeted, replay_cons first pair_connects, replay_cons second pairConnected_writes,
      replay_cons bounded read]
    rfl
  exact ⟨n, connection, run, live, asking, swarm_refined (Reach.replay (.start start_pair) run)⟩

omit [BitSet β] [Files φ] in
theorem holders_swarm (n : Connections β φ) (t : Int) : n.swarm.holders t = n.holders t := by
  rw [Swarm.holders, swarm, List.countP_map, holders]
  congr 1
  funext connection
  cases connection <;> rfl

/-- **No piece is in two places**, whatever bytes the peers send: no two connections hold
it, none holds it while it waits to be handed out, and it is written once at most. -/
theorem piece_held_once (h : Reach Start step ReadsBounded n) {t : Int}
    (ht : n.shared.pieceList.Contains t) :
    n.holders t + n.shared.pieceList.queued t + n.shared.completed t +
      n.shared.pieceList.unissued t ≤ 1 := by
  have one : n.swarm.holders t + n.shared.places t ≤ 1 :=
    (Swarm.reach_places_le (reach_swarm h).1).2 t ht
  rw [holders_swarm, Shared.places] at one
  omega

end Connections

end TorrentClient
