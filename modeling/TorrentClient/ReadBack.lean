import TorrentClient.Connections
import TorrentClient.Conversation
import TorrentClient.MessageFrames

/-!
# What the other end reads

The bytes that a connection writes, given to the `process_message` of the other end. It
takes them apart into the handshake and the messages that were queued.
-/

namespace TorrentClient

variable {β φ : Type}

/-- The length, the number, and as many bytes as the length counts. -/
def IsFrame (type : MessageType) (frame : Bytes) : Prop :=
  ∃ n body, frame = htonl n ++ type.id :: body ∧ n < 2 ^ 32 ∧ n = 1 + body.length

theorem isFrame_interested : IsFrame .interested interestedMessage :=
  ⟨1, [], rfl, by decide, rfl⟩

theorem isFrame_request (index offset blockLength : Nat) :
    IsFrame .request (requestMessage index offset blockLength) :=
  ⟨13, htonl index ++ htonl offset ++ htonl blockLength, rfl, by decide, rfl⟩

/-- A frame is taken as it is, whatever follows it. -/
theorem nextUnit_frame {type : MessageType} {frame : Bytes} (h : IsFrame type frame)
    (rest : Bytes) : units.next .action (frame ++ rest) =
      .take frame.length .action (.frame (.message type) frame) := by
  obtain ⟨n, body, rfl, word, counts⟩ := h
  have length : (htonl n ++ type.id :: body).length = n + messageLengthSize := by
    simp [counts, messageLengthSize]
    omega
  have number : (htonl n ++ type.id :: body ++ rest).drop messageLengthSize =
      type.id :: (body ++ rest) := by
    rw [List.append_assoc]
    exact List.drop_left' (htonl_length n)
  have prefixed : (htonl n ++ type.id :: body ++ rest).take messageLengthSize = htonl n := by
    rw [List.append_assoc]
    exact List.take_left' (htonl_length n)
  rw [units_next, nextUnit, number]
  dsimp only
  rw [prefixed, ntohl_htonl word, if_neg (by omega), if_neg, MessageType.ofId_id, ← length]
  · dsimp only
    rw [List.take_left]
  · rw [List.length_append, length]
    omega

/-- A stream of frames is split where they meet. -/
theorem run_frames (frames : List (MessageType × Bytes)) (log : List (FrameKind × Bytes)) :
    (∀ f ∈ frames, IsFrame f.1 f.2) →
      units.run (dispatch recording) .action log (frames.flatMap (·.2)) =
        .done [] (.action, log ++ frames.map fun f => (.message f.1, f.2)) := by
  induction frames generalizing log with
  | nil =>
    intro _
    rw [List.map_nil, List.append_nil]
    exact Framer.run_wait rfl
  | cons f frames ih =>
    intro each
    obtain ⟨first, later⟩ := List.forall_mem_cons.1 each
    rw [List.flatMap_cons, Framer.run_take (nextUnit_frame first _), List.drop_left]
    show units.run _ .action (log ++ [(FrameKind.message f.1, f.2.take f.2.length)]) _ = _
    rw [List.take_length, ih _ later, List.append_assoc, List.map_cons]
    rfl

/-! ## What a connection has written -/

/-- The bytes that messages are sent as. A cell that was never written may be anything. -/
def SentAs (messages : List Message) (bytes : Bytes) : Prop :=
  List.Forall₂ (fun cell byte => ∀ value ∈ cell, byte = value) messages.flatten bytes

theorem forall₂_written {written bytes : Bytes}
    (h : List.Forall₂ (fun (cell : Cell) byte => ∀ value ∈ cell, byte = value)
      (written.map some) bytes) : bytes = written := by
  have same : List.Forall₂ Eq written bytes :=
    (List.forall₂_map_left_iff.1 h).imp fun _ _ equal => (equal _ rfl).symm
  rw [List.forall₂_eq_eq_eq] at same
  exact same.symm

/-- The frames of what a client has said. -/
def Utterance.frames (sizeOf : Int → Nat) : Utterance → List (MessageType × Bytes)
  | interested => [(.interested, interestedMessage)]
  | wants piece => (requests (sizeOf piece)).map fun r =>
    (.request, requestMessage (toUInt64 piece) r.offset r.length)

theorem Utterance.messages_eq (sizeOf : Int → Nat) (u : Utterance) :
    u.messages sizeOf = (u.frames sizeOf).map fun f => f.2.map some := by
  cases u with
  | interested => rfl
  | wants piece =>
    rw [messages, frames, List.map_map]
    rfl

theorem Utterance.frames_isFrame {sizeOf : Int → Nat} {u : Utterance} {f : MessageType × Bytes}
    (mem : f ∈ u.frames sizeOf) : IsFrame f.1 f.2 := by
  cases u with
  | interested =>
    cases List.mem_singleton.1 mem
    exact isFrame_interested
  | wants piece =>
    obtain ⟨r, -, rfl⟩ := List.mem_map.1 mem
    exact isFrame_request _ _ _

/-- A handshake and frames are read back, with their bytes cut anywhere. -/
theorem receive_sent {hello : Message} {frames : List (MessageType × Bytes)}
    (long : hello.length = handshakeSize) (each : ∀ f ∈ frames, IsFrame f.1 f.2)
    {chunks : List Bytes}
    (sent : SentAs (hello :: frames.map fun f => f.2.map some) chunks.flatten) :
    ∃ first, receive recording (.handshake, []) [] chunks =
      .done [] (.action, (.handshake, first) :: frames.map fun f => (.message f.1, f.2)) := by
  have wait : units.next .handshake [] = .wait := rfl
  rw [receive_eq_feed recording_frameLocal, Framer.feed_eq wait, List.nil_append]
  generalize chunks.flatten = bytes at sent
  have count := sent.length_eq
  rw [List.flatten_cons, List.length_append, long] at count
  have front := List.forall₂_take handshakeSize sent
  have back := List.forall₂_drop handshakeSize sent
  rw [List.flatten_cons, List.drop_left' long] at back
  have rest : bytes.drop handshakeSize = frames.flatMap (·.2) := by
    apply forall₂_written
    have cells : (frames.map fun f => f.2.map some).flatten =
        (frames.flatMap (·.2)).map some := by
      rw [List.map_flatMap, List.flatMap_def]
    rwa [← cells]
  have take : units.next .handshake bytes =
      .take handshakeSize .action (.frame .handshake (bytes.take handshakeSize)) := by
    rw [units_next, nextUnit, if_neg (by omega)]
  refine ⟨bytes.take handshakeSize, ?_⟩
  rw [Framer.run_take take, rest]
  show units.run _ .action [(FrameKind.handshake, (bytes.take handshakeSize).take _)] _ = _
  rw [List.take_length, run_frames frames _ each]
  rfl

section
variable [BitSet β] [Files φ]

/-- All that a peer is ever told. -/
theorem Swarm.all_told {w : Swarm β φ} {actions : List Action}
    (h : Run Start step anyStep actions w) : ∀ peer s, w.view peer = some s →
      ∃ hello, ∃ said : List Utterance, hello.length = handshakeSize ∧
        s.protocol.messages = hello :: said.flatMap (·.messages s.shared.pieceList.sizeOf) := by
  apply run_view (P := fun _ _ (s : Peer β φ) => ∃ hello, ∃ said : List Utterance,
    hello.length = handshakeSize ∧
      s.protocol.messages = hello :: said.flatMap (·.messages s.shared.pieceList.sizeOf)) ?_ ?_ ?_ h
  · intro actions peer s infoHash random pl _ made
    obtain ⟨-, hello, built, told⟩ := new_told made
    exact ⟨hello, [], ClientLogic.handshake_length built, told⟩
  · rintro actions peer a s s' ⟨hello, said, long, told⟩ _ same sizes _
    refine ⟨hello, said, long, ?_⟩
    rw [same, sizes]
    exact told
  · rintro actions peer type data size s ⟨hello, said, long, told⟩ _ _ safe
    obtain ⟨more, tells, -⟩ := Peer.handlers_tells safe
    refine ⟨hello, said ++ more, long, ?_⟩
    rw [tells, told, Peer.handlers_sizeOf, List.flatMap_append, List.cons_append]

/-! ## What the sockets were given -/

theorem IsFrame.nonempty {type : MessageType} {frame : Bytes} (h : IsFrame type frame) :
    frame ≠ [] := by
  obtain ⟨n, body, rfl, -, -⟩ := h
  exact List.append_ne_nil_of_right_ne_nil _ (List.cons_ne_nil _ _)

omit [BitSet β] [Files φ] in
/-- A `write` that returns has taken what it wrote. -/
theorem takenBy_done {c c' : ClientLogic (Peer β φ)} (sendable : c.protocol.2.Sendable)
    {throws : List Message → Message → Option Thrown} {sent : List Message}
    (returned : c.onWrite throws = .done sent c') : takenBy c c' = sent := by
  unfold ClientLogic.onWrite at returned
  split at returned
  · cases returned
    rw [takenBy, Nat.sub_self, List.take_zero]
  · obtain ⟨all, r, looped, last⟩ := Outcome.bind_eq_done returned
    obtain ⟨p, wrote, rfl⟩ := Outcome.lift_eq_done looped
    cases last
    obtain ⟨whole, emptied⟩ := ClientLogic.writeLoop_done throws [] _ sendable _ _ wrote
    rw [whole, List.nil_append]
    show List.take (_ - p.messages.length) _ = _
    rw [emptied]
    exact List.take_length

omit [BitSet β] [Files φ] in
theorem writeLoop_thrown {throws : List Message → Message → Option Thrown} (sent : List Message)
    (p : PeerProtocol β) : ∀ e p', ClientLogic.writeLoop throws sent p = .thrown e p' →
      ∃ front m, p.messages = front ++ m :: p'.messages ∧ throws (sent ++ front) m = some e := by
  fun_induction ClientLogic.writeLoop throws sent p with
  | case1 sent p empty => rintro _ _ ⟨⟩
  | case2 sent p given e threw =>
    rintro _ _ ⟨⟩
    cases queue : p.messages with
    | nil =>
      simp only [PeerProtocol.getMessage, queue] at given
      exact absurd rfl given
    | cons message rest =>
      simp only [PeerProtocol.getMessage, queue] at threw ⊢
      exact ⟨[], message, rfl, by rwa [List.append_nil]⟩
  | case3 sent p given _ ih =>
    intro e p' thrown
    cases queue : p.messages with
    | nil =>
      simp only [PeerProtocol.getMessage, queue] at given
      exact absurd rfl given
    | cons message rest =>
      simp only [PeerProtocol.getMessage, queue] at ih thrown
      obtain ⟨front, m, split, threw⟩ := ih e p' thrown
      refine ⟨message :: front, m, by rw [split, List.cons_append], ?_⟩
      rwa [List.append_assoc] at threw

omit [BitSet β] [Files φ] in
/-- One that throws has taken what it wrote, and the message that it throws at. -/
theorem takenBy_thrown {c c' : ClientLogic (Peer β φ)}
    {throws : List Message → Message → Option Thrown} {e : Thrown}
    (thrown : c.onWrite throws = .thrown e c') :
    ∃ front m, takenBy c c' = front ++ [m] ∧ throws front m = some e := by
  unfold ClientLogic.onWrite at thrown
  split at thrown
  · cases thrown
  · cases looped : ClientLogic.writeLoop throws [] c.protocol.2.protocol with
    | done all p => simp [looped] at thrown
    | fault r p => simp [looped] at thrown
    | thrown e' p =>
      obtain ⟨front, m, split, threw⟩ := writeLoop_thrown [] _ _ _ looped
      simp only [looped, Outcome.lift_thrown, Outcome.bind_thrown] at thrown
      cases thrown
      refine ⟨front, m, ?_, by rwa [List.nil_append] at threw⟩
      have count : (front ++ m :: p.messages).length - p.messages.length =
          (front ++ [m]).length := by
        simp only [List.length_append, List.length_cons, List.length_nil]
        omega
      rw [takenBy, split]
      dsimp only
      rw [count, List.append_cons front m p.messages, List.take_left]

/-- The connection that a callback belongs to. -/
def PollerEvent.calls : PollerEvent → Option Nat
  | .read i _ | .write i _ => some i
  | .connect _ _ _ | .destroy _ => none

/-- The socket was given what has left the queue, up to the message it threw at. -/
structure Sent.Faithful (sent : Sent) : Prop where
  written : sent.written <+: sent.taken
  all : sent.threw = false → sent.written = sent.taken

namespace Connections

variable {n n' : Connections β φ} {i : Nat} {connection : Connection β}

/-- `perform` closes the socket of a callback that threw, so it is not called back again. -/
def Performed (n : Connections β φ) (e : PollerEvent) : Prop :=
  n.ReadsBounded e ∧
    ∀ i ∈ e.calls, ∀ connection ∈ n.connection? i, connection.sent.threw = false

/-- The messages of a connection are a handshake and frames. -/
theorem queued (h : Reach Start step ReadsBounded n) (hc : n.connection? i = some connection) :
    ∃ hello, ∃ said : List Utterance, hello.length = handshakeSize ∧
      connection.sent.taken ++ connection.client.protocol.2.messages =
        hello :: (said.flatMap (·.frames n.shared.pieceList.sizeOf)).map
          fun f => f.2.map Option.some := by
  obtain ⟨actions, run⟩ := (reach_swarm h).1.run
  obtain ⟨hello, said, long, told⟩ := Swarm.all_told run i _ (swarm_view hc)
  refine ⟨hello, said, long, ?_⟩
  rw [List.map_flatMap]
  simp only [← Utterance.messages_eq]
  exact told

theorem queued_sendable (h : Reach Start step ReadsBounded n)
    (hc : n.connection? i = some connection) : (n.client connection).protocol.2.Sendable := by
  obtain ⟨hello, said, long, whole⟩ := queued h hc
  intro m mem
  have all : m ∈ connection.sent.taken ++ connection.client.protocol.2.messages :=
    List.mem_append_right _ mem
  rw [whole] at all
  rcases List.mem_cons.1 all with rfl | frame
  · exact List.ne_nil_of_length_pos (by rw [long]; decide)
  · obtain ⟨f, inFrames, rfl⟩ := List.mem_map.1 frame
    obtain ⟨u, -, framed⟩ := List.mem_flatMap.1 inFrames
    rw [ne_eq, List.map_eq_nil_iff]
    exact (Utterance.frames_isFrame framed).nonempty

/-- The sockets were given what has left the queues. -/
def Faithful (n : Connections β φ) : Prop := ∀ c, some c ∈ n.connections → c.sent.Faithful

omit [BitSet β] [Files φ] in
theorem Faithful.put (h : n.Faithful) {sent : Sent} (faithful : sent.Faithful) (i : Nat)
    (c : ClientLogic (Peer β φ)) : (n.put i sent c).Faithful := by
  intro other mem
  rcases List.mem_or_eq_of_mem_set mem with old | new
  · exact h other old
  · cases new
    exact faithful

theorem step_faithful (h : Reach Start step ReadsBounded n) (faithful : n.Faithful)
    {e : PollerEvent} (performed : n.Performed e) (stepped : n.step e = some n') :
    n'.Faithful := by
  have live {i : Nat} {connection : Connection β} (hc : n.connection? i = some connection) :
      connection.sent.Faithful :=
    faithful _ (List.mem_of_getElem? (Option.join_eq_some_iff.1 hc))
  cases e with
  | connect infoHash random buffer =>
    simp only [step] at stepped
    split at stepped
    · cases stepped
      intro c mem
      rcases List.mem_append.1 mem with old | new
      · exact faithful c old
      · cases List.mem_singleton.1 new
        exact ⟨List.prefix_refl _, fun _ => rfl⟩
    · cases stepped
    · cases stepped
  | read i results =>
    obtain ⟨connection, hc, stepped⟩ := Option.bind_eq_some_iff.1 stepped
    split at stepped
    · cases stepped
      exact faithful.put (live hc) i _
    · cases stepped
      have threw : Sent.Faithful { connection.sent with threw := true } :=
        ⟨(live hc).written, by rintro ⟨⟩⟩
      exact faithful.put threw i _
    · cases stepped
  | write i throws =>
    obtain ⟨connection, hc, stepped⟩ := Option.bind_eq_some_iff.1 stepped
    have whole := (live hc).all (performed.2 i rfl connection hc)
    dsimp only at stepped
    split at stepped
    · rename_i messages c' returned
      cases stepped
      refine faithful.put ?_ i _
      have same := takenBy_done (queued_sendable h hc) returned
      have all : (connection.sent.after (n.client connection)
          ((n.client connection).onWrite throws)).written =
            (connection.sent.after (n.client connection)
              ((n.client connection).onWrite throws)).taken := by
        rw [returned]
        exact congrArg₂ _ whole same.symm
      exact ⟨all ▸ List.prefix_refl _, fun _ => all⟩
    · rename_i e c' threw
      cases stepped
      refine faithful.put ?_ i _
      rw [threw]
      refine ⟨?_, by rintro ⟨⟩⟩
      show connection.sent.written ++ _ <+: connection.sent.taken ++ _
      obtain ⟨front, m, taken, -⟩ := takenBy_thrown threw
      rw [whole, taken, List.dropLast_concat]
      exact (List.prefix_append_right_inj _).2 (List.prefix_append _ _)
    · cases stepped
  | destroy i =>
    obtain ⟨connection, -, rfl⟩ := Option.map_eq_some_iff.1 stepped
    intro c mem
    rcases List.mem_or_eq_of_mem_set mem with old | new
    · exact faithful c old
    · cases new

theorem reach_faithful (h : Reach Start step Performed n) :
    Reach Start step ReadsBounded n ∧ n.Faithful := by
  induction h with
  | start started =>
    refine ⟨.start started, ?_⟩
    obtain ⟨tf, files, -, rfl⟩ := started
    exact fun c mem => absurd mem List.not_mem_nil
  | next _ performed stepped ih =>
    exact ⟨ih.1.next performed.1 stepped, step_faithful ih.1 ih.2 performed stepped⟩

/-- **What is written is read back.** Whatever the peers send and in whatever order the
poller calls back, the bytes that the socket of a connection was given are, cut anywhere, read
by the other end as a handshake and the messages that were queued, one frame for each. -/
theorem written_read_back (h : Reach Start step Performed n)
    (hc : n.connection? i = some connection) (some : connection.sent.written ≠ [])
    {chunks : List Bytes} (sent : SentAs connection.sent.written chunks.flatten) :
    ∃ hello first frames, ∃ said : List Utterance,
      connection.sent.taken ++ connection.client.protocol.2.messages =
        hello :: (said.flatMap (·.frames n.shared.pieceList.sizeOf)).map
          (fun f => f.2.map Option.some) ∧
      frames <+: said.flatMap (·.frames n.shared.pieceList.sizeOf) ∧
      connection.sent.written = hello :: frames.map (fun f => f.2.map Option.some) ∧
      receive recording (.handshake, []) [] chunks =
        .done [] (.action, (.handshake, first) :: frames.map fun f => (.message f.1, f.2)) := by
  obtain ⟨reach, faithful⟩ := reach_faithful h
  obtain ⟨hello, said, long, whole⟩ := queued reach hc
  have there := List.mem_of_getElem? (Option.join_eq_some_iff.1 hc)
  obtain ⟨later, split⟩ := (faithful _ there).written
  obtain ⟨message, rest, front⟩ := List.exists_cons_of_ne_nil some
  have queue := whole
  rw [← split, front, List.cons_append, List.cons_append] at whole
  injection whole with same whole
  subst same
  -- what was written is the front of what was queued
  have frames : rest = ((said.flatMap (·.frames n.shared.pieceList.sizeOf)).take rest.length).map
      fun f => f.2.map Option.some := by
    rw [List.map_take, ← whole, List.append_assoc]
    exact List.take_left.symm
  rw [front, frames] at sent
  have each : ∀ f ∈ (said.flatMap (·.frames n.shared.pieceList.sizeOf)).take rest.length,
      IsFrame f.1 f.2 := by
    intro f mem
    obtain ⟨u, -, framed⟩ := List.mem_flatMap.1 (List.mem_of_mem_take mem)
    exact Utterance.frames_isFrame framed
  obtain ⟨first, read⟩ := receive_sent long each sent
  refine ⟨message, first, _, said, queue, List.take_prefix _ _, ?_, read⟩
  rw [front, ← frames]

end Connections

end

theorem sentAs_zeros (messages : List Message) :
    SentAs messages (messages.flatten.map (·.getD 0)) := by
  rw [SentAs, List.forall₂_map_right_iff]
  apply List.forall₂_same.2
  rintro cell - value ⟨⟩
  rfl

namespace Connections

/-- The handshake was written, and after the answer INTERESTED and a request. The bytes are cut
in the second message. -/
theorem written_read_back_asking :
    ∃ (n : Connections (List Bool) (List Bool)) (connection : Connection (List Bool)),
      Reach Start step Performed n ∧ n.connection? 0 = some connection ∧
      connection.sent.written.length = 3 ∧
      let bytes := connection.sent.written.flatten.map (·.getD 0)
      ∃ hello first frames, ∃ said : List Utterance,
        connection.sent.taken ++ connection.client.protocol.2.messages =
          hello :: (said.flatMap (·.frames n.shared.pieceList.sizeOf)).map
            (fun f => f.2.map Option.some) ∧
        frames <+: said.flatMap (·.frames n.shared.pieceList.sizeOf) ∧
        connection.sent.written = hello :: frames.map (fun f => f.2.map Option.some) ∧
        receive recording (.handshake, []) [] [bytes.take 70, bytes.drop 70] =
          .done [] (.action, (.handshake, first) :: frames.map fun f => (.message f.1, f.2)) := by
  obtain ⟨n, connection, bounded, read, live, asking⟩ := pairWritten_reads
  have first : pair.Performed (.connect [] (List.replicate 20 0) zeroBuffer) :=
    ⟨trivial, by rintro _ ⟨⟩⟩
  have second : pairConnected.Performed (.write 0 fun _ _ => none) := by
    refine ⟨trivial, ?_⟩
    rintro _ ⟨⟩ _ ⟨⟩
    rfl
  have third : pairWritten.Performed (.read 0 (ClientLogic.offerReads.map .bytes)) := by
    refine ⟨bounded, ?_⟩
    rintro _ ⟨⟩ _ ⟨⟩
    rfl
  have fourth : n.Performed (.write 0 fun _ _ => none) := by
    refine ⟨trivial, ?_⟩
    rintro _ ⟨⟩ _ there
    rw [live] at there
    cases there
    rw [asking.sent]
  obtain ⟨c', wrote⟩ := @ClientLogic.onWrite_returns _ _ (n.client connection) asking.state
    asking.sendable
  let sent := connection.sent.after (n.client connection)
    (.done (n.client connection).protocol.2.protocol.messages c')
  have written : n.step (.write 0 fun _ _ => none) = some (n.put 0 sent c') := step_write live wrote
  have reach : Reach Start step Performed (n.put 0 sent c') :=
    .next (.next (.next (.next (.start start_pair) first pair_connects) second
      pairConnected_writes) third read) fourth written
  have three : sent.written.length = 3 := by
    show (connection.sent.written ++ connection.client.protocol.2.messages).length = 3
    rw [List.length_append, asking.queued, asking.sent]
    rfl
  have bytes := sentAs_zeros sent.written
  rw [← List.take_append_drop 70 (sent.written.flatten.map (·.getD 0))] at bytes
  refine ⟨_, _, reach, put_connection? live sent c', three,
    written_read_back reach (put_connection? live sent c') ?_ ?_⟩
  · exact List.ne_nil_of_length_pos (by show 0 < sent.written.length; omega)
  · rwa [List.flatten_cons, List.flatten_singleton]

end Connections

end TorrentClient
