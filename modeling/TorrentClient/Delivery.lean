import TorrentClient.ClientLogic

/-!
# Delivering a stream in reads

`on_read` hands a stream on unchanged when its check of a buffer that waits for
more never takes what is in it for a bad message.
-/

namespace TorrentClient

variable {σ : Type} {handlers : Handlers σ}

/-- The client holds the bytes that are pending, and its peer is in state `t`. -/
structure Holding (c : ClientLogic σ) (t : State × σ) (pending : List UInt8) : Prop where
  protocol : c.protocol = t
  size : c.bufferSize = pending.length
  bytes : c.buffer.val.take pending.length = pending

theorem Buffer.put_some (buffer : Buffer) (i : Nat) (bytes : List UInt8)
    (fits : i + bytes.length ≤ bufferCapacity) :
    ∃ after, buffer.put i bytes = some after ∧
      after.val.take (i + bytes.length) = buffer.val.take i ++ bytes := by
  refine ⟨_, dif_pos fits, ?_⟩
  have length : (buffer.val.take i ++ bytes).length = i + bytes.length := by
    rw [List.length_append, List.length_take, buffer.property, Nat.min_eq_left (by omega)]
  exact List.take_left' length

/-- What has to hold of every read of a sequence, of the state of the peer, the
bytes that are pending and the bytes that are read. -/
def EachRead (handlers : Handlers σ) (Q : State → List UInt8 → List UInt8 → Prop) :
    State × σ → List UInt8 → List (List UInt8) → Prop
  | _, _, [] => True
  | t, pending, chunk :: chunks =>
    Q t.1 pending chunk ∧
    ∀ rest t', units.run (dispatch handlers) t.1 t.2 (pending ++ chunk) = .done rest t' →
      EachRead handlers Q t' rest chunks

/-- A read returns at least one byte and at most as many as were asked for. -/
def Asked (_ : State) (pending chunk : List UInt8) : Prop :=
  chunk ≠ [] ∧ pending.length + chunk.length ≤ bufferCapacity

instance (m : State) (pending chunk : List UInt8) : Decidable (Asked m pending chunk) :=
  inferInstanceAs (Decidable (_ ∧ _))

/-- When the bytes there do not complete a unit and are more than five, the one
in the place of the message id is at most eight. -/
def Plausible (m : State) (pending chunk : List UInt8) : Prop :=
  units.next m (pending ++ chunk) = .wait → 5 < (pending ++ chunk).length →
    (pending ++ chunk).getD 4 0 ≤ 8

instance (m : State) (pending chunk : List UInt8) : Decidable (Plausible m pending chunk) :=
  inferInstanceAs (Decidable (_ → _))

theorem Holding.filled {c : ClientLogic σ} {t : State × σ} {pending chunk : List UInt8}
    (h : Holding c t pending) (fits : pending.length + chunk.length ≤ bufferCapacity) :
    ∃ c', c.filled (.bytes chunk) = some c' ∧ Holding c' t (pending ++ chunk) := by
  obtain ⟨buffer, put, taken⟩ := Buffer.put_some c.buffer pending.length chunk fits
  have word : pending.length + chunk.length < 2 ^ 64 := by
    simp only [bufferCapacity] at fits
    omega
  refine ⟨{ c with buffer := buffer, bufferSize := pending.length + chunk.length }, ?_, ?_⟩
  · rw [ClientLogic.filled, h.size, put, Option.map_some, add64_eq word]
  · refine ⟨h.protocol, List.length_append.symm, ?_⟩
    rw [List.length_append, taken, h.bytes]

theorem Holding.processMessage {c : ClientLogic σ} {t : State × σ} {pending : List UInt8}
    (hl : FrameLocal handlers) (h : Holding c t pending) (fits : pending.length ≤ bufferCapacity) :
    processMessage handlers c.buffer.val c.bufferSize c.protocol =
      (units.run (dispatch handlers) t.1 t.2 pending).map fun rest =>
        pending.length - rest.length := by
  have size : pending.length ≤ c.buffer.val.length := c.buffer.property.symm ▸ fits
  rw [h.protocol, h.size, processMessage_eq hl size, h.bytes]

theorem Holding.checkWaiting {c : ClientLogic σ} {t : State × σ} {pending : List UInt8}
    (h : Holding c t pending) (short : pending.length < bufferCapacity) :
    c.checkWaiting =
      if 5 < pending.length ∧ pending.getD 4 0 > 8 then .thrown (.int 1) c else .done () c := by
  have notFull : c.bufferSize ≠ bufferCapacity := h.size ▸ Nat.ne_of_lt short
  rw [ClientLogic.checkWaiting, if_neg notFull, h.size]
  by_cases more : 5 < pending.length
  · have byte : c.buffer.val.getD 4 0 = pending.getD 4 0 := by
      rw [← h.bytes, List.getD_eq_getElem?_getD, List.getD_eq_getElem?_getD,
        List.getElem?_take_of_lt (by omega)]
    rw [byte]
  · simp only [more, false_and, if_false]

/-- The bytes that were not consumed move to the front. -/
theorem Holding.consume {c : ClientLogic σ} {t : State × σ} {front rest : List UInt8}
    (h : Holding c t (front ++ rest)) (consumed : front ≠ [])
    (fits : (front ++ rest).length ≤ bufferCapacity) :
    ∃ c', c.consume front.length = .done () c' ∧ Holding c' t rest := by
  have size := h.size
  have pos := List.length_pos_iff.2 consumed
  rw [List.length_append] at size fits
  unfold ClientLogic.consume
  by_cases left : front.length < c.bufferSize
  · have read : bytesAt c.buffer.val front.length rest.length = some rest := by
      rw [bytesAt_eq (by rw [c.buffer.property]; exact fits)]
      have := congrArg (List.drop front.length) h.bytes
      rw [List.drop_left, List.length_append, List.drop_take, Nat.add_sub_cancel_left] at this
      rw [this]
    obtain ⟨buffer, put, taken⟩ :=
      Buffer.put_some c.buffer 0 rest (by omega)
    have sub : c.bufferSize - front.length = rest.length := by omega
    simp only [if_pos left, sub, read, Option.bind_some, put]
    rw [if_neg (by omega)]
    rw [List.take_zero, List.nil_append, Nat.zero_add] at taken
    exact ⟨_, rfl, h.protocol, rfl, taken⟩
  · have none : rest = [] := List.eq_nil_of_length_eq_zero (by omega)
    rw [if_neg left]
    exact ⟨_, rfl, h.protocol, by rw [none]; rfl, by rw [none]; rfl⟩

/-- One read, of bytes of which a call on nothing else consumes some. -/
theorem Holding.read_consumes {c : ClientLogic σ} {t t' : State × σ} {pending chunk : List UInt8}
    {count : Nat} (stable : Stable handlers) (h : Holding c t pending)
    (fits : pending.length + chunk.length ≤ bufferCapacity) (some : count ≠ 0)
    (within : count ≤ (pending ++ chunk).length)
    (called : TorrentClient.processMessage handlers (pending ++ chunk) (pending ++ chunk).length t =
      .done count t') :
    ∃ c', c.processRead handlers (.bytes chunk) = .done () c' ∧
      Holding c' t' ((pending ++ chunk).drop count) := by
  obtain ⟨c₁, filled, h₁⟩ := h.filled fits
  have whole : c₁.buffer.val =
      (pending ++ chunk) ++ c₁.buffer.val.drop (pending ++ chunk).length := by
    conv_lhs => rw [← List.take_append_drop (pending ++ chunk).length c₁.buffer.val, h₁.bytes]
  have processed : TorrentClient.processMessage handlers c₁.buffer.val c₁.bufferSize c₁.protocol =
      .done count t' := by
    have safe : (TorrentClient.processMessage handlers (pending ++ chunk) (pending ++ chunk).length
        t).Safe := called ▸ Outcome.safe_done
    rw [whole, h₁.size, h₁.protocol, processMessage_more stable _ _ _ _ safe, called]
  have split := List.take_append_drop count (pending ++ chunk)
  have length : ((pending ++ chunk).take count).length = count := by
    rw [List.length_take, Nat.min_eq_left within]
  have h₂ : Holding { c₁ with protocol := t' } t'
      ((pending ++ chunk).take count ++ (pending ++ chunk).drop count) := by
    rw [split]
    exact ⟨rfl, h₁.size, h₁.bytes⟩
  have consumed : (pending ++ chunk).take count ≠ [] := by
    intro none
    rw [none] at length
    exact some length.symm
  obtain ⟨c', returned, held⟩ := h₂.consume consumed (by rwa [split, List.length_append])
  rw [length] at returned
  refine ⟨c', ?_, held⟩
  simp only [ClientLogic.processRead, filled, processed, if_neg some, returned]

/-- One read, of a stream that is not rejected and whose units fit the buffer. -/
theorem Holding.processRead {c : ClientLogic σ} {t t' : State × σ} {pending chunk rest : List UInt8}
    (hl : FrameLocal handlers) (h : Holding c t pending) (asked : Asked t.1 pending chunk)
    (hr : units.run (dispatch handlers) t.1 t.2 (pending ++ chunk) = .done rest t')
    (short : rest.length < bufferCapacity) :
    if Plausible t.1 pending chunk then
      ∃ c', c.processRead handlers (.bytes chunk) = .done () c' ∧ Holding c' t' rest
    else ∃ c', c.processRead handlers (.bytes chunk) = .thrown (.int 1) c' := by
  obtain ⟨c₁, filled, h₁⟩ := h.filled asked.2
  have fits : (pending ++ chunk).length ≤ bufferCapacity := List.length_append ▸ asked.2
  have processed := h₁.processMessage hl fits
  rw [hr, Outcome.map_done] at processed
  have h₂ : Holding { c₁ with protocol := t' } t' (pending ++ chunk) :=
    ⟨rfl, h₁.size, h₁.bytes⟩
  simp only [ClientLogic.processRead, filled, processed]
  by_cases waits : units.next t.1 (pending ++ chunk) = .wait
  · rw [Framer.run_wait waits] at hr
    cases hr
    rw [Nat.sub_self, if_pos rfl, h₂.checkWaiting short]
    by_cases bad : 5 < (pending ++ chunk).length ∧ (pending ++ chunk).getD 4 0 > 8
    · have unlikely : ¬ Plausible t.1 pending chunk := fun p =>
        absurd (p waits bad.1) (UInt8.not_le.2 bad.2)
      rw [if_neg unlikely, if_pos bad]
      exact ⟨_, rfl⟩
    · have likely : Plausible t.1 pending chunk := fun _ more =>
        UInt8.not_lt.1 fun above => bad ⟨more, above⟩
      rw [if_pos likely, if_neg bad]
      exact ⟨_, rfl, h₂⟩
  · have likely : Plausible t.1 pending chunk := fun w => absurd w waits
    have shorter := Framer.run_shorter hr waits
    obtain ⟨front, split⟩ := (Framer.run_done hr).2
    have taken : (pending ++ chunk).length - rest.length = front.length := by
      rw [← split, List.length_append, Nat.add_sub_cancel]
    have some : front ≠ [] := by
      rintro rfl
      rw [← split] at shorter
      exact absurd shorter (Nat.lt_irrefl _)
    rw [← split] at h₂ fits
    rw [taken, if_neg (Nat.ne_of_gt (List.length_pos_iff.2 some)), if_pos likely]
    exact h₂.consume some fits

/-- The loop over the reads, of a stream that goes on with `more`. -/
theorem Holding.readLoop {c : ClientLogic σ} {t t' : State × σ} {pending rest more : List UInt8}
    (hl : FrameLocal handlers) (h : Holding c t pending) (chunks : List (List UInt8))
    (waits : units.next t.1 pending = .wait) (asked : EachRead handlers Asked t pending chunks)
    (below : units.Below bufferCapacity t.1 (pending ++ chunks.flatten ++ more))
    (hr : units.run (dispatch handlers) t.1 t.2 (pending ++ chunks.flatten) = .done rest t') :
    (EachRead handlers Plausible t pending chunks →
      ∃ c', c.readLoop handlers (chunks.map .bytes) = .done () c' ∧ Holding c' t' rest) ∧
    (¬ EachRead handlers Plausible t pending chunks →
      ∃ c', c.readLoop handlers (chunks.map .bytes) = .thrown (.int 1) c') := by
  induction chunks generalizing c t pending with
  | nil =>
    rw [List.flatten_nil, List.append_nil, Framer.run_wait waits] at hr
    cases hr
    exact ⟨fun _ => ⟨c, rfl, h⟩, fun bad => absurd trivial bad⟩
  | cons chunk chunks ih =>
    rw [List.flatten_cons, ← List.append_assoc] at below hr
    rw [Framer.run_append] at hr
    obtain ⟨mid, t₁, first, later⟩ := Outcome.bind_eq_done hr
    rw [List.append_assoc _ _ more] at below
    have below' := below.after_run first
    rw [← List.append_assoc] at below'
    have midWaits := (Framer.run_done first).1
    have short : mid.length < bufferCapacity := (below.after_run first).length_lt fun takes =>
      nextUnit_tight ((units_next _ _).symm.trans midWaits) ((units_next _ _).symm.trans takes)
    obtain ⟨askedNow, askedLater⟩ := asked
    have now := h.processRead hl askedNow first short
    have nonzero : (ReadResult.bytes chunk).readed ≠ 0 := by
      have := List.length_pos_iff.2 askedNow.1
      simp only [ReadResult.readed]
      omega
    rw [List.map_cons, ClientLogic.readLoop, if_neg nonzero]
    by_cases likely : Plausible t.1 pending chunk
    · rw [if_pos likely] at now
      obtain ⟨c₁, returned, h₁⟩ := now
      rw [returned, Outcome.bind_done]
      have ⟨good, bad⟩ := ih h₁ midWaits (askedLater mid t₁ first) below' later
      constructor
      · exact fun all => good (all.2 mid t₁ first)
      · intro notAll
        refine bad fun after => notAll ⟨likely, ?_⟩
        rw [first, Outcome.forall_eq_done]
        exact after
    · rw [if_neg likely] at now
      obtain ⟨c₁, thrown⟩ := now
      rw [thrown, Outcome.bind_thrown]
      exact ⟨fun all => absurd all.1 likely, fun _ => ⟨c₁, rfl⟩⟩

/-! ## Every call of `on_read` -/

/-- The calls of `on_read` of a connection, each with what its reads return. In
between, `on_write` sends what is queued and waits for the next read. -/
def serve (handlers : Handlers σ) (hasMessage : σ → Bool) (c : ClientLogic σ) :
    List (List ReadResult) → Outcome Thrown (ClientLogic σ) Unit
  | [] => .done () c
  | results :: later =>
    (ClientLogic.onRead handlers hasMessage { c with state := .waitForRead } results).bind
      fun _ c => serve handlers hasMessage c later

theorem eachRead_append {Q : State → List UInt8 → List UInt8 → Prop} {t : State × σ}
    {pending : List UInt8} (waits : units.next t.1 pending = .wait) (xs ys : List (List UInt8)) :
    EachRead handlers Q t pending (xs ++ ys) ↔ EachRead handlers Q t pending xs ∧
      ∀ rest t', units.run (dispatch handlers) t.1 t.2 (pending ++ xs.flatten) = .done rest t' →
        EachRead handlers Q t' rest ys := by
  induction xs generalizing t pending with
  | nil =>
    rw [List.flatten_nil, List.append_nil, List.nil_append, Framer.run_wait waits,
      Outcome.forall_eq_done]
    exact (and_iff_right trivial).symm
  | cons chunk xs ih =>
    rw [List.cons_append, EachRead, EachRead, List.flatten_cons, ← List.append_assoc, and_assoc,
      Framer.run_append (pending ++ chunk)]
    apply and_congr_right
    intro _
    cases hr : units.run (dispatch handlers) t.1 t.2 (pending ++ chunk) with
    | done mid t₁ =>
      rw [Outcome.forall_eq_done, Outcome.forall_eq_done, Outcome.bind_done]
      exact ih (Framer.run_done hr).1
    | thrown e t₁ => simp
    | fault r t₁ => simp

theorem Holding.serve {c : ClientLogic σ} {t t' : State × σ} {pending rest : List UInt8}
    (hl : FrameLocal handlers) (hasMessage : σ → Bool) (h : Holding c t pending)
    (calls : List (List (List UInt8))) (waits : units.next t.1 pending = .wait)
    (asked : EachRead handlers Asked t pending calls.flatten)
    (below : units.Below bufferCapacity t.1 (pending ++ calls.flatten.flatten))
    (hr : units.run (dispatch handlers) t.1 t.2 (pending ++ calls.flatten.flatten) =
      .done rest t') :
    (EachRead handlers Plausible t pending calls.flatten →
      ∃ c', serve handlers hasMessage c (calls.map (·.map .bytes)) = .done () c' ∧
        Holding c' t' rest) ∧
    (¬ EachRead handlers Plausible t pending calls.flatten →
      ∃ c', serve handlers hasMessage c (calls.map (·.map .bytes)) = .thrown (.int 1) c') := by
  induction calls generalizing c t pending with
  | nil =>
    rw [List.flatten_nil, List.flatten_nil, List.append_nil, Framer.run_wait waits] at hr
    cases hr
    exact ⟨fun _ => ⟨c, rfl, h⟩, fun bad => absurd trivial bad⟩
  | cons chunks calls ih =>
    rw [List.flatten_cons, List.flatten_append, ← List.append_assoc] at below hr
    rw [Framer.run_append] at hr
    rw [List.flatten_cons, eachRead_append waits] at asked ⊢
    obtain ⟨mid, t₁, first, later⟩ := Outcome.bind_eq_done hr
    have hc : Holding { c with state := .waitForRead } t pending := ⟨h.protocol, h.size, h.bytes⟩
    have ⟨good, bad⟩ := hc.readLoop hl chunks waits asked.1 below first
    rw [List.map_cons, TorrentClient.serve, ClientLogic.onRead, if_neg (not_not.2 rfl)]
    by_cases likely : EachRead handlers Plausible t pending chunks
    · obtain ⟨c₁, returned, h₁⟩ := good likely
      have h₂ : Holding (if hasMessage c₁.protocol.2 then { c₁ with state := .waitForWrite }
          else c₁) t₁ mid := by
        split
        · exact ⟨h₁.protocol, h₁.size, h₁.bytes⟩
        · exact h₁
      rw [returned, Outcome.bind_done, Outcome.bind_done]
      have ⟨good', bad'⟩ :=
        ih h₂ (Framer.run_done first).1 (asked.2 mid t₁ first) (below.after_run first) later
      constructor
      · exact fun all => good' (all.2 mid t₁ first)
      · intro notAll
        refine bad' fun after => notAll ⟨likely, ?_⟩
        rw [first, Outcome.forall_eq_done]
        exact after
    · obtain ⟨c₁, thrown⟩ := bad likely
      rw [thrown, Outcome.bind_thrown, Outcome.bind_thrown]
      exact ⟨fun all => absurd all.1 likely, fun _ => ⟨c₁, rfl⟩⟩

/-- A client that has read nothing yet. -/
def ClientLogic.connected (buffer : Buffer) (s : σ) : ClientLogic σ :=
  ⟨.waitForWrite, buffer, 0, .handshake, s⟩

theorem holding_connected (buffer : Buffer) (s : σ) :
    Holding (.connected buffer s) (.handshake, s) [] :=
  ⟨rfl, rfl, List.take_zero⟩

/-- **When the reads of a stream make no difference.** The messages of a stream
that one call of `process_message` accepts, with frames that fit the buffer, are
dispatched the same by `on_read`, which does not throw, exactly when its check of
what waits in the buffer never meets a byte that looks like a bad message. -/
theorem serve_delivers_iff (hasMessage : List (FrameKind × List UInt8) → Bool) (buffer : Buffer)
    (log : List (FrameKind × List UInt8)) (stream : List UInt8) (count : Nat)
    (t : State × List (FrameKind × List UInt8))
    (accepted : processMessage recording stream stream.length (.handshake, log) = .done count t)
    (framesFit : units.Below bufferCapacity .handshake stream)
    (calls : List (List (List UInt8))) (delivered : calls.flatten.flatten = stream)
    (asked : EachRead recording Asked (.handshake, log) [] calls.flatten) :
    (∃ c, serve recording hasMessage (.connected buffer log) (calls.map (·.map .bytes)) =
        .done () c ∧
      c.protocol = t ∧ c.buffer.val.take c.bufferSize = stream.drop count) ↔
    EachRead recording Plausible (.handshake, log) [] calls.flatten := by
  have run : units.run (dispatch recording) .handshake log stream =
      .done (stream.drop count) t := by
    rw [← processMessage_drop recording_frameLocal stream (.handshake, log), accepted,
      Outcome.bind_done]
  subst delivered
  have ⟨good, bad⟩ := (holding_connected buffer log).serve recording_frameLocal hasMessage calls
    rfl asked framesFit run
  constructor
  · rintro ⟨c, returned, -⟩
    by_contra unlikely
    obtain ⟨c', thrown⟩ := bad unlikely
    rw [thrown] at returned
    cases returned
  · intro likely
    obtain ⟨c, returned, h⟩ := good likely
    exact ⟨c, returned, h.protocol, by rw [h.size, h.bytes]⟩

/-- A handshake with an info hash and a peer id of zeros. -/
def zeroHandshake : List UInt8 :=
  [19, 0x42, 0x69, 0x74, 0x54, 0x6f, 0x72, 0x72, 0x65, 0x6e, 0x74, 0x20, 0x70, 0x72, 0x6f, 0x74,
    0x6f, 0x63, 0x6f, 0x6c] ++ List.replicate 48 0

def zeroBuffer : Buffer := ⟨List.replicate bufferCapacity 0, List.length_replicate⟩

theorem next_zeroHandshake : units.next .handshake zeroHandshake =
    .take 68 .action (.frame .handshake zeroHandshake) := by decide

theorem run_zeroHandshake : units.run (dispatch recording) .handshake [] zeroHandshake =
    .done [] (.action, [(.handshake, zeroHandshake)]) := by
  rw [Framer.run_take next_zeroHandshake]
  exact Framer.run_wait rfl

theorem processMessage_zeroHandshake :
    processMessage recording zeroHandshake zeroHandshake.length (.handshake, []) =
      .done 68 (.action, [(.handshake, zeroHandshake)]) := by
  rw [processMessage_eq recording_frameLocal (Nat.le_refl _), List.take_length, run_zeroHandshake]
  rfl

theorem below_zeroHandshake : units.Below bufferCapacity .handshake zeroHandshake :=
  .take next_zeroHandshake (by decide) (.wait rfl (by decide))

/-- The peer has the second piece. -/
def haveOne : List UInt8 := [0, 0, 0, 5, 4, 0, 0, 0, 1]

theorem run_haveOne (log : List (FrameKind × List UInt8)) :
    units.run (dispatch recording) .action log haveOne =
      .done [] (.action, log ++ [(.message .have_, haveOne)]) := by
  have next : units.next .action haveOne =
      .take 9 .action (.frame (.message .have_) haveOne) := by decide
  rw [Framer.run_take next]
  exact Framer.run_wait rfl

theorem run_greeted (pending : List UInt8) :
    units.run (dispatch recording) .handshake [] (zeroHandshake ++ pending) =
      units.run (dispatch recording) .action [(.handshake, zeroHandshake)] pending := by
  rw [Framer.run_append, run_zeroHandshake, Outcome.bind_done, List.nil_append]

/-- The message behind the handshake comes in three reads, and five and then six
bytes of it wait for the rest. -/
theorem serve_delivers_have :
    ∃ c, serve recording (fun _ => false) (.connected zeroBuffer [])
        [[.bytes (zeroHandshake ++ haveOne.take 5)],
          [.bytes [0], .bytes [0, 0, 1]]] = .done () c ∧
      c.protocol =
        (.action, [(.handshake, zeroHandshake), (.message .have_, haveOne)]) ∧
      c.buffer.val.take c.bufferSize = (zeroHandshake ++ haveOne).drop 77 := by
  have accepted : processMessage recording (zeroHandshake ++ haveOne)
      (zeroHandshake ++ haveOne).length (.handshake, []) =
      .done 77 (.action, [(.handshake, zeroHandshake), (.message .have_, haveOne)]) := by
    rw [processMessage_eq recording_frameLocal (Nat.le_refl _), List.take_length, run_greeted,
      run_haveOne]
    rfl
  have below : units.Below bufferCapacity .handshake (zeroHandshake ++ haveOne) :=
    .take (units.take_append haveOne next_zeroHandshake) (by decide)
      (.take (by decide : units.next .action haveOne =
        .take 9 .action (.frame (.message .have_) haveOne)) (by decide) (.wait rfl (by decide)))
  have reads : ∀ Q : State → List UInt8 → List UInt8 → Prop,
      Q .handshake [] (zeroHandshake ++ haveOne.take 5) → Q .action (haveOne.take 5) [0] →
      Q .action (haveOne.take 6) [0, 0, 1] →
      EachRead recording Q (.handshake, []) []
        [zeroHandshake ++ haveOne.take 5, [0], [0, 0, 1]] := by
    intro Q first second third
    have five : units.next .action (haveOne.take 5) = .wait := by decide
    have six : units.next .action (haveOne.take 5 ++ [0]) = .wait := by decide
    refine ⟨first, fun rest t done => ?_⟩
    rw [List.nil_append, run_greeted, Framer.run_wait five] at done
    cases done
    refine ⟨second, fun rest t done => ?_⟩
    rw [Framer.run_wait six] at done
    cases done
    exact ⟨third, fun _ _ _ => trivial⟩
  exact (serve_delivers_iff (fun _ => false) zeroBuffer [] (zeroHandshake ++ haveOne) 77 _
    accepted below [[zeroHandshake ++ haveOne.take 5], [[0], [0, 0, 1]]] rfl
    (reads Asked (by decide) (by decide) (by decide))).2
    (reads Plausible (by decide) (by decide) (by decide))

/-- The first six bytes of a handshake have a `T` in the place of a message id. -/
theorem serve_rejects_split_handshake :
    processMessage recording zeroHandshake zeroHandshake.length (.handshake, []) =
      .done 68 (.action, [(.handshake, zeroHandshake)]) ∧
    units.Below bufferCapacity .handshake zeroHandshake ∧
    ∃ c, serve recording (fun _ => false) (.connected zeroBuffer [])
      [[.bytes (zeroHandshake.take 6), .bytes (zeroHandshake.drop 6)]] = .thrown (.int 1) c := by
  refine ⟨processMessage_zeroHandshake, below_zeroHandshake, ?_⟩
  let start : ClientLogic (List (FrameKind × List UInt8)) :=
    { ClientLogic.connected zeroBuffer [] with state := .waitForRead }
  have waiting : Holding start (.handshake, []) [] := ⟨rfl, rfl, List.take_zero⟩
  have asked : Asked .handshake [] (zeroHandshake.take 6) := ⟨by decide, by decide⟩
  have first := waiting.processRead recording_frameLocal asked (Framer.run_wait rfl) (by decide)
  rw [if_neg (by decide)] at first
  obtain ⟨c, thrown⟩ := first
  refine ⟨c, ?_⟩
  rw [serve, ClientLogic.onRead, if_neg (not_not.2 rfl), ClientLogic.readLoop,
    if_neg (by decide), thrown]
  rfl

end TorrentClient
