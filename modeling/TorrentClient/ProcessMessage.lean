import TorrentClient.Base.Framer
import TorrentClient.MessageTypes
import TorrentClient.Thrown

/-!
# Dispatching the messages of a peer

`PeerProtocol::process_message` over any handlers: the handshake, and then
frames of a four-byte length and as many bytes, the first of which is the
number of the message.
-/

namespace TorrentClient

/-- The values of `m_state`. -/
inductive State where
  | handshake
  | action
  deriving DecidableEq, Repr

/-- What a frame is handed to. -/
inductive FrameKind where
  | handshake
  | message (type : MessageType)
  deriving DecidableEq, Repr

/-- The `process_` functions: a frame, the memory that can be read from its
first byte on, its size, and the rest of the object. -/
abbrev Handlers (σ : Type) := FrameKind → List UInt8 → Nat → σ → Outcome Thrown σ Unit

def handshakeSize : Nat := 68

def messageLengthSize : Nat := 4

variable {σ : Type}

/-- The loop of `process_message`, at `curr` bytes from the start of `data`. -/
def messageLoop (handlers : Handlers σ) (data : List UInt8) (size curr : Nat) (s : σ) :
    Outcome Thrown σ Nat :=
  if curr + messageLengthSize < size then
    match ntohlAt data curr with
    | none => .fault .outOfBounds s
    | some messageSize =>
      if messageSize = 0 then messageLoop handlers data size (curr + messageLengthSize) s
      else if curr + messageSize + messageLengthSize > size then .done curr s
      else
        match data[curr + messageLengthSize]? with
        | none => .fault .outOfBounds s
        | some messageId =>
          match MessageType.ofId messageId with
          | none => .thrown (.int 1) s
          | some type =>
            match handlers (.message type) (data.drop curr) (messageSize + messageLengthSize) s with
            | .done _ s =>
              messageLoop handlers data size (curr + (messageSize + messageLengthSize)) s
            | .thrown e s => .thrown e s
            | .fault r s => .fault r s
  else .done curr s
  termination_by size - curr
  decreasing_by all_goals simp only [messageLengthSize] at *; omega

/-- `process_message` on the memory from `data` on. The count it returns is
that of the bytes it consumed. -/
def processMessage (handlers : Handlers σ) (data : List UInt8) (size : Nat) :
    State × σ → Outcome Thrown (State × σ) Nat
  | (.handshake, s) =>
    if handshakeSize > size then .done 0 (.handshake, s)
    else
      match handlers .handshake data handshakeSize s with
      | .done _ s => (messageLoop handlers data size handshakeSize s).lift (.action, ·)
      | .thrown e s => .thrown e (.handshake, s)
      | .fault r s => .fault r (.handshake, s)
  | (.action, s) => (messageLoop handlers data size 0 s).lift (.action, ·)

/-! ## As a framer -/

/-- A unit of the stream. -/
inductive StreamUnit where
  | keepAlive
  | frame (kind : FrameKind) (bytes : List UInt8)
  deriving DecidableEq, Repr

/-- The first unit of what is there. A length prefix counts only when a byte
follows it. -/
def nextUnit : State → List UInt8 → Verdict State StreamUnit Thrown
  | .handshake, bytes =>
    if bytes.length < handshakeSize then .wait
    else .take handshakeSize .action (.frame .handshake (bytes.take handshakeSize))
  | .action, bytes =>
    match bytes.drop messageLengthSize with
    | [] => .wait
    | messageId :: _ =>
      let messageSize := ntohl (bytes.take messageLengthSize)
      if messageSize = 0 then .take messageLengthSize .action .keepAlive
      else if bytes.length < messageSize + messageLengthSize then .wait
      else
        match MessageType.ofId messageId with
        | none => .reject (.int 1)
        | some type =>
          .take (messageSize + messageLengthSize) .action
            (.frame (.message type) (bytes.take (messageSize + messageLengthSize)))

theorem nextUnit_append {m : State} {bytes : List UInt8} (more : List UInt8)
    (h : nextUnit m bytes ≠ .wait) : nextUnit m (bytes ++ more) = nextUnit m bytes := by
  cases m with
  | handshake =>
    by_cases short : bytes.length < handshakeSize
    · exact absurd (if_pos short) h
    · have longer : ¬ (bytes ++ more).length < handshakeSize := by
        rw [List.length_append]
        omega
      simp only [nextUnit, if_neg short, if_neg longer]
      rw [List.take_append_of_le_length (by omega)]
  | action =>
    cases hd : bytes.drop messageLengthSize with
    | nil => exact absurd (by simp only [nextUnit, hd]) h
    | cons messageId tail =>
      have long : messageLengthSize < bytes.length := by
        have := congrArg List.length hd
        rw [List.length_drop, List.length_cons] at this
        omega
      have hd' : (bytes ++ more).drop messageLengthSize = messageId :: (tail ++ more) := by
        rw [List.drop_append_of_le_length (by omega), hd, List.cons_append]
      have ht : (bytes ++ more).take messageLengthSize = bytes.take messageLengthSize :=
        List.take_append_of_le_length (by omega)
      simp only [nextUnit, hd] at h
      simp only [nextUnit, hd, hd', ht]
      split
      · rfl
      · rename_i nonzero
        rw [if_neg nonzero] at h
        by_cases short : bytes.length < ntohl (bytes.take messageLengthSize) + messageLengthSize
        · exact absurd (if_pos short) h
        · have longer : ¬ (bytes ++ more).length <
              ntohl (bytes.take messageLengthSize) + messageLengthSize := by
            rw [List.length_append]
            omega
          rw [if_neg short, if_neg longer, List.take_append_of_le_length (by omega)]

/-- The size of a unit that is taken. -/
theorem nextUnit_take {m m' : State} {bytes : List UInt8} {n : Nat} {u : StreamUnit}
    (h : nextUnit m bytes = .take n m' u) :
    m' = .action ∧ 0 < n ∧ n ≤ bytes.length ∧
      (u = .keepAlive ∨ ∃ kind, u = .frame kind (bytes.take n)) := by
  cases m with
  | handshake =>
    simp only [nextUnit] at h
    split at h
    · cases h
    · cases h
      exact ⟨rfl, by decide, by omega, Or.inr ⟨_, rfl⟩⟩
  | action =>
    simp only [nextUnit] at h
    split at h
    · cases h
    · rename_i messageId tail hd
      have long := congrArg List.length hd
      rw [List.length_drop, List.length_cons] at long
      split at h
      · cases h
        exact ⟨rfl, by decide, by omega, Or.inl rfl⟩
      · split at h
        · cases h
        · split at h
          · cases h
          · cases h
            exact ⟨rfl, by omega, by omega, Or.inr ⟨_, rfl⟩⟩

/-- The number of bytes the first unit takes, once its length can be read. -/
theorem nextUnit_length {m m' : State} {bytes : List UInt8} {n : Nat} {u : StreamUnit}
    (h : nextUnit m bytes = .take n m' u) :
    n = match m with
      | .handshake => handshakeSize
      | .action => ntohl (bytes.take messageLengthSize) + messageLengthSize := by
  cases m with
  | handshake =>
    simp only [nextUnit] at h
    split at h
    · cases h
    · cases h
      rfl
  | action =>
    simp only [nextUnit] at h
    split at h
    · cases h
    · split at h
      · rename_i zero
        cases h
        simp only [zero, Nat.zero_add]
      · split at h
        · cases h
        · split at h
          · cases h
          · cases h
            rfl

/-- No more bytes wait than the unit they become a part of takes. -/
theorem nextUnit_tight {m m' : State} {bytes more : List UInt8} {n : Nat} {u : StreamUnit}
    (waits : nextUnit m bytes = .wait) (takes : nextUnit m (bytes ++ more) = .take n m' u) :
    bytes.length ≤ n := by
  have length := nextUnit_length takes
  cases m with
  | handshake =>
    by_contra long
    have enough : ¬ bytes.length < handshakeSize := by
      simp only at length
      omega
    rw [nextUnit, if_neg enough] at waits
    cases waits
  | action =>
    by_contra long
    simp only at length
    have prefixed : messageLengthSize < bytes.length := by omega
    rw [List.take_append_of_le_length (by omega)] at length
    rw [nextUnit, List.drop_eq_getElem_cons prefixed] at waits
    dsimp only at waits
    split at waits
    · cases waits
    · split at waits
      · omega
      · split at waits <;> cases waits

/-- The units of a peer's stream. -/
def units : Framer UInt8 State StreamUnit Thrown where
  next := nextUnit
  nonempty h := (nextUnit_take h).2.1
  within h := (nextUnit_take h).2.2.1
  take_append more h := by rw [nextUnit_append more (by rw [h]; exact nofun), h]
  reject_append more h := by rw [nextUnit_append more (by rw [h]; exact nofun), h]

theorem units_next (m : State) (bytes : List UInt8) : units.next m bytes = nextUnit m bytes := rfl

/-- Handlers that look at nothing but the frame they are given. -/
def FrameLocal (handlers : Handlers σ) : Prop :=
  ∀ kind data size s, handlers kind data size s = handlers kind (data.take size) size s

/-- What a unit is dispatched to. -/
def dispatch (handlers : Handlers σ) : StreamUnit → σ → Outcome Thrown σ Unit
  | .keepAlive, s => .done () s
  | .frame kind bytes, s => handlers kind bytes bytes.length s

theorem window_take {data : List UInt8} {size curr n : Nat} (h : curr + n ≤ size) :
    ((data.take size).drop curr).take n = (data.drop curr).take n := by
  rw [List.drop_take, List.take_take, Nat.min_eq_left (by omega)]

/-- One turn of the loop is one unit of the window that is left. -/
theorem messageLoop_eq {handlers : Handlers σ} (hl : FrameLocal handlers) {data : List UInt8}
    {size curr : Nat} (h : size ≤ data.length) (s : σ) :
    messageLoop handlers data size curr s =
      match units.next .action ((data.take size).drop curr) with
      | .wait => .done curr s
      | .reject e => .thrown e s
      | .take n _ u =>
        match dispatch handlers u s with
        | .done _ s => messageLoop handlers data size (curr + n) s
        | .thrown e s => .thrown e s
        | .fault r s => .fault r s := by
  have length : ((data.take size).drop curr).length = size - curr := by
    rw [List.length_drop, List.length_take, Nat.min_eq_left h]
  rw [messageLoop, units_next]
  by_cases prefixed : curr + messageLengthSize < size
  · have inside : curr + messageLengthSize < data.length := by omega
    have read : ntohlAt data curr =
        some (ntohl (((data.take size).drop curr).take messageLengthSize)) := by
      rw [window_take (by omega)]
      exact if_pos (by simp only [messageLengthSize] at inside; omega)
    have head : ((data.take size).drop curr).drop messageLengthSize =
        data[curr + messageLengthSize] :: (data.take size).drop (curr + messageLengthSize + 1) := by
      rw [List.drop_drop, List.drop_eq_getElem_cons (by rw [List.length_take]; omega),
        List.getElem_take]
    simp only [if_pos prefixed, read, nextUnit, head, List.getElem?_eq_getElem inside, length]
    generalize ntohl (((data.take size).drop curr).take messageLengthSize) = messageSize
    by_cases zero : messageSize = 0
    · simp only [if_pos zero, dispatch]
    · simp only [if_neg zero]
      by_cases short : curr + messageSize + messageLengthSize > size
      · have short' : size - curr < messageSize + messageLengthSize := by omega
        simp only [if_pos short, if_pos short']
      · have long' : ¬ size - curr < messageSize + messageLengthSize := by omega
        simp only [if_neg short, if_neg long']
        cases MessageType.ofId data[curr + messageLengthSize] with
        | none => rfl
        | some type =>
          have frame : dispatch handlers (.frame (.message type)
              (((data.take size).drop curr).take (messageSize + messageLengthSize))) s =
              handlers (.message type) (data.drop curr) (messageSize + messageLengthSize) s := by
            have le : curr + (messageSize + messageLengthSize) ≤ size := by omega
            rw [hl _ (data.drop curr), dispatch, window_take le, List.length_take,
              List.length_drop, Nat.min_eq_left (by omega)]
          simp only [frame]
  · have none : ((data.take size).drop curr).drop messageLengthSize = [] := by
      apply List.eq_nil_of_length_eq_zero
      rw [List.length_drop, length]
      omega
    simp only [if_neg prefixed, nextUnit, none]

theorem messageLoop_run {handlers : Handlers σ} (hl : FrameLocal handlers) {data : List UInt8}
    {size : Nat} (h : size ≤ data.length) {curr : Nat} (within : curr ≤ size) (s : σ) :
    (messageLoop handlers data size curr s).lift (.action, ·) =
      (units.run (dispatch handlers) .action s ((data.take size).drop curr)).map
        fun rest => size - rest.length := by
  induction hn : size - curr using Nat.strongRecOn generalizing curr s with
  | ind k ih =>
    have length : ((data.take size).drop curr).length = size - curr := by
      rw [List.length_drop, List.length_take, Nat.min_eq_left h]
    rw [messageLoop_eq hl h]
    cases hu : units.next .action ((data.take size).drop curr) with
    | wait =>
      rw [Framer.run_wait hu, Outcome.map_done, length]
      simp only [Outcome.lift_done]
      congr 1
      omega
    | reject e => rw [Framer.run_reject hu]; rfl
    | take n m u =>
      obtain ⟨rfl, pos, le, _⟩ := nextUnit_take ((units_next _ _).symm.trans hu)
      rw [Framer.run_take hu, List.drop_drop]
      dsimp only
      cases dispatch handlers u s with
      | done _ t => exact ih (size - (curr + n)) (by omega) (by omega) t rfl
      | thrown e t => rfl
      | fault r t => rfl

/-- `process_message` runs the framer on the bytes it is given. -/
theorem processMessage_eq {handlers : Handlers σ} (hl : FrameLocal handlers)
    {data : List UInt8} {size : Nat} (h : size ≤ data.length) (m : State) (s : σ) :
    processMessage handlers data size (m, s) =
      (units.run (dispatch handlers) m s (data.take size)).map fun rest => size - rest.length := by
  have length : (data.take size).length = size := by
    rw [List.length_take, Nat.min_eq_left h]
  cases m with
  | action => exact messageLoop_run hl h (Nat.zero_le _) s
  | handshake =>
    by_cases short : handshakeSize > size
    · have wait : units.next .handshake (data.take size) = .wait := by
        rw [units_next, nextUnit, length, if_pos short]
      rw [Framer.run_wait wait, Outcome.map_done, length, Nat.sub_self]
      exact if_pos short
    · have take : units.next .handshake (data.take size) =
          .take handshakeSize .action (.frame .handshake (data.take handshakeSize)) := by
        rw [units_next, nextUnit, length, if_neg short, List.take_take, Nat.min_eq_left (by omega)]
      have frame : dispatch handlers (.frame .handshake (data.take handshakeSize)) s =
          handlers .handshake data handshakeSize s := by
        rw [hl _ data, dispatch, List.length_take, Nat.min_eq_left (by omega)]
      rw [Framer.run_take take, frame, processMessage, if_neg short]
      cases handlers .handshake data handshakeSize s with
      | done _ t => exact messageLoop_run hl h (by omega) t
      | thrown e t => rfl
      | fault r t => rfl

/-! ## What lies behind the window -/

/-- A call of a handler that does not fault does the same when there is more memory. -/
def Stable (handlers : Handlers σ) : Prop :=
  ∀ kind data more size s, (handlers kind data size s).Safe →
    handlers kind (data ++ more) size s = handlers kind data size s

theorem messageLoop_more {handlers : Handlers σ} (stable : Stable handlers)
    (data more : List UInt8) (size curr : Nat) (s : σ) :
    (messageLoop handlers data size curr s).Safe →
      messageLoop handlers (data ++ more) size curr s = messageLoop handlers data size curr s := by
  have handled {curr n : Nat} (read : ntohlAt data curr = some n) (kind : FrameKind) (size : Nat)
      (s : σ) (safe : (handlers kind (data.drop curr) size s).Safe) :
      handlers kind ((data ++ more).drop curr) size s = handlers kind (data.drop curr) size s := by
    rw [List.drop_append_of_le_length (by have := (ntohlAt_more read more).2; omega)]
    exact stable kind _ more size s safe
  have byte {i : Nat} {id : UInt8} (at_i : data[i]? = some id) : (data ++ more)[i]? = some id := by
    obtain ⟨inside, -⟩ := List.getElem?_eq_some_iff.1 at_i
    rw [List.getElem?_append_left inside, at_i]
  fun_induction messageLoop handlers data size curr s with
  | case1 | case4 | case8 => exact fun safe => absurd safe Outcome.not_safe_fault
  | case2 curr s within read ih =>
    intro safe
    rw [messageLoop, if_pos within, (ntohlAt_more read more).1]
    exact ih safe
  | case3 curr s within n read nonzero long =>
    intro _
    rw [messageLoop, if_pos within, (ntohlAt_more read more).1]
    simp only [if_neg nonzero, if_pos long]
  | case5 curr s within n read nonzero fits id at_id unknown =>
    intro _
    rw [messageLoop, if_pos within, (ntohlAt_more read more).1]
    simp only [if_neg nonzero, if_neg fits, byte at_id, unknown]
  | case6 curr s within n read nonzero fits id at_id type known _ s' returned ih =>
    intro safe
    have same := handled read (.message type) (n + messageLengthSize) s
      (returned ▸ Outcome.safe_done)
    rw [messageLoop, if_pos within, (ntohlAt_more read more).1]
    simp only [if_neg nonzero, if_neg fits, byte at_id, known, same, returned]
    exact ih safe
  | case7 curr s within n read nonzero fits id at_id type known e s' threw =>
    intro _
    have same := handled read (.message type) (n + messageLengthSize) s
      (threw ▸ Outcome.safe_thrown)
    rw [messageLoop, if_pos within, (ntohlAt_more read more).1]
    simp only [if_neg nonzero, if_neg fits, byte at_id, known, same, threw]
  | case9 curr s past =>
    intro _
    rw [messageLoop, if_neg past]

/-- What lies behind the window makes no difference to a call that does not fault. -/
theorem processMessage_more {handlers : Handlers σ} (stable : Stable handlers)
    (data more : List UInt8) (size : Nat) (t : State × σ)
    (safe : (processMessage handlers data size t).Safe) :
    processMessage handlers (data ++ more) size t = processMessage handlers data size t := by
  obtain ⟨m, s⟩ := t
  revert safe
  cases m with
  | action =>
    intro safe
    rw [processMessage, messageLoop_more stable data more size 0 s (Outcome.lift_safe.1 safe)]
    rfl
  | handshake =>
    by_cases short : handshakeSize > size
    · intro _
      rw [processMessage, processMessage, if_pos short, if_pos short]
    · rw [processMessage, processMessage, if_neg short, if_neg short]
      cases handled : handlers .handshake data handshakeSize s with
      | done _ s' =>
        have same := stable .handshake data more handshakeSize s (handled ▸ Outcome.safe_done)
        intro safe
        simp only [same, handled]
        rw [messageLoop_more stable data more size _ s' (Outcome.lift_safe.1 safe)]
      | thrown e s' =>
        have same := stable .handshake data more handshakeSize s (handled ▸ Outcome.safe_thrown)
        intro _
        simp only [same, handled]
      | fault r s' => exact fun safe => absurd safe Outcome.not_safe_fault

/-! ## However the stream arrives -/

/-- Call `process_message` after every chunk, on the bytes not consumed yet and
the chunk, and drop the bytes it consumed. -/
def receive (handlers : Handlers σ) (t : State × σ) (pending : List UInt8) :
    List (List UInt8) → Outcome Thrown (State × σ) (List UInt8)
  | [] => .done pending t
  | chunk :: chunks =>
    let buffer := pending ++ chunk
    (processMessage handlers buffer buffer.length t).bind fun count t =>
      receive handlers t (buffer.drop count) chunks

theorem processMessage_drop {handlers : Handlers σ} (hl : FrameLocal handlers)
    (buffer : List UInt8) (t : State × σ) :
    (processMessage handlers buffer buffer.length t).bind
      (fun count t => .done (buffer.drop count) t) =
      units.run (dispatch handlers) t.1 t.2 buffer := by
  obtain ⟨m, s⟩ := t
  rw [processMessage_eq hl (Nat.le_refl _), List.take_length, Outcome.bind_map]
  cases hr : units.run (dispatch handlers) m s buffer with
  | done rest t =>
    obtain ⟨front, rfl⟩ := (Framer.run_done hr).2
    simp only [Outcome.bind_done, List.length_append, Nat.add_sub_cancel, List.drop_left]
  | thrown e t => rfl
  | fault r t => rfl

theorem receive_eq_feed {handlers : Handlers σ} (hl : FrameLocal handlers)
    (chunks : List (List UInt8)) (t : State × σ) (pending : List UInt8) :
    receive handlers t pending chunks =
      units.feed (dispatch handlers) t.1 t.2 pending chunks := by
  induction chunks generalizing t pending with
  | nil => rfl
  | cons chunk chunks ih =>
    rw [Framer.feed, ← processMessage_drop hl, Outcome.bind_assoc, receive]
    simp only [Outcome.bind_done, ih]

/-- The handlers that note every frame they are given. -/
def recording : Handlers (List (FrameKind × List UInt8)) :=
  fun kind data size log => .done () (log ++ [(kind, data.take size)])

theorem recording_frameLocal : FrameLocal recording := by
  intro kind data size log
  rw [recording, recording, List.take_take, Nat.min_self]

/-- **The cuts do not matter.** Whatever state a peer is in and however its
stream is cut, calling `process_message` chunk by chunk dispatches the frames
that one call on the stream does, throws where that call throws, and leaves
the same state and the same bytes; and no call consumes more than its window. -/
theorem receive_eq_single_call (state : State) (log : List (FrameKind × List UInt8))
    (chunks : List (List UInt8)) :
    receive recording (state, log) [] chunks =
      (processMessage recording chunks.flatten chunks.flatten.length (state, log)).bind
        (fun count t => .done (chunks.flatten.drop count) t) ∧
    ∀ data size count t, size ≤ data.length →
      processMessage recording data size (state, log) = .done count t → count ≤ size := by
  constructor
  · have wait : units.next state [] = .wait := by cases state <;> rfl
    rw [receive_eq_feed recording_frameLocal, processMessage_drop recording_frameLocal,
      Framer.feed_eq wait, List.nil_append]
  · intro data size count t h returned
    rw [processMessage_eq recording_frameLocal h] at returned
    cases hr : units.run (dispatch recording) state log (data.take size) with
    | done rest t' =>
      rw [hr, Outcome.map_done] at returned
      cases returned
      exact Nat.sub_le _ _
    | thrown e t' => rw [hr] at returned; cases returned
    | fault r t' => rw [hr] at returned; cases returned

end TorrentClient
