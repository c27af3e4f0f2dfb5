import TorrentClient.ProcessMessage

/-!
# Reading from a peer

`ClientLogic::on_read` collects what a socket delivers in a buffer of 500000
bytes and calls `process_message` on it after every read.
-/

namespace TorrentClient

/-- The values of `m_state`. -/
inductive ClientState where
  | error
  | waitForRead
  | waitForWrite
  deriving DecidableEq, Repr

def bufferCapacity : Nat := 500000

abbrev Buffer := { bytes : List UInt8 // bytes.length = bufferCapacity }

/-- Put bytes into a buffer, unless they reach past its end. -/
def Buffer.put (buffer : Buffer) (i : Nat) (bytes : List UInt8) : Option Buffer :=
  if h : i + bytes.length ≤ bufferCapacity then
    some ⟨overwrite buffer.val i bytes, by
      rw [overwrite_length (by rw [buffer.property]; exact h), buffer.property]⟩
  else none

/-- `σ` is what `m_peer_protocol` holds besides its state. -/
structure ClientLogic (σ : Type) where
  state : ClientState
  buffer : Buffer
  bufferSize : Nat
  protocol : State × σ

/-- What `socket->read` does: put bytes into the buffer and return their number,
or return a number below zero. -/
inductive ReadResult where
  | bytes (data : List UInt8)
  | failed (n : Nat)
  deriving DecidableEq, Repr

def ReadResult.readed : ReadResult → Int
  | bytes data => data.length
  | failed n => Int.negSucc n

namespace ClientLogic

variable {σ : Type}

/-- The buffer after a read. -/
def filled (c : ClientLogic σ) : ReadResult → Option (ClientLogic σ)
  | .bytes data => (c.buffer.put c.bufferSize data).map fun buffer =>
    { c with buffer := buffer, bufferSize := add64 c.bufferSize data.length }
  | .failed n => some { c with bufferSize := add64 c.bufferSize (toUInt64 (Int.negSucc n)) }

/-- What `on_read` does when nothing was consumed. -/
def checkWaiting (c : ClientLogic σ) : Outcome Thrown (ClientLogic σ) Unit :=
  let messageId := c.buffer.val.getD 4 0
  if c.bufferSize > 5 ∧ messageId > 8 then .thrown (.int 1) c
  else if c.bufferSize = bufferCapacity then .thrown (.int 1) c
  else .done () c

/-- What it does when something was: the bytes behind move to the front. -/
def consume (c : ClientLogic σ) (processed : Nat) : Outcome Thrown (ClientLogic σ) Unit :=
  if processed < c.bufferSize then
    let left := c.bufferSize - processed
    match (bytesAt c.buffer.val processed left).bind (c.buffer.put 0) with
    | none => .fault .outOfBounds c
    | some buffer =>
      let c := { c with buffer := buffer, bufferSize := left }
      if c.bufferSize = bufferCapacity then .thrown (.int 1) c else .done () c
  else .done () { c with bufferSize := 0 }

/-- The body of the loop of `on_read`, once a read has returned. -/
def processRead (handlers : Handlers σ) (c : ClientLogic σ) (result : ReadResult) :
    Outcome Thrown (ClientLogic σ) Unit :=
  match c.filled result with
  | none => .fault .outOfBounds c
  | some c =>
    match processMessage handlers c.buffer.val c.bufferSize c.protocol with
    | .thrown _ t => .thrown (.int 1) { c with protocol := t }
    | .fault r t => .fault r { c with protocol := t }
    | .done processed t =>
      let c := { c with protocol := t }
      if processed = 0 then c.checkWaiting else c.consume processed

/-- The loop, over the results of the reads up to one that returns zero. -/
def readLoop (handlers : Handlers σ) (c : ClientLogic σ) :
    List ReadResult → Outcome Thrown (ClientLogic σ) Unit
  | [] => .done () c
  | result :: results =>
    if result.readed = 0 then .done () c
    else (c.processRead handlers result).bind fun _ c => c.readLoop handlers results

/-- `hasMessage` is `has_message` of the peer protocol. -/
def onRead (handlers : Handlers σ) (hasMessage : σ → Bool) (c : ClientLogic σ)
    (results : List ReadResult) : Outcome Thrown (ClientLogic σ) Unit :=
  if c.state ≠ .waitForRead then .done () c
  else (c.readLoop handlers results).bind fun _ c =>
    .done () (if hasMessage c.protocol.2 then { c with state := .waitForWrite } else c)

end ClientLogic

end TorrentClient
