import TorrentClient.Base.Find
import TorrentClient.ClientLogic
import TorrentClient.TrackerResponse

/-!
# Reading from a tracker

`TrackerConnection::on_read` collects what a socket delivers in a buffer of 50000
bytes, looks for the blank line behind the header, and reads the body behind it.
-/

namespace TorrentClient

/-! ## The blank line -/

/-- `"\r\n\r\n"` -/
def crlf2 : Bytes := [13, 10, 13, 10]

/-- `"\n\n"` -/
def lf2 : Bytes := [10, 10]

/-- Where the blank line starts that `on_read` takes for the end of the header, and
the length of it. -/
def blankLine (memory : Bytes) : Option (Nat × Nat) :=
  ((find 0 crlf2 memory).map (·, 4)).or ((find 0 lf2 memory).map (·, 2))

section
variable {memory front tail : Bytes} {i n : Nat}

theorem blankLine_cases (found : blankLine memory = some (i, n)) :
    (n = 4 ∧ find 0 crlf2 memory = some i) ∨
      (n = 2 ∧ find 0 crlf2 memory = none ∧ find 0 lf2 memory = some i) := by
  cases windows : find 0 crlf2 memory with
  | some j =>
    rw [blankLine, windows] at found
    cases found
    exact Or.inl ⟨rfl, rfl⟩
  | none =>
    rw [blankLine, windows, Option.map_none, Option.none_or] at found
    obtain ⟨j, unix, eq⟩ := Option.map_eq_some_iff.1 found
    cases eq
    exact Or.inr ⟨rfl, rfl, unix⟩

/-- It ends in front of the NUL behind the bytes. -/
theorem blankLine_le (found : blankLine memory = some (i, n)) {j : Nat}
    (ends : memory[j]? = some 0) : i + n ≤ j := by
  rcases blankLine_cases found with ⟨rfl, windows⟩ | ⟨rfl, -, unix⟩
  · exact find_le (by decide) (by decide) windows ends
  · exact find_le (by decide) (by decide) unix ends

end

/-! ## The connection -/

/-- The values of `m_state`. -/
inductive TrackerState where
  | waitForRead
  | waitForWrite
  deriving DecidableEq, Repr

def trackerCapacity : Nat := 50000

abbrev TrackerBuffer := { bytes : Bytes // bytes.length = trackerCapacity }

namespace TrackerBuffer

/-- `memset(buffer, 0, 50000)` -/
def zeroed : TrackerBuffer := ⟨List.replicate trackerCapacity 0, List.length_replicate⟩

/-- Put bytes into a buffer, unless they reach past its end. -/
def put (buffer : TrackerBuffer) (i : Nat) (bytes : Bytes) : Option TrackerBuffer :=
  if h : i + bytes.length ≤ trackerCapacity then
    some ⟨overwrite buffer.val i bytes, by
      rw [overwrite_length (by rw [buffer.property]; exact h), buffer.property]⟩
  else none

end TrackerBuffer

/-- A response, and the bytes it was made from. -/
structure Received where
  body : Bytes
  response : TrackerResponse
  deriving DecidableEq, Repr

structure TrackerConnection where
  state : TrackerState
  buffer : TrackerBuffer
  offset : Nat
  /-- The responses that were constructed so far. -/
  received : List Received

namespace TrackerConnection

/-- The buffer after a read. -/
def filled (c : TrackerConnection) : ReadResult → Option TrackerConnection
  | .bytes data => (c.buffer.put c.offset data).map fun buffer =>
    { c with buffer := buffer, offset := add64 c.offset data.length }
  | .failed n => some { c with offset := add64 c.offset (toUInt64 (Int.negSucc n)) }

/-- The loop, over the results of the reads up to one that returns zero. -/
def readLoop (c : TrackerConnection) : List ReadResult → Outcome Thrown TrackerConnection Unit
  | [] => .done () c
  | result :: results =>
    if result.readed = 0 then .done () c
    else
      match c.filled result with
      | none => .fault .outOfBounds c
      | some c => c.readLoop results

/-- The text behind a blank line, and the memory up to the end of the buffer. -/
def bodyOf (buffer : Bytes) (size start : Nat) (small : size < 2 ^ 63) (le : start ≤ size)
    (ends : buffer[size]? = some 0) : StringWrapper where
  data := buffer.drop start
  size := size - start
  small := Nat.lt_of_le_of_lt (Nat.sub_le size start) small
  terminated := by rw [List.getElem?_drop, Nat.add_sub_cancel' le, ends]

theorem offset_small {offset : Nat} (inside : offset < trackerCapacity) : offset < 2 ^ 63 :=
  Nat.lt_trans inside (by decide)

theorem zero_at (buffer : TrackerBuffer) {offset : Nat} (inside : offset < trackerCapacity) :
    (buffer.val.set offset 0)[offset]? = some 0 :=
  List.getElem?_set_self (buffer.property.symm ▸ inside)

variable [SubStrings] [Network]

/-- What `on_read` does with the body. The connections to the peers of the response
change nothing here. -/
def construct (c : TrackerConnection) (source : StringWrapper) :
    Outcome Thrown TrackerConnection Unit :=
  match TrackerResponse.receive source with
  | .done _ tr => .done () { c with received := c.received ++ [⟨source.bytes, tr⟩] }
  | .thrown e _ => .thrown e c
  | .fault r _ => .fault r c

/-- What `on_read` does behind its loop, from `buffer[offset] = 0` on. -/
def respond (c : TrackerConnection) : Outcome Thrown TrackerConnection Unit :=
  if inside : c.offset < trackerCapacity then
    let bytes := c.buffer.val.set c.offset 0
    let c' := { c with buffer := ⟨bytes, List.length_set.trans c.buffer.property⟩ }
    match found : blankLine bytes with
    -- "incomplete buffer"
    | none => .done () c'
    | some (i, n) =>
      c'.construct (bodyOf bytes c.offset (i + n) (offset_small inside)
        (blankLine_le found (zero_at c.buffer inside)) (zero_at c.buffer inside))
  else .fault .outOfBounds c

def onRead (c : TrackerConnection) (results : List ReadResult) :
    Outcome Thrown TrackerConnection Unit :=
  if c.state ≠ .waitForRead then .done () c
  else
    ({ c with offset := 0, buffer := .zeroed }.readLoop results).bind fun _ c => c.respond

/-- The events of a connection, one after another. An exception leaves `on_read`; `perform`
catches it and closes the socket, so it is the last event. -/
def onReads (c : TrackerConnection) : List (List ReadResult) →
    Outcome Thrown TrackerConnection Unit
  | [] => .done () c
  | event :: events => (c.onRead event).bind fun _ c => c.onReads events

end TrackerConnection

end TorrentClient
