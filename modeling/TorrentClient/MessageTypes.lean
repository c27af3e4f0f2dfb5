import TorrentClient.Base.Word

/-!
# Message types

`message_types.hpp`: the numbers of the messages and the packed structures
they are read and written through, on a little-endian host.
-/

namespace TorrentClient

inductive MessageType where
  | choke
  | unchoke
  | interested
  | notInterested
  | have_
  | bitfield
  | request
  | piece
  | cancel
  | port
  deriving DecidableEq, Repr

namespace MessageType

def id : MessageType → UInt8
  | choke => 0
  | unchoke => 1
  | interested => 2
  | notInterested => 3
  | have_ => 4
  | bitfield => 5
  | request => 6
  | piece => 7
  | cancel => 8
  | port => 9

/-- The message with a number below `NUM_OF_TYPES`. -/
def ofId (id : UInt8) : Option MessageType :=
  [choke, unchoke, interested, notInterested, have_, bitfield, request, piece, cancel,
    port][id.toNat]?

@[simp] theorem ofId_id (t : MessageType) : ofId t.id = some t := by
  cases t <;> rfl

end MessageType

/-- `sizeof(BaseMessage)` -/
def baseMessageSize : Nat := 5

/-- The `length` and `id` of a message. -/
def baseMessage (length : Nat) (id : MessageType) : List UInt8 := htonl length ++ [id.id]

def chokeMessage : List UInt8 := baseMessage 1 .choke

def unchokeMessage : List UInt8 := baseMessage 1 .unchoke

def interestedMessage : List UInt8 := baseMessage 1 .interested

def notInterestedMessage : List UInt8 := baseMessage 1 .notInterested

/-- The index is stored as the host has it. -/
def haveMessage (index : Nat) : List UInt8 := baseMessage 5 .have_ ++ store32 index

/-- A `BitfieldMessage` without its data. -/
def bitfieldHeader (length : Nat) : List UInt8 := baseMessage length .bitfield

def requestMessage (index offset blockLength : Nat) : List UInt8 :=
  baseMessage 13 .request ++ htonl index ++ htonl offset ++ htonl blockLength

/-- A `PieceMessage` without its data. -/
def pieceHeader (length index offset : Nat) : List UInt8 :=
  baseMessage length .piece ++ htonl index ++ htonl offset

/-- A `PieceMessage` with its data. -/
def pieceMessage (index offset : Nat) (data : List UInt8) : List UInt8 :=
  baseMessage (9 + data.length) .piece ++ htonl index ++ htonl offset ++ data

def cancelMessage (index offset blockLength : Nat) : List UInt8 :=
  baseMessage 13 .cancel ++ htonl index ++ htonl offset ++ htonl blockLength

def portMessage (port : Nat) : List UInt8 := baseMessage 3 .port ++ htons port

@[simp] theorem baseMessage_length (length : Nat) (id : MessageType) :
    (baseMessage length id).length = 5 := rfl

/-- The three words behind the head of a request or a cancellation. -/
theorem ntohlAt_words (type : MessageType) {index offset blockLength : Nat}
    (hi : index < 2 ^ 32) (ho : offset < 2 ^ 32) (hl : blockLength < 2 ^ 32) {frame : Bytes}
    (shape : frame = baseMessage 13 type ++ htonl index ++ htonl offset ++ htonl blockLength) :
    ntohlAt frame baseMessageSize = some index ∧
      ntohlAt frame (baseMessageSize + 4) = some offset ∧
      ntohlAt frame (baseMessageSize + 8) = some blockLength := by
  subst shape
  refine ⟨?_, ?_, ?_⟩
  · exact ntohlAt_append (baseMessage 13 type) hi (htonl offset ++ htonl blockLength)
  · exact ntohlAt_append (baseMessage 13 type ++ htonl index) ho (htonl blockLength)
  · exact ntohlAt_append (baseMessage 13 type ++ htonl index ++ htonl offset) hl []

@[simp] theorem pieceMessage_length (index offset : Nat) (data : List UInt8) :
    (pieceMessage index offset data).length = 13 + data.length := by
  simp only [pieceMessage, List.length_append, baseMessage_length, htonl_length]

end TorrentClient
