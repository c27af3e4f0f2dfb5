import TorrentClient.BitSet
import TorrentClient.MessageTypes
import TorrentClient.Piece
import TorrentClient.PieceList
import TorrentClient.ProcessMessage

/-!
# The peer protocol

`PeerProtocol`: what a client knows of one peer, and what it does with the
messages of that peer. All peers of a torrent share its files and its list of
pieces.
-/

namespace TorrentClient

/-- `Files::write_piece` as its callers see it: it is given the piece, the buffer
and its size, and returns or throws. -/
class Files (φ : Type) where
  writePiece : φ → Nat → Option (List Cell) → Nat → Outcome Thrown φ Unit

/-- Files whose calls return or throw one after another as listed. -/
instance : Files (List Bool) where
  writePiece results _ _ _ :=
    match results with
    | false :: results => .thrown (.runtimeError "error while writing: ") results
    | true :: results | results => .done () results

/-- The calls the peers have made on what they share. -/
inductive Call where
  | getPiece (size : Nat) (pieceIndex : Int)
  | returnPiece (piece : Nat)
  | writePiece (id : Nat) (source : Option (List Cell)) (size : Nat) (returned : Bool)
  deriving DecidableEq, Repr

/-- What the peers share, with the calls made on it so far. -/
structure Shared (φ : Type) where
  pieceList : PieceList
  files : φ
  calls : List Call

/-- A message to be sent, as the bytes of its buffer. -/
abbrev Message := List Cell

/-- `m_state` is kept beside the other members, with `process_message`. -/
structure PeerProtocol (β : Type) where
  infoHash : Bytes
  clientsPieces : β
  pieceIndex : Int
  pieceSize : Nat
  offset : Nat
  piece : Piece
  messages : List Message
  numberOfPieces : Nat

/-- A peer with what it shares with the others. -/
structure Peer (β φ : Type) where
  protocol : PeerProtocol β
  shared : Shared φ

def protocolName : Bytes :=
  [0x42, 0x69, 0x74, 0x54, 0x6f, 0x72, 0x72, 0x65, 0x6e, 0x74, 0x20, 0x70, 0x72, 0x6f, 0x74,
    0x6f, 0x63, 0x6f, 0x6c]

def blockSize : Nat := 2 ^ 14

namespace PeerProtocol

variable {β : Type}

/-- The handshake message. The eight reserved bytes are never written. -/
def handshake (infoHash random : Bytes) : Option Message :=
  let handshake := List.replicate handshakeSize none
  (memcpy handshake 0 [UInt8.ofNat protocolName.length] 0 1).bind fun handshake =>
  (memcpy handshake 1 protocolName 0 protocolName.length).bind fun handshake =>
  (memcpy handshake 28 infoHash 0 infoHash.length).bind fun handshake =>
  memcpy handshake 48 random 0 20

/-- A new peer. `random` is what `generate_random` has written. -/
def new [BitSet β] (infoHash random : Bytes) (pl : PieceList) :
    Outcome Thrown (PeerProtocol β) Unit :=
  let p : PeerProtocol β :=
    { infoHash := infoHash
      clientsPieces := BitSet.unbound
      pieceIndex := -1
      pieceSize := 0
      offset := 0
      piece := .new
      messages := []
      numberOfPieces := pl.numberOfPieces }
  match BitSet.bind p.clientsPieces (add64 (p.numberOfPieces / 8) 1) with
  | none => .thrown .bitSet p
  | some clientsPieces =>
    let p := { p with clientsPieces := clientsPieces }
    match handshake infoHash random with
    | none => .fault .outOfBounds p
    | some message => .done () { p with messages := [message] }

def hasMessage (p : PeerProtocol β) : Bool := !p.messages.isEmpty

/-- The message in front, an empty one when there is none. -/
def getMessage (p : PeerProtocol β) : Message × PeerProtocol β :=
  match p.messages with
  | [] => ([], p)
  | message :: rest => (message, { p with messages := rest })

end PeerProtocol

namespace Peer

variable {β φ : Type}

/-- `m_piece_size = m_piece_list.get_piece(m_piece_index)` -/
def getPiece (s : Peer β φ) : Peer β φ :=
  let (size, pieceIndex, pieceList) := s.shared.pieceList.getPiece
  { protocol := { s.protocol with pieceIndex := pieceIndex, pieceSize := size }
    shared := { s.shared with
      pieceList := pieceList
      calls := s.shared.calls ++ [.getPiece size pieceIndex] } }

/-- `m_piece_list.return_piece(m_piece_index)`, and the index reset. -/
def returnPiece (s : Peer β φ) : Peer β φ :=
  let piece := toUInt64 s.protocol.pieceIndex
  { protocol := { s.protocol with pieceIndex := -1, pieceSize := 0 }
    shared := { s.shared with
      pieceList := s.shared.pieceList.returnPiece piece
      calls := s.shared.calls ++ [.returnPiece piece] } }

section
variable [BitSet β]

/-- `m_piece_size && m_clients_pieces[m_piece_index]` -/
def wanted (s : Peer β φ) : Option Bool :=
  if s.protocol.pieceSize = 0 then some false
  else BitSet.test s.protocol.clientsPieces (toUInt64 s.protocol.pieceIndex)

/-- The loop of `get_piece_index`, with the attempts that are left. -/
def attempt : Nat → Peer β φ → Outcome Thrown (Peer β φ) Unit
  | 0, s => .done () s
  | attempts + 1, s =>
    let s := s.getPiece
    match s.wanted with
    | none => .thrown .bitSet s
    | some true => .done () s
    | some false => attempt attempts s.returnPiece

def numberOfAttempts : Nat := 20

def getPieceIndex (s : Peer β φ) : Outcome Thrown (Peer β φ) Bool :=
  (attempt numberOfAttempts s).bind fun _ s =>
    if s.protocol.pieceSize = 0 then .done false s
    else
      .done true { s with protocol := { s.protocol with
        piece := .init s.protocol.pieceIndex s.protocol.pieceSize } }

end

/-- The loop of `create_request`. Once `m_offset` wraps it is zero again, and the
loop does not end. -/
def requestLoop (pieceIndex : Int) (pieceSize offset : Nat) (messages : List Message) :
    Option (Nat × List Message) :=
  if offset < pieceSize then
    let blockLength :=
      if add64 offset blockSize > pieceSize then sub64 pieceSize offset else blockSize
    let request := requestMessage (toUInt64 pieceIndex) offset blockLength
    if offset + blockSize < 2 ^ 64 then
      requestLoop pieceIndex pieceSize (offset + blockSize) (messages ++ [request.map some])
    else none
  else some (offset, messages)
  termination_by pieceSize - offset
  decreasing_by simp only [blockSize]; omega

def createRequest (s : Peer β φ) : Outcome Thrown (Peer β φ) Unit :=
  match requestLoop s.protocol.pieceIndex s.protocol.pieceSize 0 s.protocol.messages with
  | none => .fault .diverges s
  | some (offset, messages) =>
    .done () { s with protocol := { s.protocol with offset := offset, messages := messages } }

def createInterested (s : Peer β φ) : Peer β φ :=
  { s with protocol := { s.protocol with
      messages := s.protocol.messages ++ [interestedMessage.map some] } }

/-- `get_piece_index`, and the requests for the piece it assigns. -/
def nextPiece [BitSet β] (s : Peer β φ) : Outcome Thrown (Peer β φ) Unit :=
  s.getPieceIndex.bind fun assigned s => if assigned then s.createRequest else .done () s

/-! ## The handlers -/

def processChoke (s : Peer β φ) : Outcome Thrown (Peer β φ) Unit :=
  let s := s.returnPiece
  .done () { s with protocol := { s.protocol with piece := s.protocol.piece.clear } }

def processUnchoke [BitSet β] (s : Peer β φ) : Outcome Thrown (Peer β φ) Unit := s.nextPiece

def processHave [BitSet β] (s : Peer β φ) (data : List UInt8) :
    Outcome Thrown (Peer β φ) Unit :=
  match ntohlAt data baseMessageSize with
  | none => .fault .outOfBounds s
  | some pieceId =>
    match BitSet.set s.protocol.clientsPieces pieceId true with
    | none => .thrown .bitSet s
    | some clientsPieces =>
      .done () { s with protocol := { s.protocol with clientsPieces := clientsPieces } }

def processBitfield [BitSet β] (s : Peer β φ) (data : List UInt8) (size : Nat) :
    Outcome Thrown (Peer β φ) Unit :=
  match bytesAt data baseMessageSize (sub64 size baseMessageSize) with
  | none => .fault .outOfBounds s
  | some bits =>
    match BitSet.bindData s.protocol.clientsPieces bits with
    | none => .thrown .bitSet s
    | some clientsPieces =>
      .done () { s with protocol :=
        { s.protocol with clientsPieces := clientsPieces } }.createInterested

/-- The `write_piece` of a full piece. The buffer has left the piece when the
call is made. -/
def writePiece [Files φ] (s : Peer β φ) : Outcome Thrown (Peer β φ) Unit :=
  let (source, piece) := s.protocol.piece.get
  let id := toUInt64 s.protocol.pieceIndex
  let called (files : φ) (returned : Bool) : Peer β φ :=
    { protocol := { s.protocol with piece := piece }
      shared := { s.shared with
        files := files
        calls := s.shared.calls ++ [.writePiece id source s.protocol.pieceSize returned] } }
  match Files.writePiece s.shared.files id source s.protocol.pieceSize with
  | .done _ files => .done () (called files true)
  | .thrown e files => .thrown e (called files false)
  | .fault r files => .fault r (called files false)

/-- What `process_piece` does with a piece that may be full. -/
def completePiece [BitSet β] [Files φ] (s : Peer β φ) : Outcome Thrown (Peer β φ) Unit :=
  if s.protocol.piece.full then
    s.writePiece.bind fun _ s =>
      { s with protocol := { s.protocol with offset := 0, pieceIndex := -1 } }.nextPiece
  else .done () s

/-- `process_piece` up to the call of `add`. False when the block is not one of
the piece the peer holds. -/
def addBlock (s : Peer β φ) (data : List UInt8) (size : Nat) :
    Outcome Thrown (Peer β φ) Bool :=
  match ntohlAt data baseMessageSize with
  | none => .fault .outOfBounds s
  | some index =>
    if (index : Int) ≠ s.protocol.pieceIndex then .done false s
    else
      match ntohlAt data (baseMessageSize + 4) with
      | none => .fault .outOfBounds s
      | some offset =>
        let payload := data.drop (baseMessageSize + 8)
        let added := s.protocol.piece.add index payload
          (sub64 (sub64 size baseMessageSize) 8) offset
        (added.lift fun piece => { s with protocol := { s.protocol with piece := piece } }).map
          fun _ => true

def processPiece [BitSet β] [Files φ] (s : Peer β φ) (data : List UInt8) (size : Nat) :
    Outcome Thrown (Peer β φ) Unit :=
  (s.addBlock data size).bind fun added s => if added then s.completePiece else .done () s

/-- `PROCESS_IN_MESSAGE`, with `process_handshake`. -/
def handlers [BitSet β] [Files φ] : Handlers (Peer β φ)
  | .message .choke, _, _, s => s.processChoke
  | .message .unchoke, _, _, s => s.processUnchoke
  | .message .have_, data, _, s => s.processHave data
  | .message .bitfield, data, size, s => s.processBitfield data size
  | .message .piece, data, size, s => s.processPiece data size
  | .handshake, _, _, s | .message .interested, _, _, s | .message .notInterested, _, _, s
  | .message .request, _, _, s | .message .cancel, _, _, s | .message .port, _, _, s => .done () s

end Peer

end TorrentClient
