import TorrentClient.ProcessMessage

/-!
# Messages there and back

A message of `message_types.hpp` and its payload, given to `process_message`.
`roundTrips_iff` says which messages are read as they were written.
-/

namespace TorrentClient

/-- A structure of `message_types.hpp`, with the arguments of its constructor. -/
inductive PackedMessage where
  | choke
  | unchoke
  | interested
  | notInterested
  | have_ (index : UInt32)
  | bitfield (length : UInt32)
  | request (index offset blockLength : UInt32)
  | piece (length index offset : UInt32)
  | cancel (index offset blockLength : UInt32)
  | port (number : UInt16)
  deriving DecidableEq, Repr

namespace PackedMessage

def type : PackedMessage → MessageType
  | choke => .choke
  | unchoke => .unchoke
  | interested => .interested
  | notInterested => .notInterested
  | have_ _ => .have_
  | bitfield _ => .bitfield
  | request _ _ _ => .request
  | piece _ _ _ => .piece
  | cancel _ _ _ => .cancel
  | port _ => .port

def bytes : PackedMessage → Bytes
  | choke => chokeMessage
  | unchoke => unchokeMessage
  | interested => interestedMessage
  | notInterested => notInterestedMessage
  | have_ index => haveMessage index.toNat
  | bitfield length => bitfieldHeader length.toNat
  | request index offset blockLength =>
    requestMessage index.toNat offset.toNat blockLength.toNat
  | piece length index offset => pieceHeader length.toNat index.toNat offset.toNat
  | cancel index offset blockLength =>
    cancelMessage index.toNat offset.toNat blockLength.toNat
  | port number => portMessage number.toNat

/-- The payload the message is built for. -/
def Fits : PackedMessage → Bytes → Prop
  | bitfield length, payload => length.toNat = 1 + payload.length
  | piece length _ _, payload => length.toNat = 9 + payload.length
  | _, payload => payload = []

/-- The fields behind the number of the message, read in network order, are the
arguments of the constructor. -/
def ReadsBack (frame : Bytes) : PackedMessage → Prop
  | choke | unchoke | interested | notInterested => True
  | have_ index => ntohlAt frame baseMessageSize = some index.toNat
  | bitfield length => ntohlAt frame 0 = some length.toNat
  | request index offset blockLength | cancel index offset blockLength =>
    ntohlAt frame baseMessageSize = some index.toNat ∧
      ntohlAt frame (baseMessageSize + 4) = some offset.toNat ∧
      ntohlAt frame (baseMessageSize + 8) = some blockLength.toNat
  | piece length index offset =>
    ntohlAt frame 0 = some length.toNat ∧
      ntohlAt frame baseMessageSize = some index.toNat ∧
      ntohlAt frame (baseMessageSize + 4) = some offset.toNat
  | port number => (bytesAt frame baseMessageSize 2).map ntohs = some number.toNat

/-- What is to hold of a message and its payload. -/
structure RoundTrips (m : PackedMessage) (payload : Bytes) : Prop where
  /-- The length counts the bytes behind it. -/
  counts : ntohlAt (m.bytes ++ payload) 0 = some ((m.bytes ++ payload).length - messageLengthSize)
  /-- The bytes are one frame, whatever lies behind them. -/
  dispatched : ∀ (σ : Type) (handlers : Handlers σ) (behind : Bytes) (s : σ),
    processMessage handlers (m.bytes ++ payload ++ behind) (m.bytes ++ payload).length
        (.action, s) =
      ((handlers (.message m.type) (m.bytes ++ payload ++ behind) (m.bytes ++ payload).length
        s).lift (.action, ·)).map fun _ => (m.bytes ++ payload).length
  readsBack : m.ReadsBack (m.bytes ++ payload)

end PackedMessage

/-- One frame in the window. -/
theorem processMessage_frame {σ : Type} (handlers : Handlers σ) {n : Nat} {type : MessageType}
    {body frame : Bytes} (shape : frame = htonl n ++ type.id :: body) (word : n < 2 ^ 32)
    (counts : n = 1 + body.length) (behind : Bytes) (s : σ) :
    processMessage handlers (frame ++ behind) frame.length (.action, s) =
      ((handlers (.message type) (frame ++ behind) frame.length s).lift (.action, ·)).map
        fun _ => frame.length := by
  have length : frame.length = n + messageLengthSize := by
    rw [shape, List.length_append, htonl_length, List.length_cons, counts, messageLengthSize]
    omega
  have read : ntohlAt (frame ++ behind) 0 = some n := by
    rw [shape, List.append_assoc]
    exact ntohlAt_append [] word _
  have number : (frame ++ behind)[0 + messageLengthSize]? = some type.id := by
    rw [shape]
    rfl
  rw [processMessage, messageLoop, if_pos (by omega), read]
  dsimp only
  rw [if_neg (by omega), if_neg (by omega), number]
  dsimp only
  rw [MessageType.ofId_id]
  dsimp only
  rw [List.drop_zero, ← length]
  cases handlers (.message type) (frame ++ behind) frame.length s with
  | done _ s' =>
    have ended : messageLoop handlers (frame ++ behind) frame.length (0 + frame.length) s' =
        .done (0 + frame.length) s' := by
      rw [messageLoop, if_neg (by omega)]
    dsimp only
    rw [ended, Nat.zero_add]
    rfl
  | thrown e s' => rfl
  | fault r s' => rfl

namespace PackedMessage

/-- The length, the number, and as many bytes as the length says. -/
theorem frame_shape {m : PackedMessage} {payload : Bytes} (fits : m.Fits payload) :
    ∃ n body, m.bytes ++ payload = htonl n ++ m.type.id :: body ∧ n < 2 ^ 32 ∧
      n = 1 + body.length := by
  cases m with
  | choke | unchoke | interested | notInterested =>
    cases fits
    exact ⟨1, [], rfl, by decide, rfl⟩
  | have_ index =>
    cases fits
    exact ⟨5, store32 index.toNat, rfl, by decide, rfl⟩
  | port number =>
    cases fits
    exact ⟨3, htons number.toNat, rfl, by decide, rfl⟩
  | request index offset blockLength | cancel index offset blockLength =>
    cases fits
    exact ⟨13, htonl index.toNat ++ htonl offset.toNat ++ htonl blockLength.toNat, rfl,
      by decide, rfl⟩
  | bitfield length => exact ⟨length.toNat, payload, rfl, length.toNat_lt, fits⟩
  | piece length index offset =>
    refine ⟨length.toNat, htonl index.toNat ++ htonl offset.toNat ++ payload, ?_,
      length.toNat_lt, ?_⟩
    · simp only [bytes, pieceHeader, baseMessage, type, List.append_assoc, List.cons_append,
        List.nil_append]
    · rw [fits, List.length_append, List.length_append, htonl_length, htonl_length]
      omega

/-- Every field is read as it was written, but for the index of a `HaveMessage`. -/
theorem readsBack_iff {m : PackedMessage} {payload : Bytes} (fits : m.Fits payload) :
    m.ReadsBack (m.bytes ++ payload) ↔
      ∀ index, m = .have_ index → swap32 index.toNat = index.toNat := by
  constructor
  · rintro read index rfl
    cases fits
    have swapped : ntohlAt (haveMessage index.toNat ++ []) baseMessageSize =
        some (swap32 index.toNat) := by
      rw [haveMessage, store32_eq]
      exact ntohlAt_append (baseMessage 5 .have_) (swap32_lt _) []
    exact Option.some.inj (swapped.symm.trans read)
  · intro symmetric
    cases m with
    | choke | unchoke | interested | notInterested => trivial
    | have_ index =>
      cases fits
      have read := ntohlAt_append (baseMessage 5 .have_) (swap32_lt index.toNat) []
      rw [← store32_eq, symmetric index rfl] at read
      exact read
    | bitfield length =>
      exact ntohlAt_append [] length.toNat_lt _
    | request index offset blockLength =>
      cases fits
      exact ntohlAt_words .request index.toNat_lt offset.toNat_lt blockLength.toNat_lt rfl
    | cancel index offset blockLength =>
      cases fits
      exact ntohlAt_words .cancel index.toNat_lt offset.toNat_lt blockLength.toNat_lt rfl
    | piece length index offset =>
      refine ⟨ntohlAt_append [] length.toNat_lt _, ?_, ?_⟩
      · exact ntohlAt_append (baseMessage length.toNat .piece) index.toNat_lt
          (htonl offset.toNat ++ payload)
      · exact ntohlAt_append (baseMessage length.toNat .piece ++ htonl index.toNat)
          offset.toNat_lt payload
    | port number =>
      cases fits
      exact congrArg some (ntohs_htons number.toNat_lt)

/-- **Which messages are read as they were written.** Every one but a `HaveMessage`
whose index is not the same with its bytes the other way round. -/
theorem roundTrips_iff {m : PackedMessage} {payload : Bytes} (fits : m.Fits payload) :
    m.RoundTrips payload ↔ ∀ index, m = .have_ index → swap32 index.toNat = index.toNat := by
  obtain ⟨n, body, shape, word, counts⟩ := frame_shape fits
  have prefixed : ntohlAt (m.bytes ++ payload) 0 = some n := by
    rw [shape]
    exact ntohlAt_append [] word _
  constructor
  · intro trips
    exact (readsBack_iff fits).1 trips.readsBack
  · intro symmetric
    refine ⟨?_, ?_, (readsBack_iff fits).2 symmetric⟩
    · rw [prefixed, shape, List.length_append, htonl_length, List.length_cons, counts,
        messageLengthSize]
      congr 1
      omega
    · intro σ handlers behind s
      exact processMessage_frame handlers shape word counts behind s

/-- A block of two bytes, at index 258 and offset 16384. -/
theorem roundTrips_piece :
    (piece 11 258 16384).RoundTrips [104, 105] ↔
      ∀ index, piece 11 258 16384 = have_ index → swap32 index.toNat = index.toNat :=
  roundTrips_iff rfl

/-- The index 1 is read as 2 ^ 24. -/
theorem not_roundTrips_have : (have_ 1).Fits [] ∧ ¬ (have_ 1).RoundTrips [] := by
  refine ⟨rfl, ?_⟩
  intro trips
  have read : ntohlAt ((have_ 1).bytes ++ []) baseMessageSize = some 1 := trips.readsBack
  exact absurd read (by decide)

end PackedMessage

end TorrentClient
