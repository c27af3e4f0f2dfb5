import TorrentClient.Base.System
import TorrentClient.PeerProtocol

/-!
# The peers of a torrent

Any number of peers share one list of pieces and one set of files. They come
and go, and the handlers of their messages run one after another, each to its
end or to its throw.
-/

namespace TorrentClient

variable {β φ : Type}

/-- A peer that was destroyed leaves `none` behind. -/
structure Swarm (β φ : Type) where
  peers : List (Option (PeerProtocol β))
  shared : Shared φ

inductive Action where
  | connect (infoHash random : Bytes)
  | destroy (peer : Nat)
  | message (peer : Nat) (type : MessageType) (data : List UInt8) (size : Nat)
  deriving DecidableEq, Repr

/-- `process_message` hands on a frame of `size` bytes at the start of `data`, the
memory that can be read from there. -/
def Dispatched (type : MessageType) (data : List UInt8) (size : Nat) : Prop :=
  messageLengthSize < size ∧ size ≤ data.length ∧
  ntohlAt data 0 = some (size - messageLengthSize) ∧ data[messageLengthSize]? = some type.id

instance (type : MessageType) (data : List UInt8) (size : Nat) :
    Decidable (Dispatched type data size) :=
  inferInstanceAs (Decidable (_ ∧ _))

namespace Swarm

/-- No peer yet, and nothing handed out. -/
def initial (tf : TorrentFile) (files : φ) : Swarm β φ := ⟨[], .new tf, files, []⟩

def peer? (w : Swarm β φ) (peer : Nat) : Option (PeerProtocol β) := (w.peers[peer]?).join

/-- A live peer together with what is shared. -/
def view (w : Swarm β φ) (peer : Nat) : Option (Peer β φ) :=
  (w.peer? peer).map fun protocol => ⟨protocol, w.shared⟩

/-- The swarm once a peer has changed to `s`. -/
def put (w : Swarm β φ) (peer : Nat) (s : Peer β φ) : Swarm β φ :=
  ⟨w.peers.set peer (some s.protocol), s.shared⟩

def step [BitSet β] [Files φ] (w : Swarm β φ) : Action → Option (Swarm β φ)
  | .connect infoHash random =>
    match PeerProtocol.new infoHash random w.shared.pieceList with
    | .done _ protocol => some { w with peers := w.peers ++ [some protocol] }
    | .thrown _ _ | .fault _ _ => none
  | .destroy peer =>
    (w.peer? peer).map fun _ => { w with peers := w.peers.set peer none }
  | .message peer type data size =>
    if Dispatched type data size then
      (w.view peer).bind fun s =>
        match Peer.handlers (.message type) data size s with
        | .done _ s | .thrown _ s => some (w.put peer s)
        | .fault _ _ => none
    else none

/-- A swarm that has just been set up for a torrent with at least one piece. -/
def Start (w : Swarm β φ) : Prop :=
  ∃ tf files, tf.pieces.val ≠ [] ∧ w = initial tf files

theorem start_initial (tf : TorrentFile) (files : φ) (h : tf.pieces.val ≠ []) :
    Start (initial tf files : Swarm β φ) := ⟨tf, files, h, rfl⟩

variable {w w' : Swarm β φ} {peer : Nat}

theorem peer?_eq_some {p : PeerProtocol β} :
    w.peer? peer = some p ↔ w.peers[peer]? = some (some p) := by
  rw [peer?, Option.join_eq_some_iff]

theorem view_eq_some {s : Peer β φ} :
    w.view peer = some s ↔ w.peer? peer = some s.protocol ∧ s.shared = w.shared := by
  obtain ⟨protocol, shared⟩ := s
  rw [view, Option.map_eq_some_iff]
  constructor
  · rintro ⟨p, hp, ⟨⟩⟩
    exact ⟨hp, rfl⟩
  · rintro ⟨hp, rfl⟩
    exact ⟨protocol, hp, rfl⟩

theorem new_done [BitSet β] {infoHash random : Bytes} {pl : PieceList} {p : PeerProtocol β}
    (h : PeerProtocol.new infoHash random pl = .done () p) :
    p.pieceIndex = -1 ∧ p.pieceSize = 0 ∧ p.piece = .new := by
  unfold PeerProtocol.new at h
  dsimp only at h
  split at h
  · cases h
  · split at h
    · cases h
    · cases h
      exact ⟨rfl, rfl, rfl⟩

/-- **Everything a step can do.** -/
theorem step_cases [BitSet β] [Files φ] {a : Action} (h : w.step a = some w') :
    (∃ infoHash random p, a = .connect infoHash random ∧
      PeerProtocol.new infoHash random w.shared.pieceList = .done () p ∧
      w' = { w with peers := w.peers ++ [some p] }) ∨
    (∃ peer p, a = .destroy peer ∧ w.peer? peer = some p ∧
      w' = { w with peers := w.peers.set peer none }) ∨
    (∃ peer type data size s, a = .message peer type data size ∧ Dispatched type data size ∧
      w.view peer = some s ∧
      (∀ r t, Peer.handlers (.message type) data size s ≠ .fault r t) ∧
      w' = w.put peer (Peer.handlers (.message type) data size s).state) := by
  cases a with
  | connect infoHash random =>
    left
    simp only [step] at h
    split at h
    · rename_i p hn
      cases h
      exact ⟨infoHash, random, p, rfl, hn, rfl⟩
    · cases h
    · cases h
  | destroy peer =>
    right; left
    obtain ⟨p, hp, rfl⟩ := Option.map_eq_some_iff.1 h
    exact ⟨peer, p, rfl, hp, rfl⟩
  | message peer type data size =>
    right; right
    simp only [step] at h
    split at h
    · rename_i dispatched
      obtain ⟨s, hs, h⟩ := Option.bind_eq_some_iff.1 h
      refine ⟨peer, type, data, size, s, rfl, dispatched, hs, ?_⟩
      split at h
      · rename_i hh
        cases h
        rw [hh]
        exact ⟨nofun, rfl⟩
      · rename_i hh
        cases h
        rw [hh]
        exact ⟨nofun, rfl⟩
      · cases h
    · cases h

section
variable {s : Peer β φ}

theorem put_put (s s' : Peer β φ) : (w.put peer s).put peer s' = w.put peer s' := by
  simp [put, List.set_set]

theorem put_view (hs : w.view peer = some s) : w.put peer s = w := by
  obtain ⟨hp, shared⟩ := view_eq_some.1 hs
  obtain ⟨lt, eq⟩ := List.getElem?_eq_some_iff.1 (peer?_eq_some.1 hp)
  simp [put, shared, ← eq]

theorem view_put_self (hs : w.view peer = some s) (s' : Peer β φ) :
    (w.put peer s').view peer = some s' := by
  obtain ⟨lt, -⟩ := List.getElem?_eq_some_iff.1 (peer?_eq_some.1 (view_eq_some.1 hs).1)
  apply view_eq_some.2
  refine ⟨peer?_eq_some.2 ?_, rfl⟩
  simp [put, lt]

theorem step_message [BitSet β] [Files φ] (hs : w.view peer = some s) {type : MessageType}
    {data : List UInt8} {size : Nat} (dispatched : Dispatched type data size)
    (safe : (Peer.handlers (.message type) data size s).Safe) :
    w.step (.message peer type data size) =
      some (w.put peer (Peer.handlers (.message type) data size s).state) := by
  rw [step, if_pos dispatched, hs, Option.bind_some]
  cases handled : Peer.handlers (.message type) data size s with
  | done _ s' => rfl
  | thrown e s' => rfl
  | fault r s' => exact absurd handled (safe r s')

end

/-- Two pieces of one byte each. -/
def twoPieces : TorrentFile where
  pieces := (twoFiles 1 1).pieces
  files := []
  pieceSize := 1
  lastPieceSize := 1

/-- A message of the first peer, with no memory behind it. -/
def send (type : MessageType) (body : Bytes) : Action :=
  let frame := baseMessage (1 + body.length) type ++ body
  .message 0 type frame frame.length

/-- A peer that has both pieces connects and lets itself be asked for one. -/
def unchoked : List Action :=
  [.connect [] (List.replicate 20 0), send .bitfield [0xc0], send .unchoke []]

end Swarm

end TorrentClient
