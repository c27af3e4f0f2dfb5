import TorrentClient.HonestPeers

/-!
# A swarm of seeders

Any number of peers that have every piece connect and let themselves be asked, and the requests
are answered in any order. Whatever the order, the client comes to the end of the torrent.
-/

namespace TorrentClient

variable {β φ : Type}

instance (i : Nat) (content : Bytes) : Decidable (InFields i content) :=
  decidable_of_iff (i < 2 ^ 32 ∧ 0 < content.length ∧ content.length ≤ 2 ^ 32)
    ⟨fun h => ⟨h.1, h.2.1, h.2.2⟩, fun room => ⟨room.index, room.nonempty, room.length⟩⟩

instance [BitSet β] (contents : List Bytes) (bits : β) : Decidable (Whole contents bits) :=
  decidable_of_iff ((∀ i < contents.length, ∀ content ∈ contents[i]?, InFields i content) ∧
      (∀ i < contents.length, BitSet.test bits i = some true) ∧
      BitSet.test bits (toUInt64 (-1)) ≠ some true)
    ⟨fun h => ⟨fun i content at_i => h.1 i (List.getElem?_eq_some_iff.1 at_i).1 content at_i,
        h.2.1, h.2.2⟩,
      fun whole => ⟨fun i _ content at_i => whole.fields i content at_i, whole.every,
        whole.marker⟩⟩

/-! ## The list -/

/-- The pieces are handed out in their order, and behind the last one only the marker is
returned. -/
structure PieceList.InOrder (contents : List Bytes) (pl : PieceList) : Prop where
  sound : pl.Sound
  lists : pl.Lists contents
  queue : ∀ z ∈ pl.returnedPieces, z = -1
  exhausted : pl.returnedPieces ≠ [] → pl.maxPieceNum < pl.nextPiece

namespace Peer

/-- The peer holds no piece, and is asked for none. -/
structure Rests (contents : List Bytes) (s : Peer β φ) : Prop where
  index : s.protocol.pieceIndex = -1
  idle : ∀ m ∈ s.protocol.messages, reply contents m = none

/-- The peer is asked for a piece, and has all of them. -/
structure Asks [BitSet β] (contents : List Bytes) (s : Peer β φ) : Prop where
  whole : Whole contents s.protocol.clientsPieces
  asking : ∃ i content received remaining, Asking contents i content received remaining s

/-- The messages that are queued for the peer, and the requests that are not made yet. -/
def left (contents : List Bytes) (s : Peer β φ) : Nat :=
  s.protocol.messages.length + pending (contents.drop s.shared.pieceList.nextPiece)

variable [BitSet β] {contents : List Bytes} {s t : Peer β φ}

/-- What comes of the attempts when all pieces were handed out. -/
structure PastEnd (contents : List Bytes) (s t : Peer β φ) : Prop where
  list : t.shared.pieceList.InOrder contents
  next : t.shared.pieceList.nextPiece = s.shared.pieceList.nextPiece
  past : t.shared.pieceList.maxPieceNum < t.shared.pieceList.nextPiece

theorem attempt_pastEnd (list : s.shared.pieceList.InOrder contents)
    (past : s.shared.pieceList.maxPieceNum < s.shared.pieceList.nextPiece) :
    PastEnd contents s (attempt numberOfAttempts s).state ∧
      (attempt numberOfAttempts s).state.protocol.pieceIndex = -1 := by
  apply attempt_rule (P := PastEnd contents s)
    (Q := fun r => PastEnd contents s r ∧ r.protocol.pieceIndex = -1) ?_ (fun _ => id) ?_ 19 s
    ⟨list, rfl, past⟩
  · intro r h
    rcases PieceList.getPiece_cases h.list.sound with ⟨z, rest, queue, eq⟩ | ⟨-, below, -⟩ |
      ⟨-, -, eq⟩
    · have sound := (PieceList.getPiece_sound h.list.sound).1
      rw [eq] at sound
      have mem {y : Int} (there : y ∈ rest) : y ∈ r.shared.pieceList.returnedPieces :=
        queue ▸ List.mem_cons_of_mem z there
      refine ⟨⟨⟨?_, ?_, ?_, fun _ => ?_⟩, ?_, ?_⟩, ?_⟩
      all_goals first
        | rw [getPiece_pieceList, eq]
        | rw [getPiece_pieceIndex, eq]
      · exact sound
      · exact h.list.lists.congr rfl rfl
      · exact fun y there => h.list.queue y (mem there)
      · exact h.past
      · exact h.next
      · exact h.past
      · exact h.list.queue z (queue ▸ List.mem_cons_self)
    · exact absurd h.past (Nat.not_lt.2 below)
    · have same : r.getPiece.shared.pieceList = r.shared.pieceList := by
        rw [getPiece_pieceList, eq]
      exact ⟨⟨same ▸ h.list, by rw [same]; exact h.next, same ▸ h.past⟩,
        by rw [getPiece_pieceIndex, eq]⟩
  · rintro r ⟨h, index⟩
    have returned := PieceList.returnPiece_index h.list.sound (Or.inl index)
    have back : PastEnd contents s r.returnPiece := by
      refine ⟨⟨PieceList.returnPiece_sound h.list.sound (Or.inl index),
        h.list.lists.congr rfl rfl, ?_, fun _ => h.past⟩, h.next, h.past⟩
      rw [returnPiece_pieceList, returned]
      intro z mem
      rcases List.mem_append.1 mem with old | new
      · exact h.list.queue z old
      · exact (List.mem_singleton.1 new).trans index
    exact ⟨back, back, returnPiece_pieceIndex r⟩

/-- With all pieces handed out, a peer that holds none is assigned none. -/
theorem nextPiece_pastEnd (whole : Whole contents s.protocol.clientsPieces)
    (list : s.shared.pieceList.InOrder contents)
    (past : s.shared.pieceList.maxPieceNum < s.shared.pieceList.nextPiece) :
    s.nextPiece.Safe ∧ PastEnd contents s s.nextPiece.state ∧
      s.nextPiece.state.protocol.pieceIndex = -1 ∧
      s.nextPiece.state.protocol.messages = s.protocol.messages ∧
      s.nextPiece.state.protocol.clientsPieces = s.protocol.clientsPieces := by
  obtain ⟨ended, index⟩ := attempt_pastEnd list past
  have quiet := attempt_quiet s
  have safe := attempt_safe numberOfAttempts s
  unfold nextPiece getPieceIndex
  cases attempted : attempt numberOfAttempts s with
  | fault r t => exact absurd attempted (safe r t)
  | thrown e t =>
    rw [attempted] at ended index quiet
    exact ⟨Outcome.safe_thrown, ended, index, quiet.messages, quiet.bits⟩
  | done _ t =>
    rw [attempted] at ended index quiet
    have none : t.protocol.pieceSize = 0 := by
      by_contra some
      have useful := attempt_wanted 19 s attempted some
      rw [wanted, if_neg some, show t.protocol.pieceIndex = -1 from index,
        show t.protocol.clientsPieces = _ from quiet.bits] at useful
      exact whole.marker useful
    rw [Outcome.bind_done, if_pos none]
    exact ⟨Outcome.safe_done, ended, index, quiet.messages, quiet.bits⟩

/-- **What a peer without a piece comes to**: it is asked for the next piece, or there is none. -/
structure Next (contents : List Bytes) (s t : Peer β φ) : Prop where
  list : t.shared.pieceList.InOrder contents
  left : t.left contents = s.left contents
  state : t.Asks contents ∨
    t.Rests contents ∧ t.shared.pieceList.maxPieceNum < t.shared.pieceList.nextPiece

theorem nextPiece_next (whole : Whole contents s.protocol.clientsPieces)
    (list : s.shared.pieceList.InOrder contents) (rests : s.Rests contents) :
    s.nextPiece.Safe ∧ Next contents s s.nextPiece.state := by
  rcases Nat.lt_or_ge s.shared.pieceList.maxPieceNum s.shared.pieceList.nextPiece with past | below
  · obtain ⟨safe, ended, index, messages, bits⟩ := nextPiece_pastEnd whole list past
    refine ⟨safe, ended.list, ?_, Or.inr ⟨⟨index, messages ▸ rests.idle⟩, ended.past⟩⟩
    rw [left, left, messages, ended.next]
  · have count := list.lists.count
    have inside : s.shared.pieceList.nextPiece < contents.length := by omega
    have at_next := List.getElem?_eq_getElem inside
    have queue : s.shared.pieceList.returnedPieces = [] := by
      by_contra some
      exact absurd (list.exhausted some) (Nat.not_lt.2 below)
    obtain ⟨t, returned, downloading, messages, after, bits⟩ :=
      nextPiece_issued whole list.sound queue rfl below at_next (list.lists.sizes _ _ at_next)
    rw [returned]
    refine ⟨Outcome.safe_done, ?_, ?_, Or.inl ⟨?_, ?_⟩⟩
    · rw [Outcome.state_done, after]
      refine ⟨⟨list.sound.max_lt, Nat.succ_le_succ below, list.sound.queue⟩,
        list.lists.congr rfl rfl, list.queue, fun some => absurd queue some⟩
    · rw [Outcome.state_done, left, left, messages, after, List.length_append, List.length_map,
        List.drop_eq_getElem_cons inside, pending, pending, List.map_cons, List.sum_cons,
        Nat.add_assoc]
    · rw [Outcome.state_done, bits]
      exact whole
    · exact ⟨_, _, _, _, .start at_next (whole.fields _ _ at_next) rests.idle downloading messages⟩

variable [Files φ] {i : Nat} {content : Bytes}

/-- A piece that is complete is written, and makes room for the next one. -/
theorem completePiece_next (complete : Complete i content s)
    (whole : Whole contents s.protocol.clientsPieces) (at_i : contents[i]? = some content)
    (list : s.shared.pieceList.InOrder contents)
    (idle : ∀ m ∈ s.protocol.messages, reply contents m = none) {files : φ}
    (wrote : Files.writePiece s.shared.files i (some (content.map some)) content.length =
      .done () files) :
    s.completePiece.Safe ∧ Next contents s s.completePiece.state ∧
      s.completePiece.state.shared.writes =
        s.shared.writes ++ [.writePiece i (some (content.map some)) content.length true] ∧
      s.completePiece.state.shared.files = files := by
  have same : s.completePiece = (s.afterWrite i content files true).released.nextPiece := by
    rw [Peer.completePiece, if_pos complete.full,
      complete.writePiece (whole.fields i content at_i) wrote]
    rfl
  have rests : (s.afterWrite i content files true).released.Rests contents := ⟨rfl, idle⟩
  obtain ⟨safe, next⟩ :=
    nextPiece_next (s := (s.afterWrite i content files true).released) whole list rests
  rw [same, nextPiece_writes, nextPiece_files]
  exact ⟨safe, ⟨next.list, next.left, next.state⟩,
    s.afterWrite_writes i content files true, rfl⟩

/-- What a step of one peer keeps. A peer that is asked for a piece is asked for another one
afterwards, or there is none left. -/
structure Serves (contents : List Bytes) (s t : Peer β φ) : Prop where
  list : t.shared.pieceList.InOrder contents
  state : t.Rests contents ∨ t.Asks contents
  moves : ∀ j, s.shared.pieceList.Contains j → Moves s t j False
  writes : ∀ before, Writes contents before s.shared.writes s.shared.files →
    Writes contents before t.shared.writes t.shared.files
  busy : ¬ s.Asks contents ∧ t.shared = s.shared ∨ t.Asks contents ∨
    t.shared.pieceList.maxPieceNum < t.shared.pieceList.nextPiece

omit [Files φ] in
theorem Rests.not_asks (rests : s.Rests contents) : ¬ s.Asks contents := by
  rintro ⟨-, i, _, _, _, asking⟩
  have held := asking.downloading.index
  rw [rests.index] at held
  omega

/-- What a peer that keeps its piece, and touches nothing that is shared, comes to. -/
theorem serves_alone (sound : s.Sound) (list : s.shared.pieceList.InOrder contents)
    (same : SameCustody s t) (rests : s.Rests contents → t.Rests contents)
    (asks : s.Asks contents → t.Asks contents) (state : s.Rests contents ∨ s.Asks contents) :
    Serves contents s t := by
  refine ⟨same.shared ▸ list, state.imp rests asks, fun j _ => .of_same sound same, ?_, ?_⟩
  · rw [same.shared]
    exact fun _ => id
  · rcases state with idle | busy
    · exact Or.inl ⟨idle.not_asks, same.shared⟩
    · exact Or.inr (Or.inl (asks busy))

/-- Whatever message is taken, the client goes on, with one less to come. -/
theorem exchange_serves {k : Nat} (sound : s.Sound) (list : s.shared.pieceList.InOrder contents)
    (state : s.Rests contents ∨ s.Asks contents)
    (accepted : ∀ (i : Nat) content, contents[i]? = some content → ∃ files,
      Files.writePiece s.shared.files i (some (content.map some)) content.length = .done () files)
    (below : k < s.protocol.messages.length) :
    ∃ t, s.exchange contents k = some t ∧ Serves contents s t ∧
      t.left contents + 1 = s.left contents := by
  have at_k := List.getElem?_eq_getElem below
  have shorter := List.length_eraseIdx_add_one below
  by_cases answered : asks contents s.protocol.messages[k]
  · obtain ⟨whole, i, content, received, remaining, asking⟩ : s.Asks contents := by
      apply state.resolve_left
      intro rests
      rw [asks, rests.idle _ (List.getElem_mem below)] at answered
      cases answered
    have mem := asking.queued.mem_iff.1 (List.mem_filter.2 ⟨List.getElem_mem below, answered⟩)
    obtain ⟨r, hr, same⟩ := List.mem_map.1 mem
    rw [← same] at at_k
    have room := whole.fields i content asking.at_i
    have requested := asking.asked.mem_iff.1 (List.mem_append_right _ hr)
    have replied := reply_request asking.at_i room requested
    obtain ⟨t, shared, bits, messages, answer, outcome⟩ := asking.block room at_k hr
    have moves (j : Int) (contained : s.shared.pieceList.Contains j) :
        Moves s t.completePiece.state j False := by
      have moved := processPiece_moves (s := s.without k) ⟨sound.list, sound.index⟩ contained
        (Answer.frame i content ⟨r, []⟩ ++ []) (Answer.frame i content ⟨r, []⟩).length
      rw [← answer]
      exact ⟨moved.sound, moved.max, moved.places⟩
    have less : t.left contents + 1 = s.left contents := by
      rw [left, left, messages, shared]
      omega
    rcases outcome with ⟨early, asking'⟩ | ⟨complete, idle⟩
    · have safe : ((s.without k).answer i content ⟨r, []⟩).Safe := by
        rw [answer, early]
        exact Outcome.safe_done
      have asks' : t.Asks contents := ⟨bits ▸ whole, _, _, _, _, asking'⟩
      rw [early] at moves
      refine ⟨t, ?_, ⟨shared ▸ list, Or.inr asks', moves, ?_, Or.inr (Or.inl asks')⟩, less⟩
      · rw [exchange_answer at_k replied requested safe, answer, early, Outcome.state_done]
      · rw [shared]
        exact fun _ => id
    · obtain ⟨files, wrote⟩ := accepted i content asking.at_i
      rw [← shared] at wrote list
      obtain ⟨safe, next, writes, after⟩ :=
        completePiece_next complete (bits ▸ whole) asking.at_i list idle wrote
      refine ⟨_, exchange_answer at_k replied requested (answer ▸ safe), ?_⟩
      rw [answer]
      refine ⟨⟨next.list, next.state.elim Or.inr fun ended => Or.inl ended.1, moves, ?_,
        Or.inr (next.state.imp_right And.right)⟩, by rw [next.left, less]⟩
      intro before past
      rw [writes, after]
      rw [← shared] at past
      exact .returned past asking.at_i wrote
  · have idle : reply contents s.protocol.messages[k] = none := by
      rwa [asks, Bool.not_eq_true, Option.isSome_eq_false_iff, Option.isNone_iff_eq_none]
        at answered
    refine ⟨_, exchange_idle at_k idle, serves_alone sound list ⟨rfl, rfl⟩ ?_ ?_ state, ?_⟩
    · exact fun rests => ⟨rests.index, fun m mem => rests.idle m (List.mem_of_mem_eraseIdx mem)⟩
    · rintro ⟨whole, i, content, received, remaining, asking⟩
      exact ⟨whole, i, content, received, remaining, asking.without below answered⟩
    · show (s.protocol.messages.eraseIdx k).length +
        pending (contents.drop s.shared.pieceList.nextPiece) + 1 = s.left contents
      rw [left]
      omega

/-! ## The messages of a seeder -/

/-- What a seeder sends without being asked: the bits of all its pieces, and then an unchoke
while the client holds none of them for it. -/
def Seeds (contents : List Bytes) (s : Peer β φ) (type : MessageType) (data : List UInt8)
    (size : Nat) : Prop :=
  match type with
  | .unchoke => s.protocol.pieceIndex = -1 ∧ Whole contents s.protocol.clientsPieces
  | .bitfield => ∀ bits ∈ bytesAt data baseMessageSize (sub64 size baseMessageSize),
      ∀ marked ∈ BitSet.bindData s.protocol.clientsPieces bits, Whole contents marked
  | .choke | .have_ | .piece => False
  | .interested | .notInterested | .request | .cancel | .port => True

instance (contents : List Bytes) (s : Peer β φ) (type : MessageType) (data : List UInt8)
    (size : Nat) : Decidable (s.Seeds contents type data size) :=
  match type with
  | .unchoke => inferInstanceAs (Decidable (_ ∧ _))
  | .bitfield => inferInstanceAs (Decidable (∀ _ ∈ _, ∀ _ ∈ _, _))
  | .choke | .have_ | .piece => inferInstanceAs (Decidable False)
  | .interested | .notInterested | .request | .cancel | .port => inferInstanceAs (Decidable True)

omit [Files φ] in
/-- The bits of a seeder may come at any time. -/
theorem processBitfield_serves {data : List UInt8} {size : Nat}
    (seeds : s.Seeds contents .bitfield data size) :
    (s.Rests contents → (s.processBitfield data size).state.Rests contents) ∧
      (s.Asks contents → (s.processBitfield data size).state.Asks contents) ∧
      (s.processBitfield data size).state.left contents ≤ s.left contents + 1 := by
  unfold processBitfield
  cases read : bytesAt data baseMessageSize (sub64 size baseMessageSize) with
  | none => exact ⟨id, id, Nat.le_succ _⟩
  | some bits =>
    dsimp only
    cases bound : BitSet.bindData s.protocol.clientsPieces bits with
    | none => exact ⟨id, id, Nat.le_succ _⟩
    | some marked =>
      have interested : asks contents (interestedMessage.map some) = false := by
        rw [asks, reply_interested]
        rfl
      refine ⟨fun rests => ⟨rests.index, ?_⟩, ?_, ?_⟩
      · intro m mem
        rcases List.mem_append.1 mem with old | new
        · exact rests.idle m old
        · rw [List.mem_singleton.1 new]
          exact reply_interested contents
      · rintro ⟨-, i, content, received, remaining, asking⟩
        refine ⟨seeds bits read marked bound, i, content, received, remaining, asking.at_i,
          ⟨asking.downloading.index, asking.downloading.size, rfl, asking.downloading.assembled⟩,
          asking.asked, ?_, asking.unanswered⟩
        show ((s.protocol.messages ++ [interestedMessage.map some]).filter _).Perm _
        rw [List.filter_append, List.filter_singleton, interested, cond_false, List.append_nil]
        exact asking.queued
      · show (s.protocol.messages ++ [interestedMessage.map some]).length +
          pending (contents.drop s.shared.pieceList.nextPiece) ≤ s.left contents + 1
        rw [List.length_append, List.length_singleton, left]
        omega

theorem handlers_serves {type : MessageType} {data : List UInt8} {size : Nat} (sound : s.Sound)
    (list : s.shared.pieceList.InOrder contents) (state : s.Rests contents ∨ s.Asks contents)
    (seeds : s.Seeds contents type data size) :
    Serves contents s (handlers (.message type) data size s).state ∧
      (handlers (.message type) data size s).state.left contents ≤
        s.left contents + if type = .bitfield then 1 else 0 := by
  cases type with
  | unchoke =>
    obtain ⟨index, whole⟩ := seeds
    have rests : s.Rests contents := by
      apply state.resolve_right
      rintro ⟨-, i, _, _, _, asking⟩
      have held := asking.downloading.index
      omega
    obtain ⟨-, next⟩ := nextPiece_next whole list rests
    refine ⟨⟨next.list, next.state.elim Or.inr fun ended => Or.inl ended.1, ?_, ?_,
      Or.inr (next.state.imp_right And.right)⟩, Nat.le_of_eq next.left⟩
    · intro j contained
      apply (nextPiece_moves sound.list contained).of_iff
      refine iff_of_false ?_ id
      have := contained.1
      omega
    · intro before past
      show Writes contents before s.nextPiece.state.shared.writes s.nextPiece.state.shared.files
      rwa [nextPiece_writes, nextPiece_files]
  | bitfield =>
    obtain ⟨rests, asks, more⟩ := processBitfield_serves seeds
    exact ⟨serves_alone sound list (processBitfield_custody s data size) rests asks state, more⟩
  | choke | have_ | piece => exact absurd seeds id
  | interested | notInterested | request | cancel | port =>
    exact ⟨serves_alone sound list (.refl s) id id state, Nat.le_refl _⟩

omit [BitSet β] [Files φ] in
/-- Eight bytes of the handshake are never written, so it is no request. -/
theorem reply_handshake {infoHash random : Bytes} {hello : Message}
    (built : PeerProtocol.handshake infoHash random = some hello) :
    reply contents hello = none := by
  simp only [PeerProtocol.handshake, Option.bind_eq_some_iff] at built
  obtain ⟨first, h₁, second, h₂, third, h₃, h₄⟩ := built
  have reserved : hello[20]? = some none := by
    rw [memcpy_getElem? h₄, if_neg (by omega), memcpy_getElem? h₃, if_neg (by omega),
      memcpy_getElem? h₂, if_neg (by decide), memcpy_getElem? h₁, if_neg (by omega)]
    rfl
  have unwritten : hello.all (·.isSome) = false := by
    rw [List.all_eq_false]
    exact ⟨none, List.mem_of_getElem? reserved, Bool.false_ne_true⟩
  rw [reply, writtenBytes, unwritten]
  rfl

end Peer

/-! ## The swarm -/

/-- A step of the swarm, or the answer of a seeder to one of the messages that are queued
for it. -/
inductive Turn where
  | act (action : Action)
  | take (peer k : Nat)
  deriving DecidableEq, Repr

theorem sum_map_set {α : Type} {l : List α} {n : Nat} {a b : α} {f : α → Nat}
    (at_n : l[n]? = some a) : ((l.set n b).map f).sum + f a = (l.map f).sum + f b := by
  induction l generalizing n with
  | nil => cases at_n
  | cons c l ih =>
    cases n with
    | zero =>
      cases at_n
      simp only [List.set_cons_zero, List.map_cons, List.sum_cons]
      omega
    | succ n =>
      have rest := ih (n := n) at_n
      simp only [List.set_cons_succ, List.map_cons, List.sum_cons]
      omega

/-- Whatever pieces were written, the files take each piece. -/
def Accepts [Files φ] (contents : List Bytes) (before : φ) : Prop :=
  ∀ calls files, Writes contents before calls files → ∀ (i : Nat) content,
    contents[i]? = some content → ∃ files',
      Files.writePiece files i (some (content.map some)) content.length = .done () files'

namespace Swarm

/-- The messages that are queued for a peer. -/
def queued (peer : Option (PeerProtocol β)) : Nat := peer.elim 0 (·.messages.length)

/-- The messages that are queued, and the requests that are not made yet. -/
def left (contents : List Bytes) (w : Swarm β φ) : Nat :=
  (w.peers.map queued).sum + pending (contents.drop w.shared.pieceList.nextPiece)

variable [BitSet β] [Files φ] {contents : List Bytes} {before : φ} {w w' : Swarm β φ} {peer : Nat}
  {s t : Peer β φ}

def turn (contents : List Bytes) (w : Swarm β φ) : Turn → Option (Swarm β φ)
  | .act action => w.step action
  | .take peer k => (w.view peer).bind fun s => (s.exchange contents k).map (w.put peer)

/-- Every peer is a seeder, and none goes away while the client holds a piece for it. -/
def Seeds (contents : List Bytes) (w : Swarm β φ) : Turn → Prop
  | .act (.connect _ _) => True
  | .act (.destroy peer) => ∀ p ∈ w.peer? peer, p.pieceIndex = -1
  | .act (.message peer type data size) => ∀ s ∈ w.view peer, s.Seeds contents type data size
  | .take _ _ => True

instance (contents : List Bytes) (w : Swarm β φ) (a : Turn) : Decidable (w.Seeds contents a) :=
  match a with
  | .act (.connect _ _) | .take _ _ => inferInstanceAs (Decidable True)
  | .act (.destroy _) | .act (.message _ _ _ _) => inferInstanceAs (Decidable (∀ _ ∈ _, _))

omit [BitSet β] [Files φ] in
theorem put_left (contents : List Bytes) (hs : w.view peer = some s) (t : Peer β φ) :
    (w.put peer t).left contents + s.left contents = w.left contents + t.left contents := by
  obtain ⟨hp, shared⟩ := view_eq_some.1 hs
  have moved := sum_map_set (b := some t.protocol) (f := queued) (peer?_eq_some.1 hp)
  have same : (w.put peer t).left contents =
      ((w.peers.set peer (some t.protocol)).map queued).sum +
        pending (contents.drop t.shared.pieceList.nextPiece) := rfl
  simp only [queued, Option.elim_some] at moved
  rw [same, left, Peer.left, Peer.left, shared]
  omega

/-- What holds of a swarm of seeders: as soon as a peer was asked, one is asked still, or no
piece is left to ask for. -/
structure Served (contents : List Bytes) (before : φ) (w : Swarm β φ) : Prop where
  sound : w.Sound
  list : w.shared.pieceList.InOrder contents
  places : ∀ j, w.shared.pieceList.Contains j → w.places j = 1
  peers : ∀ peer s, w.view peer = some s → s.Rests contents ∨ s.Asks contents
  busy : w.shared.calls = [] ∨ (∃ peer s, w.view peer = some s ∧ s.Asks contents) ∨
    w.shared.pieceList.maxPieceNum < w.shared.pieceList.nextPiece
  writes : Writes contents before w.shared.writes w.shared.files

omit [Files φ] in
theorem asks_elsewhere {sh : Shared φ} (asks : s.Asks contents) :
    (⟨s.protocol, sh⟩ : Peer β φ).Asks contents := by
  obtain ⟨whole, i, content, received, remaining, asking⟩ := asks
  exact ⟨whole, i, content, received, remaining, asking.at_i,
    ⟨asking.downloading.index, asking.downloading.size, rfl, asking.downloading.assembled⟩,
    asking.asked, asking.queued, asking.unanswered⟩

/-- One peer takes a step. -/
theorem Served.put (h : w.Served contents before) (hs : w.view peer = some s)
    (serves : s.Serves contents t) : (w.put peer t).Served contents before := by
  obtain ⟨hp, shared⟩ := view_eq_some.1 hs
  have first : s.shared.pieceList.Contains 0 := ⟨Int.le_refl 0, Int.natCast_nonneg _⟩
  have max := (serves.moves 0 first).max
  refine ⟨put_sound h.sound hs (serves.moves 0 first).sound max, serves.list, ?_, ?_, ?_, ?_⟩
  · intro j contained
    have there : s.shared.pieceList.Contains j := ⟨contained.1, max ▸ contained.2⟩
    have moved := (serves.moves j there).places
    have put := put_places (t := j) hs t
    rw [if_neg id] at moved
    have one := h.places j (shared ▸ there)
    omega
  · intro other r hr
    rcases view_put hr with ⟨-, rfl⟩ | ⟨p, old, rfl⟩
    · exact serves.state
    · exact (h.peers other _ old).imp (fun rests => ⟨rests.index, rests.idle⟩) asks_elsewhere
  · rcases serves.busy with ⟨idle, same⟩ | asks | past
    · refine h.busy.imp ?_ (Or.imp ?_ ?_)
      · intro fresh
        show t.shared.calls = []
        rw [same, shared, fresh]
      · rintro ⟨other, r, live, asks⟩
        obtain ⟨hr, _⟩ := view_eq_some.1 live
        have apart : peer ≠ other := by
          rintro rfl
          cases hs.symm.trans live
          exact idle asks
        refine ⟨other, ⟨r.protocol, t.shared⟩, view_eq_some.2 ⟨?_, rfl⟩, asks_elsewhere asks⟩
        rw [peer?_eq_some] at hr ⊢
        show (w.peers.set peer _)[other]? = _
        rw [List.getElem?_set_ne apart, hr]
      · intro past
        show t.shared.pieceList.maxPieceNum < t.shared.pieceList.nextPiece
        rwa [same, shared]
    · exact Or.inr (Or.inl ⟨peer, t, view_put_self hs t, asks⟩)
    · exact Or.inr (Or.inr past)
  · exact serves.writes before (shared ▸ h.writes)

omit [Files φ] in
theorem new_rests (contents : List Bytes) {infoHash random : Bytes} {pl : PieceList}
    (made : PeerProtocol.new infoHash random pl = .done () s.protocol) :
    s.Rests contents ∧ s.protocol.messages.length = 1 := by
  obtain ⟨-, hello, built, messages⟩ := new_told made
  rw [messages]
  refine ⟨⟨(new_done made).1, ?_⟩, rfl⟩
  rw [messages]
  intro m mem
  rw [List.mem_singleton.1 mem]
  exact Peer.reply_handshake built

/-- The messages that the client queues for a peer without being let to ask. -/
def greetings : Action → Nat
  | .connect _ _ | .message _ .bitfield _ _ => 1
  | .destroy _ | .message _ _ _ _ => 0

/-- **What one step of a swarm of seeders keeps.** -/
theorem Served.act (h : w.Served contents before) {a : Action} (seeds : w.Seeds contents (.act a))
    (stepped : w.step a = some w') :
    w'.Served contents before ∧ w'.left contents ≤ w.left contents + greetings a := by
  have keeps : w.KeepsPieces a → ∀ j, w.shared.pieceList.Contains j → w'.places j = 1 := by
    intro keeps j contained
    have moved := (step_places h.sound contained stepped).2.2
    rw [if_neg, h.places j contained] at moved
    · exact moved
    · intro abandoned
      have none := keeps j abandoned
      have := contained.1
      omega
  have sound := (step_sound h.sound stepped).1
  rcases step_cases stepped with ⟨infoHash, random, p, rfl, made, rfl⟩ | ⟨other, p, rfl, hp, rfl⟩ |
    ⟨other, type, data, size, s, rfl, -, hs, safe, rfl⟩
  · obtain ⟨rests, length⟩ := new_rests (s := ⟨p, w.shared⟩) contents made
    refine ⟨⟨sound, h.list, ?_, ?_, ?_, h.writes⟩, ?_⟩
    · apply keeps
      rintro z ⟨⟩
    · intro peer r hr
      rcases view_connect hr with old | ⟨_, rfl⟩
      · exact h.peers peer r old
      · exact Or.inl ⟨rests.index, rests.idle⟩
    · refine h.busy.imp_right (Or.imp_left ?_)
      rintro ⟨peer, r, live, asks⟩
      obtain ⟨hr, -⟩ := view_eq_some.1 live
      obtain ⟨below, -⟩ := List.getElem?_eq_some_iff.1 (peer?_eq_some.1 hr)
      exact ⟨peer, r, view_of_getElem? live (List.getElem?_append_left below), asks⟩
    · have one : queued (some p) = 1 := length
      rw [left, left]
      simp only [List.map_append, List.map_cons, List.map_nil, List.sum_append, List.sum_singleton,
        one, greetings]
      omega
  · refine ⟨⟨sound, h.list, ?_, ?_, ?_, h.writes⟩, ?_⟩
    · apply keeps
      intro z abandoned
      obtain ⟨q, hq, rfl⟩ := Option.map_eq_some_iff.1 abandoned
      exact seeds q hq
    · exact fun peer r hr => h.peers peer r (view_destroy hr)
    · refine h.busy.imp_right (Or.imp_left ?_)
      rintro ⟨peer, r, live, asks⟩
      have apart : other ≠ peer := by
        rintro rfl
        cases hp.symm.trans (view_eq_some.1 live).1
        obtain ⟨-, i, _, _, _, asking⟩ := asks
        have none := seeds _ hp
        have held := asking.downloading.index
        omega
      exact ⟨peer, r, view_of_getElem? live (List.getElem?_set_ne apart), asks⟩
    · have moved := sum_map_set (b := none) (f := queued) (peer?_eq_some.1 hp)
      have same : left contents { w with peers := w.peers.set other none } =
          ((w.peers.set other none).map queued).sum +
            pending (contents.drop w.shared.pieceList.nextPiece) := rfl
      rw [same, left]
      simp only [queued, Option.elim_none, greetings] at moved ⊢
      omega
  · have shared := (view_eq_some.1 hs).2
    obtain ⟨serves, more⟩ := Peer.handlers_serves (h.sound.view hs) (shared ▸ h.list)
      (h.peers other s hs) (seeds s hs)
    refine ⟨h.put hs serves, ?_⟩
    have moved := put_left contents hs
      (Peer.handlers (.message type) data size s).state
    have count : greetings (.message other type data size) = if type = .bitfield then 1 else 0 := by
      cases type <;> rfl
    omega

/-- Whatever message is taken, one less is to come. -/
theorem Served.take (h : w.Served contents before) (accepts : Accepts contents before)
    (hs : w.view peer = some s) {k : Nat} (below : k < s.protocol.messages.length) :
    ∃ w', w.turn contents (.take peer k) = some w' ∧ w'.Served contents before ∧
      w'.left contents + 1 = w.left contents := by
  have shared := (view_eq_some.1 hs).2
  obtain ⟨t, exchanged, serves, less⟩ := Peer.exchange_serves (h.sound.view hs) (shared ▸ h.list)
    (h.peers peer s hs) (shared ▸ accepts _ _ h.writes) below
  refine ⟨w.put peer t, ?_, h.put hs serves, ?_⟩
  · rw [turn, hs, Option.bind_some, exchanged]
    rfl
  · have moved := put_left contents hs t
    omega

theorem Served.turn (h : w.Served contents before) (accepts : Accepts contents before) {a : Turn}
    (seeds : w.Seeds contents a) (turned : w.turn contents a = some w') :
    w'.Served contents before := by
  cases a with
  | act a => exact (h.act seeds turned).1
  | take peer k =>
    obtain ⟨s, hs, later⟩ := Option.bind_eq_some_iff.1 turned
    obtain ⟨t, exchanged, -⟩ := Option.map_eq_some_iff.1 later
    have below : k < s.protocol.messages.length := by
      by_contra past
      rw [Peer.exchange, List.getElem?_eq_none (by omega)] at exchanged
      cases exchanged
    obtain ⟨r, turned', served, -⟩ := h.take accepts hs below
    cases turned.symm.trans turned'
    exact served

theorem Begins.served (h : Begins contents before w) : w.Served contents before := by
  obtain ⟨tf, some, lists, rfl⟩ := h
  obtain ⟨sound, places⟩ := start_places (w := (initial tf before : Swarm β φ))
    ⟨tf, before, some, rfl⟩
  refine ⟨sound, ⟨sound.list, lists, ?_, ?_⟩, places, ?_, Or.inl rfl, .nil⟩
  · exact fun z mem => absurd mem List.not_mem_nil
  · exact fun returned => absurd rfl returned
  · intro peer s live
    exact absurd (view_eq_some.1 live).1 (by simp [peer?, initial])

theorem reach_served (accepts : Accepts contents before)
    (h : Reach (Begins contents before) (turn contents) (Seeds contents) w) :
    w.Served contents before :=
  Reach.invariant (fun _ begun => begun.served)
    (fun _ _ _ kept seeds turned => kept.turn accepts seeds turned) h

end Swarm

/-! ## The end of the torrent -/

theorem mem_writesOf {contents : List Bytes} {call : Call} :
    call ∈ writesOf contents ↔ ∃ (i : Nat) (content : Bytes), contents[i]? = some content ∧
      call = .writePiece i (some (content.map some)) content.length true := by
  rw [writesOf, List.mem_map]
  constructor
  · rintro ⟨⟨content, i⟩, mem, rfl⟩
    exact ⟨i, content, List.mem_zipIdx_iff_getElem?.1 mem, rfl⟩
  · rintro ⟨i, content, at_i, rfl⟩
    exact ⟨(content, i), List.mem_zipIdx_iff_getElem?.2 at_i, rfl⟩

theorem writesOf_nodup (contents : List Bytes) : (writesOf contents).Nodup := by
  have numbers : (contents.zipIdx.map Prod.snd).Nodup := by
    rw [List.zipIdx_map_snd]
    exact List.nodup_range'
  apply List.Nodup.map_on ?_ (List.Nodup.of_map _ numbers)
  rintro ⟨content, i⟩ mem ⟨content', i'⟩ mem' same
  obtain ⟨rfl, -⟩ := Call.writePiece.inj same
  have at_i : contents[i]? = some content := List.mem_zipIdx_iff_getElem?.1 mem
  have at_i' : contents[i]? = some content' := List.mem_zipIdx_iff_getElem?.1 mem'
  cases at_i.symm.trans at_i'
  rfl

/-- Files that accept the pieces are only written whole pieces, and no write fails. -/
theorem Writes.accepted [Files φ] {contents : List Bytes} {before files : φ} {calls : List Call}
    (h : Writes contents before calls files) (accepts : Accepts contents before) :
    calls ⊆ writesOf contents := by
  induction h with
  | nil => exact List.nil_subset _
  | returned _ at_i _ ih =>
    exact List.append_subset.2 ⟨ih, List.cons_subset.2
      ⟨mem_writesOf.2 ⟨_, _, at_i, rfl⟩, List.nil_subset _⟩⟩
  | threw past at_i threw =>
    obtain ⟨files', wrote⟩ := accepts _ _ past _ _ at_i
    cases threw.symm.trans wrote

namespace Swarm

variable [BitSet β] [Files φ] {contents : List Bytes} {before : φ} {w : Swarm β φ}

/-- No piece is written twice. -/
theorem Served.writes_nodup (h : w.Served contents before) (accepts : Accepts contents before) :
    w.shared.writes.Nodup := by
  rw [List.nodup_iff_count_le_one]
  intro call
  by_cases mem : call ∈ w.shared.writes
  · obtain ⟨i, content, at_i, rfl⟩ := mem_writesOf.1 (h.writes.accepted accepts mem)
    obtain ⟨below, -⟩ := List.getElem?_eq_some_iff.1 at_i
    have count := h.list.lists.count
    have one := h.places i ⟨Int.natCast_nonneg i, by omega⟩
    have most : List.count (.writePiece i (some (content.map some)) content.length true)
        w.shared.writes ≤ w.shared.completed i := by
      rw [Shared.completed_writes]
      apply List.countP_mono_left
      intro other _ same
      rw [eq_of_beq same]
      simp [Call.completes]
    rw [Swarm.places, Shared.places] at one
    omega
  · rw [List.count_eq_zero.2 mem]
    exact Nat.zero_le 1

/-- With nothing asked for any more, all pieces are written. -/
theorem Served.all_written (h : w.Served contents before) (accepts : Accepts contents before)
    (called : w.shared.calls ≠ [])
    (idle : ∀ peer s, w.view peer = some s → ∀ m ∈ s.protocol.messages, reply contents m = none) :
    w.shared.writes.Perm (writesOf contents) := by
  have rests (peer : Nat) (s : Peer β φ) (live : w.view peer = some s) : ¬ s.Asks contents := by
    rintro ⟨-, i, content, received, remaining, asking⟩
    apply asking.unanswered
    have none : s.protocol.messages.filter (asks contents) = [] := by
      rw [List.filter_eq_nil_iff]
      intro m mem
      rw [asks, idle peer s live m mem]
      exact Bool.false_ne_true
    have queued := asking.queued
    rw [none] at queued
    exact List.map_eq_nil_iff.1 queued.symm.eq_nil
  have past : w.shared.pieceList.maxPieceNum < w.shared.pieceList.nextPiece := by
    rcases h.busy with fresh | ⟨peer, s, live, asks⟩ | past
    · exact absurd fresh called
    · exact absurd asks (rests peer s live)
    · exact past
  rw [List.perm_ext_iff_of_nodup (h.writes_nodup accepts) (writesOf_nodup contents)]
  intro call
  refine ⟨fun mem => h.writes.accepted accepts mem, fun mem => ?_⟩
  obtain ⟨i, content, at_i, rfl⟩ := mem_writesOf.1 mem
  obtain ⟨below, -⟩ := List.getElem?_eq_some_iff.1 at_i
  have count := h.list.lists.count
  have contained : w.shared.pieceList.Contains i := ⟨Int.natCast_nonneg i, by omega⟩
  have one := h.places i contained
  -- the piece is in no other place than among the completed ones
  have unheld : w.holders i = 0 := by
    by_contra held
    obtain ⟨peer, p, hp, index⟩ := holders_pos.1 (Nat.pos_of_ne_zero held)
    have live : w.view peer = some ⟨p, w.shared⟩ := view_eq_some.2 ⟨hp, rfl⟩
    have none := ((h.peers peer _ live).resolve_right (rests peer _ live)).index
    have none : p.pieceIndex = -1 := none
    omega
  have unqueued : w.shared.pieceList.queued i = 0 := by
    rw [PieceList.queued, List.count_eq_zero]
    intro there
    have marker := h.list.queue i there
    omega
  have issued : w.shared.pieceList.unissued i = 0 := by
    rw [PieceList.unissued, if_neg (by omega)]
  rw [Swarm.places, unheld, Shared.places, unqueued, issued, Shared.completed_writes] at one
  have some : 0 < w.shared.writes.countP (·.completes i) := by omega
  obtain ⟨call, there, completes⟩ := List.countP_pos_iff.1 some
  obtain ⟨j, content', at_j, rfl⟩ := mem_writesOf.1 (h.writes.accepted accepts there)
  have same : (j : Int) = i := by simpa [Call.completes] using completes
  obtain rfl : j = i := by omega
  cases at_i.symm.trans at_j
  exact there

/-- **A swarm of seeders comes to the end of the torrent**, in whatever order the peers connect,
unchoke and answer. Every message that is queued can be taken, and each leaves one less to come;
only a connection and a BITFIELD add one. No piece is written twice, and with nothing asked for
any more every piece is written, with its content. -/
theorem seeders_complete (accepts : Accepts contents before)
    (run : Reach (Begins contents before) (turn contents) (Seeds contents) w) :
    (∀ peer s, w.view peer = some s → ∀ k < s.protocol.messages.length,
      ∃ w', w.turn contents (.take peer k) = some w' ∧
        w'.left contents + 1 = w.left contents) ∧
    (∀ a w', w.Seeds contents (.act a) → w.turn contents (.act a) = some w' →
      w'.left contents ≤ w.left contents + greetings a) ∧
    w.shared.writes.Subperm (writesOf contents) ∧
    (w.shared.calls ≠ [] →
      (∀ peer s, w.view peer = some s → ∀ m ∈ s.protocol.messages, reply contents m = none) →
      w.shared.writes.Perm (writesOf contents)) := by
  have served := reach_served accepts run
  refine ⟨?_, fun a w' seeds stepped => (served.act seeds stepped).2, ?_,
    served.all_written accepts⟩
  · intro peer s live k below
    obtain ⟨w', taken, -, less⟩ := served.take accepts live below
    exact ⟨w', taken, less⟩
  · exact List.subperm_of_subset (served.writes_nodup accepts) (served.writes.accepted accepts)

omit [BitSet β] [Files φ] in
theorem accepts_nil : Accepts contents ([] : List Bool) := by
  intro calls files h i content _
  have none : files = [] := by
    induction h with
    | nil => rfl
    | returned _ _ wrote ih =>
      subst ih
      cases wrote
      rfl
    | threw _ _ threw ih =>
      subst ih
      cases threw
  subst none
  exact ⟨[], rfl⟩

/-- Two seeders are asked for a piece each, and the second one to be asked answers first. -/
def twoSeeders : List Turn :=
  let heard (peer : Nat) (type : MessageType) (body : Bytes) : Turn :=
    let frame := baseMessage (1 + body.length) type ++ body
    .act (.message peer type frame frame.length)
  [.act (.connect [] (List.replicate 20 0)), heard 0 .bitfield [0xc0],
    .act (.connect [] (List.replicate 20 1)), heard 1 .bitfield [0xc0], heard 1 .unchoke [],
    heard 0 .unchoke [], .take 0 2, .take 1 2]

omit [BitSet β] [Files φ] in
/-- Nothing is asked of the peers, if nothing is asked of those that are there. -/
theorem idle_of_peers (idle : ∀ peer ∈ w.peers, ∀ p ∈ peer, ∀ m ∈ p.messages,
      reply contents m = none) (peer : Nat) (s : Peer β φ) (live : w.view peer = some s) :
    ∀ m ∈ s.protocol.messages, reply contents m = none :=
  idle _ (List.mem_of_getElem? (peer?_eq_some.1 (view_eq_some.1 live).1)) _ rfl

theorem seeders_complete_two :
    ∃ w : Swarm (List Bool) (List Bool),
      replay (turn [[7], [8]]) (Seeds [[7], [8]]) (initial twoPieces []) twoSeeders = some w ∧
      w.shared.writes.Perm (writesOf [[7], [8]]) := by
  have enabled : (replay (turn [[7], [8]]) (Seeds [[7], [8]])
      (initial twoPieces [] : Swarm (List Bool) (List Bool)) twoSeeders).any (fun w =>
        w.shared.calls ≠ [] ∧ ∀ peer ∈ w.peers, ∀ p ∈ (peer : Option (PeerProtocol (List Bool))),
          ∀ m ∈ p.messages, reply [[7], [8]] m = none) := by decide +kernel
  obtain ⟨w, run, ended⟩ := (Option.any_eq_true _ _).1 enabled
  obtain ⟨called, idle⟩ := of_decide_eq_true ended
  have every := seeders_complete accepts_nil (Reach.replay (.start (begins_twoPieces [])) run)
  exact ⟨w, run, every.2.2.2 called (idle_of_peers idle)⟩

end Swarm

end TorrentClient
