import TorrentClient.Assembly
import TorrentClient.Ownership
import TorrentClient.Requests
import Mathlib.Data.List.Induction

/-!
# Downloading a piece

A peer that was assigned a piece asks for its blocks. Whatever the order in which
they arrive, and however often, the piece is handed to the files by the message
that brings the last of them.
-/

namespace TorrentClient

variable {β φ : Type}

/-- The PIECE message that answers a request, and the memory behind it. -/
structure Answer where
  request : Request
  behind : List UInt8

namespace Answer

def frame (i : Nat) (content : Bytes) (a : Answer) : Bytes :=
  pieceMessage i a.request.offset (a.request.bytes content)

/-- The call of `add` it leads to. -/
def call (content : Bytes) (a : Answer) : Piece.Call :=
  ⟨a.request.bytes content ++ a.behind, a.request.length, a.request.offset⟩

variable {i : Nat} {content : Bytes} {a : Answer}

theorem bytes_length (h : a.request ∈ requests content.length) :
    (a.request.bytes content).length = a.request.length := by
  have within := (requests_within h).2.2
  rw [Request.bytes, List.length_take, List.length_drop]
  omega

theorem frame_length (h : a.request ∈ requests content.length) :
    (a.frame i content).length = baseMessageSize + 8 + a.request.length := by
  rw [frame, pieceMessage_length, bytes_length h]
  rfl

theorem frame_index (hi : i < 2 ^ 32) (behind : List UInt8) :
    ntohlAt (a.frame i content ++ behind) baseMessageSize = some i := by
  have read := ntohlAt_append (baseMessage (9 + (a.request.bytes content).length) .piece) hi
    (htonl a.request.offset ++ a.request.bytes content ++ behind)
  simp only [frame, pieceMessage, List.append_assoc] at read ⊢
  exact read

theorem frame_offset (ho : a.request.offset < 2 ^ 32) (behind : List UInt8) :
    ntohlAt (a.frame i content ++ behind) (baseMessageSize + 4) = some a.request.offset := by
  have read := ntohlAt_append
    (baseMessage (9 + (a.request.bytes content).length) .piece ++ htonl i) ho
    (a.request.bytes content ++ behind)
  simp only [frame, pieceMessage, List.append_assoc] at read ⊢
  exact read

theorem frame_payload (behind : List UInt8) :
    (a.frame i content ++ behind).drop (baseMessageSize + 8) =
      a.request.bytes content ++ behind := by
  rw [frame, pieceMessage, List.append_assoc]
  exact List.drop_left' rfl

end Answer

/-- Each of the answers is one to a request that was made. -/
def Requested (size : Nat) (answers : List Answer) : Prop :=
  ∀ a ∈ answers, a.request ∈ requests size

theorem Requested.earlier {size : Nat} {answers : List Answer} {a : Answer}
    (h : Requested size (answers ++ [a])) : Requested size answers :=
  fun b hb => h b (List.mem_append_left _ hb)

theorem Requested.last {size : Nat} {answers : List Answer} {a : Answer}
    (h : Requested size (answers ++ [a])) : a.request ∈ requests size :=
  h a (List.mem_append_right _ List.mem_cons_self)

/-- Every request has been answered. -/
def Answered (size : Nat) (answers : List Answer) : Prop :=
  ∀ r ∈ requests size, ∃ a ∈ answers, a.request = r

theorem Answered.mono {size : Nat} {answers : List Answer} (h : Answered size answers)
    (a : Answer) : Answered size (answers ++ [a]) := by
  intro r hr
  obtain ⟨b, hb, eq⟩ := h r hr
  exact ⟨b, List.mem_append_left _ hb, eq⟩

/-- The fields of the messages have room for the index and for every offset. -/
structure InFields (i : Nat) (content : Bytes) : Prop where
  index : i < 2 ^ 32
  nonempty : 0 < content.length
  length : content.length ≤ 2 ^ 32

theorem InFields.toUInt64 {i : Nat} {content : Bytes} (room : InFields i content) :
    TorrentClient.toUInt64 i = i := by
  have := room.index
  rw [toUInt64_of_nonneg (by omega) (by omega)]
  rfl

section
variable {content : Bytes} {received : List Answer}

/-- The byte every answer supplies for a position it covers is that of the content. -/
theorem supplied_eq (asked : Requested content.length received) {x : Nat}
    (covered : ∃ a ∈ received, a.request.Covers x) :
    Piece.Call.supplied (received.map (Answer.call content)) x = content[x]? := by
  have found : (received.map (Answer.call content)).find? (·.Covers x) ≠ none := by
    obtain ⟨a, ha, covers⟩ := covered
    intro none
    have missed := List.find?_eq_none.1 none (a.call content) (List.mem_map_of_mem ha)
    exact missed (decide_eq_true covers)
  obtain ⟨call, hcall⟩ := Option.ne_none_iff_exists'.1 found
  obtain ⟨a, ha, rfl⟩ := List.mem_map.1 (List.mem_of_find?_eq_some hcall)
  have found := List.find?_some hcall
  have covers : (a.call content).Covers x := of_decide_eq_true found
  obtain ⟨lo, hi⟩ : a.request.Covers x := covers
  have length := Answer.bytes_length (asked a ha)
  have position : a.request.offset + (x - a.request.offset) = x := by omega
  rw [Piece.Call.supplied, hcall, Option.bind_some]
  change (a.request.bytes content ++ a.behind)[x - a.request.offset]? = content[x]?
  rw [List.getElem?_append_left (by omega), Request.bytes, List.getElem?_take_of_lt (by omega),
    List.getElem?_drop, position]

theorem Answer.offset_lt {i : Nat} {a : Answer} (hr : a.request ∈ requests content.length)
    (room : InFields i content) : a.request.offset < 2 ^ 32 := by
  obtain ⟨nonempty, _, within⟩ := requests_within hr
  have limit := room.length
  omega

theorem Peer.addBlock_answer {s : Peer β φ} {i : Nat} {a : Answer} (room : InFields i content)
    (hr : a.request ∈ requests content.length) (held : s.protocol.pieceIndex = i) :
    s.addBlock (a.frame i content ++ a.behind) (a.frame i content).length =
      ((s.protocol.piece.add i (a.call content).source (a.call content).size
        (a.call content).offset).lift
        fun piece => { s with protocol := { s.protocol with piece := piece } }).map
        fun _ => true := by
  have within := requests_within hr
  have limit := room.length
  have length := Answer.frame_length (i := i) hr
  have short : (a.frame i content).length < 2 ^ 64 := by
    simp only [baseMessageSize] at length
    omega
  have index : ntohlAt (a.frame i content ++ a.behind) baseMessageSize = some i :=
    Answer.frame_index room.index a.behind
  have offset : ntohlAt (a.frame i content ++ a.behind) (baseMessageSize + 4) =
      some a.request.offset := Answer.frame_offset (Answer.offset_lt hr room) a.behind
  have called := addBlock_held index held.symm offset (by omega) short
  rwa [Answer.frame_payload, length, Nat.add_sub_cancel_left, ← length] at called

end

/-- What holds once the answers `received` have come in, and not all have. -/
structure Downloading (i : Nat) (content : Bytes) (sh : Shared φ) (received : List Answer)
    (s : Peer β φ) : Prop where
  index : s.protocol.pieceIndex = i
  size : s.protocol.pieceSize = content.length
  shared : s.shared = sh
  assembled :
    Piece.Assembled i content.length s.protocol.piece (received.map (Answer.call content))

namespace Downloading

variable {i : Nat} {content : Bytes} {sh : Shared φ} {received : List Answer} {s : Peer β φ}

theorem covered_iff (d : Downloading i content sh received s) {x : Nat} :
    x ∈ s.protocol.piece.blocks.covered ↔ ∃ a ∈ received, a.request.Covers x := by
  rw [d.assembled.covered]
  constructor
  · rintro ⟨_, mem, covers⟩
    obtain ⟨a, ha, rfl⟩ := List.mem_map.1 mem
    exact ⟨a, ha, covers⟩
  · rintro ⟨a, ha, covers⟩
    exact ⟨a.call content, List.mem_map_of_mem ha, covers⟩

theorem full_iff (d : Downloading i content sh received s) (room : InFields i content)
    (asked : Requested content.length received) :
    s.protocol.piece.full = true ↔ Answered content.length received := by
  rw [d.assembled.full_iff room.nonempty]
  constructor
  · intro whole r hr
    obtain ⟨nonempty, _, within⟩ := requests_within hr
    have start : r.offset ∈ s.protocol.piece.blocks.covered :=
      whole ▸ ⟨Nat.zero_le _, by omega⟩
    obtain ⟨a, ha, covers⟩ := d.covered_iff.1 start
    exact ⟨a, ha, requests_disjoint (asked a ha) hr covers ⟨Nat.le_refl _, by omega⟩⟩
  · intro answered
    ext x
    rw [d.covered_iff]
    constructor
    · rintro ⟨a, ha, lo, hi⟩
      have within := (requests_within (asked a ha)).2.2
      exact ⟨Nat.zero_le _, by omega⟩
    · rintro ⟨_, inside⟩
      obtain ⟨r, hr, covers⟩ := requests_cover inside
      obtain ⟨a, ha, rfl⟩ := answered r hr
      exact ⟨a, ha, covers⟩

theorem data_eq (d : Downloading i content sh received s)
    (asked : Requested content.length received) (answered : Answered content.length received) :
    s.protocol.piece.data = some (content.map some) := by
  obtain ⟨buf, hd, length, cells⟩ := d.assembled.data
  have same : buf = content.map some := by
    apply List.ext_getElem?
    intro x
    by_cases inside : x < content.length
    · obtain ⟨r, hr, covers⟩ := requests_cover inside
      obtain ⟨a, ha, rfl⟩ := answered r hr
      rw [cells x inside, supplied_eq asked ⟨a, ha, covers⟩, List.getElem?_map,
        List.getElem?_eq_getElem inside]
      rfl
    · rw [List.getElem?_eq_none (by omega), List.getElem?_eq_none (by simpa using inside)]
  rw [hd, same]

/-- A block that was asked for is added, also when it was added before. -/
theorem addBlock {a : Answer} (d : Downloading i content sh received s)
    (room : InFields i content) (asked : Requested content.length (received ++ [a])) :
    ∃ t, s.addBlock (a.frame i content ++ a.behind) (a.frame i content).length = .done true t ∧
      Downloading i content sh (received ++ [a]) t := by
  have hr := asked.last
  have inRange : (a.call content).InRange content.length := by
    refine ⟨?_, (requests_within hr).2.2⟩
    change a.request.length ≤ (a.request.bytes content ++ a.behind).length
    rw [List.length_append, Answer.bytes_length hr]
    exact Nat.le_add_right _ _
  rcases d.assembled.add (Nat.lt_of_le_of_lt room.length (by decide)) inRange with
    ⟨piece, hadd, assembled⟩ | ⟨_, q, hq, swallows⟩
  · refine ⟨{ s with protocol := { s.protocol with piece := piece } }, ?_, d.index, d.size,
      d.shared, ?_⟩
    · rw [Peer.addBlock_answer room hr d.index, hadd]
      rfl
    · rw [List.map_append]
      exact assembled
  · apply absurd (d.assembled.not_swallows ?_ ?_ q hq) (Nat.not_le.2 swallows)
    · intro call hcall
      obtain ⟨b, hb, rfl⟩ := List.mem_map.1 hcall
      exact (requests_within (asked.earlier b hb)).1
    · intro call hcall x covers covers' y
      obtain ⟨b, hb, rfl⟩ := List.mem_map.1 hcall
      have same : b.request = a.request :=
        requests_disjoint (asked.earlier b hb) hr covers covers'
      change a.request.Covers y → b.request.Covers y
      rw [same]
      exact id

end Downloading

/-! ## The writes of a peer -/

def Call.isWrite : Call → Bool
  | .writePiece _ _ _ _ => true
  | .getPiece _ _ | .returnPiece _ => false

def Shared.writes (sh : Shared φ) : List Call := sh.calls.filter (·.isWrite)

namespace PieceList

/-- The index is handed out and will not be handed out again. -/
structure Spent (pl : PieceList) (t : Int) : Prop where
  sound : pl.Sound
  contained : pl.Contains t
  queued : pl.queued t = 0
  unissued : pl.unissued t = 0

end PieceList

namespace Peer

variable [BitSet β] {s : Peer β φ} {t : Int}

theorem nextPiece_writes (s : Peer β φ) : s.nextPiece.state.shared.writes = s.shared.writes := by
  rw [(nextPiece_custody s).shared]
  refine attempt_rule (P := fun r => r.shared.writes = s.shared.writes)
    (Q := fun r => r.shared.writes = s.shared.writes) ?_ (fun _ => id) ?_ 19 s rfl
  · intro r same
    rw [← same, Shared.writes, getPiece_calls, List.filter_append]
    exact List.append_nil _
  · intro r same
    have kept : r.returnPiece.shared.writes = s.shared.writes := by
      rw [← same, Shared.writes, returnPiece_calls, List.filter_append]
      exact List.append_nil _
    exact ⟨kept, kept⟩

/-- A peer is not assigned an index that is spent. -/
theorem nextPiece_spent (h : s.shared.pieceList.Spent t) :
    s.nextPiece.state.protocol.pieceIndex ≠ t := by
  rw [(nextPiece_custody s).pieceIndex]
  refine attempt_rule (P := fun r => r.shared.pieceList.Spent t)
    (Q := fun r => r.Sound ∧ r.shared.pieceList.Spent t ∧ r.protocol.pieceIndex ≠ t)
    ?_ (fun r got => got.2.2) ?_ 19 s h
  · intro r spent
    have moved := PieceList.getPiece_count spent.sound spent.contained
    have sound := getPiece_sound spent.sound
    rw [spent.queued, spent.unissued] at moved
    have queued : r.shared.pieceList.getPiece.2.2.queued t = 0 := by omega
    have unissued : r.shared.pieceList.getPiece.2.2.unissued t = 0 := by omega
    refine ⟨sound, ⟨sound.list, ?_, queued, unissued⟩, ?_⟩
    · have max := (PieceList.getPiece_sound spent.sound).2.1
      exact ⟨spent.contained.1, max ▸ spent.contained.2⟩
    · intro same
      rw [getPiece_pieceIndex] at same
      rw [if_pos same] at moved
      omega
  · rintro r ⟨sound, spent, other⟩
    have moved := PieceList.returnPiece_count spent.sound sound.index t
    rw [if_neg other, spent.queued] at moved
    have back := PieceList.returnPiece_sound spent.sound sound.index
    refine ⟨⟨back, spent.contained, moved, spent.unissued⟩, ?_⟩
    rw [returnPiece_pieceIndex]
    have := spent.contained.1
    omega

/-- A piece that was assigned is requested, and nothing of it has come in. -/
theorem createRequest_downloading {s₀ s₁ : Peer β φ} {i : Nat} {content : Bytes}
    (room : InFields i content) (assigned : s₀.getPieceIndex = .done true s₁)
    (index : s₁.protocol.pieceIndex = i) (size : s₁.protocol.pieceSize = content.length) :
    ∃ s₂, s₁.createRequest = .done () s₂ ∧
      s₂.protocol.messages =
        s₁.protocol.messages ++ (requests content.length).map (Request.message i) ∧
      s₂.shared = s₁.shared ∧ Downloading i content s₂.shared [] s₂ := by
  have limit := room.length
  have word : s₁.protocol.pieceSize + blockSize ≤ 2 ^ 64 := by
    simp only [blockSize]
    omega
  have created := s₁.createRequest_eq word
  have assembled : Piece.Assembled i content.length s₁.protocol.piece [] := by
    rw [(getPieceIndex_true assigned).2, index, size]
    exact Piece.assembled_init i content.length
  rw [index, room.toUInt64, size] at created
  exact ⟨_, created, rfl, rfl, index, size, rfl, assembled⟩

variable [Files φ]

/-! ## Answers one after another -/

def answer (i : Nat) (content : Bytes) (s : Peer β φ) (a : Answer) :
    Outcome Thrown (Peer β φ) Unit :=
  s.processPiece (a.frame i content ++ a.behind) (a.frame i content).length

def answers (i : Nat) (content : Bytes) (s : Peer β φ) (received : List Answer) : Peer β φ :=
  received.foldl (fun s a => (s.answer i content a).state) s

theorem answers_append {i : Nat} {content : Bytes} {received : List Answer} {a : Answer} :
    s.answers i content (received ++ [a]) =
      ((s.answers i content received).answer i content a).state := by
  rw [answers, List.foldl_append]
  rfl

theorem completePiece_writes (full : s.protocol.piece.full = true) :
    s.completePiece.state.shared.writes = s.writePiece.state.shared.writes := by
  rw [completePiece, if_pos full]
  cases s.writePiece with
  | done _ written => exact nextPiece_writes written.released
  | thrown e t => rfl
  | fault r t => rfl

/-- Once a piece was handed to the files, its peer holds another one, or none, or
has no buffer for it. -/
theorem completePiece_over (full : s.protocol.piece.full = true)
    (spent : s.shared.pieceList.Spent t) :
    s.completePiece.state.protocol.pieceIndex ≠ t ∨
      s.completePiece.state.protocol.piece.data = none := by
  rw [completePiece, if_pos full]
  cases hw : s.writePiece with
  | done _ written =>
    apply Or.inl (nextPiece_spent (s := written.released) ?_)
    have list := (writePiece_done hw).2.1
    exact list ▸ spent
  | thrown e r =>
    right
    have moved := writePiece_data s
    rw [hw] at moved
    exact moved
  | fault _ r =>
    right
    have moved := writePiece_data s
    rw [hw] at moved
    exact moved

/-- Then an answer to a request for the piece changes nothing. -/
theorem answer_over {i : Nat} {content : Bytes} {a : Answer} (room : InFields i content)
    (hr : a.request ∈ requests content.length)
    (gone : s.protocol.pieceIndex ≠ i ∨ s.protocol.piece.data = none) :
    (s.answer i content a).state = s := by
  unfold answer processPiece
  by_cases held : s.protocol.pieceIndex = i
  · obtain ⟨e, refused⟩ := Piece.add_refused i (a.call content).source (a.call content).size
      (a.call content).offset (Or.inl (gone.resolve_left (not_not.2 held)))
    rw [addBlock_answer room hr held, refused]
    rfl
  · rw [addBlock_other _ (Answer.frame_index room.index a.behind) (Ne.symm held)]
    rfl

end Peer

section
variable [BitSet β] [Files φ]

namespace Downloading

variable {i : Nat} {content : Bytes} {sh : Shared φ} {received : List Answer} {a : Answer}
  {s : Peer β φ}

theorem answer (d : Downloading i content sh received s) (room : InFields i content)
    (asked : Requested content.length (received ++ [a])) :
    ∃ t, Downloading i content sh (received ++ [a]) t ∧
      s.answer i content a = t.completePiece := by
  obtain ⟨t, added, d'⟩ := d.addBlock room asked
  refine ⟨t, d', ?_⟩
  rw [Peer.answer, Peer.processPiece, added]
  rfl

/-- An answer that leaves a request unanswered is added, and no more. -/
theorem answer_early (d : Downloading i content sh received s) (room : InFields i content)
    (asked : Requested content.length (received ++ [a]))
    (early : ¬ Answered content.length (received ++ [a])) :
    ∃ t, s.answer i content a = .done () t ∧ Downloading i content sh (received ++ [a]) t := by
  obtain ⟨t, d', eq⟩ := d.answer room asked
  refine ⟨t, ?_, d'⟩
  rw [eq, Peer.completePiece, if_neg fun full => early ((d'.full_iff room asked).1 full)]

/-- The answer to the last request leads to the write. -/
theorem answer_last (d : Downloading i content sh received s) (room : InFields i content)
    (asked : Requested content.length (received ++ [a]))
    (last : Answered content.length (received ++ [a])) :
    ∃ returned, (s.answer i content a).state.shared.writes =
      sh.writes ++ [.writePiece i (some (content.map some)) content.length returned] := by
  obtain ⟨t, d', eq⟩ := d.answer room asked
  obtain ⟨returned, calls⟩ := t.writePiece_calls
  refine ⟨returned, ?_⟩
  rw [eq, Peer.completePiece_writes ((d'.full_iff room asked).2 last), Shared.writes, calls,
    d'.index, room.toUInt64, d'.data_eq asked last, d'.size, d'.shared, List.filter_append]
  rfl

theorem answers (start : Downloading i content sh [] s) (room : InFields i content)
    (asked : Requested content.length received) (early : ¬ Answered content.length received) :
    Downloading i content sh received (s.answers i content received) := by
  induction received using List.reverseRecOn with
  | nil => exact start
  | append_singleton received a ih =>
    have d := ih asked.earlier fun done => early (done.mono a)
    obtain ⟨t, eq, d'⟩ := d.answer_early room asked early
    rw [Peer.answers_append, eq]
    exact d'

/-- What comes after the answer to the last request changes nothing any more. -/
theorem answers_over (start : Downloading i content sh [] s) (spent : sh.pieceList.Spent i)
    (room : InFields i content) (asked : Requested content.length received)
    (done : Answered content.length received) :
    (s.answers i content received).protocol.pieceIndex ≠ i ∨
      (s.answers i content received).protocol.piece.data = none := by
  induction received using List.reverseRecOn with
  | nil =>
    obtain ⟨r, hr, _⟩ := requests_cover room.nonempty
    obtain ⟨a, ha, _⟩ := done r hr
    exact absurd ha List.not_mem_nil
  | append_singleton received a ih =>
    rw [Peer.answers_append]
    by_cases before : Answered content.length received
    · have gone := ih asked.earlier before
      rw [Peer.answer_over room asked.last gone]
      exact gone
    · obtain ⟨t, d', eq⟩ := (start.answers room asked.earlier before).answer room asked
      rw [eq]
      exact Peer.completePiece_over ((d'.full_iff room asked).2 done) (d'.shared ▸ spent)

end Downloading

/-- In a run of the swarm, a piece that is assigned to a peer is nowhere else. -/
theorem Swarm.assigned_spent {w : Swarm β φ} (h : Reach Start step anyStep w) {peer i : Nat}
    {s s' : Peer β φ} (hs : w.view peer = some s) (assigned : s.getPieceIndex = .done true s')
    (index : s'.protocol.pieceIndex = i) : s'.shared.pieceList.Spent i := by
  obtain ⟨sound, one⟩ := reach_places_le h
  have shared := (view_eq_some.1 hs).2
  have list := (sound.view hs).list
  have same := (Peer.getPieceIndex_true assigned).1
  have ended {t : Int} (ht : s.shared.pieceList.Contains t) := Peer.attempt_places list ht
  obtain ⟨sound', max, _⟩ := ended ⟨Int.le_refl 0, Int.natCast_nonneg _⟩
  have contained : s'.shared.pieceList.Contains i := by
    have marks := (sound'.congr same).index
    rw [index] at marks
    apply marks.resolve_left
    omega
  have contained' : s.shared.pieceList.Contains i := by
    have := contained.2
    rw [same.shared, max] at this
    exact ⟨contained.1, this⟩
  have moved := (ended contained').2.2
  rw [← Peer.places_congr same, Peer.places, if_pos index, Shared.places] at moved
  have only := one i (shared ▸ contained')
  rw [Swarm.places, ← shared] at only
  have queued : s'.shared.pieceList.queued i = 0 := by omega
  have unissued : s'.shared.pieceList.unissued i = 0 := by omega
  exact ⟨(sound'.congr same).list, contained, queued, unissued⟩

/-- **A piece is written when its last block arrives.** Once a piece is assigned,
all its blocks are requested. Every answer that leaves a request unanswered is
taken without an exception and without a write; the one that answers the last
request writes the piece with its content; and in a run of the swarm all that
follow are ignored. -/
theorem Peer.piece_downloaded {s₀ s₁ : Peer β φ} {i : Nat} {content : Bytes}
    (hi : i < 2 ^ 32) (nonempty : 1 ≤ content.length) (limit : content.length ≤ 2 ^ 32)
    (assigned : s₀.getPieceIndex = .done true s₁) (index : s₁.protocol.pieceIndex = i)
    (size : s₁.protocol.pieceSize = content.length) :
    ∃ s₂, s₁.createRequest = .done () s₂ ∧
      s₂.protocol.messages =
        s₁.protocol.messages ++ (requests content.length).map (Request.message i) ∧
      ∀ received a, Requested content.length (received ++ [a]) →
        let s := s₂.answers i content received
        (¬ Answered content.length (received ++ [a]) →
          ∃ t, s.answer i content a = .done () t ∧ t.shared = s₂.shared) ∧
        (¬ Answered content.length received → Answered content.length (received ++ [a]) →
          ∃ returned, (s.answer i content a).state.shared.writes = s₂.shared.writes ++
            [.writePiece i (some (content.map some)) content.length returned]) ∧
        (Answered content.length received →
          (∃ w peer, Reach Swarm.Start Swarm.step anyStep w ∧ w.view peer = some s₀) →
          (s.answer i content a).state = s) := by
  have room : InFields i content := ⟨hi, nonempty, limit⟩
  obtain ⟨s₂, created, messages, shared, start⟩ :=
    createRequest_downloading room assigned index size
  refine ⟨s₂, created, messages, fun received a asked => ?_⟩
  refine ⟨fun early => ?_, fun before last => ?_, fun done ⟨w, peer, reached, hs⟩ => ?_⟩
  · have d := start.answers room asked.earlier fun done => early (done.mono a)
    obtain ⟨t, eq, d'⟩ := d.answer_early room asked early
    exact ⟨t, eq, d'.shared⟩
  · exact (start.answers room asked.earlier before).answer_last room asked last
  · have spent := shared ▸ Swarm.assigned_spent reached hs assigned index
    exact answer_over room asked.last (start.answers_over spent room asked.earlier done)

/-- The content of a piece that is asked for in two blocks. -/
def twoBlocks : Bytes := List.replicate (blockSize + 1) 7

/-- Two pieces of that size. -/
def Swarm.largePieces : TorrentFile :=
  { twoPieces with pieceSize := blockSize + 1, lastPieceSize := blockSize + 1 }

/-- The block behind comes first, and once more; then the one in front; and then the one behind
for the third time. -/
theorem Peer.piece_downloaded_disordered :
    let front : Answer := ⟨⟨0, blockSize⟩, []⟩
    let back : Answer := ⟨⟨blockSize, 1⟩, []⟩
    ∃ s₀ s₁ s₂ : Peer (List Bool) (List Bool),
      s₀.getPieceIndex = .done true s₁ ∧ s₁.createRequest = .done () s₂ ∧
      (∃ t, s₂.answer 0 twoBlocks back = .done () t ∧ t.shared = s₂.shared) ∧
      (∃ t, (s₂.answers 0 twoBlocks [back]).answer 0 twoBlocks back = .done () t ∧
        t.shared = s₂.shared) ∧
      (∃ returned,
        ((s₂.answers 0 twoBlocks [back, back]).answer 0 twoBlocks front).state.shared.writes =
          s₂.shared.writes ++
            [.writePiece 0 (some (twoBlocks.map some)) twoBlocks.length returned]) ∧
      ((s₂.answers 0 twoBlocks [back, back, front]).answer 0 twoBlocks back).state =
        s₂.answers 0 twoBlocks [back, back, front] := by
  intro front back
  have length : twoBlocks.length = blockSize + 1 := List.length_replicate
  have two : requests twoBlocks.length = [⟨0, blockSize⟩, ⟨blockSize, 1⟩] := by
    rw [length]
    decide
  have run : (replay Swarm.step anyStep
      (Swarm.initial Swarm.largePieces [] : Swarm (List Bool) (List Bool))
      [.connect [] (List.replicate 20 0), Swarm.send .bitfield [0xc0]]).any fun w =>
        (w.view 0).any fun s₀ => s₀.getPieceIndex.any fun assigned s₁ =>
          assigned = true ∧ s₁.protocol.pieceIndex = 0 ∧
            s₁.protocol.pieceSize = blockSize + 1 := by decide +kernel
  obtain ⟨w, reached, live⟩ := (Option.any_eq_true _ _).1 run
  obtain ⟨s₀, hs, at_s₀⟩ := (Option.any_eq_true _ _).1 live
  obtain ⟨_, s₁, got, at_s₁⟩ := Outcome.any_eq_true at_s₀
  obtain ⟨rfl, index, size⟩ := of_decide_eq_true at_s₁
  have reach : Reach Swarm.Start Swarm.step anyStep w :=
    Reach.replay (.start (Swarm.start_initial _ _ (by decide))) reached
  have whole : s₁.protocol.pieceSize = twoBlocks.length := size.trans length.symm
  obtain ⟨s₂, created, -, answers⟩ := piece_downloaded (i := 0) (by decide)
    (by rw [length]; decide) (by rw [length]; decide) got index whole
  have asked (l : List Answer) (each : ∀ a ∈ l, a = front ∨ a = back) :
      Requested twoBlocks.length l := by
    intro a mem
    rw [two]
    rcases each a mem with rfl | rfl
    · exact List.mem_cons_self
    · exact List.mem_cons_of_mem _ List.mem_cons_self
  have unanswered (l : List Answer) (each : ∀ a ∈ l, a = back) : ¬ Answered twoBlocks.length l := by
    intro all
    obtain ⟨a, mem, same⟩ := all ⟨0, blockSize⟩ (by rw [two]; exact List.mem_cons_self)
    rw [each a mem] at same
    exact absurd same (by decide)
  have answered : Answered twoBlocks.length [back, back, front] := by
    intro r mem
    rw [two] at mem
    rcases List.mem_pair.1 mem with rfl | rfl
    · exact ⟨front, by simp, rfl⟩
    · exact ⟨back, by simp, rfl⟩
  refine ⟨s₀, s₁, s₂, got, created, ?_, ?_, ?_, ?_⟩
  · exact (answers [] back (asked _ (by simp))).1 (unanswered _ (by simp))
  · exact (answers [back] back (asked _ (by simp))).1 (unanswered _ (by simp))
  · exact (answers [back, back] front (asked _ (by simp))).2.1 (unanswered _ (by simp)) answered
  · exact (answers [back, back, front] back (asked _ (by simp))).2.2 answered ⟨w, 0, reach, hs⟩

end

end TorrentClient
