import Mathlib.Data.List.Nodup
import Mathlib.Data.List.Perm.Basic
import TorrentClient.Conversation
import TorrentClient.Download
import TorrentClient.MessageFrames

/-!
# A session with a seeder

One peer has every piece, and answers the requests of the client in any order. Whatever
the order, the client comes to the end of the torrent.
-/

namespace TorrentClient

variable {β φ : Type}

/-! ## The seeder -/

/-- The bytes of a message, if every one of them was written. -/
def writtenBytes (message : Message) : Option Bytes :=
  if message.all (·.isSome) then some (message.map (·.getD 0)) else none

/-- What the seeder sends for a message: the block that a request asks for. -/
def reply (contents : List Bytes) (message : Message) : Option Bytes :=
  (writtenBytes message).bind fun bytes =>
    if bytes[messageLengthSize]? = some MessageType.request.id then
      (ntohlAt bytes baseMessageSize).bind fun index =>
      (ntohlAt bytes (baseMessageSize + 4)).bind fun offset =>
      (ntohlAt bytes (baseMessageSize + 8)).bind fun length =>
      contents[index]?.map fun content =>
        pieceMessage index offset (Request.bytes content ⟨offset, length⟩)
    else none

/-- The message is a request that the seeder answers. -/
def asks (contents : List Bytes) (message : Message) : Bool := (reply contents message).isSome

theorem writtenBytes_some (bytes : Bytes) : writtenBytes (bytes.map some) = some bytes := by
  simp [writtenBytes, Function.comp_def]

/-- A request for a block is answered with the block. -/
theorem reply_request {contents : List Bytes} {i : Nat} {content : Bytes}
    (at_i : contents[i]? = some content) (room : InFields i content) {r : Request}
    (hr : r ∈ requests content.length) :
    reply contents (r.message i) = some (Answer.frame i content ⟨r, []⟩) := by
  have within := requests_within hr
  have limit := room.length
  simp only [blockSize] at within
  obtain ⟨index, offset, length⟩ := ntohlAt_words .request room.index
    (show r.offset < 2 ^ 32 by omega) (show r.length < 2 ^ 32 by omega)
    (show requestMessage i r.offset r.length = _ from rfl)
  have number : (requestMessage i r.offset r.length)[messageLengthSize]? =
      some MessageType.request.id := rfl
  rw [reply, Request.message, writtenBytes_some, Option.bind_some, if_pos number, index, offset,
    length]
  simp only [Option.bind_some, at_i, Option.map_some]
  rfl

/-- The messages that a seeder has nothing to say to. -/
theorem reply_interested (contents : List Bytes) :
    reply contents (interestedMessage.map some) = none := by
  rw [reply, writtenBytes_some]
  rfl

/-! ## The session -/

namespace Peer

/-- The peer without a message that has left its queue. -/
def without (s : Peer β φ) (k : Nat) : Peer β φ :=
  { s with protocol := { s.protocol with messages := s.protocol.messages.eraseIdx k } }

/-- The seeder takes one of the messages that were queued, and the client processes what it
sends. -/
def exchange [BitSet β] [Files φ] (contents : List Bytes) (s : Peer β φ) (k : Nat) :
    Option (Peer β φ) :=
  s.protocol.messages[k]?.bind fun message =>
    match reply contents message with
    | none => some (s.without k)
    | some frame =>
      match processMessage handlers frame frame.length (.action, s.without k) with
      | .done _ t | .thrown _ t => some t.2
      | .fault _ _ => none

end Peer

/-- The writes of all the pieces, in their order. -/
def writesOf (contents : List Bytes) : List Call :=
  contents.zipIdx.map fun (content, i) =>
    .writePiece i (some (content.map some)) content.length true

/-- The files accept the pieces one after another, from a number on. -/
inductive Stores [Files φ] : φ → Nat → List Bytes → φ → Prop
  | nil (files : φ) (i : Nat) : Stores files i [] files
  | cons {files files₁ files₂ : φ} {i : Nat} {content : Bytes} {contents : List Bytes} :
      Files.writePiece files i (some (content.map some)) content.length = .done () files₁ →
      Stores files₁ (i + 1) contents files₂ → Stores files i (content :: contents) files₂

/-- The number of requests for pieces. -/
def pending (contents : List Bytes) : Nat :=
  (contents.map fun content => (requests content.length).length).sum

/-- The bits stand for all the pieces, and for no more. -/
structure Whole [BitSet β] (contents : List Bytes) (bits : β) : Prop where
  fields : ∀ i content, contents[i]? = some content → InFields i content
  every : ∀ i < contents.length, BitSet.test bits i = some true
  marker : BitSet.test bits (toUInt64 (-1)) ≠ some true

/-- The pieces below `written` are written, and no other than those below `issued` were ever
handed out. -/
structure Progress [Files φ] (contents : List Bytes) (bits : β) (before : List Call) (after : φ)
    (issued written : Nat) (s : Peer β φ) : Prop where
  list : s.shared.pieceList.Sound
  queue : s.shared.pieceList.returnedPieces = []
  next : s.shared.pieceList.nextPiece = issued
  count : s.shared.pieceList.maxPieceNum + 1 = contents.length
  sizes : ∀ (i : Nat) content, contents[i]? = some content →
    s.shared.pieceList.sizeOf i = content.length
  bits : s.protocol.clientsPieces = bits
  writes : s.shared.writes = before ++ (writesOf contents).take written
  stores : Stores s.shared.files written (contents.drop written) after

variable [BitSet β] [Files φ] {contents : List Bytes} {bits : β} {before : List Call} {after : φ}
  {i j : Nat} {s t : Peer β φ}

section
variable {content : Bytes}

omit [Files φ] in
/-- With none returned, the next piece is assigned by the first attempt, and all of it is
requested. -/
theorem Peer.nextPiece_issued (whole : Whole contents s.protocol.clientsPieces)
    (list : s.shared.pieceList.Sound) (queue : s.shared.pieceList.returnedPieces = [])
    (next : s.shared.pieceList.nextPiece = i) (below : i ≤ s.shared.pieceList.maxPieceNum)
    (at_i : contents[i]? = some content) (sized : s.shared.pieceList.sizeOf i = content.length) :
    ∃ t, s.nextPiece = .done () t ∧ Downloading i content t.shared [] t ∧
      t.protocol.messages =
        s.protocol.messages ++ (requests content.length).map (Request.message i) ∧
      t.shared.pieceList = { s.shared.pieceList with nextPiece := i + 1 } ∧
      t.protocol.clientsPieces = s.protocol.clientsPieces := by
  have fields := whole.fields i content at_i
  have nonempty := fields.nonempty
  have got : s.shared.pieceList.getPiece = (content.length, (i : Int),
      { s.shared.pieceList with nextPiece := i + 1 }) := by
    rcases PieceList.getPiece_cases list with ⟨z, rest, queued, -⟩ | ⟨-, -, eq⟩ | ⟨-, past, -⟩
    · rw [queue] at queued
      cases queued
    · rw [eq, next, sized]
    · omega
  have index : s.getPiece.protocol.pieceIndex = i := by rw [Peer.getPiece_pieceIndex, got]
  have size : s.getPiece.protocol.pieceSize = content.length := by
    rw [Peer.getPiece_pieceSize, got]
  have wanted : s.getPiece.wanted = some true := by
    rw [Peer.wanted, size, if_neg (by omega), index, fields.toUInt64]
    exact whole.every i (List.getElem?_eq_some_iff.1 at_i).1
  have attempted : Peer.attempt Peer.numberOfAttempts s = .done () s.getPiece := by
    rw [show Peer.numberOfAttempts = 19 + 1 from rfl, Peer.attempt, wanted]
  have assigned := (Peer.getPieceIndex_done attempted).trans (if_neg (by omega))
  obtain ⟨t, created, messages, shared, downloading⟩ :=
    Peer.createRequest_downloading fields assigned index size
  refine ⟨t, ?_, downloading, messages, ?_, ?_⟩
  · rw [Peer.nextPiece, assigned, Outcome.bind_done, if_pos rfl, created]
  · rw [shared]
    show s.getPiece.shared.pieceList = _
    rw [Peer.getPiece_pieceList, got]
  · obtain ⟨offset, queue, rfl⟩ := Peer.createRequest_done created
    rfl

omit [Files φ] in
theorem Peer.nextPiece_files (s : Peer β φ) :
    s.nextPiece.state.shared.files = s.shared.files := by
  rw [(nextPiece_custody s).shared]
  exact attempt_rule (P := fun r => r.shared.files = s.shared.files)
    (Q := fun r => r.shared.files = s.shared.files) (fun _ => id) (fun _ => id)
    (fun _ same => ⟨same, same⟩) 19 s rfl

/-- The next piece is assigned, and all of it is requested. -/
theorem Progress.nextPiece (whole : Whole contents bits)
    (h : Progress contents bits before after i i s) (at_i : contents[i]? = some content) :
    ∃ t, s.nextPiece = .done () t ∧ Progress contents bits before after (i + 1) i t ∧
      Downloading i content t.shared [] t ∧ t.protocol.messages =
        s.protocol.messages ++ (requests content.length).map (Request.message i) := by
  obtain ⟨below, -⟩ := List.getElem?_eq_some_iff.1 at_i
  have count := h.count
  obtain ⟨t, returned, downloading, messages, list, same⟩ :=
    Peer.nextPiece_issued (h.bits ▸ whole) h.list h.queue h.next (by omega) at_i (h.sizes i _ at_i)
  have writes := Peer.nextPiece_writes s
  have files := Peer.nextPiece_files s
  rw [returned] at writes files
  refine ⟨t, returned, ⟨?_, ?_, ?_, ?_, ?_, same.trans h.bits, ?_, ?_⟩, downloading, messages⟩
  · rw [list]
    have room : i ≤ s.shared.pieceList.maxPieceNum := by omega
    exact ⟨h.list.max_lt, Nat.succ_le_succ room, h.list.queue⟩
  · rw [list]
    exact h.queue
  · rw [list]
  · rw [list]
    exact count
  · intro k other at_k
    rw [list]
    exact h.sizes k other at_k
  · exact writes.trans h.writes
  · rw [show t.shared.files = s.shared.files from files]
    exact h.stores

end

/-! ## After the last piece -/

omit [Files φ] in
theorem Peer.attempt_safe (attempts : Nat) : ∀ s : Peer β φ, (attempt attempts s).Safe := by
  induction attempts with
  | zero => exact fun _ => Outcome.safe_done
  | succ attempts ih =>
    intro s
    rw [attempt]
    split
    · exact Outcome.safe_thrown
    · exact Outcome.safe_done
    · exact ih s.getPiece.returnPiece

/-- With every piece handed out, the attempts find none. -/
theorem Progress.none_left (whole : Whole contents bits) {written : Nat}
    (h : Progress contents bits before after contents.length written s)
    (attempted : Peer.attempt Peer.numberOfAttempts s = .done () t) :
    t.protocol.pieceSize = 0 := by
  by_contra some
  have quiet := Peer.attempt_quiet s
  have custody := Peer.nextPiece_custody s
  have first : s.shared.pieceList.Contains 0 := ⟨Int.le_refl 0, Int.natCast_nonneg _⟩
  obtain ⟨sound, max, -⟩ := Peer.attempt_places h.list first
  have useful := Peer.attempt_wanted 19 s attempted some
  rw [attempted, Outcome.state_done] at quiet custody sound max
  rw [Peer.wanted, if_neg some, quiet.bits, h.bits] at useful
  rcases sound.index with none | contained
  · rw [none] at useful
    exact whole.marker useful
  · rw [PieceList.Contains, max] at contained
    have count := h.count
    have spent : s.shared.pieceList.Spent t.protocol.pieceIndex := by
      refine ⟨h.list, contained, ?_, ?_⟩
      · rw [PieceList.queued, h.queue]
        rfl
      · rw [PieceList.unissued, h.next, if_neg (by omega)]
    exact Peer.nextPiece_spent spent custody.pieceIndex

theorem Progress.nextPiece_last (whole : Whole contents bits) {written : Nat}
    (h : Progress contents bits before after contents.length written s) :
    s.nextPiece.Safe ∧ s.nextPiece.state.protocol.messages = s.protocol.messages := by
  have quiet := Peer.attempt_quiet s
  have safe := Peer.attempt_safe Peer.numberOfAttempts s
  unfold Peer.nextPiece Peer.getPieceIndex
  cases attempted : Peer.attempt Peer.numberOfAttempts s with
  | fault r t => exact absurd attempted (safe r t)
  | thrown e t =>
    rw [attempted] at quiet
    exact ⟨Outcome.safe_thrown, quiet.messages⟩
  | done _ t =>
    rw [attempted] at quiet
    rw [Outcome.bind_done, if_pos (h.none_left whole attempted)]
    exact ⟨Outcome.safe_done, quiet.messages⟩

/-! ## A block arrives -/

/-- Every piece is written, and nothing is asked for any more. -/
structure Finished (contents : List Bytes) (before : List Call) (after : φ) (s : Peer β φ) :
    Prop where
  idle : ∀ m ∈ s.protocol.messages, reply contents m = none
  writes : s.shared.writes = before ++ writesOf contents
  files : s.shared.files = after

/-- Piece `i` is being downloaded, with the requests in `remaining` still queued. -/
structure Asking (contents : List Bytes) (i : Nat) (content : Bytes) (received : List Answer)
    (remaining : List Request) (s : Peer β φ) : Prop where
  at_i : contents[i]? = some content
  downloading : Downloading i content s.shared received s
  asked : (received.map (·.request) ++ remaining).Perm (requests content.length)
  queued : (s.protocol.messages.filter (asks contents)).Perm
    (remaining.map (Request.message i))
  unanswered : remaining ≠ []

/-- All of piece `i` has come in. -/
structure Complete (i : Nat) (content : Bytes) (s : Peer β φ) : Prop where
  index : s.protocol.pieceIndex = i
  size : s.protocol.pieceSize = content.length
  data : s.protocol.piece.data = some (content.map some)
  full : s.protocol.piece.full = true

/-- The peer once the call of `write_piece` for its piece has ended. -/
def Peer.afterWrite (s : Peer β φ) (i : Nat) (content : Bytes) (files : φ) (returned : Bool) :
    Peer β φ where
  protocol := { s.protocol with piece := s.protocol.piece.get.2 }
  shared := { s.shared with
    files := files
    calls := s.shared.calls ++
      [.writePiece i (some (content.map some)) content.length returned] }

omit [BitSet β] [Files φ] in
theorem Peer.afterWrite_writes (s : Peer β φ) (i : Nat) (content : Bytes) (files : φ)
    (returned : Bool) : (s.afterWrite i content files returned).shared.writes =
      s.shared.writes ++ [.writePiece i (some (content.map some)) content.length returned] := by
  rw [Shared.writes, afterWrite, List.filter_append]
  rfl

/-- The download of piece `i`, after which the pieces behind it are handed out. -/
structure Fetching (contents : List Bytes) (bits : β) (before : List Call) (after : φ) (i : Nat)
    (content : Bytes) (received : List Answer) (remaining : List Request) (s : Peer β φ) :
    Prop extends Asking contents i content received remaining s where
  progress : Progress contents bits before after (i + 1) i s

omit [BitSet β] in
/-- The messages and the buffer of a block play no part in the progress. -/
theorem Progress.congr {issued written : Nat}
    (h : Progress contents bits before after issued written s) (shared : t.shared = s.shared)
    (same : t.protocol.clientsPieces = s.protocol.clientsPieces) :
    Progress contents bits before after issued written t := by
  refine ⟨?_, ?_, ?_, ?_, ?_, same.trans h.bits, ?_, ?_⟩
  all_goals rw [shared]
  · exact h.list
  · exact h.queue
  · exact h.next
  · exact h.count
  · exact h.sizes
  · exact h.writes
  · exact h.stores

omit [BitSet β] [Files φ] in
theorem requests_nodup (size : Nat) : (requests size).Nodup := by
  apply List.Nodup.map_on ?_ List.nodup_range
  intro k _ k' _ same
  have offsets : k * blockSize = k' * blockSize := congrArg Request.offset same
  exact Nat.eq_of_mul_eq_mul_right (Nat.two_pow_pos 14) offsets

section
variable {content : Bytes} {received : List Answer} {remaining : List Request} {r : Request}

/-- The piece is complete when no request is left. -/
theorem answered_iff (asked : (received.map (·.request) ++ remaining).Perm
      (requests content.length)) :
    Answered content.length (received ++ [⟨r, []⟩]) ↔ remaining.erase r = [] := by
  have nodup := (asked.nodup_iff).2 (requests_nodup content.length)
  obtain ⟨-, distinct, apart⟩ := List.nodup_append.1 nodup
  constructor
  · intro answered
    apply List.eq_nil_iff_forall_not_mem.2
    intro r' left
    obtain ⟨other, mem'⟩ := (distinct.mem_erase_iff).1 left
    obtain ⟨a, ha, rfl⟩ := answered r' (asked.mem_iff.1 (List.mem_append_right _ mem'))
    rcases List.mem_append.1 ha with old | new
    · exact apart _ (List.mem_map_of_mem old) _ mem' rfl
    · rw [List.mem_singleton.1 new] at other
      exact other rfl
  · intro last r' asked'
    rcases List.mem_append.1 (asked.mem_iff.2 asked') with old | left
    · obtain ⟨a, ha, rfl⟩ := List.mem_map.1 old
      exact ⟨a, List.mem_append_left _ ha, rfl⟩
    · by_cases same : r' = r
      · exact ⟨⟨r, []⟩, List.mem_append_right _ List.mem_cons_self, same.symm⟩
      · have left' := (List.mem_erase_of_ne same).2 left
        rw [last] at left'
        exact absurd left' List.not_mem_nil

omit [BitSet β] in
theorem Complete.writePiece (complete : Complete i content s) (room : InFields i content)
    {files : φ} (wrote : Files.writePiece s.shared.files i (some (content.map some))
      content.length = .done () files) :
    s.writePiece = .done () (s.afterWrite i content files true) := by
  unfold Peer.writePiece Peer.afterWrite
  simp only [Piece.get, complete.index, complete.size, complete.data, room.toUInt64, wrote]

omit [BitSet β] in
/-- The write of the piece is accepted, and the piece is released. -/
theorem Progress.write (h : Progress contents bits before after (i + 1) i s)
    (at_i : contents[i]? = some content) (room : InFields i content)
    (complete : Complete i content s) :
    ∃ written, s.writePiece = .done () written ∧
      written.protocol.messages = s.protocol.messages ∧
      Progress contents bits before after (i + 1) (i + 1) written.released := by
  obtain ⟨below, eq⟩ := List.getElem?_eq_some_iff.1 at_i
  have stores := h.stores
  rw [List.drop_eq_getElem_cons below, eq] at stores
  cases stores with
  | cons wrote later =>
    rename_i files
    refine ⟨_, complete.writePiece room wrote, rfl, ?_⟩
    refine ⟨h.list, h.queue, h.next, h.count, h.sizes, h.bits, ?_, later⟩
    have entry : (writesOf contents)[i]? =
        some (.writePiece i (some (content.map some)) content.length true) := by
      rw [writesOf, List.getElem?_map, List.getElem?_zipIdx, at_i]
      simp
    show (s.afterWrite i content files true).shared.writes = _
    rw [Peer.afterWrite_writes, h.writes, List.take_add_one, entry, List.append_assoc]
    rfl

omit [BitSet β] [Files φ] in
/-- What is queued once a request has left the queue. -/
theorem queued_without {k : Nat} (queued : (s.protocol.messages.filter
      (asks contents)).Perm (remaining.map (Request.message i)))
    (at_k : s.protocol.messages[k]? = some (r.message i)) (mem : r ∈ remaining)
    (answered : asks contents (r.message i)) :
    ((s.protocol.messages.eraseIdx k).filter (asks contents)).Perm
      ((remaining.erase r).map (Request.message i)) := by
  obtain ⟨below, eq⟩ := List.getElem?_eq_some_iff.1 at_k
  have split := (List.getElem_cons_eraseIdx_perm below).filter (asks contents)
  rw [eq, List.filter_cons_of_pos answered] at split
  have rest := (List.perm_cons_erase mem).map (Request.message i)
  rw [List.map_cons] at rest
  exact ((split.trans queued).trans rest).cons_inv

omit [BitSet β] [Files φ] in
/-- What is queued once another message has left the queue. -/
theorem queued_without_idle {k : Nat} {queue : List Message}
    (queued : (s.protocol.messages.filter (asks contents)).Perm queue)
    (below : k < s.protocol.messages.length) (idle : ¬ asks contents s.protocol.messages[k]) :
    ((s.protocol.messages.eraseIdx k).filter (asks contents)).Perm queue := by
  have split := (List.getElem_cons_eraseIdx_perm below).filter (asks contents)
  rw [List.filter_cons_of_neg idle] at split
  exact split.trans queued

omit [BitSet β] [Files φ] in
/-- The requests for a piece are queued, and nothing of it has come in. -/
theorem Asking.start {queue : List Message} (at_i : contents[i]? = some content)
    (room : InFields i content) (idle : ∀ m ∈ queue, reply contents m = none)
    (downloading : Downloading i content t.shared [] t)
    (messages : t.protocol.messages =
      queue ++ (requests content.length).map (Request.message i)) :
    Asking contents i content [] (requests content.length) t := by
  refine ⟨at_i, downloading, List.Perm.refl _, ?_, ?_⟩
  · rw [messages, List.filter_append, List.filter_eq_nil_iff.2, List.nil_append,
      List.filter_eq_self.2]
    · intro m mem
      obtain ⟨r, hr, rfl⟩ := List.mem_map.1 mem
      rw [asks, reply_request at_i room hr]
      rfl
    · intro m mem
      rw [asks, idle m mem]
      exact Bool.false_ne_true
  · obtain ⟨r, hr, -⟩ := requests_cover room.nonempty
    exact List.ne_nil_of_mem hr

/-- The first of the requests for a piece. -/
theorem Progress.fetching (whole : Whole contents bits)
    (h : Progress contents bits before after i i s) (at_i : contents[i]? = some content)
    (idle : ∀ m ∈ s.protocol.messages, reply contents m = none) :
    ∃ t, s.nextPiece = .done () t ∧
      Fetching contents bits before after i content [] (requests content.length) t ∧
      t.protocol.messages.length =
        s.protocol.messages.length + (requests content.length).length := by
  obtain ⟨t, returned, progress, downloading, messages⟩ := h.nextPiece whole at_i
  refine ⟨t, returned, ⟨.start at_i (whole.fields i content at_i) idle downloading messages,
    progress⟩, ?_⟩
  rw [messages, List.length_append, List.length_map]

end

/-- What is left of the session: the messages that are queued, and the requests that will be. -/
inductive At (contents : List Bytes) (bits : β) (before : List Call) (after : φ) :
    Nat → Peer β φ → Prop
  | fetching {i : Nat} {content : Bytes} {received : List Answer} {remaining : List Request}
      {s : Peer β φ} : Fetching contents bits before after i content received remaining s →
      At contents bits before after
        (s.protocol.messages.length + pending (contents.drop (i + 1))) s
  | finished {s : Peer β φ} : Finished contents before after s →
      At contents bits before after s.protocol.messages.length s

/-- The block that completes a piece has it written, and the next one is requested. -/
theorem Progress.completePiece (whole : Whole contents bits) {content : Bytes}
    (h : Progress contents bits before after (i + 1) i s) (at_i : contents[i]? = some content)
    (complete : Complete i content s)
    (idle : ∀ m ∈ s.protocol.messages, reply contents m = none) :
    s.completePiece.Safe ∧ At contents bits before after
      (s.protocol.messages.length + pending (contents.drop (i + 1))) s.completePiece.state := by
  obtain ⟨below, -⟩ := List.getElem?_eq_some_iff.1 at_i
  obtain ⟨written, wrote, messages, progress⟩ :=
    h.write at_i (whole.fields i content at_i) complete
  have released : s.completePiece = written.released.nextPiece := by
    rw [Peer.completePiece, if_pos complete.full, wrote]
    rfl
  have queue : written.released.protocol.messages = s.protocol.messages := messages
  rw [released, ← queue]
  rw [← queue] at idle
  by_cases last : contents.length = i + 1
  · rw [← last] at progress
    obtain ⟨safe, same⟩ := progress.nextPiece_last whole
    refine ⟨safe, ?_⟩
    have finished : Finished contents before after written.released.nextPiece.state := by
      refine ⟨same ▸ idle, ?_, ?_⟩
      · rw [Peer.nextPiece_writes, progress.writes, List.take_of_length_le]
        rw [writesOf, List.length_map, List.length_zipIdx]
      · have stores := progress.stores
        rw [List.drop_length] at stores
        rw [Peer.nextPiece_files]
        cases stores
        rfl
    have left : At contents bits before after _ _ := .finished finished
    have none : pending (contents.drop (i + 1)) = 0 := by
      rw [← last, List.drop_length]
      rfl
    rwa [same, ← Nat.add_zero (List.length _), ← none] at left
  · have more : i + 1 < contents.length := by omega
    obtain ⟨t, returned, fetching, length⟩ :=
      progress.fetching whole (List.getElem?_eq_getElem more) idle
    rw [returned]
    refine ⟨Outcome.safe_done, ?_⟩
    have left := At.fetching fetching
    have more : pending (contents.drop (i + 1)) =
        (requests contents[i + 1].length).length + pending (contents.drop (i + 1 + 1)) := by
      rw [List.drop_eq_getElem_cons more]
      rfl
    rwa [length, Nat.add_assoc, ← more] at left

/-! ## Any order -/

theorem exchange_idle {k : Nat} {message : Message}
    (at_k : s.protocol.messages[k]? = some message) (idle : reply contents message = none) :
    s.exchange contents k = some (s.without k) := by
  rw [Peer.exchange, at_k, Option.bind_some, idle]

/-- What the client does with a block is what `process_piece` does. -/
theorem exchange_answer {k : Nat} {message : Message} {content : Bytes} {r : Request}
    (at_k : s.protocol.messages[k]? = some message)
    (answered : reply contents message = some (Answer.frame i content ⟨r, []⟩))
    (hr : r ∈ requests content.length)
    (safe : ((s.without k).answer i content ⟨r, []⟩).Safe) :
    s.exchange contents k = some ((s.without k).answer i content ⟨r, []⟩).state := by
  have small := (requests_within hr).2.1
  have length : (r.bytes content).length = r.length := Answer.bytes_length (a := ⟨r, []⟩) hr
  simp only [blockSize] at small
  have shape : Answer.frame i content ⟨r, []⟩ = htonl (9 + (r.bytes content).length) ++
      MessageType.piece.id :: (htonl i ++ htonl r.offset ++ r.bytes content) := by
    simp [Answer.frame, pieceMessage, baseMessage]
  have processed := processMessage_frame Peer.handlers shape (by omega)
    (by simp only [List.length_append, htonl_length]; omega) [] (s.without k)
  rw [List.append_nil] at processed
  have handled : Peer.handlers (.message .piece) (Answer.frame i content ⟨r, []⟩)
      (Answer.frame i content ⟨r, []⟩).length (s.without k) =
      (s.without k).answer i content ⟨r, []⟩ := by
    rw [Peer.answer, List.append_nil]
    rfl
  rw [Peer.exchange, at_k, Option.bind_some, answered]
  dsimp only
  rw [processed, handled]
  cases outcome : (s.without k).answer i content ⟨r, []⟩ with
  | done _ t => rfl
  | thrown e t => rfl
  | fault reason t => exact absurd outcome (safe reason t)

/-- A block that was asked for is added, and completes the piece when it is the last one. -/
theorem Asking.block {content : Bytes} {received : List Answer} {remaining : List Request}
    {r : Request} {k : Nat} (room : InFields i content)
    (f : Asking contents i content received remaining s)
    (at_k : s.protocol.messages[k]? = some (r.message i)) (mem : r ∈ remaining) :
    ∃ t : Peer β φ, t.shared = s.shared ∧ t.protocol.clientsPieces = s.protocol.clientsPieces ∧
      t.protocol.messages = s.protocol.messages.eraseIdx k ∧
      (s.without k).answer i content ⟨r, []⟩ = t.completePiece ∧
      (t.completePiece = .done () t ∧
          Asking contents i content (received ++ [⟨r, []⟩]) (remaining.erase r) t ∨
        Complete i content t ∧ ∀ m ∈ t.protocol.messages, reply contents m = none) := by
  have hr : r ∈ requests content.length := f.asked.mem_iff.1 (List.mem_append_right _ mem)
  have answered := reply_request f.at_i room hr
  have queued := queued_without f.queued at_k mem (by rw [asks, answered]; rfl)
  have asked : Requested content.length (received ++ [⟨r, []⟩]) := by
    intro a ha
    rcases List.mem_append.1 ha with old | new
    · exact f.asked.mem_iff.1 (List.mem_append_left _ (List.mem_map_of_mem old))
    · rw [List.mem_singleton.1 new]
      exact hr
  have d : Downloading i content s.shared received (s.without k) :=
    ⟨f.downloading.index, f.downloading.size, rfl, f.downloading.assembled⟩
  obtain ⟨t, added, d'⟩ := d.addBlock room asked
  have quiet := Peer.addBlock_quiet (s.without k) (Answer.frame i content ⟨r, []⟩ ++ [])
    (Answer.frame i content ⟨r, []⟩).length
  rw [added, Outcome.state_done] at quiet
  have messages : t.protocol.messages = s.protocol.messages.eraseIdx k := quiet.messages
  refine ⟨t, d'.shared, quiet.bits, messages, ?_, ?_⟩
  · rw [Peer.answer, Peer.processPiece, added]
    rfl
  rw [← messages] at queued
  by_cases last : remaining.erase r = []
  · right
    have answered := (answered_iff f.asked).2 last
    refine ⟨⟨d'.index, d'.size, d'.data_eq asked answered, (d'.full_iff room asked).2 answered⟩, ?_⟩
    intro m mem
    rw [last, List.map_nil] at queued
    have none := List.filter_eq_nil_iff.1 queued.eq_nil m mem
    rwa [asks, Option.not_isSome_iff_eq_none] at none
  · left
    constructor
    · rw [Peer.completePiece, if_neg]
      exact fun full => last ((answered_iff f.asked).1 ((d'.full_iff room asked).1 full))
    · refine ⟨f.at_i, ⟨d'.index, d'.size, rfl, d'.assembled⟩, ?_, queued, last⟩
      rw [List.map_append, List.append_assoc]
      exact ((List.perm_cons_erase mem).symm.append_left _).trans f.asked

omit [BitSet β] [Files φ] in
/-- A message that is no request for a block leaves the queue. -/
theorem Asking.without {content : Bytes} {received : List Answer} {remaining : List Request}
    {k : Nat} (f : Asking contents i content received remaining s)
    (below : k < s.protocol.messages.length) (idle : ¬ asks contents s.protocol.messages[k]) :
    Asking contents i content received remaining (s.without k) :=
  ⟨f.at_i, ⟨f.downloading.index, f.downloading.size, rfl, f.downloading.assembled⟩, f.asked,
    queued_without_idle f.queued below idle, f.unanswered⟩

theorem Fetching.block (whole : Whole contents bits) {content : Bytes} {received : List Answer}
    {remaining : List Request} {r : Request} {k : Nat}
    (f : Fetching contents bits before after i content received remaining s)
    (at_k : s.protocol.messages[k]? = some (r.message i)) (mem : r ∈ remaining) :
    ∃ t, s.exchange contents k = some t ∧ At contents bits before after
      ((s.protocol.messages.eraseIdx k).length + pending (contents.drop (i + 1))) t := by
  have room := whole.fields i content f.at_i
  have hr : r ∈ requests content.length := f.asked.mem_iff.1 (List.mem_append_right _ mem)
  have answered := reply_request f.at_i room hr
  obtain ⟨t, shared, same, messages, answer, ⟨early, asking⟩ | ⟨complete, idle⟩⟩ :=
    f.toAsking.block room at_k mem
  · have safe : (Peer.answer i content (s.without k) ⟨r, []⟩).Safe := by
      rw [answer, early]
      exact Outcome.safe_done
    refine ⟨_, exchange_answer at_k answered hr safe, ?_⟩
    rw [answer, early, ← messages]
    exact .fetching ⟨asking, f.progress.congr shared same⟩
  · obtain ⟨safe, left⟩ := (f.progress.congr shared same).completePiece whole f.at_i complete idle
    refine ⟨_, exchange_answer at_k answered hr (answer ▸ safe), ?_⟩
    rw [answer, ← messages]
    exact left

/-- Whichever message the seeder takes, one less is left. -/
theorem At.exchange (whole : Whole contents bits) {left k : Nat}
    (h : At contents bits before after left s) (below : k < s.protocol.messages.length) :
    ∃ left' t, s.exchange contents k = some t ∧ left = left' + 1 ∧
      At contents bits before after left' t := by
  have at_k := List.getElem?_eq_getElem below
  have shorter := List.length_eraseIdx_add_one below
  cases h with
  | finished f =>
    have idle := f.idle _ (List.getElem_mem below)
    have kept : Finished contents before after (s.without k) :=
      ⟨fun m mem => f.idle m (List.mem_of_mem_eraseIdx mem), f.writes, f.files⟩
    exact ⟨_, _, exchange_idle at_k idle, shorter.symm, .finished kept⟩
  | @fetching i content received remaining _ f =>
    by_cases answered : asks contents s.protocol.messages[k]
    · have mem := f.queued.mem_iff.1 (List.mem_filter.2 ⟨List.getElem_mem below, answered⟩)
      obtain ⟨r, hr, same⟩ := List.mem_map.1 mem
      rw [← same] at at_k
      obtain ⟨t, exchanged, left⟩ := f.block whole at_k hr
      exact ⟨_, t, exchanged, by omega, left⟩
    · have idle : reply contents s.protocol.messages[k] = none := by
        rwa [asks, Bool.not_eq_true, Option.isSome_eq_false_iff, Option.isNone_iff_eq_none]
          at answered
      have kept : Fetching contents bits before after i content received remaining
          (s.without k) := ⟨f.toAsking.without below answered, f.progress.congr rfl rfl⟩
      refine ⟨_, _, exchange_idle at_k idle, ?_, .fetching kept⟩
      show _ = (s.protocol.messages.eraseIdx k).length + _ + 1
      omega

omit [BitSet β] in
/-- As long as something is left, a message is queued; then everything is written. -/
theorem At.over {left : Nat} (h : At contents bits before after left s) :
    (s.protocol.messages = [] ↔ left = 0) ∧ (left = 0 → Finished contents before after s) := by
  cases h with
  | finished f => exact ⟨List.length_eq_zero_iff.symm, fun _ => f⟩
  | fetching f =>
    have some : s.protocol.messages ≠ [] := by
      intro none
      have queued := f.queued.length_eq
      rw [none, List.length_map] at queued
      exact f.unanswered (List.length_eq_zero_iff.1 queued.symm)
    have pos := List.length_pos_iff.2 some
    exact ⟨iff_of_false some (by omega), by omega⟩

omit [BitSet β] in
/-- The writes that were made are the first ones. -/
theorem At.writes {left : Nat} (h : At contents bits before after left s) :
    ∃ written, s.shared.writes = before ++ (writesOf contents).take written := by
  cases h with
  | fetching f => exact ⟨_, f.progress.writes⟩
  | finished f => exact ⟨_, f.writes.trans (by rw [List.take_length])⟩

theorem At.run (whole : Whole contents bits) (schedule : List Nat) : ∀ {left : Nat}
    {s : Peer β φ}, At contents bits before after left s → ∀ t,
      replay (Peer.exchange contents) anyStep s schedule = some t →
        ∃ left', left = left' + schedule.length ∧ At contents bits before after left' t := by
  induction schedule with
  | nil =>
    rintro left s h t ⟨⟩
    exact ⟨left, rfl, h⟩
  | cons k schedule ih =>
    intro left s h t run
    obtain ⟨r, stepped, later⟩ := Option.bind_eq_some_iff.1 run
    have exchanged : s.exchange contents k = some r := stepped
    have below : k < s.protocol.messages.length := by
      by_contra past
      rw [Peer.exchange, List.getElem?_eq_none (by omega)] at exchanged
      cases exchanged
    obtain ⟨left₁, r', exchanged', rfl, h'⟩ := h.exchange whole below
    cases exchanged.symm.trans exchanged'
    obtain ⟨left₂, rfl, h''⟩ := ih h' t later
    exact ⟨left₂, by rw [List.length_cons]; omega, h''⟩

/-- No piece was handed out yet, and the torrent has the pieces that the seeder has. -/
structure Peer.Fresh (contents : List Bytes) (s : Peer β φ) : Prop where
  list : ∃ tf : TorrentFile, tf.pieces.val.length = contents.length ∧
    s.shared.pieceList = .new tf
  sizes : ∀ (i : Nat) content, contents[i]? = some content →
    s.shared.pieceList.sizeOf i = content.length
  idle : ∀ m ∈ s.protocol.messages, reply contents m = none

omit [BitSet β] in
theorem Peer.Fresh.progress (fresh : s.Fresh contents) (nonempty : contents ≠ [])
    (stores : Stores s.shared.files 0 contents after) :
    Progress contents s.protocol.clientsPieces s.shared.writes after 0 0 s := by
  obtain ⟨tf, length, list⟩ := fresh.list
  have pos := List.length_pos_iff.2 nonempty
  have word := tf.pieces.property
  have max : s.shared.pieceList.maxPieceNum = contents.length - 1 := by
    rw [list, ← length]
    exact sub64_eq (by omega) (by omega)
  refine ⟨⟨by omega, ?_, ?_⟩, ?_, ?_, by omega, fresh.sizes, rfl, ?_, stores⟩
  · rw [list]
    exact Nat.zero_le _
  · rw [list]
    exact fun z mem => absurd mem List.not_mem_nil
  · rw [list]
    rfl
  · rw [list]
    rfl
  · rw [List.take_zero, List.append_nil]

/-- The unchoke that starts the session asks for all of the first piece. -/
theorem Peer.Fresh.unchoked (fresh : s.Fresh contents) (nonempty : contents ≠ [])
    (whole : Whole contents s.protocol.clientsPieces)
    (stores : Stores s.shared.files 0 contents after) :
    ∃ s₀, s.processUnchoke = .done () s₀ ∧
      At contents s.protocol.clientsPieces s.shared.writes after
        (s.protocol.messages.length + pending contents) s₀ := by
  have pos := List.length_pos_iff.2 nonempty
  obtain ⟨s₀, unchoked, fetching, length⟩ := (fresh.progress nonempty stores).fetching whole
    (List.getElem?_eq_getElem pos) fresh.idle
  have start := At.fetching fetching
  have total : s₀.protocol.messages.length + pending (contents.drop (0 + 1)) =
      s.protocol.messages.length + pending contents := by
    have split : contents = contents[0] :: contents.drop (0 + 1) := by
      rw [← List.drop_eq_getElem_cons pos, List.drop_zero]
    rw [length, Nat.add_assoc]
    conv_rhs => rw [split]
    rfl
  rw [total] at start
  exact ⟨s₀, unchoked, start⟩

/-- **A session with a seeder comes to its end.** In whatever order the requests are
answered, no exchange faults, and each leaves one less; as long as some are left every
message that is queued can be taken; and with none left, all pieces are written, one after
another and with their contents, and nothing is asked for any more. -/
theorem every_order_completes (nonempty : contents ≠ []) (fresh : s.Fresh contents)
    (whole : Whole contents s.protocol.clientsPieces)
    (stores : Stores s.shared.files 0 contents after) :
    ∃ s₀, s.processUnchoke = .done () s₀ ∧
      ∀ schedule t, replay (Peer.exchange contents) anyStep s₀ schedule = some t →
        schedule.length ≤ s.protocol.messages.length + pending contents ∧
        (∃ n, t.shared.writes = s.shared.writes ++ (writesOf contents).take n) ∧
        (schedule.length < s.protocol.messages.length + pending contents →
          t.protocol.messages ≠ [] ∧
            ∀ k < t.protocol.messages.length, (t.exchange contents k).isSome) ∧
        (schedule.length = s.protocol.messages.length + pending contents →
          t.protocol.messages = [] ∧ t.shared.writes = s.shared.writes ++ writesOf contents ∧
            t.shared.files = after) := by
  obtain ⟨s₀, unchoked, start⟩ := fresh.unchoked nonempty whole stores
  refine ⟨s₀, unchoked, ?_⟩
  intro schedule t run
  obtain ⟨left, eq, h⟩ := start.run whole schedule t run
  obtain ⟨queued, behind⟩ := h.over
  refine ⟨by omega, h.writes, ?_, ?_⟩
  · intro more
    refine ⟨fun none => ?_, ?_⟩
    · have := queued.1 none
      omega
    · intro k below
      obtain ⟨_, r, exchanged, -⟩ := h.exchange whole below
      rw [exchanged]
      rfl
  · intro all
    have finished := behind (by omega)
    exact ⟨queued.2 (by omega), finished.writes, finished.files⟩

/-- A client that has queued its interest in two pieces of one byte each. -/
def interestedClient : Peer (List Bool) (List Bool) where
  protocol :=
    { infoHash := []
      clientsPieces := [true, true, false, false, false, false, false, false]
      pieceIndex := -1
      pieceSize := 0
      offset := 0
      piece := .new
      messages := [interestedMessage.map some]
      numberOfPieces := 0 }
  shared := ⟨.new Swarm.twoPieces, [], []⟩

/-- The second message is taken before the first. -/
theorem every_order_completes_two :
    ∃ s₀ t, interestedClient.processUnchoke = .done () s₀ ∧
      replay (Peer.exchange [[7], [8]]) anyStep s₀ [1, 0, 0] = some t ∧
      t.shared.writes = interestedClient.shared.writes ++ writesOf [[7], [8]] := by
  have fresh : interestedClient.Fresh [[7], [8]] := by
    refine ⟨⟨Swarm.twoPieces, rfl, rfl⟩, ?_, ?_⟩
    · intro i content at_i
      rcases i with _ | _ | i
      · cases at_i
        rfl
      · cases at_i
        rfl
      · cases at_i
    · intro m mem
      rw [List.mem_singleton.1 mem]
      exact reply_interested _
  have whole : Whole [[7], [8]] interestedClient.protocol.clientsPieces := by
    refine ⟨?_, by decide, by decide⟩
    intro i content at_i
    rcases i with _ | _ | i <;> cases at_i <;> exact ⟨by decide, by decide, by decide⟩
  have stores : Stores ([] : List Bool) 0 [[7], [8]] [] := .cons rfl (.cons rfl (.nil _ _))
  obtain ⟨s₀, unchoked, every⟩ := every_order_completes (by decide) fresh whole stores
  have enabled : (replay (Peer.exchange [[7], [8]]) anyStep interestedClient.processUnchoke.state
      [1, 0, 0]).isSome := by decide +kernel
  rw [unchoked] at enabled
  obtain ⟨t, run⟩ := Option.isSome_iff_exists.1 enabled
  exact ⟨s₀, t, unchoked, run, ((every _ t run).2.2.2 (by decide)).2.1⟩

end TorrentClient
