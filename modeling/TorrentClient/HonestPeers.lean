import TorrentClient.Session

/-!
# Peers that send the right bytes

Peers choke, come and go, and send what they like in any order, but a block they send is
a part of its piece. Then every piece that is written is whole.
-/

namespace TorrentClient

variable {β φ : Type}

/-! ## One piece -/

namespace Piece

variable {content : Bytes} {accepted : List Call} {c : Call}

/-- The call hands over a part of the content. -/
structure Call.PartOf (content : Bytes) (c : Call) : Prop where
  inRange : c.InRange content.length
  bytes : c.source.take c.size = (content.drop c.offset).take c.size

theorem Call.PartOf.byte (part : c.PartOf content) {x : Nat} (covers : c.Covers x) :
    c.source[x - c.offset]? = content[x]? := by
  obtain ⟨lo, hi⟩ := covers
  have below : x - c.offset < c.size := by omega
  have position : c.offset + (x - c.offset) = x := by omega
  rw [← List.getElem?_take_of_lt below, part.bytes, List.getElem?_take_of_lt below,
    List.getElem?_drop, position]

theorem supplied_part (parts : ∀ c ∈ accepted, c.PartOf content) {x : Nat}
    (covered : ∃ c ∈ accepted, c.Covers x) : Call.supplied accepted x = content[x]? := by
  obtain ⟨c, found⟩ := Option.isSome_iff_exists.1 (Call.find?_isSome.2 covered)
  have covers : c.Covers x := by simpa using List.find?_some found
  rw [Call.supplied, found, Option.bind_some]
  exact (parts c (List.mem_of_find?_eq_some found)).byte covers

/-- The piece is the one with this content, as far as it is assembled. -/
structure CopyOf (i : Nat) (content : Bytes) (p : Piece) : Prop where
  nonempty : 0 < content.length
  parts : ∃ accepted, Assembled i content.length p accepted ∧ ∀ c ∈ accepted, c.PartOf content

/-- A full piece is its content. -/
theorem CopyOf.whole {i : Nat} {p : Piece} (h : p.CopyOf i content) (full : p.full = true) :
    p.data = some (content.map some) := by
  obtain ⟨accepted, a, parts⟩ := h.parts
  obtain ⟨buf, hd, length, cells⟩ := a.data
  have covered := (a.full_iff h.nonempty).1 full
  rw [hd, Option.some_inj]
  apply List.ext_getElem?
  intro x
  by_cases inside : x < content.length
  · have there : x ∈ p.blocks.covered := covered ▸ ⟨Nat.zero_le x, inside⟩
    rw [cells x inside, supplied_part parts ((a.covered x).1 there), List.getElem?_map,
      List.getElem?_eq_getElem inside]
    rfl
  · rw [List.getElem?_eq_none (by omega), List.getElem?_eq_none (by simpa using inside)]

/-- A part of the content is added, or thrown away. -/
theorem CopyOf.add {i : Nat} {p : Piece} (h : p.CopyOf i content)
    (word : content.length < 2 ^ 64) (part : c.PartOf content) :
    (p.add i c.source c.size c.offset).state.CopyOf i content := by
  obtain ⟨accepted, a, parts⟩ := h.parts
  rcases a.add word part.inRange with ⟨p', added, a'⟩ | ⟨thrown, -⟩
  · rw [added]
    refine ⟨h.nonempty, accepted ++ [c], a', ?_⟩
    intro d mem
    rcases List.mem_append.1 mem with old | new
    · exact parts d old
    · exact List.mem_singleton.1 new ▸ part
  · rw [thrown]
    exact h

/-- What the buffer of a piece holds, if it has one, is of one of the contents. -/
def CopyIn (contents : List Bytes) (p : Piece) : Prop :=
  p.data.isSome → ∃ i content, contents[i]? = some content ∧ p.CopyOf i content

theorem copyIn_of_none {contents : List Bytes} {p : Piece} (none : p.data = none) :
    p.CopyIn contents := by
  intro allocated
  rw [none] at allocated
  cases allocated

/-- A block is taken by the piece it is a part of. -/
theorem CopyIn.add {contents : List Bytes} {i : Nat} {p : Piece} (h : p.CopyIn contents)
    (at_i : contents[i]? = some content) (word : content.length < 2 ^ 64)
    (part : c.PartOf content) :
    (p.add i c.source c.size c.offset).state.CopyIn contents ∧
      ∀ p', p.add i c.source c.size c.offset = .done () p' → p'.CopyOf i content := by
  by_cases refused : p.data = none ∨ (p.id ≠ -1 ∧ p.id ≠ (i : Int))
  · obtain ⟨e, thrown⟩ := add_refused i c.source c.size c.offset refused
    rw [thrown]
    exact ⟨h, fun _ returned => by cases returned⟩
  · obtain ⟨some, same⟩ := not_or.1 refused
    obtain ⟨j, content', at_j, holding⟩ := h (Option.isSome_iff_ne_none.2 some)
    have id : p.id = j := by
      obtain ⟨_, a, _⟩ := holding.parts
      exact a.sameId
    obtain rfl : j = i := by omega
    cases at_i.symm.trans at_j
    have added := holding.add word part
    refine ⟨fun _ => ⟨j, content, at_i, added⟩, ?_⟩
    intro p' returned
    rwa [returned] at added

end Piece

/-! ## The writes -/

/-- The files have come from `before` by these writes, each of a piece with its content. -/
inductive Writes [Files φ] (contents : List Bytes) (before : φ) : List Call → φ → Prop
  | nil : Writes contents before [] before
  | returned {calls : List Call} {files files' : φ} {i : Nat} {content : Bytes} :
      Writes contents before calls files → contents[i]? = some content →
      Files.writePiece files i (some (content.map some)) content.length = .done () files' →
      Writes contents before
        (calls ++ [.writePiece i (some (content.map some)) content.length true]) files'
  | threw {calls : List Call} {files files' : φ} {i : Nat} {content : Bytes} {e : Thrown} :
      Writes contents before calls files → contents[i]? = some content →
      Files.writePiece files i (some (content.map some)) content.length = .thrown e files' →
      Writes contents before
        (calls ++ [.writePiece i (some (content.map some)) content.length false]) files'

/-- The writes of pieces that returned are those that the list of calls completes. -/
theorem Shared.completed_writes (sh : Shared φ) (t : Int) :
    sh.completed t = sh.writes.countP (·.completes t) := by
  rw [Shared.completed, Shared.writes, List.countP_filter]
  congr 1
  funext call
  cases call <;> simp [Call.completes, Call.isWrite]

/-- The list hands out these contents. -/
structure PieceList.Lists (contents : List Bytes) (pl : PieceList) : Prop where
  count : pl.maxPieceNum + 1 = contents.length
  sizes : ∀ (i : Nat) content, contents[i]? = some content → pl.sizeOf i = content.length
  words : ∀ content ∈ contents, content.length < 2 ^ 64

/-- A number of a piece has its content. -/
theorem PieceList.Lists.content {contents : List Bytes} {pl : PieceList}
    (lists : pl.Lists contents) {z : Int} (contained : pl.Contains z) :
    ∃ (i : Nat) (content : Bytes), z = i ∧ contents[i]? = some content ∧
      pl.sizeOf z = content.length := by
  obtain ⟨lo, hi⟩ := contained
  obtain ⟨i, rfl⟩ := Int.eq_ofNat_of_zero_le lo
  have count := lists.count
  have at_i := List.getElem?_eq_getElem (show i < contents.length by omega)
  exact ⟨i, _, rfl, at_i, lists.sizes i _ at_i⟩

namespace Peer

/-- What a peer holds has its size, and no bit stands for the marker. -/
structure Carries [BitSet β] (contents : List Bytes) (s : Peer β φ) : Prop where
  sized : 0 ≤ s.protocol.pieceIndex →
    s.protocol.pieceSize = s.shared.pieceList.sizeOf s.protocol.pieceIndex
  bits : ∀ j, BitSet.test s.protocol.clientsPieces j = some true → j < 2 ^ 36
  copy : s.protocol.piece.CopyIn contents

/-- The bytes of a PIECE message are a part of the piece it names. -/
def Right (contents : List Bytes) (data : List UInt8) (size : Nat) : Prop :=
  ∀ index ∈ ntohlAt data baseMessageSize, ∀ content ∈ contents[index]?,
    ∀ offset ∈ ntohlAt data (baseMessageSize + 4), baseMessageSize + 8 ≤ size ∧
      offset + (size - (baseMessageSize + 8)) ≤ content.length ∧
      (data.drop (baseMessageSize + 8)).take (size - (baseMessageSize + 8)) =
        (content.drop offset).take (size - (baseMessageSize + 8))

instance (contents : List Bytes) (data : List UInt8) (size : Nat) :
    Decidable (Right contents data size) :=
  inferInstanceAs (Decidable (∀ _ ∈ _, _))

variable [BitSet β] {contents : List Bytes} {s : Peer β φ}

omit [BitSet β] in
/-- What is handed out comes with its size. -/
theorem getPiece_sized (s : Peer β φ) (held : 0 ≤ s.getPiece.protocol.pieceIndex) :
    s.getPiece.protocol.pieceSize =
      s.getPiece.shared.pieceList.sizeOf s.getPiece.protocol.pieceIndex := by
  rw [getPiece_sizeOf]
  revert held
  rw [getPiece_pieceIndex, getPiece_pieceSize]
  unfold PieceList.getPiece
  split
  · exact fun _ => rfl
  · split
    · exact fun _ => rfl
    · intro held
      have none : (0 : Int) ≤ -1 := held
      omega

theorem attempt_sized (s : Peer β φ)
    (held : 0 ≤ (attempt numberOfAttempts s).state.protocol.pieceIndex) :
    (attempt numberOfAttempts s).state.protocol.pieceSize =
      (attempt numberOfAttempts s).state.shared.pieceList.sizeOf
        (attempt numberOfAttempts s).state.protocol.pieceIndex := by
  revert held
  apply attempt_rule (P := fun _ => True) (Q := fun t => 0 ≤ t.protocol.pieceIndex →
    t.protocol.pieceSize = t.shared.pieceList.sizeOf t.protocol.pieceIndex) ?_ (fun _ => id) ?_
    19 s trivial
  · exact fun t _ => getPiece_sized t
  · intro t _
    refine ⟨trivial, fun held => ?_⟩
    rw [returnPiece_pieceIndex] at held
    omega

/-- A piece that is assigned is one of the list. -/
theorem attempt_listed {t : Peer β φ}
    (bits : ∀ j, BitSet.test s.protocol.clientsPieces j = some true → j < 2 ^ 36)
    (sound : s.shared.pieceList.Sound) (lists : s.shared.pieceList.Lists contents)
    (attempted : attempt numberOfAttempts s = .done () t) (assigned : t.protocol.pieceSize ≠ 0) :
    ∃ (i : Nat) (content : Bytes), t.protocol.pieceIndex = i ∧ contents[i]? = some content ∧
      t.protocol.pieceSize = content.length := by
  have quiet := attempt_quiet s
  have sized := attempt_sized s
  obtain ⟨⟨list, index⟩, max, -⟩ :=
    attempt_places sound (t := 0) ⟨Int.le_refl 0, Int.natCast_nonneg _⟩
  rw [attempted] at quiet sized index max
  have marked := attempt_wanted 19 s attempted assigned
  rw [wanted, if_neg assigned] at marked
  have small := bits _ (quiet.bits ▸ marked)
  have contained : s.shared.pieceList.Contains t.protocol.pieceIndex := by
    rcases index with marker | contained
    · rw [show t.protocol.pieceIndex = -1 from marker] at small
      exact absurd small (by decide)
    · exact ⟨contained.1, max ▸ contained.2⟩
  obtain ⟨i, content, eq, at_i, size⟩ := lists.content contained
  refine ⟨i, content, eq, at_i, ?_⟩
  rw [← size, ← quiet.sizes]
  exact sized contained.1

/-- What a peer that holds no piece is assigned next. -/
theorem Carries.nextPiece (h : s.Carries contents) (sound : s.shared.pieceList.Sound)
    (lists : s.shared.pieceList.Lists contents) : s.nextPiece.state.Carries contents := by
  have quiet := attempt_quiet s
  have sized := attempt_sized s
  have piece := attempt_piece numberOfAttempts s
  unfold Peer.nextPiece getPieceIndex
  cases attempted : attempt numberOfAttempts s with
  | thrown e t =>
    rw [attempted] at quiet sized piece
    exact ⟨sized, quiet.bits.symm ▸ h.bits, piece.symm ▸ h.copy⟩
  | fault r t =>
    rw [attempted] at quiet sized piece
    exact ⟨sized, quiet.bits.symm ▸ h.bits, piece.symm ▸ h.copy⟩
  | done _ t =>
    rw [Outcome.bind_done]
    by_cases none : t.protocol.pieceSize = 0
    · rw [attempted] at quiet sized piece
      rw [if_pos none]
      exact ⟨sized, quiet.bits.symm ▸ h.bits, piece.symm ▸ h.copy⟩
    · obtain ⟨i, content, index, at_i, size⟩ := attempt_listed h.bits sound lists attempted none
      rw [attempted] at quiet sized
      rw [if_neg none, Outcome.bind_done, if_pos rfl]
      have copy : (Piece.init t.protocol.pieceIndex t.protocol.pieceSize).CopyIn contents := by
        rw [index, size]
        exact fun _ => ⟨i, content, at_i, by omega, [], Piece.assembled_init i content.length,
          fun c mem => absurd mem List.not_mem_nil⟩
      unfold createRequest
      split <;> exact ⟨sized, quiet.bits.symm ▸ h.bits, copy⟩

/-- The peer holds a piece of the list. -/
structure Copies (contents : List Bytes) (i : Nat) (content : Bytes) (s : Peer β φ) : Prop where
  index : s.protocol.pieceIndex = i
  at_i : contents[i]? = some content
  size : s.protocol.pieceSize = content.length
  copy : s.protocol.piece.CopyOf i content

/-- A block that is right is added to the piece it is a part of. -/
theorem Carries.addBlock {data : List UInt8} {size : Nat} (h : s.Carries contents)
    (contained : s.shared.pieceList.Marks s.protocol.pieceIndex)
    (lists : s.shared.pieceList.Lists contents) (right : Right contents data size)
    (whole : size ≤ data.length) (word : size < 2 ^ 64) :
    (s.addBlock data size).state.Carries contents ∧
      ∀ t, s.addBlock data size = .done true t → ∃ i content, t.Copies contents i content := by
  have kept {o : Outcome Thrown (Peer β φ) Bool} (eq : s.addBlock data size = o)
      (same : o.state = s) (not_added : ∀ t, o ≠ .done true t) :
      (s.addBlock data size).state.Carries contents ∧
        ∀ t, s.addBlock data size = .done true t → ∃ i content, t.Copies contents i content :=
    ⟨by rwa [eq, same], fun t added => absurd (eq.symm.trans added) (not_added t)⟩
  cases read_index : ntohlAt data baseMessageSize with
  | none =>
    apply kept (o := .fault .outOfBounds s) (by simp only [Peer.addBlock, read_index]) rfl
    rintro t ⟨⟩
  | some index =>
    by_cases held : (index : Int) = s.protocol.pieceIndex
    · cases read_offset : ntohlAt data (baseMessageSize + 4) with
      | none =>
        apply kept (o := .fault .outOfBounds s) ?_ rfl
        · rintro t ⟨⟩
        · simp only [Peer.addBlock, read_index, read_offset, held, ne_eq, not_true_eq_false,
            if_false]
      | some offset =>
        obtain ⟨i, content, eq, at_i, size_eq⟩ :=
          lists.content (contained.resolve_left (by omega))
        obtain rfl : index = i := by omega
        obtain ⟨long, inside, bytes⟩ := right index read_index content at_i offset read_offset
        have part : Piece.Call.PartOf content
            ⟨data.drop (baseMessageSize + 8), size - (baseMessageSize + 8), offset⟩ := by
          refine ⟨⟨?_, inside⟩, bytes⟩
          rw [List.length_drop]
          exact Nat.sub_le_sub_right whole _
        obtain ⟨copy, copies⟩ :=
          h.copy.add at_i (lists.words content (List.mem_of_getElem? at_i)) part
        rw [addBlock_held read_index held read_offset long word]
        refine ⟨⟨?_, ?_, ?_⟩, ?_⟩
        · rw [Outcome.map_state, Outcome.lift_state]
          exact h.sized
        · rw [Outcome.map_state, Outcome.lift_state]
          exact h.bits
        · rw [Outcome.map_state, Outcome.lift_state]
          exact copy
        · intro t added
          obtain ⟨_, lifted, -⟩ := Outcome.map_eq_done added
          obtain ⟨p', returned, rfl⟩ := Outcome.lift_eq_done lifted
          refine ⟨index, content, eq, at_i, ?_, copies p' returned⟩
          exact (h.sized (by omega)).trans size_eq
    · apply kept (addBlock_other size read_index held) rfl
      rintro t ⟨⟩

variable [Files φ] {before : φ} {i : Nat} {content : Bytes}

omit [Files φ] in
theorem Carries.afterWrite (h : s.Carries contents) (files : φ) (returned : Bool) :
    (s.afterWrite i content files returned).Carries contents :=
  ⟨h.sized, h.bits, Piece.copyIn_of_none rfl⟩

omit [Files φ] in
theorem Carries.released (h : s.Carries contents) : s.released.Carries contents := by
  refine ⟨fun held => ?_, h.bits, h.copy⟩
  have none : (0 : Int) ≤ -1 := held
  omega

omit [BitSet β] in
/-- A full piece is written with its content. -/
theorem Copies.writePiece (h : s.Copies contents i content) (small : i < 2 ^ 64)
    (full : s.protocol.piece.full = true) :
    (∃ files, Files.writePiece s.shared.files i (some (content.map some)) content.length =
        .done () files ∧ s.writePiece = .done () (s.afterWrite i content files true)) ∨
      (∃ e files, Files.writePiece s.shared.files i (some (content.map some)) content.length =
        .thrown e files ∧ s.writePiece = .thrown e (s.afterWrite i content files false)) ∨
      ¬ s.writePiece.Safe := by
  have id : toUInt64 s.protocol.pieceIndex = i := by
    rw [h.index]
    exact toUInt64_of_nonneg (Int.natCast_nonneg i) (by omega)
  unfold Peer.writePiece afterWrite
  simp only [Piece.get, h.copy.whole full, id, h.size]
  cases Files.writePiece s.shared.files i (some (content.map some)) content.length with
  | done _ files => exact Or.inl ⟨files, rfl, rfl⟩
  | thrown e files => exact Or.inr (Or.inl ⟨e, files, rfl, rfl⟩)
  | fault r files => exact Or.inr (Or.inr Outcome.not_safe_fault)

/-- The block that completes a piece leads to the write of the whole piece. -/
theorem Copies.completePiece (h : s.Copies contents i content) (carries : s.Carries contents)
    (sound : s.shared.pieceList.Sound) (lists : s.shared.pieceList.Lists contents)
    (small : i < 2 ^ 64) (writes : Writes contents before s.shared.writes s.shared.files)
    (safe : s.completePiece.Safe) :
    s.completePiece.state.Carries contents ∧
      Writes contents before s.completePiece.state.shared.writes
        s.completePiece.state.shared.files := by
  revert safe
  unfold Peer.completePiece
  split
  · rename_i full
    rcases h.writePiece small full with ⟨files, wrote, eq⟩ | ⟨e, files, wrote, eq⟩ | unsafe_write
    · rw [eq, Outcome.bind_done]
      intro _
      refine ⟨(carries.afterWrite files true).released.nextPiece sound lists, ?_⟩
      rw [nextPiece_writes, nextPiece_files]
      show Writes contents before (s.afterWrite i content files true).shared.writes files
      rw [afterWrite_writes]
      exact .returned writes h.at_i wrote
    · rw [eq]
      intro _
      refine ⟨carries.afterWrite files false, ?_⟩
      rw [Outcome.bind_thrown, Outcome.state_thrown, afterWrite_writes]
      exact .threw writes h.at_i wrote
    · exact fun safe => absurd (Outcome.bind_safe.1 safe).1 unsafe_write
  · exact fun _ => ⟨carries, writes⟩

/-- A block leads to no write, or to that of the piece it completes. -/
theorem Carries.processPiece {data : List UInt8} {size : Nat} (h : s.Carries contents)
    (sound : s.Sound) (lists : s.shared.pieceList.Lists contents)
    (right : Right contents data size) (whole : size ≤ data.length) (word : size < 2 ^ 64)
    (writes : Writes contents before s.shared.writes s.shared.files)
    (safe : (s.processPiece data size).Safe) :
    (s.processPiece data size).state.Carries contents ∧
      Writes contents before (s.processPiece data size).state.shared.writes
        (s.processPiece data size).state.shared.files := by
  obtain ⟨kept, copies⟩ := h.addBlock sound.index lists right whole word
  have same := (addBlock_custody s data size).shared
  revert safe
  unfold Peer.processPiece
  cases added : s.addBlock data size with
  | thrown e t =>
    rw [added] at kept same
    rw [Outcome.bind_thrown, Outcome.state_thrown, show t.shared = _ from same]
    exact fun _ => ⟨kept, writes⟩
  | fault r t => exact fun safe => absurd safe Outcome.not_safe_fault
  | done held t =>
    rw [added] at kept same
    have same : t.shared = s.shared := same
    rw [← same] at writes lists
    rw [Outcome.bind_done]
    cases held with
    | false => exact fun _ => ⟨kept, writes⟩
    | true =>
      obtain ⟨i, content, copy⟩ := copies t added
      have list : t.shared.pieceList.Sound := same.symm ▸ sound.list
      have below := (List.getElem?_eq_some_iff.1 copy.at_i).1
      have count := lists.count
      have max := list.max_lt
      exact copy.completePiece kept list lists (by omega) writes

/-- **What a message of such a peer does.** It leads to no other write than that of a piece
with its content. -/
theorem Carries.message [LawfulBitSet β] (h : s.Carries contents) (sound : s.Sound)
    (lists : s.shared.pieceList.Lists contents) {type : MessageType} {data : List UInt8}
    {size : Nat} (dispatched : Dispatched type data size)
    (safe : (handlers (.message type) data size s).Safe)
    (right : type = .piece → Right contents data size)
    (writes : Writes contents before s.shared.writes s.shared.files) :
    (handlers (.message type) data size s).state.Carries contents ∧
      Writes contents before (handlers (.message type) data size s).state.shared.writes
        (handlers (.message type) data size s).state.shared.files := by
  have bits (j : Nat) (marked : BitSet.test
      (handlers (.message type) data size s).state.protocol.clientsPieces j = some true) :
      j < 2 ^ 36 := by
    rcases handlers_marks safe 0 marked with before | announced
    · exact h.bits j before
    · exact announced.small dispatched
  cases type with
  | choke =>
    have same : s.processChoke.state.shared.writes = s.shared.writes := by
      show (s.shared.calls ++ [_]).filter _ = _
      rw [List.filter_append]
      exact List.append_nil _
    refine ⟨⟨fun held => ?_, h.bits, Piece.copyIn_of_none rfl⟩, ?_⟩
    · have none : (0 : Int) ≤ -1 := held
      omega
    · show Writes contents before s.processChoke.state.shared.writes s.shared.files
      rwa [same]
  | unchoke =>
    refine ⟨h.nextPiece sound.list lists, ?_⟩
    show Writes contents before s.nextPiece.state.shared.writes s.nextPiece.state.shared.files
    rwa [nextPiece_writes, nextPiece_files]
  | have_ =>
    revert bits
    dsimp only [handlers]
    unfold processHave
    split
    · exact fun _ => ⟨h, writes⟩
    · split <;> exact fun bits => ⟨⟨h.sized, bits, h.copy⟩, writes⟩
  | bitfield =>
    revert bits
    dsimp only [handlers]
    unfold processBitfield
    split
    · exact fun _ => ⟨h, writes⟩
    · split <;> exact fun bits => ⟨⟨h.sized, bits, h.copy⟩, writes⟩
  | piece =>
    have short := dispatched.short
    exact h.processPiece sound lists (right rfl) dispatched.2.1 (by omega) writes safe
  | interested | notInterested | request | cancel | port => exact ⟨h, writes⟩

end Peer

/-! ## Runs -/

theorem PieceList.Lists.congr {contents : List Bytes} {pl pl' : PieceList}
    (h : pl.Lists contents) (max : pl'.maxPieceNum = pl.maxPieceNum)
    (sizes : pl'.sizeOf = pl.sizeOf) : pl'.Lists contents :=
  ⟨max ▸ h.count, sizes ▸ h.sizes, h.words⟩

namespace Swarm

variable [BitSet β] [Files φ] {contents : List Bytes} {before : φ} {w w' : Swarm β φ}

/-- A block that a peer sends is a part of its piece. -/
def Honest (contents : List Bytes) (_ : Swarm β φ) : Action → Prop
  | .message _ type data size => type = .piece → Peer.Right contents data size
  | .connect _ _ | .destroy _ => True

instance (contents : List Bytes) (w : Swarm β φ) (a : Action) : Decidable (w.Honest contents a) :=
  match a with
  | .message _ _ _ _ => inferInstanceAs (Decidable (_ → _))
  | .connect _ _ | .destroy _ => inferInstanceAs (Decidable True)

/-- A swarm that has just been set up for a torrent with these contents. -/
def Begins (contents : List Bytes) (before : φ) (w : Swarm β φ) : Prop :=
  ∃ tf : TorrentFile, tf.pieces.val ≠ [] ∧ (PieceList.new tf).Lists contents ∧
    w = initial tf before

/-- What holds of the peers of a run, and of what they have written. -/
structure Carried (contents : List Bytes) (before : φ) (w : Swarm β φ) : Prop where
  sound : w.Sound
  lists : w.shared.pieceList.Lists contents
  peers : ∀ peer s, w.view peer = some s → s.Carries contents
  writes : Writes contents before w.shared.writes w.shared.files

theorem Begins.carried (h : Begins contents before w) : w.Carried contents before := by
  obtain ⟨tf, some, lists, rfl⟩ := h
  refine ⟨(start_places ⟨tf, before, some, rfl⟩).1, lists, ?_, .nil⟩
  intro peer s live
  exact absurd (view_eq_some.1 live).1 (by simp [peer?, initial])

omit [Files φ] in
theorem new_carries [LawfulBitSet β] {infoHash random : Bytes} {pl : PieceList} {s : Peer β φ}
    (made : PeerProtocol.new infoHash random pl = .done () s.protocol) : s.Carries contents := by
  obtain ⟨⟨bits, size, bound⟩, -⟩ := new_told made
  obtain ⟨index, -, piece⟩ := new_done made
  refine ⟨fun held => ?_, fun j marked => absurd marked (LawfulBitSet.test_bind bound j), ?_⟩
  · rw [index] at held
    omega
  · rw [piece]
    exact Piece.copyIn_of_none rfl

theorem Carried.step [LawfulBitSet β] (h : w.Carried contents before) {a : Action}
    (honest : w.Honest contents a) (stepped : w.step a = some w') :
    w'.Carried contents before := by
  obtain ⟨sound, max⟩ := step_sound h.sound stepped
  rcases step_cases stepped with ⟨infoHash, random, p, rfl, made, rfl⟩ |
    ⟨other, p, rfl, _, rfl⟩ | ⟨other, type, data, size, s, rfl, dispatched, hs, safe, rfl⟩
  · refine ⟨sound, h.lists, ?_, h.writes⟩
    intro peer r hr
    rcases view_connect hr with old | ⟨_, rfl⟩
    · exact h.peers peer r old
    · exact new_carries made
  · exact ⟨sound, h.lists, fun peer r hr => h.peers peer r (view_destroy hr), h.writes⟩
  · have shared := (view_eq_some.1 hs).2
    have lists := shared ▸ h.lists
    obtain ⟨carries, writes⟩ := (h.peers other s hs).message (h.sound.view hs) lists dispatched safe
      honest (shared ▸ h.writes)
    have sizes := Peer.handlers_sizeOf s type data size
    rw [shared] at sizes
    refine ⟨sound, h.lists.congr max sizes, ?_, writes⟩
    intro peer r hr
    rcases view_put hr with ⟨rfl, rfl⟩ | ⟨p, old, rfl⟩
    · exact carries
    · have kept := h.peers peer _ old
      exact ⟨sizes ▸ kept.sized, kept.bits, kept.copy⟩

theorem reach_carried [LawfulBitSet β]
    (h : Reach (Begins contents before) step (Honest contents) w) : w.Carried contents before :=
  Reach.invariant (fun _ started => started.carried)
    (fun _ _ _ kept honest stepped => kept.step honest stepped) h

end Swarm

theorem Writes.whole [Files φ] {contents : List Bytes} {before files : φ} {calls : List Call}
    (h : Writes contents before calls files) {id size : Nat} {source : Option (List Cell)}
    {returned : Bool} (mem : .writePiece id source size returned ∈ calls) :
    ∃ content, contents[id]? = some content ∧ source = some (content.map some) ∧
      size = content.length := by
  induction h with
  | nil => exact absurd mem List.not_mem_nil
  | returned _ at_i _ ih | threw _ at_i _ ih =>
    rcases List.mem_append.1 mem with old | new
    · exact ih old
    · cases List.mem_singleton.1 new
      exact ⟨_, at_i, rfl, rfl⟩

namespace Swarm

variable [BitSet β] [LawfulBitSet β] [Files φ] {contents : List Bytes} {before : φ} {w : Swarm β φ}

/-- **No wrong byte is written**, in whatever order the messages of the peers come, and
whichever writes fail. -/
theorem whole_pieces_written (h : Reach (Begins contents before) step (Honest contents) w)
    {id size : Nat} {source : Option (List Cell)} {returned : Bool}
    (mem : .writePiece id source size returned ∈ w.shared.calls) :
    ∃ content, contents[id]? = some content ∧ source = some (content.map some) ∧
      size = content.length :=
  (reach_carried h).writes.whole (List.mem_filter.2 ⟨mem, rfl⟩)

omit [BitSet β] [LawfulBitSet β] [Files φ] in
theorem begins_twoPieces (before : φ) :
    Begins [[7], [8]] before (initial twoPieces before : Swarm β φ) := by
  refine ⟨twoPieces, by decide, ⟨rfl, ?_, by decide⟩, rfl⟩
  intro i content at_i
  rcases i with _ | _ | i <;> cases at_i <;> rfl

/-- The only byte of the first piece arrives, and is written. -/
theorem whole_pieces_written_unchoked :
    ∃ w, replay step (Honest [[7], [8]]) (initial twoPieces [] : Swarm (List Bool) (List Bool))
        (unchoked ++ [send .piece [0, 0, 0, 0, 0, 0, 0, 0, 7]]) = some w ∧
      .writePiece 0 (some [some 7]) 1 true ∈ w.shared.calls ∧
      ∃ content : Bytes, ([[7], [8]] : List Bytes)[0]? = some content ∧
        some [some 7] = some (content.map some) ∧ 1 = content.length := by
  have enabled : (replay step (Honest [[7], [8]])
      (initial twoPieces [] : Swarm (List Bool) (List Bool))
      (unchoked ++ [send .piece [0, 0, 0, 0, 0, 0, 0, 0, 7]])).any (fun w =>
        .writePiece 0 (some [some 7]) 1 true ∈ w.shared.calls) := by decide +kernel
  obtain ⟨w, run, written⟩ := (Option.any_eq_true _ _).1 enabled
  have mem := of_decide_eq_true written
  exact ⟨w, run, mem,
    whole_pieces_written (Reach.replay (.start (begins_twoPieces [])) run) mem⟩

end Swarm

end TorrentClient
