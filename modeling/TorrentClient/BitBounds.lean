import TorrentClient.Attempts

/-!
# The indices used on the pieces of a peer

`m_clients_pieces` is bound by the constructor, to a number of bytes it takes from
the number of pieces, and by every bitfield, to as many bytes as it has. Nothing
asks for the number of bits before an index is used.
-/

namespace TorrentClient

variable {β φ : Type}

/-- A bit set, with the number of bits it was last bound to. -/
structure CountedBits (β : Type) where
  bitSet : β
  count : Nat

/-- `bind` provides eight bits for every byte. -/
instance counted [BitSet β] : BitSet (CountedBits β) where
  unbound := ⟨BitSet.unbound, 0⟩
  bind bits size := (BitSet.bind bits.bitSet size).map fun bitSet => ⟨bitSet, 8 * size⟩
  bindData bits bytes :=
    (BitSet.bindData bits.bitSet bytes).map fun bitSet => ⟨bitSet, 8 * bytes.length⟩
  test bits i := BitSet.test bits.bitSet i
  set bits i value := (BitSet.set bits.bitSet i value).map fun bitSet => ⟨bitSet, bits.count⟩

namespace CountedBits

variable [BitSet β]

/-- A bit set that does the same below the number of bits, and anything behind them. -/
structure SameBelow (β : Type) [BitSet β] where
  bitSet : BitSet (CountedBits β)
  unbound : bitSet.unbound = counted.unbound
  bind : bitSet.bind = counted.bind
  bindData : bitSet.bindData = counted.bindData
  test : ∀ bits i, i < bits.count → bitSet.test bits i = counted.test bits i
  set : ∀ bits i value, i < bits.count → bitSet.set bits i value = counted.set bits i value

/-- It has one answer behind the bits, or throws there. -/
def behind (answer : Option Bool) : SameBelow β where
  bitSet :=
    { unbound := counted.unbound
      bind := counted.bind
      bindData := counted.bindData
      test := fun bits i => if i < bits.count then counted.test bits i else answer
      set := fun bits i value =>
        if i < bits.count then counted.set bits i value else answer.map fun _ => bits }
  unbound := rfl
  bind := rfl
  bindData := rfl
  test _ _ below := if_pos below
  set _ _ _ below := if_pos below

theorem behind_test {bits : CountedBits β} {i : Nat} (out : ¬ i < bits.count)
    (answer : Option Bool) : (behind answer).bitSet.test bits i = answer := if_neg out

theorem behind_set {bits : CountedBits β} {i : Nat} (out : ¬ i < bits.count)
    (answer : Option Bool) (value : Bool) :
    (behind answer).bitSet.set bits i value = answer.map fun _ => bits := if_neg out

end CountedBits

/-! ## The bits of a new peer -/

theorem PeerProtocol.new_count [BitSet β] {infoHash random : Bytes} {pl : PieceList}
    {p : PeerProtocol (CountedBits β)} (h : PeerProtocol.new infoHash random pl = .done () p) :
    p.clientsPieces.count = 8 * add64 (pl.numberOfPieces / 8) 1 := by
  unfold PeerProtocol.new at h
  dsimp only at h
  split at h
  · cases h
  · rename_i bits bound
    obtain ⟨_, _, rfl⟩ := Option.map_eq_some_iff.1 bound
    split at h
    · cases h
    · cases h
      rfl

/-- A new peer uses no index. -/
theorem PeerProtocol.new_same [BitSet β] (other : CountedBits.SameBelow β)
    (infoHash random : Bytes) (pl : PieceList) :
    @PeerProtocol.new _ other.bitSet infoHash random pl = PeerProtocol.new infoHash random pl := by
  simp only [PeerProtocol.new, other.unbound, other.bind]

/-- The bits of a new peer are too few by one when a single piece is more than a
whole number of bytes can mark. -/
theorem PieceList.new_bits (tf : TorrentFile) (ne : tf.pieces.val ≠ []) :
    tf.pieces.val.length ≤ 8 * add64 ((PieceList.new tf).numberOfPieces / 8) 1 ↔
      tf.pieces.val.length = 1 ∨ tf.pieces.val.length % 8 ≠ 1 := by
  have pos := List.length_pos_iff.2 ne
  have small := tf.pieces.property
  show _ ≤ 8 * add64 (sub64 (sub64 tf.pieces.val.length 1) 1 / 8) 1 ↔ _
  rw [sub64_eq (by omega) pos]
  by_cases one : tf.pieces.val.length = 1
  · rw [one]
    decide
  · rw [sub64_eq (by omega) (by omega), add64_eq (by omega)]
    omega

/-! ## The indices a handler uses -/

namespace Peer

section
variable [BitSet β]

/-- The indices that the attempts of `get_piece_index` test. -/
def testedIndices : Nat → Peer β φ → List Nat
  | 0, _ => []
  | attempts + 1, s =>
    let s := s.getPiece
    (if s.protocol.pieceSize = 0 then [] else [toUInt64 s.protocol.pieceIndex]) ++
      if s.wanted = some false then testedIndices attempts s.returnPiece else []

/-- The indices a message has its handler use on `m_clients_pieces`. -/
def indicesUsed [Files φ] (s : Peer β φ) (type : MessageType) (data : List UInt8) (size : Nat) :
    List Nat :=
  match type with
  | .have_ => (ntohlAt data baseMessageSize).toList
  | .unchoke => testedIndices numberOfAttempts s
  | .piece =>
    (s.completed data size).elim [] fun written => testedIndices numberOfAttempts written.released
  | .choke | .interested | .notInterested | .bitfield | .request | .cancel | .port => []

end

/-- The pieces that are looked at, up to the first that is not put back. -/
def lookedAt (wants : Int → Option Bool) : List Int → List Int
  | [] => []
  | z :: rest => z :: if wants z = some false then lookedAt wants rest else []

theorem mem_lookedAt_append {wants : Int → Option Bool} {l l' : List Int} {z : Int} :
    z ∈ lookedAt wants (l ++ l') ↔
      z ∈ lookedAt wants l ∨ (∀ y ∈ l, wants y = some false) ∧ z ∈ lookedAt wants l' := by
  induction l with
  | nil => simp [lookedAt]
  | cons y l ih =>
    by_cases passed : wants y = some false
    · simp only [List.cons_append, lookedAt, passed, if_true, List.mem_cons, ih, or_assoc,
        forall_eq_or_imp, true_and]
    · simp [lookedAt, passed]

theorem mem_of_mem_lookedAt {wants : Int → Option Bool} {l : List Int} {z : Int}
    (h : z ∈ lookedAt wants l) : z ∈ l := by
  induction l with
  | nil => exact h
  | cons y l ih =>
    rw [lookedAt] at h
    rcases List.mem_cons.1 h with rfl | later
    · exact List.mem_cons_self
    · split at later
      · exact List.mem_cons_of_mem y (ih later)
      · exact absurd later List.not_mem_nil

section
variable [BitSet β] {s : Peer β φ} {i : Nat}

theorem mem_testedIndices_queue (n : Nat) : ∀ s : Peer β φ, s.shared.pieceList.Sound →
    ¬ s.shared.pieceList.Exhausted →
    (i ∈ testedIndices n s ↔ ∃ z ∈ lookedAt s.wants (s.shared.pieceList.waiting.take n),
      s.shared.pieceList.sizeOf z ≠ 0 ∧ toUInt64 z = i) := by
  induction n with
  | zero => simp [testedIndices, lookedAt]
  | succ n ih =>
    intro s sound left
    obtain ⟨y, rest, front⟩ := waiting_cons s
    have hands := hands_front sound left front
    have put := hands.putBack
    have later := ih s.getPiece.returnPiece put.sound put.waiting.2
    rw [put.wants, put.sizes, put.waiting.1, List.take_append] at later
    simp only [testedIndices, hands.size, hands.index, hands.wanted, front, List.take_succ_cons,
      lookedAt, List.mem_append, List.mem_ite_nil_left, List.mem_ite_nil_right, List.mem_cons,
      List.not_mem_nil, or_false]
    constructor
    · rintro (⟨size, now⟩ | ⟨passed, again⟩)
      · exact ⟨y, Or.inl rfl, size, now.symm⟩
      · obtain ⟨z, looked, size, index⟩ := later.1 again
        refine ⟨z, ?_, size, index⟩
        rcases mem_lookedAt_append.1 looked with seen | ⟨-, round⟩
        · exact Or.inr ⟨passed, seen⟩
        · exact Or.inl (List.mem_singleton.1 (List.mem_of_mem_take (mem_of_mem_lookedAt round)))
    · rintro ⟨z, rfl | ⟨passed, seen⟩, size, index⟩
      · exact Or.inl ⟨size, index.symm⟩
      · exact Or.inr ⟨passed, later.2 ⟨z, mem_lookedAt_append.2 (Or.inl seen), size, index⟩⟩

/-- **What the attempts test.** The indices of the pieces they look at, as the state
before them has the queue. -/
theorem mem_testedIndices (sound : s.shared.pieceList.Sound) :
    i ∈ testedIndices numberOfAttempts s ↔
      ∃ z ∈ lookedAt s.wants (s.shared.pieceList.waiting.take numberOfAttempts),
        s.shared.pieceList.sizeOf z ≠ 0 ∧ toUInt64 z = i := by
  by_cases none : s.shared.pieceList.Exhausted
  · obtain ⟨wanted, put⟩ := putBack_none sound none
    have size : s.getPiece.protocol.pieceSize = 0 := by
      rw [getPiece_pieceSize, PieceList.exhausted_getPiece none]
    have later := mem_testedIndices_queue (i := i) 19 s.getPiece.returnPiece put.sound
      (@PutBack.waiting _ _ _ _ (-1) [] _ put).2
    rw [put.wants, put.sizes, (@PutBack.waiting _ _ _ _ (-1) [] _ put).1] at later
    rw [PieceList.waiting_exhausted none]
    show i ∈ (if s.getPiece.protocol.pieceSize = 0 then [] else _) ++ _ ↔ _
    rw [if_pos size, if_pos wanted]
    exact later
  · exact mem_testedIndices_queue numberOfAttempts s sound none

end

/-! ## What an index behind the bits changes -/

theorem addBlock_bits (s : Peer β φ) (data : List UInt8) (size : Nat) :
    (s.addBlock data size).state.protocol.clientsPieces = s.protocol.clientsPieces := by
  unfold addBlock
  split
  · rfl
  · split
    · rfl
    · split
      · rfl
      · rw [Outcome.map_state, Outcome.lift_state]

theorem writePiece_bits [Files φ] (s : Peer β φ) :
    s.writePiece.state.protocol.clientsPieces = s.protocol.clientsPieces := by
  unfold writePiece
  dsimp only
  split <;> rfl

/-- Neither the bits nor the list change until the next piece is asked for. -/
theorem Completes.kept [Files φ] {s written : Peer β φ} {data : List UInt8} {size : Nat}
    (completes : s.Completes data size written) :
    written.released.protocol.clientsPieces = s.protocol.clientsPieces ∧
      written.released.shared.pieceList = s.shared.pieceList := by
  obtain ⟨added, returned, -, wrote⟩ := completes
  have custody := addBlock_custody s data size
  have bits := addBlock_bits s data size
  have bits' := writePiece_bits added
  rw [returned] at custody bits
  rw [wrote] at bits'
  exact ⟨bits'.trans bits,
    (writePiece_done wrote).2.1.trans (congrArg Shared.pieceList custody.shared)⟩

section
variable [BitSet β] {s : Peer (CountedBits β) φ}

theorem wanted_same (other : CountedBits.SameBelow β) (below : s.protocol.pieceSize ≠ 0 →
    toUInt64 s.protocol.pieceIndex < s.protocol.clientsPieces.count) :
    @wanted _ _ other.bitSet s = s.wanted := by
  unfold wanted
  by_cases none : s.protocol.pieceSize = 0
  · rw [if_pos none, if_pos none]
  · rw [if_neg none, if_neg none]
    exact other.test _ _ (below none)

theorem wanted_behind (size : s.protocol.pieceSize ≠ 0)
    (out : ¬ toUInt64 s.protocol.pieceIndex < s.protocol.clientsPieces.count)
    (answer : Option Bool) :
    @wanted _ _ (CountedBits.behind answer).bitSet s = answer := by
  unfold wanted
  rw [if_neg size]
  exact CountedBits.behind_test out answer

/-- All the indices are below the bits exactly when the first is, and those after it. -/
theorem tested_below_succ (n : Nat) :
    (∀ i ∈ testedIndices (n + 1) s, i < s.protocol.clientsPieces.count) ↔
      (s.getPiece.protocol.pieceSize ≠ 0 →
        toUInt64 s.getPiece.protocol.pieceIndex < s.getPiece.protocol.clientsPieces.count) ∧
      (s.getPiece.wanted = some false → ∀ i ∈ testedIndices n s.getPiece.returnPiece,
        i < s.getPiece.returnPiece.protocol.clientsPieces.count) := by
  rw [testedIndices, List.forall_mem_append]
  apply and_congr
  · split
    · rename_i none
      exact iff_of_true (fun _ mem => absurd mem List.not_mem_nil) fun size => absurd none size
    · rename_i size
      rw [List.forall_mem_singleton, imp_iff_right size]
      rfl
  · split
    · rename_i passed
      rw [imp_iff_right passed]
      rfl
    · rename_i kept
      exact iff_of_true (fun _ mem => absurd mem List.not_mem_nil) fun passed => absurd passed kept

/-- The attempts use the bits at these indices and no others. -/
theorem attempt_same (other : CountedBits.SameBelow β) (n : Nat) :
    ∀ s : Peer (CountedBits β) φ, (∀ i ∈ testedIndices n s, i < s.protocol.clientsPieces.count) →
      @attempt _ _ other.bitSet n s = attempt n s := by
  induction n with
  | zero => exact fun _ _ => rfl
  | succ n ih =>
    intro s below
    obtain ⟨first, later⟩ := (tested_below_succ n).1 below
    have answer := wanted_same other first
    cases wanted : s.getPiece.wanted with
    | none => simp only [attempt, answer, wanted]
    | some useful =>
      cases useful with
      | true => simp only [attempt, answer, wanted]
      | false =>
        simp only [attempt, answer, wanted]
        exact ih _ (later wanted)

/-- At the first index behind the bits it is the answer that decides. -/
theorem attempt_answered (n : Nat) : ∀ s : Peer (CountedBits β) φ,
    ¬ (∀ i ∈ testedIndices n s, i < s.protocol.clientsPieces.count) →
      ∃ t, @attempt _ _ (CountedBits.behind none).bitSet n s = .thrown .bitSet t ∧
        @attempt _ _ (CountedBits.behind (some true)).bitSet n s = .done () t := by
  induction n with
  | zero => exact fun _ above => absurd (fun _ mem => absurd mem List.not_mem_nil) above
  | succ n ih =>
    intro s above
    rw [tested_below_succ, not_and_or] at above
    by_cases first : s.getPiece.protocol.pieceSize ≠ 0 →
        toUInt64 s.getPiece.protocol.pieceIndex < s.getPiece.protocol.clientsPieces.count
    · have later := above.resolve_left (not_not.2 first)
      rw [Classical.not_imp] at later
      obtain ⟨t, thrown, done⟩ := ih _ later.2
      refine ⟨t, ?_, ?_⟩
      · simp only [attempt, wanted_same _ first, later.1, thrown]
      · simp only [attempt, wanted_same _ first, later.1, done]
    · rw [Classical.not_imp] at first
      refine ⟨s.getPiece, ?_, ?_⟩
      · simp only [attempt, wanted_behind first.1 first.2]
      · simp only [attempt, wanted_behind first.1 first.2]

theorem nextPiece_same_iff : (∀ other : CountedBits.SameBelow β,
    @nextPiece _ _ other.bitSet s = s.nextPiece) ↔
      ∀ i ∈ testedIndices numberOfAttempts s, i < s.protocol.clientsPieces.count := by
  constructor
  · intro all
    by_contra above
    obtain ⟨t, thrown, done⟩ := attempt_answered numberOfAttempts s above
    have one := (all (CountedBits.behind none)).trans (all (CountedBits.behind (some true))).symm
    simp only [nextPiece, getPieceIndex, thrown, done, Outcome.bind_thrown, Outcome.bind_done]
      at one
    split at one
    · cases one
    · rw [Outcome.bind_done, if_pos rfl, createRequest] at one
      split at one <;> cases one
  · intro below other
    unfold nextPiece getPieceIndex
    rw [attempt_same other _ s below]

theorem processHave_same_iff {data : List UInt8} : (∀ other : CountedBits.SameBelow β,
    @processHave _ _ other.bitSet s data = s.processHave data) ↔
      ∀ i ∈ ntohlAt data baseMessageSize, i < s.protocol.clientsPieces.count := by
  constructor
  · intro all i read
    rw [Option.mem_def] at read
    by_contra out
    have one := (all (CountedBits.behind none)).trans (all (CountedBits.behind (some true))).symm
    simp only [processHave, read, CountedBits.behind_set out, Option.map_none, Option.map_some]
      at one
    cases one
  · intro below other
    unfold processHave
    cases read : ntohlAt data baseMessageSize with
    | none => rfl
    | some i => simp only [other.set _ _ _ (below i read)]

variable [Files φ] {data : List UInt8} {size : Nat}

/-- Only a block that completes its piece has the bits looked at. -/
theorem processPiece_same {other : CountedBits.SameBelow β}
    (next : ∀ written, s.Completes data size written →
      @nextPiece _ _ other.bitSet written.released = written.released.nextPiece) :
    @processPiece _ _ other.bitSet _ s data size = s.processPiece data size := by
  refine Outcome.bind_congr fun held added returned => ?_
  cases held with
  | false => rfl
  | true =>
    simp only [if_true, completePiece]
    split
    · rename_i full
      exact Outcome.bind_congr fun _ written wrote => next written ⟨added, returned, full, wrote⟩
    · rfl

/-- **What a handler uses of the bits**: those of its indices and no others. -/
theorem handlers_same_iff (type : MessageType) : (∀ other : CountedBits.SameBelow β,
    @handlers _ _ other.bitSet _ (.message type) data size s =
      handlers (.message type) data size s) ↔
      ∀ i ∈ s.indicesUsed type data size, i < s.protocol.clientsPieces.count := by
  cases type with
  | have_ =>
    simp only [indicesUsed, Option.mem_toList]
    exact processHave_same_iff
  | unchoke => exact nextPiece_same_iff
  | bitfield =>
    refine iff_of_true (fun other => ?_) fun _ mem => absurd mem List.not_mem_nil
    simp only [handlers, processBitfield, other.bindData]
  | piece =>
    show (∀ other : CountedBits.SameBelow β, @processPiece _ _ other.bitSet _ s data size =
      s.processPiece data size) ↔ ∀ i ∈ (s.completed data size).elim [] _, _
    cases completed : s.completed data size with
    | none =>
      refine iff_of_true (fun other => processPiece_same fun written completes => ?_)
        fun _ mem => absurd mem List.not_mem_nil
      rw [completed_eq_some.2 completes] at completed
      cases completed
    | some written =>
      have completes := completed_eq_some.1 completed
      rw [completes.processPiece, ← completes.kept.1]
      refine Iff.trans (forall_congr' fun other => ?_) nextPiece_same_iff
      rw [@Completes.processPiece _ _ _ other.bitSet _ _ _ _ completes]
  | choke | interested | notInterested | request | cancel | port =>
    exact iff_of_true (fun _ => rfl) fun _ mem => absurd mem List.not_mem_nil

end

/-! ## Below the number of bits -/

section
variable [BitSet β] {s : Peer (CountedBits β) φ}

/-- The pieces that `get_piece_index` looks at are numbered below the bits. -/
def LooksBelow (s : Peer (CountedBits β) φ) : Prop :=
  ∀ z ∈ lookedAt s.wants (s.shared.pieceList.waiting.take numberOfAttempts),
    s.shared.pieceList.sizeOf z ≠ 0 → toUInt64 z < s.protocol.clientsPieces.count

instance (s : Peer (CountedBits β) φ) : Decidable s.LooksBelow :=
  inferInstanceAs (Decidable (∀ _ ∈ _, _))

theorem tested_below_iff (sound : s.shared.pieceList.Sound) :
    (∀ i ∈ testedIndices numberOfAttempts s, i < s.protocol.clientsPieces.count) ↔
      s.LooksBelow := by
  constructor
  · intro below z looked size
    exact below _ ((mem_testedIndices sound).2 ⟨z, looked, size, rfl⟩)
  · intro below i tested
    obtain ⟨z, looked, size, rfl⟩ := (mem_testedIndices sound).1 tested
    exact below z looked size

variable [Files φ] {data : List UInt8} {size : Nat}

/-- A message whose handler uses no index that is not below the bits: the index of
a `HaveMessage`, and where a piece is asked for, the pieces that are looked at. -/
def Covered (s : Peer (CountedBits β) φ) (type : MessageType) (data : List UInt8) (size : Nat) :
    Prop :=
  match type with
  | .have_ =>
    ∀ index ∈ ntohlAt data baseMessageSize, index < s.protocol.clientsPieces.count
  | .unchoke => s.LooksBelow
  | .piece => (s.completed data size).isSome → s.LooksBelow
  | .choke | .interested | .notInterested | .bitfield | .request | .cancel | .port => True

instance (s : Peer (CountedBits β) φ) (type : MessageType) (data : List UInt8) (size : Nat) :
    Decidable (s.Covered type data size) :=
  match type with
  | .have_ =>
    inferInstanceAs (Decidable
      (∀ index ∈ ntohlAt data baseMessageSize, index < s.protocol.clientsPieces.count))
  | .unchoke => inferInstanceAs (Decidable s.LooksBelow)
  | .piece => inferInstanceAs (Decidable ((s.completed data size).isSome → s.LooksBelow))
  | .choke | .interested | .notInterested | .bitfield | .request | .cancel | .port =>
    inferInstanceAs (Decidable True)

/-- A piece that is written changes nothing about what is looked at next. -/
theorem Completes.looksBelow {written : Peer (CountedBits β) φ}
    (completes : s.Completes data size written) :
    written.released.LooksBelow ↔ s.LooksBelow := by
  obtain ⟨bits, list⟩ := completes.kept
  have wants : written.released.wants = s.wants := by
    funext z
    simp only [Peer.wants, list, bits]
  unfold LooksBelow
  rw [wants, list, bits]

/-- A handler uses no index that is not below the bits exactly when its message is
covered. -/
theorem indicesUsed_below_iff (sound : s.shared.pieceList.Sound) (type : MessageType)
    (data : List UInt8) (size : Nat) :
    (∀ i ∈ s.indicesUsed type data size, i < s.protocol.clientsPieces.count) ↔
      s.Covered type data size := by
  cases type with
  | have_ => simp only [indicesUsed, Covered, Option.mem_toList, Option.mem_def]
  | unchoke => exact tested_below_iff sound
  | piece =>
    show (∀ i ∈ (s.completed data size).elim [] _, _) ↔ (s.completed data size).isSome → _
    cases completed : s.completed data size with
    | none => exact iff_of_true (fun _ mem => absurd mem List.not_mem_nil) (by rintro ⟨⟩)
    | some written =>
      have completes := completed_eq_some.1 completed
      obtain ⟨bits, list⟩ := completes.kept
      rw [← bits, ← completes.looksBelow]
      exact (tested_below_iff (list ▸ sound)).trans ⟨fun h _ => h, fun h => h rfl⟩
  | choke | interested | notInterested | bitfield | request | cancel | port =>
    exact iff_of_true (fun _ mem => absurd mem List.not_mem_nil) trivial

end

end Peer

/-! ## Runs -/

namespace Swarm

variable [BitSet β] [Files φ] {w : Swarm (CountedBits β) φ}

/-- The action uses no index on the pieces of a peer that is not below the number of
bits that are bound: whatever a bit set does behind them, the action does the same. -/
def InBounds (w : Swarm (CountedBits β) φ) : Action → Prop
  | .connect infoHash random => ∀ other : CountedBits.SameBelow β,
    @PeerProtocol.new _ other.bitSet infoHash random w.shared.pieceList =
      PeerProtocol.new infoHash random w.shared.pieceList
  | .message peer type data size => ∀ s ∈ w.view peer, ∀ other : CountedBits.SameBelow β,
    @Peer.handlers _ _ other.bitSet _ (.message type) data size s =
      Peer.handlers (.message type) data size s
  | .destroy _ => True

def Covered (w : Swarm (CountedBits β) φ) : Action → Prop
  | .message peer type data size => ∀ s ∈ w.view peer, s.Covered type data size
  | .connect _ _ | .destroy _ => True

instance (w : Swarm (CountedBits β) φ) (a : Action) : Decidable (w.Covered a) :=
  match a with
  | .message peer type data size =>
    inferInstanceAs (Decidable (∀ s ∈ w.view peer, s.Covered type data size))
  | .connect _ _ | .destroy _ => inferInstanceAs (Decidable True)

theorem inBounds_iff (h : Reach Start step anyStep w) (a : Action) :
    w.InBounds a ↔ w.Covered a := by
  have sound := (reach_places_le h).1
  cases a with
  | connect infoHash random =>
    exact iff_of_true (fun other => PeerProtocol.new_same other _ _ _) trivial
  | destroy => exact Iff.rfl
  | message peer type data size =>
    refine forall_congr' fun s => forall_congr' fun view => ?_
    exact (Peer.handlers_same_iff type).trans
      (Peer.indicesUsed_below_iff (sound.view view).list type data size)

/-- **When every index is below the number of bits.** It is in every run whose
messages are covered, and a message that is not covered uses one that is not. -/
theorem reach_inBounds (h : Reach Start step Covered w) :
    Reach Start step InBounds w ∧ ∀ a, w.InBounds a ↔ w.Covered a := by
  have any {w : Swarm (CountedBits β) φ} (h : Reach Start step Covered w) :
      Reach Start step anyStep w := h.mono fun _ _ _ => trivial
  refine ⟨?_, inBounds_iff (any h)⟩
  induction h with
  | start first => exact .start first
  | next before met stepped ih => exact .next ih ((inBounds_iff (any before) _).2 met) stepped

/-- Nine pieces of one byte each. -/
def ninePieces : TorrentFile where
  pieces := ⟨List.replicate 9 [], by decide⟩
  files := []
  pieceSize := 1
  lastPieceSize := 1

theorem reach_inBounds_unchoked :
    ∃ w : Swarm (CountedBits (List Bool)) (List Bool),
      replay step Covered (initial twoPieces []) unchoked = some w ∧
      Reach Start step InBounds w ∧ ∀ a, w.InBounds a ↔ w.Covered a := by
  have enabled : (replay step Covered
      (initial twoPieces [] : Swarm (CountedBits (List Bool)) (List Bool)) unchoked).isSome := by
    decide +kernel
  obtain ⟨w, run⟩ := Option.isSome_iff_exists.1 enabled
  exact ⟨w, run, reach_inBounds (Reach.replay (.start (start_initial _ _ (by decide))) run)⟩

/-- A new peer has the last of nine pieces, and room for eight bits. -/
theorem not_inBounds_have :
    ∃ w : Swarm (CountedBits (List Bool)) (List Bool), Reach Start step anyStep w ∧
      (w.step (send .have_ [0, 0, 0, 8])).isSome ∧ ¬ w.InBounds (send .have_ [0, 0, 0, 8]) := by
  have run : (replay step anyStep
      (initial ninePieces [] : Swarm (CountedBits (List Bool)) (List Bool))
      [.connect [] (List.replicate 20 0)]).any (fun w =>
        (w.step (send .have_ [0, 0, 0, 8])).isSome ∧ ¬ w.Covered (send .have_ [0, 0, 0, 8])) := by
    decide +kernel
  obtain ⟨w, run, last⟩ := (Option.any_eq_true _ _).1 run
  obtain ⟨enabled, uncovered⟩ := of_decide_eq_true last
  have reached : Reach Start step anyStep w :=
    Reach.replay (.start (start_initial _ _ (by decide))) run
  exact ⟨w, reached, enabled, (inBounds_iff reached _).not.2 uncovered⟩

end Swarm

end TorrentClient
