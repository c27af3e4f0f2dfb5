import TorrentClient.Handlers
import Mathlib.Data.List.Count

/-!
# Where a piece is

A piece is held by a peer, queued to be handed out again, completed, or not yet
issued. Each handler moves pieces between these places, so the number of places
a piece is in can be followed through every run.
-/

namespace TorrentClient

variable {β φ : Type}

namespace PieceList

/-- The indices of the pieces. -/
def Contains (pl : PieceList) (t : Int) : Prop := 0 ≤ t ∧ t ≤ pl.maxPieceNum

instance (pl : PieceList) (t : Int) : Decidable (pl.Contains t) :=
  inferInstanceAs (Decidable (_ ∧ _))

/-- An index of a piece, or the one that stands for no piece. -/
def Marks (pl : PieceList) (z : Int) : Prop := z = -1 ∨ pl.Contains z

/-- What holds of the list between calls. -/
structure Sound (pl : PieceList) : Prop where
  max_lt : pl.maxPieceNum < 2 ^ 63 - 1
  next_le : pl.nextPiece ≤ pl.maxPieceNum + 1
  queue : ∀ z ∈ pl.returnedPieces, pl.Marks z

def queued (pl : PieceList) (t : Int) : Nat := pl.returnedPieces.count t

def unissued (pl : PieceList) (t : Int) : Nat := if (pl.nextPiece : Int) ≤ t then 1 else 0

/-- **Everything `get_piece` can do.** -/
theorem getPiece_cases {pl : PieceList} (h : pl.Sound) :
    (∃ z rest, pl.returnedPieces = z :: rest ∧
      pl.getPiece = (pl.sizeOf z, z, { pl with returnedPieces := rest })) ∨
    (pl.returnedPieces = [] ∧ pl.nextPiece ≤ pl.maxPieceNum ∧
      pl.getPiece = (pl.sizeOf pl.nextPiece, (pl.nextPiece : Int),
        { pl with nextPiece := pl.nextPiece + 1 })) ∨
    (pl.returnedPieces = [] ∧ pl.maxPieceNum < pl.nextPiece ∧ pl.getPiece = (0, -1, pl)) := by
  have max := h.max_lt
  have next := h.next_le
  cases hq : pl.returnedPieces with
  | cons z rest =>
    refine Or.inl ⟨z, rest, rfl, ?_⟩
    simp only [getPiece, hq]
  | nil =>
    by_cases left : pl.nextPiece ≤ pl.maxPieceNum
    · have index : toInt64 pl.nextPiece = pl.nextPiece := toInt64_of_lt (by omega)
      have bump : add64 pl.nextPiece 1 = pl.nextPiece + 1 := add64_eq (by omega)
      refine Or.inr (Or.inl ⟨rfl, left, ?_⟩)
      simp only [getPiece, hq, if_pos left, index, bump]
    · refine Or.inr (Or.inr ⟨rfl, by omega, ?_⟩)
      simp only [getPiece, hq, if_neg left]

theorem getPiece_sound {pl : PieceList} (h : pl.Sound) :
    pl.getPiece.2.2.Sound ∧ pl.getPiece.2.2.maxPieceNum = pl.maxPieceNum ∧
    pl.Marks pl.getPiece.2.1 := by
  rcases getPiece_cases h with ⟨z, rest, hq, eq⟩ | ⟨hq, left, eq⟩ | ⟨hq, _, eq⟩
  · rw [eq]
    refine ⟨⟨h.max_lt, h.next_le, ?_⟩, rfl, h.queue z (hq ▸ List.mem_cons_self)⟩
    exact fun y hy => h.queue y (hq ▸ List.mem_cons_of_mem z hy)
  · rw [eq]
    refine ⟨⟨h.max_lt, Nat.succ_le_succ left, ?_⟩, rfl, Or.inr ⟨?_, ?_⟩⟩
    · exact fun y hy => absurd (hq ▸ hy) List.not_mem_nil
    · exact Int.natCast_nonneg _
    · exact Int.ofNat_le.2 left
  · rw [eq]
    exact ⟨h, rfl, Or.inl rfl⟩

/-- The piece that is handed out leaves the place it was in. -/
theorem getPiece_count {pl : PieceList} (h : pl.Sound) {t : Int} (ht : pl.Contains t) :
    (if pl.getPiece.2.1 = t then 1 else 0) + pl.getPiece.2.2.queued t +
      pl.getPiece.2.2.unissued t = pl.queued t + pl.unissued t := by
  rcases getPiece_cases h with ⟨z, rest, hq, eq⟩ | ⟨hq, _, eq⟩ | ⟨_, _, eq⟩
  · rw [eq]
    simp only [queued, unissued, hq, List.count_cons, beq_iff_eq]
    omega
  · rw [eq]
    simp only [queued, unissued, hq, List.count_nil, Int.natCast_add]
    split <;> split <;> split <;> omega
  · have : (-1 : Int) ≠ t := by
      have := ht.1
      omega
    rw [eq, if_neg this, Nat.zero_add]

theorem returnPiece_index {pl : PieceList} (h : pl.Sound) {z : Int} (hz : pl.Marks z) :
    (pl.returnPiece (toUInt64 z)).returnedPieces = pl.returnedPieces ++ [z] := by
  have max := h.max_lt
  have back : toInt64 (toUInt64 z) = z := by
    apply toInt64_toUInt64 <;> rcases hz with rfl | ⟨lo, hi⟩ <;> omega
  rw [returnPiece, back]

theorem returnPiece_sound {pl : PieceList} (h : pl.Sound) {z : Int} (hz : pl.Marks z) :
    (pl.returnPiece (toUInt64 z)).Sound where
  max_lt := h.max_lt
  next_le := h.next_le
  queue := by
    rw [returnPiece_index h hz]
    intro y hy
    cases List.mem_append.1 hy with
    | inl hy => exact h.queue y hy
    | inr hy => exact List.mem_singleton.1 hy ▸ hz

theorem returnPiece_count {pl : PieceList} (h : pl.Sound) {z : Int} (hz : pl.Marks z) (t : Int) :
    (pl.returnPiece (toUInt64 z)).queued t = pl.queued t + if z = t then 1 else 0 := by
  rw [queued, returnPiece_index h hz, List.count_append, List.count_singleton, queued]
  simp only [beq_iff_eq]

end PieceList

/-- The write of a piece that returned. -/
def Call.completes (t : Int) : Call → Bool
  | .writePiece id _ _ returned => returned && (id : Int) = t
  | .getPiece _ _ | .returnPiece _ => false

namespace Shared

def completed (sh : Shared φ) (t : Int) : Nat := sh.calls.countP (·.completes t)

/-- The places of a piece that no peer holds. -/
def places (sh : Shared φ) (t : Int) : Nat :=
  sh.pieceList.queued t + sh.pieceList.unissued t + sh.completed t

end Shared

namespace Peer

/-- What holds of a peer and the list between handlers. -/
structure Sound (s : Peer β φ) : Prop where
  list : s.shared.pieceList.Sound
  index : s.shared.pieceList.Marks s.protocol.pieceIndex

/-- The places of a piece, as far as one peer sees them. -/
def places (s : Peer β φ) (t : Int) : Nat :=
  (if s.protocol.pieceIndex = t then 1 else 0) + s.shared.places t

theorem Sound.congr {s s' : Peer β φ} (h : s.Sound) (same : SameCustody s s') : s'.Sound :=
  ⟨same.shared ▸ h.list, same.shared ▸ same.pieceIndex ▸ h.index⟩

theorem places_congr {s s' : Peer β φ} (same : SameCustody s s') (t : Int) :
    s'.places t = s.places t := by
  rw [places, places, same.pieceIndex, same.shared]

variable {s : Peer β φ} {t : Int}

theorem getPiece_sound (h : s.shared.pieceList.Sound) : s.getPiece.Sound where
  list := (PieceList.getPiece_sound h).1
  index := by
    have ⟨_, max, marks⟩ := PieceList.getPiece_sound h
    rcases marks with eq | ⟨lo, hi⟩
    · exact Or.inl eq
    · exact Or.inr ⟨lo, max ▸ hi⟩

/-- `get_piece` takes a piece out of its place. The one the peer held is lost. -/
theorem getPiece_places (h : s.shared.pieceList.Sound) (ht : s.shared.pieceList.Contains t) :
    s.getPiece.places t = s.shared.places t := by
  have moved := PieceList.getPiece_count h ht
  have calls : s.getPiece.shared.completed t = s.shared.completed t := by
    simp [Shared.completed, Call.completes]
  change (if s.shared.pieceList.getPiece.2.1 = t then 1 else 0) +
    (s.shared.pieceList.getPiece.2.2.queued t + s.shared.pieceList.getPiece.2.2.unissued t +
      s.getPiece.shared.completed t) = s.shared.places t
  rw [calls, Shared.places]
  omega

theorem returnPiece_sound (h : s.Sound) : s.returnPiece.Sound :=
  ⟨PieceList.returnPiece_sound h.list h.index, Or.inl rfl⟩

theorem returnPiece_places (h : s.Sound) (ht : s.shared.pieceList.Contains t) :
    s.returnPiece.places t = s.places t ∧ s.returnPiece.shared.places t = s.places t := by
  have moved := PieceList.returnPiece_count h.list h.index t
  have calls : s.returnPiece.shared.completed t = s.shared.completed t := by
    simp [Shared.completed, Call.completes]
  have shared : s.returnPiece.shared.places t = s.places t := by
    change (s.shared.pieceList.returnPiece (toUInt64 s.protocol.pieceIndex)).queued t +
      s.shared.pieceList.unissued t + s.returnPiece.shared.completed t = s.places t
    rw [moved, calls, places, Shared.places]
    omega
  have none : s.returnPiece.protocol.pieceIndex ≠ t := by
    have := ht.1
    rw [returnPiece_pieceIndex]
    omega
  exact ⟨by rw [places, if_neg none, shared, Nat.zero_add], shared⟩

/-- What a handler may do to a piece: nothing, unless it loses the piece the
peer holds. -/
structure Moves (s s' : Peer β φ) (t : Int) (lost : Prop) [Decidable lost] : Prop where
  sound : s'.Sound
  max : s'.shared.pieceList.maxPieceNum = s.shared.pieceList.maxPieceNum
  places : s'.places t + (if lost then 1 else 0) = s.places t

theorem Moves.of_iff {s' : Peer β φ} {lost lost' : Prop} [Decidable lost] [Decidable lost']
    (h : Moves s s' t lost) (same : lost ↔ lost') : Moves s s' t lost' :=
  ⟨h.sound, h.max, by rw [← h.places]; simp only [same]⟩

theorem Moves.of_same {s' : Peer β φ} (h : s.Sound) (same : SameCustody s s') :
    Moves s s' t False :=
  ⟨h.congr same, by rw [same.shared], by rw [places_congr same, if_neg id, Nat.add_zero]⟩

theorem Moves.of_failed {s' : Peer β φ} (h : s.Sound) (failed : FailedWrite s s') :
    Moves s s' t False := by
  obtain ⟨index, list, id, source, size, calls⟩ := failed
  have completed : s'.shared.completed t = s.shared.completed t := by
    simp [Shared.completed, calls, Call.completes]
  refine ⟨⟨list ▸ h.list, list ▸ index ▸ h.index⟩, by rw [list], ?_⟩
  simp only [Peer.places, Shared.places, index, list, completed, if_false, Nat.add_zero]

section
variable [Files φ]

/-- A piece that is completed leaves the peer for the completed ones. -/
theorem written_places {written : Peer β φ} {data : List UInt8} {size : Nat} (h : s.Sound)
    (completes : s.Completes data size written) :
    written.shared.pieceList = s.shared.pieceList ∧ written.shared.places t = s.places t := by
  obtain ⟨added, returned, _, wrote⟩ := completes
  have ⟨sameIndex, sameShared⟩ : SameCustody s added := by
    have custody := addBlock_custody s data size
    rwa [returned] at custody
  obtain ⟨_, list, source, calls⟩ := writePiece_done wrote
  obtain ⟨held, heldIndex⟩ := addBlock_true returned
  have max := h.list.max_lt
  have id : ((toUInt64 added.protocol.pieceIndex : Nat) : Int) = s.protocol.pieceIndex := by
    rw [sameIndex, toUInt64_of_nonneg (by omega)]
    · omega
    · rcases h.index with eq | ⟨_, hi⟩ <;> omega
  have completed : written.shared.completed t =
      s.shared.completed t + if s.protocol.pieceIndex = t then 1 else 0 := by
    rw [Shared.completed, calls, sameShared, List.countP_append, Shared.completed,
      List.countP_singleton]
    simp only [Call.completes, Bool.true_and, id, decide_eq_true_eq]
  have unchanged : written.shared.pieceList = s.shared.pieceList := by rw [list, sameShared]
  refine ⟨unchanged, ?_⟩
  rw [Shared.places, unchanged, completed, Peer.places, Shared.places]
  omega

end

variable [BitSet β]

/-- The attempts end with a piece held, or with none. Whatever the peer held
before them is lost. -/
theorem attempt_places (h : s.shared.pieceList.Sound) (ht : s.shared.pieceList.Contains t) :
    let s' := (attempt numberOfAttempts s).state
    s'.Sound ∧ s'.shared.pieceList.maxPieceNum = s.shared.pieceList.maxPieceNum ∧
    s'.places t = s.shared.places t := by
  refine attempt_rule
    (P := fun r => r.shared.pieceList.Sound ∧
      r.shared.pieceList.maxPieceNum = s.shared.pieceList.maxPieceNum ∧
      r.shared.places t = s.shared.places t)
    (Q := fun r => r.Sound ∧
      r.shared.pieceList.maxPieceNum = s.shared.pieceList.maxPieceNum ∧
      r.places t = s.shared.places t) ?_ (fun _ => id) ?_ 19 s ⟨h, rfl, rfl⟩
  · rintro r ⟨sound, max, places⟩
    have contained : r.shared.pieceList.Contains t := ⟨ht.1, max ▸ ht.2⟩
    exact ⟨getPiece_sound sound, (PieceList.getPiece_sound sound).2.1.trans max,
      (getPiece_places sound contained).trans places⟩
  · rintro r ⟨sound, max, places⟩
    have contained : r.shared.pieceList.Contains t := ⟨ht.1, max ▸ ht.2⟩
    have ⟨own, shared⟩ := returnPiece_places sound contained
    have back := returnPiece_sound sound
    exact ⟨⟨back.list, max, shared.trans places⟩, back, max, own.trans places⟩

theorem nextPiece_moves (h : s.shared.pieceList.Sound) (ht : s.shared.pieceList.Contains t) :
    Moves s s.nextPiece.state t (s.protocol.pieceIndex = t) := by
  have ⟨sound, max, moved⟩ := attempt_places h ht
  have same := nextPiece_custody s
  refine ⟨sound.congr same, same.shared ▸ max, ?_⟩
  rw [places_congr same, moved, places, Nat.add_comm]

variable [Files φ]

theorem processPiece_moves (h : s.Sound) (ht : s.shared.pieceList.Contains t)
    (data : List UInt8) (size : Nat) :
    Moves s (s.processPiece data size).state t False := by
  rcases processPiece_cases s data size with ⟨written, completes, eq⟩ | ⟨_, same | failed⟩
  · have ⟨list, places⟩ := written_places (t := t) h completes
    have nonneg := ht.1
    have none : written.released.protocol.pieceIndex ≠ t := by
      change -1 ≠ t
      omega
    have sound : written.released.shared.pieceList.Sound := list ▸ h.list
    have next := nextPiece_moves sound (t := t) (list ▸ ht)
    have start : written.released.places t = written.shared.places t := by
      rw [Peer.places, if_neg none, Nat.zero_add]
      rfl
    refine eq ▸ ⟨next.sound, next.max.trans (congrArg PieceList.maxPieceNum list), ?_⟩
    have moved := next.places
    rw [if_neg none, start, places] at moved
    exact moved
  · exact .of_same h same
  · exact .of_failed h failed

/-- A handler moves the pieces between their places. Only `process_unchoke` loses
one, that which the peer holds. -/
theorem handlers_moves (h : s.Sound) (ht : s.shared.pieceList.Contains t) (type : MessageType)
    (data : List UInt8) (size : Nat) :
    Moves s (handlers (.message type) data size s).state t
      (type = .unchoke ∧ s.protocol.pieceIndex = t) := by
  cases type with
  | choke =>
    have same : SameCustody s.returnPiece s.processChoke.state := ⟨rfl, rfl⟩
    have moves : Moves s s.processChoke.state t False := by
      refine ⟨(returnPiece_sound h).congr same, rfl, ?_⟩
      rw [places_congr same, (returnPiece_places h ht).1]
      rfl
    exact moves.of_iff (by simp)
  | unchoke => exact (nextPiece_moves h.list ht).of_iff (by simp)
  | have_ => exact (Moves.of_same h (processHave_custody s data)).of_iff (by simp)
  | bitfield => exact (Moves.of_same h (processBitfield_custody s data size)).of_iff (by simp)
  | piece => exact (processPiece_moves h ht data size).of_iff (by simp)
  | interested | notInterested | request | cancel | port =>
    exact (Moves.of_same h (.refl s)).of_iff (by simp)

end Peer

end TorrentClient
