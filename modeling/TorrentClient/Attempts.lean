import TorrentClient.Marker

/-!
# Which piece a peer is given

`get_piece_index` takes a piece from the list and puts it back behind the others
when it is of no use, twenty times at most. A piece that was put back comes
before every piece that was never issued, so the attempts go round the queue.
-/

namespace TorrentClient

variable {β φ : Type}

namespace PieceList

/-- The pieces the attempts come to, one after another. -/
def waiting (pl : PieceList) : List Int :=
  match pl.returnedPieces with
  | [] => [if pl.nextPiece ≤ pl.maxPieceNum then (pl.nextPiece : Int) else -1]
  | queue => queue

/-- The number of times a piece is queued or not yet issued. -/
def unassigned (pl : PieceList) (t : Int) : Nat := pl.queued t + pl.unissued t

variable {pl : PieceList} {z t : Int} {rest : List Int}

theorem waiting_queue (ne : pl.returnedPieces ≠ []) : pl.waiting = pl.returnedPieces := by
  unfold waiting
  split
  · rename_i none
    exact absurd none ne
  · rfl

theorem waiting_exhausted (none : pl.Exhausted) : pl.waiting = [-1] := by
  simp only [waiting, none.1, if_neg (Nat.not_le.2 none.2)]

theorem unassigned_exhausted (none : pl.Exhausted) (ht : pl.Contains t) :
    pl.unassigned t = 0 := by
  have max := ht.2
  have next := none.2
  rw [unassigned, queued, none.1, unissued, if_neg (by omega)]
  rfl

/-- The piece in front is handed out. -/
theorem getPiece_waiting (h : pl.Sound) (left : ¬ pl.Exhausted) (front : pl.waiting = z :: rest) :
    ∃ pl', pl.getPiece = (pl.sizeOf z, z, pl') ∧ pl'.returnedPieces = rest := by
  rcases getPiece_cases h with ⟨y, queue, hq, eq⟩ | ⟨hq, le, eq⟩ | ⟨hq, lt, _⟩
  · rw [waiting_queue (by simp [hq]), hq] at front
    cases front
    exact ⟨_, eq, rfl⟩
  · simp only [waiting, hq, if_pos le] at front
    cases front
    exact ⟨_, eq, hq⟩
  · exact absurd ⟨hq, lt⟩ left

theorem waiting_marks (h : pl.Sound) (mem : z ∈ pl.waiting) : pl.Marks z := by
  by_cases none : pl.Exhausted
  · rw [waiting_exhausted none] at mem
    exact Or.inl (List.mem_singleton.1 mem)
  · by_cases ne : pl.returnedPieces = []
    · have le : pl.nextPiece ≤ pl.maxPieceNum := Nat.not_lt.1 fun lt => none ⟨ne, lt⟩
      simp only [waiting, ne, if_pos le, List.mem_singleton] at mem
      subst mem
      exact Or.inr ⟨Int.natCast_nonneg _, Int.ofNat_le.2 le⟩
    · rw [waiting_queue ne] at mem
      exact h.queue z mem

/-- A piece that waits is not assigned. -/
theorem unassigned_pos (h : pl.Sound) (mem : z ∈ pl.waiting) (piece : z ≠ -1) :
    pl.Contains z ∧ 0 < pl.unassigned z := by
  have contained := (waiting_marks h mem).resolve_left piece
  refine ⟨contained, ?_⟩
  by_cases ne : pl.returnedPieces = []
  · by_cases le : pl.nextPiece ≤ pl.maxPieceNum
    · simp only [waiting, ne, if_pos le, List.mem_singleton] at mem
      rw [unassigned, unissued, if_pos (by rw [mem])]
      omega
    · rw [waiting_exhausted ⟨ne, Nat.not_le.1 le⟩] at mem
      exact absurd (List.mem_singleton.1 mem) piece
  · rw [waiting_queue ne] at mem
    have := List.count_pos_iff.2 mem
    rw [unassigned, queued]
    omega

end PieceList

namespace Peer

theorem getPiece_sizeOf (s : Peer β φ) :
    s.getPiece.shared.pieceList.sizeOf = s.shared.pieceList.sizeOf := by
  funext z
  show s.shared.pieceList.getPiece.2.2.sizeOf z = _
  unfold PieceList.getPiece
  split
  · rfl
  · split <;> rfl

theorem waiting_cons (s : Peer β φ) : ∃ z rest, s.shared.pieceList.waiting = z :: rest := by
  unfold PieceList.waiting
  split
  · exact ⟨_, _, rfl⟩
  · rename_i queue ne
    exact List.exists_cons_of_ne_nil ne

variable [BitSet β] {s : Peer β φ} {z : Int} {rest : List Int} {n : Nat}

/-- What `wanted` is when the piece is in hand. -/
def wants (s : Peer β φ) (z : Int) : Option Bool :=
  if s.shared.pieceList.sizeOf z = 0 then some false
  else BitSet.test s.protocol.clientsPieces (toUInt64 z)

/-- The state after an attempt on a piece that was put back. -/
structure PutBack (s s' : Peer β φ) (queue : List Int) : Prop where
  sound : s'.shared.pieceList.Sound
  queued : s'.shared.pieceList.returnedPieces = queue
  wants : s'.wants = s.wants
  bits : s'.protocol.clientsPieces = s.protocol.clientsPieces
  size : s'.protocol.pieceSize = 0
  sizes : s'.shared.pieceList.sizeOf = s.shared.pieceList.sizeOf

theorem getPiece_putBack (sound : s.shared.pieceList.Sound)
    (index : s.shared.pieceList.getPiece.2.1 = z)
    (queue : s.shared.pieceList.getPiece.2.2.returnedPieces = rest) :
    s.PutBack s.getPiece.returnPiece (rest ++ [z]) := by
  have got := getPiece_sound (s := s) sound
  have sizes : s.getPiece.returnPiece.shared.pieceList.sizeOf = s.shared.pieceList.sizeOf :=
    getPiece_sizeOf s
  refine ⟨(returnPiece_sound got).list, ?_, ?_, rfl, rfl, sizes⟩
  · rw [returnPiece_pieceList, PieceList.returnPiece_index got.list got.index]
    exact congrArg₂ (· ++ [·]) queue index
  · funext y
    rw [wants, wants, sizes]
    rfl

/-- What an attempt finds when there is something to be handed out. -/
structure Hands (s : Peer β φ) (z : Int) (rest : List Int) : Prop where
  index : s.getPiece.protocol.pieceIndex = z
  size : s.getPiece.protocol.pieceSize = s.shared.pieceList.sizeOf z
  wanted : s.getPiece.wanted = s.wants z
  putBack : s.PutBack s.getPiece.returnPiece (rest ++ [z])

theorem hands_front (sound : s.shared.pieceList.Sound) (left : ¬ s.shared.pieceList.Exhausted)
    (front : s.shared.pieceList.waiting = z :: rest) : s.Hands z rest := by
  obtain ⟨pl, got, queue⟩ := PieceList.getPiece_waiting sound left front
  have index : s.getPiece.protocol.pieceIndex = z := by rw [getPiece_pieceIndex, got]
  have size : s.getPiece.protocol.pieceSize = s.shared.pieceList.sizeOf z := by
    rw [getPiece_pieceSize, got]
  refine ⟨index, size, ?_, ?_⟩
  · have same (n : Nat) (i : Int) (hn : n = s.shared.pieceList.sizeOf z) (hi : i = z) :
        (if n = 0 then some false else BitSet.test s.protocol.clientsPieces (toUInt64 i)) =
          s.wants z := by
      subst hn hi
      rfl
    exact same _ _ size index
  · apply getPiece_putBack sound
    · rw [got]
    · rw [got]
      exact queue

/-- With nothing to be handed out, the index that stands for no piece is queued. -/
theorem putBack_none (sound : s.shared.pieceList.Sound) (none : s.shared.pieceList.Exhausted) :
    s.getPiece.wanted = some false ∧ s.PutBack s.getPiece.returnPiece [-1] := by
  have got := PieceList.exhausted_getPiece none
  constructor
  · rw [Peer.wanted, getPiece_pieceSize, got]
    rfl
  · apply @getPiece_putBack _ _ _ s (-1) [] sound
    · rw [got]
    · rw [got]
      exact none.1

/-- One attempt, as the piece is found. -/
theorem attempt_succ (hands : s.Hands z rest) (n : Nat) :
    (s.wants z = none → attempt (n + 1) s = .thrown .bitSet s.getPiece) ∧
      (s.wants z = some true → attempt (n + 1) s = .done () s.getPiece) ∧
      (s.wants z = some false → attempt (n + 1) s = attempt n s.getPiece.returnPiece) := by
  refine ⟨?_, ?_, ?_⟩
  all_goals
    intro wants
    rw [attempt, hands.wanted, wants]

theorem PutBack.waiting {s' : Peer β φ} (h : s.PutBack s' (rest ++ [z])) :
    s'.shared.pieceList.waiting = rest ++ [z] ∧ ¬ s'.shared.pieceList.Exhausted := by
  have ne : s'.shared.pieceList.returnedPieces ≠ [] := by simp [h.queued]
  exact ⟨(PieceList.waiting_queue ne).trans h.queued, fun none => ne none.1⟩

/-- None of the pieces the attempts come to is of use. -/
theorem attempt_stalls (n : Nat) : ∀ s : Peer β φ, s.shared.pieceList.Sound →
    ¬ s.shared.pieceList.Exhausted →
    (∀ y ∈ s.shared.pieceList.waiting.take (n + 1), s.wants y = some false) →
    ∃ s', attempt (n + 1) s = .done () s' ∧ s'.protocol.pieceSize = 0 := by
  induction n with
  | zero =>
    intro s sound left useless
    obtain ⟨z, rest, front⟩ := waiting_cons s
    have hands := hands_front sound left front
    rw [front] at useless
    exact ⟨_, (attempt_succ hands 0).2.2 (useless z List.mem_cons_self), hands.putBack.size⟩
  | succ n ih =>
    intro s sound left useless
    obtain ⟨z, rest, front⟩ := waiting_cons s
    have hands := hands_front sound left front
    have put := hands.putBack
    rw [front, List.take_succ_cons, List.forall_mem_cons] at useless
    rw [(attempt_succ hands (n + 1)).2.2 useless.1]
    apply ih _ put.sound put.waiting.2
    intro y mem
    rw [put.wants]
    rw [put.waiting.1] at mem
    rw [List.take_append] at mem
    rcases List.mem_append.1 mem with seen | again
    · exact useless.2 y seen
    · rw [List.mem_singleton.1 (List.mem_of_mem_take again)]
      exact useless.1

/-- The attempts come to a piece through those that are of no use. -/
theorem attempt_reaches {front back : List Int} : ∀ (n : Nat) (s : Peer β φ),
    s.shared.pieceList.Sound → ¬ s.shared.pieceList.Exhausted →
    s.shared.pieceList.waiting.take n = front ++ z :: back →
    (∀ y ∈ front, s.wants y = some false) → s.wants z ≠ some false →
    ∃ got : Peer β φ, got.protocol.pieceIndex = z ∧
      got.protocol.pieceSize = s.shared.pieceList.sizeOf z ∧
      got.protocol.clientsPieces = s.protocol.clientsPieces ∧
      attempt n s = if s.wants z = some true then .done () got else .thrown .bitSet got := by
  induction front generalizing back with
  | nil =>
    intro n s sound left split _ answered
    obtain ⟨y, rest, front⟩ := waiting_cons s
    cases n with
    | zero => cases split
    | succ n =>
      rw [front, List.take_succ_cons] at split
      cases split
      have hands := hands_front sound left front
      obtain ⟨thrown, done, -⟩ := attempt_succ hands n
      refine ⟨_, hands.index, hands.size, rfl, ?_⟩
      cases wants : s.wants z with
      | none => exact (thrown wants).trans (if_neg (by rintro ⟨⟩)).symm
      | some useful =>
        cases useful with
        | true => exact (done wants).trans (if_pos rfl).symm
        | false => exact absurd wants answered
  | cons y front ih =>
    intro n s sound left split useless answered
    obtain ⟨y', rest, first⟩ := waiting_cons s
    cases n with
    | zero => cases split
    | succ n =>
      rw [first, List.take_succ_cons, List.cons_append, List.cons.injEq] at split
      obtain ⟨rfl, split⟩ := split
      rw [List.forall_mem_cons] at useless
      have hands := hands_front sound left first
      have rotated := hands.putBack
      have later : s.getPiece.returnPiece.shared.pieceList.waiting.take n =
          front ++ z :: (back ++ [y'].take (n - rest.length)) := by
        rw [rotated.waiting.1, List.take_append, split, List.append_assoc, List.cons_append]
      have reached := ih n _ rotated.sound rotated.waiting.2 later
        (by rw [rotated.wants]; exact useless.2) (by rwa [rotated.wants])
      rw [rotated.wants, rotated.bits, rotated.sizes] at reached
      rwa [(attempt_succ hands n).2.2 useless.1]

theorem attempt_completed (s : Peer β φ) (t : Int) :
    (attempt numberOfAttempts s).state.shared.completed t = s.shared.completed t := by
  have same (r : Peer β φ) : r.getPiece.shared.completed t = r.shared.completed t ∧
      r.returnPiece.shared.completed t = r.shared.completed t := by
    simp [Shared.completed, Call.completes]
  apply attempt_rule (P := fun r => r.shared.completed t = s.shared.completed t)
    (Q := fun r => r.shared.completed t = s.shared.completed t) ?_ (fun _ => id) ?_ 19 s rfl
  · exact fun r h => (same r).1.trans h
  · exact fun r h => ⟨(same r).2.trans h, (same r).2.trans h⟩

/-- The attempts take one piece at most from where it waits. -/
theorem attempt_unassigned (sound : s.shared.pieceList.Sound) {t : Int}
    (ht : s.shared.pieceList.Contains t) {s' : Peer β φ}
    (ended : (attempt numberOfAttempts s).state = s') (other : t ≠ s'.protocol.pieceIndex) :
    s'.shared.pieceList.unassigned t = s.shared.pieceList.unassigned t := by
  have moved := (attempt_places sound ht).2.2
  have completed := attempt_completed s t
  rw [ended] at moved completed
  rw [Peer.places, if_neg (Ne.symm other), Nat.zero_add, Shared.places, Shared.places,
    completed] at moved
  exact Nat.add_right_cancel moved

/-! ## The piece that is assigned -/

/-- The first of the pieces the attempts come to that is not put back. -/
def firstAnswered (s : Peer β φ) : Option Int :=
  (s.shared.pieceList.waiting.take numberOfAttempts).find? fun z => s.wants z ≠ some false

/-- The peer holds a piece that nobody had, and that the other end has. -/
structure Assigned (s s' : Peer β φ) : Prop where
  contains : s.shared.pieceList.Contains s'.protocol.pieceIndex
  unassigned : 0 < s.shared.pieceList.unassigned s'.protocol.pieceIndex
  marked : BitSet.test s'.protocol.clientsPieces (toUInt64 s'.protocol.pieceIndex) = some true
  others : ∀ t, s.shared.pieceList.Contains t → t ≠ s'.protocol.pieceIndex →
    0 < s.shared.pieceList.unassigned t → s'.shared.pieceList.unassigned t = 1

/-- Those the attempts come to before it are of no use. -/
theorem firstAnswered_split (first : s.firstAnswered = some z) :
    s.wants z ≠ some false ∧
      ∃ front back, s.shared.pieceList.waiting.take numberOfAttempts = front ++ z :: back ∧
        ∀ y ∈ front, s.wants y = some false := by
  obtain ⟨answered, front, back, split, passed⟩ := List.find?_eq_some_iff_append.1 first
  refine ⟨by simpa using answered, front, back, split, ?_⟩
  intro y mem
  simpa using passed y mem

theorem wants_true (h : s.wants z = some true) :
    s.shared.pieceList.sizeOf z ≠ 0 ∧
      BitSet.test s.protocol.clientsPieces (toUInt64 z) = some true := by
  unfold wants at h
  split at h
  · cases h
  · rename_i size
    exact ⟨size, h⟩

theorem getPieceIndex_done {s' : Peer β φ}
    (attempted : attempt numberOfAttempts s = .done () s') :
    s.getPieceIndex = if s'.protocol.pieceSize = 0 then .done false s'
      else .done true { s' with protocol := { s'.protocol with
        piece := .init s'.protocol.pieceIndex s'.protocol.pieceSize } } := by
  rw [getPieceIndex, attempted]
  rfl

/-- A peer is given a piece only by the first that is not put back. -/
theorem firstAnswered_of_assigned (sound : s.shared.pieceList.Sound) {s' : Peer β φ}
    (given : s.getPieceIndex = .done true s') (assigned : s.Assigned s') :
    ∃ z, s.firstAnswered = some z ∧ z ≠ -1 ∧ s.wants z = some true := by
  have left : ¬ s.shared.pieceList.Exhausted := by
    intro none
    have pos := assigned.unassigned
    rw [PieceList.unassigned_exhausted none assigned.contains] at pos
    exact Nat.lt_irrefl 0 pos
  cases first : s.firstAnswered with
  | none =>
    have useless : ∀ y ∈ s.shared.pieceList.waiting.take (19 + 1), s.wants y = some false := by
      intro y mem
      simpa using List.find?_eq_none.1 first y mem
    obtain ⟨r, attempted, size⟩ := attempt_stalls 19 s sound left useless
    rw [getPieceIndex_done attempted, if_pos size] at given
    cases given
  | some z =>
    obtain ⟨answered, front, back, split, passed⟩ := firstAnswered_split first
    obtain ⟨r, index, -, -, attempted⟩ :=
      attempt_reaches numberOfAttempts s sound left split passed answered
    by_cases useful : s.wants z = some true
    · rw [if_pos useful] at attempted
      refine ⟨z, rfl, ?_, useful⟩
      rintro rfl
      rw [getPieceIndex_done attempted] at given
      split at given
      · cases given
      · cases given
        have nonneg := assigned.contains.1
        rw [show r.protocol.pieceIndex = -1 from index] at nonneg
        omega
    · rw [if_neg useful] at attempted
      rw [getPieceIndex, attempted] at given
      cases given

/-- **When a peer is given a piece.** The first of the pieces the attempts come to
that is not put back is one, and the other end has it. -/
theorem assigned_iff (sound : s.shared.pieceList.Sound)
    (once : ∀ t, s.shared.pieceList.Contains t → s.shared.pieceList.unassigned t ≤ 1) :
    (∃ s', s.getPieceIndex = .done true s' ∧ s.Assigned s') ↔
      ∃ z, s.firstAnswered = some z ∧ z ≠ -1 ∧ s.wants z = some true := by
  constructor
  · rintro ⟨s', given, assigned⟩
    exact firstAnswered_of_assigned sound given assigned
  · rintro ⟨z, first, piece, useful⟩
    obtain ⟨answered, front, back, split, passed⟩ := firstAnswered_split first
    have waits : z ∈ s.shared.pieceList.waiting := by
      apply List.mem_of_mem_take (i := numberOfAttempts)
      rw [split]
      exact List.mem_append_right _ List.mem_cons_self
    have left : ¬ s.shared.pieceList.Exhausted := by
      intro none
      rw [PieceList.waiting_exhausted none] at waits
      exact piece (List.mem_singleton.1 waits)
    obtain ⟨contains, unassigned⟩ := PieceList.unassigned_pos sound waits piece
    obtain ⟨r, index, size, bits, attempted⟩ :=
      attempt_reaches numberOfAttempts s sound left split passed answered
    rw [if_pos useful] at attempted
    obtain ⟨nonzero, marked⟩ := wants_true useful
    rw [← size] at nonzero
    refine ⟨_, (getPieceIndex_done attempted).trans (if_neg nonzero), ?_, ?_, ?_, ?_⟩
    · exact index ▸ contains
    · exact index ▸ unassigned
    · show BitSet.test r.protocol.clientsPieces (toUInt64 r.protocol.pieceIndex) = some true
      rw [bits, index]
      exact marked
    · intro t ht other pos
      have kept := attempt_unassigned sound ht (congrArg Outcome.state attempted) other
      have := once t ht
      show r.shared.pieceList.unassigned t = 1
      rw [show r.shared.pieceList.unassigned t = _ from kept]
      omega

end Peer

/-- No piece was issued yet. -/
theorem PieceList.new_unassigned (tf : TorrentFile) (t : Int) :
    (PieceList.new tf).unassigned t ≤ 1 := by
  show 0 + (PieceList.new tf).unissued t ≤ 1
  rw [unissued]
  split <;> decide

namespace Peer

/-- A peer that holds no piece, of a torrent of two pieces of which none was issued. -/
def unserved (clientsPieces : List Bool) : Peer (List Bool) (List Bool) where
  protocol :=
    { infoHash := []
      clientsPieces := clientsPieces
      pieceIndex := -1
      pieceSize := 0
      offset := 0
      piece := .new
      messages := []
      numberOfPieces := (PieceList.new Swarm.twoPieces).numberOfPieces }
  shared := ⟨.new Swarm.twoPieces, [], []⟩

theorem unserved_sound (clientsPieces : List Bool) :
    (unserved clientsPieces).shared.pieceList.Sound := by
  have start := Swarm.start_initial (β := List Bool) Swarm.twoPieces ([] : List Bool) (by decide)
  exact (Swarm.start_places start).1.list

/-- The other end has the first piece. -/
theorem assigned_first :
    (∃ s', (unserved [true, false]).getPieceIndex = .done true s' ∧
      (unserved [true, false]).Assigned s') ↔
        ∃ z, (unserved [true, false]).firstAnswered = some z ∧ z ≠ -1 ∧
          (unserved [true, false]).wants z = some true :=
  assigned_iff (unserved_sound _) fun t _ => PieceList.new_unassigned _ t

/-- The other end has the second piece, and is only asked for the first. -/
theorem not_assigned_second :
    (unserved [false, true]).shared.pieceList.Sound ∧
    (∀ t, (unserved [false, true]).shared.pieceList.unassigned t ≤ 1) ∧
    (unserved [false, true]).shared.pieceList.pieceSize ≠ 0 ∧
    (unserved [false, true]).shared.pieceList.lastPieceSize ≠ 0 ∧
    (unserved [false, true]).shared.pieceList.maxPieceNum < 20 ∧
    (unserved [false, true]).shared.pieceList.Contains 1 ∧
    0 < (unserved [false, true]).shared.pieceList.unassigned 1 ∧
    BitSet.test (unserved [false, true]).protocol.clientsPieces 1 = some true ∧
    ¬ ∃ s', (unserved [false, true]).getPieceIndex = .done true s' ∧
      (unserved [false, true]).Assigned s' := by
  refine ⟨unserved_sound _, PieceList.new_unassigned _, by decide, by decide, by decide,
    by decide, by decide, by decide, ?_⟩
  rintro ⟨s', given, assigned⟩
  obtain ⟨z, first, -⟩ := firstAnswered_of_assigned (unserved_sound _) given assigned
  have none : (unserved [false, true]).firstAnswered = none := by decide
  rw [none] at first
  cases first

end Peer

end TorrentClient
