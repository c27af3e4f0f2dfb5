import TorrentClient.Ownership

/-!
# The index that stands for no piece

The -1 of a peer that holds no piece can be queued like the index of a piece,
and be handed out again as one. It stays out of the queue as long as only a peer
that holds a piece is choked, and a piece is asked for only when one is left.
-/

namespace TorrentClient

variable {β φ : Type}

namespace PieceList

/-- Nothing can be handed out: no index of a piece waits, and all were issued. -/
def NoneLeft (pl : PieceList) : Prop :=
  (∀ z ∈ pl.returnedPieces, ¬ pl.Contains z) ∧ pl.maxPieceNum < pl.nextPiece

/-- The branch of `get_piece` that returns 0. -/
def Exhausted (pl : PieceList) : Prop :=
  pl.returnedPieces = [] ∧ pl.maxPieceNum < pl.nextPiece

instance (pl : PieceList) : Decidable pl.Exhausted := inferInstanceAs (Decidable (_ ∧ _))

theorem exhausted_getPiece {pl : PieceList} (h : pl.Exhausted) : pl.getPiece = (0, -1, pl) := by
  obtain ⟨empty, issued⟩ := h
  simp only [getPiece, empty, if_neg (Nat.not_le.2 issued)]

theorem NoneLeft.exhausted {pl : PieceList} (h : pl.NoneLeft)
    (queue : ∀ z ∈ pl.returnedPieces, pl.Contains z) : pl.Exhausted :=
  ⟨List.eq_nil_iff_forall_not_mem.2 fun z hz => h.1 z hz (queue z hz), h.2⟩

end PieceList

namespace Shared

/-- Only indices of pieces wait in the queue, and come with a size that is not
zero. -/
structure Unmarked (sh : Shared φ) : Prop where
  queue : ∀ z ∈ sh.pieceList.returnedPieces, sh.pieceList.Contains z
  handed : ∀ size z, .getPiece size z ∈ sh.calls → size ≠ 0 → sh.pieceList.Contains z

theorem Unmarked.of_write {sh sh' : Shared φ} {id size : Nat} {source : Option (List Cell)}
    {returned : Bool} (h : sh.Unmarked) (list : sh'.pieceList = sh.pieceList)
    (calls : sh'.calls = sh.calls ++ [.writePiece id source size returned]) : sh'.Unmarked where
  queue := list ▸ h.queue
  handed := by
    intro size' z hz nonzero
    rw [calls] at hz
    cases List.mem_append.1 hz with
    | inl old => exact list ▸ h.handed size' z old nonzero
    | inr new => cases List.mem_singleton.1 new

theorem marked_queue {sh : Shared φ} (h : (-1 : Int) ∈ sh.pieceList.returnedPieces) :
    ¬ sh.Unmarked :=
  fun clean => absurd (clean.queue _ h).1 (by decide)

end Shared

namespace Peer

variable {s : Peer β φ}

/-- `get_piece` hands out an index of a piece, unless none is left. -/
theorem getPiece_unmarked (h : s.shared.pieceList.Sound) (clean : s.shared.Unmarked)
    (left : ¬ s.shared.pieceList.Exhausted) :
    s.getPiece.shared.Unmarked ∧
    s.shared.pieceList.Contains s.getPiece.protocol.pieceIndex := by
  have handed {pl : PieceList} {size : Nat} {z : Int}
      (got : s.shared.pieceList.getPiece = (size, z, pl))
      (contained : s.shared.pieceList.Contains z)
      (max : pl.maxPieceNum = s.shared.pieceList.maxPieceNum)
      (queue : ∀ y ∈ pl.returnedPieces, y ∈ s.shared.pieceList.returnedPieces) :
      s.getPiece.shared.Unmarked ∧
      s.shared.pieceList.Contains s.getPiece.protocol.pieceIndex := by
    have same (y : Int) (hy : s.shared.pieceList.Contains y) :
        s.getPiece.shared.pieceList.Contains y := by
      rw [getPiece_pieceList, got]
      exact ⟨hy.1, max.symm ▸ hy.2⟩
    refine ⟨⟨fun y hy => same y (clean.queue y ?_), fun size' y hy nonzero => same y ?_⟩, ?_⟩
    · rw [getPiece_pieceList, got] at hy
      exact queue y hy
    · rw [getPiece_calls, got] at hy
      cases List.mem_append.1 hy with
      | inl old => exact clean.handed size' y old nonzero
      | inr new =>
        cases List.mem_singleton.1 new
        exact contained
    · rw [getPiece_pieceIndex, got]
      exact contained
  rcases PieceList.getPiece_cases h with ⟨z, rest, waiting, got⟩ | ⟨empty, unissued, got⟩ |
    ⟨empty, issued, _⟩
  · apply handed got (clean.queue z (waiting ▸ List.mem_cons_self)) rfl
    intro y hy
    exact waiting ▸ List.mem_cons_of_mem z hy
  · exact handed got ⟨Int.natCast_nonneg _, Int.ofNat_le.2 unissued⟩ rfl fun y hy => hy
  · exact absurd ⟨empty, issued⟩ left

theorem returnPiece_unmarked (h : s.shared.pieceList.Sound) (clean : s.shared.Unmarked)
    (held : s.shared.pieceList.Contains s.protocol.pieceIndex) :
    s.returnPiece.shared.Unmarked ∧ ¬ s.returnPiece.shared.pieceList.Exhausted := by
  have queued := PieceList.returnPiece_index h (Or.inr held)
  refine ⟨⟨?_, ?_⟩, ?_⟩
  · intro z hz
    rw [returnPiece_pieceList, queued] at hz
    cases List.mem_append.1 hz with
    | inl old => exact clean.queue z old
    | inr new => exact List.mem_singleton.1 new ▸ held
  · intro size z hz nonzero
    cases List.mem_append.1 hz with
    | inl old => exact clean.handed size z old nonzero
    | inr new => cases List.mem_singleton.1 new
  · rintro ⟨empty, _⟩
    rw [returnPiece_pieceList, queued] at empty
    exact List.append_ne_nil_of_right_ne_nil _ (List.cons_ne_nil _ _) empty

/-- The marker is queued when a peer that holds no piece returns one. -/
theorem returnPiece_marked (h : s.shared.pieceList.Sound) (none : s.protocol.pieceIndex = -1) :
    s.returnPiece.shared.pieceList.returnedPieces = s.shared.pieceList.returnedPieces ++ [-1] := by
  rw [returnPiece_pieceList, none, PieceList.returnPiece_index h (Or.inl rfl)]

section
variable [BitSet β]

/-- The attempts keep the marker out of the queue when they begin with a piece to
hand out. -/
theorem attempt_unmarked (h : s.shared.pieceList.Sound) (clean : s.shared.Unmarked)
    (left : ¬ s.shared.pieceList.Exhausted) (attempts : Nat) :
    (attempt (attempts + 1) s).state.shared.Unmarked := by
  refine attempt_rule
    (P := fun r => r.shared.pieceList.Sound ∧ r.shared.Unmarked ∧
      ¬ r.shared.pieceList.Exhausted)
    (Q := fun r => r.shared.pieceList.Sound ∧ r.shared.Unmarked ∧
      r.shared.pieceList.Contains r.protocol.pieceIndex)
    (R := fun r => r.shared.Unmarked) ?_ ?_ ?_ attempts s ⟨h, clean, left⟩
  · rintro r ⟨sound, clean, left⟩
    have ⟨sound', max, _⟩ := PieceList.getPiece_sound sound
    have ⟨clean', held⟩ := getPiece_unmarked sound clean left
    exact ⟨sound', clean', held.1, (getPiece_pieceList r ▸ max).symm ▸ held.2⟩
  · exact fun r got => got.2.1
  · rintro r ⟨sound, clean, held⟩
    have ⟨clean', left⟩ := returnPiece_unmarked sound clean held
    exact ⟨⟨PieceList.returnPiece_sound sound (Or.inr held), clean', left⟩, clean'⟩

/-- A call stays in the log. -/
theorem attempt_logged {call : Call} (h : call ∈ s.shared.calls) (attempts : Nat) :
    call ∈ (attempt attempts s).state.shared.calls := by
  cases attempts with
  | zero => exact h
  | succ attempts =>
    refine attempt_rule (P := fun r => call ∈ r.shared.calls)
      (Q := fun r => call ∈ r.shared.calls) ?_ (fun _ => id) ?_ attempts s h
    · exact fun r logged => getPiece_calls r ▸ List.mem_append_left _ logged
    · intro r logged
      have kept : call ∈ r.returnPiece.shared.calls :=
        returnPiece_calls r ▸ List.mem_append_left _ logged
      exact ⟨kept, kept⟩

/-- Once the marker is queued it is handed out, with a size as if it were the
index of a piece, or it is queued again. -/
theorem attempt_marked (attempts : Nat) :
    ∀ s : Peer β φ, s.shared.pieceList.Sound → s.shared.pieceList.returnedPieces = [-1] →
      ¬ (attempt attempts s).state.shared.Unmarked := by
  induction attempts with
  | zero => exact fun s _ queued => Shared.marked_queue (queued ▸ List.mem_singleton_self _)
  | succ attempts ih =>
    intro s sound queued
    have got : s.shared.pieceList.getPiece =
        (s.shared.pieceList.sizeOf (-1), -1, { s.shared.pieceList with returnedPieces := [] }) := by
      simp only [PieceList.getPiece, queued]
    have sound' : s.getPiece.shared.pieceList.Sound := (PieceList.getPiece_sound sound).1
    have index : s.getPiece.protocol.pieceIndex = -1 := by rw [getPiece_pieceIndex, got]
    have again := returnPiece_marked sound' index
    rw [getPiece_pieceList, got] at again
    by_cases size : s.shared.pieceList.sizeOf (-1) = 0
    · have unwanted : s.getPiece.wanted = some false := by
        rw [wanted, getPiece_pieceSize, got, if_pos size]
      rw [attempt, unwanted]
      apply ih _ ?_ again
      exact PieceList.returnPiece_sound sound' (Or.inl index)
    · have logged : Call.getPiece (s.shared.pieceList.sizeOf (-1)) (-1) ∈
          s.getPiece.shared.calls := by
        rw [getPiece_calls, got]
        exact List.mem_append_right _ (List.mem_singleton_self _)
      have kept : Call.getPiece (s.shared.pieceList.sizeOf (-1)) (-1) ∈
          (attempt (attempts + 1) s).state.shared.calls := by
        rw [attempt]
        split
        · exact logged
        · exact logged
        · exact attempt_logged (returnPiece_calls _ ▸ List.mem_append_left _ logged) attempts
      exact fun clean => absurd (clean.handed _ _ kept size).1 (by decide)

/-- The first attempt on a list with no piece left queues the marker. -/
theorem attempt_exhausted (h : s.shared.pieceList.Sound) (none : s.shared.pieceList.Exhausted)
    (attempts : Nat) : ¬ (attempt (attempts + 1) s).state.shared.Unmarked := by
  have got := PieceList.exhausted_getPiece none
  have index : s.getPiece.protocol.pieceIndex = -1 := by rw [getPiece_pieceIndex, got]
  have unwanted : s.getPiece.wanted = some false := by
    rw [wanted, getPiece_pieceSize, got, if_pos rfl]
  have sound : s.getPiece.shared.pieceList.Sound := (PieceList.getPiece_sound h).1
  have queued := returnPiece_marked sound index
  rw [getPiece_pieceList, got, none.1, List.nil_append] at queued
  rw [attempt]
  simp only [unwanted]
  exact attempt_marked attempts _ (PieceList.returnPiece_sound sound (Or.inl index)) queued

theorem nextPiece_unmarked_iff (h : s.shared.pieceList.Sound) (clean : s.shared.Unmarked) :
    s.nextPiece.state.shared.Unmarked ↔ ¬ s.shared.pieceList.Exhausted := by
  rw [(nextPiece_custody s).shared, numberOfAttempts]
  constructor
  · exact fun clean' none => attempt_exhausted h none 19 clean'
  · exact fun left => attempt_unmarked h clean left 19

end

section
variable [Files φ]

/-- The state in which the write of the piece returns that the block completes. -/
def completed (s : Peer β φ) (data : List UInt8) (size : Nat) : Option (Peer β φ) :=
  match s.addBlock data size with
  | .done true added =>
    if added.protocol.piece.full then
      match added.writePiece with
      | .done _ written => some written
      | .thrown _ _ | .fault _ _ => none
    else none
  | .done false _ | .thrown _ _ | .fault _ _ => none

theorem completed_eq_some {written : Peer β φ} {data : List UInt8} {size : Nat} :
    s.completed data size = some written ↔ s.Completes data size written := by
  unfold completed Completes
  constructor
  · intro h
    split at h
    · rename_i added returned
      split at h
      · rename_i full
        split at h
        · rename_i wrote
          cases h
          exact ⟨added, returned, full, wrote⟩
        · cases h
        · cases h
      · cases h
    · cases h
    · cases h
    · cases h
  · rintro ⟨added, returned, full, wrote⟩
    simp only [returned, full, wrote, if_true]

theorem completes_unmarked {written : Peer β φ} {data : List UInt8} {size : Nat}
    (clean : s.shared.Unmarked) (completes : s.Completes data size written) :
    written.shared.pieceList = s.shared.pieceList ∧ written.shared.Unmarked := by
  obtain ⟨added, returned, _, wrote⟩ := completes
  have custody := addBlock_custody s data size
  rw [returned] at custody
  obtain ⟨_, list, source, calls⟩ := writePiece_done wrote
  have clean' : added.shared.Unmarked := custody.shared ▸ clean
  exact ⟨list.trans (congrArg Shared.pieceList custody.shared), clean'.of_write list calls⟩

/-- A peer is choked only while it holds a piece, and asks for one only when one
is left. -/
def Careful (s : Peer β φ) (data : List UInt8) (size : Nat) : MessageType → Prop
  | .choke => s.protocol.pieceIndex ≠ -1
  | .unchoke => ¬ s.shared.pieceList.Exhausted
  | .piece => (s.completed data size).isSome → ¬ s.shared.pieceList.Exhausted
  | .interested | .notInterested | .have_ | .bitfield | .request | .cancel | .port => True

instance (s : Peer β φ) (data : List UInt8) (size : Nat) (type : MessageType) :
    Decidable (s.Careful data size type) :=
  match type with
  | .choke | .unchoke => inferInstanceAs (Decidable (¬ _))
  | .piece => inferInstanceAs (Decidable (_ → _))
  | .interested | .notInterested | .have_ | .bitfield | .request | .cancel | .port =>
    inferInstanceAs (Decidable True)

variable [BitSet β]

/-- **Which messages queue the marker.** -/
theorem handlers_unmarked_iff (h : s.Sound) (clean : s.shared.Unmarked) (type : MessageType)
    (data : List UInt8) (size : Nat) :
    (handlers (.message type) data size s).state.shared.Unmarked ↔ s.Careful data size type := by
  have same {s' : Peer β φ} (same : SameCustody s s') : s'.shared.Unmarked ↔ True := by
    rw [same.shared]
    exact iff_true_intro clean
  cases type with
  | choke =>
    change s.returnPiece.shared.Unmarked ↔ s.protocol.pieceIndex ≠ -1
    constructor
    · intro clean' none
      apply Shared.marked_queue ?_ clean'
      rw [returnPiece_marked h.list none]
      exact List.mem_append_right _ (List.mem_singleton_self _)
    · intro held
      exact (returnPiece_unmarked h.list clean (h.index.resolve_left held)).1
  | unchoke => exact nextPiece_unmarked_iff h.list clean
  | have_ => exact same (processHave_custody s data)
  | bitfield => exact same (processBitfield_custody s data size)
  | piece =>
    change (s.processPiece data size).state.shared.Unmarked ↔
      ((s.completed data size).isSome → ¬ s.shared.pieceList.Exhausted)
    rcases processPiece_cases s data size with ⟨written, completes, eq⟩ | ⟨never, kept⟩
    · obtain ⟨list, clean'⟩ := completes_unmarked clean completes
      rw [eq, completed_eq_some.2 completes, Option.isSome_some, imp_iff_right rfl,
        nextPiece_unmarked_iff (s := written.released) (list ▸ h.list) clean']
      exact list ▸ Iff.rfl
    · have none : s.completed data size = none :=
        Option.eq_none_iff_forall_ne_some.2 fun written h => never written (completed_eq_some.1 h)
      rw [none, iff_true_right nofun]
      rcases kept with kept | ⟨_, list, id, source, size', calls⟩
      · exact (same kept).2 trivial
      · exact clean.of_write list calls
  | interested | notInterested | request | cancel | port => exact same (.refl s)

end

end Peer

namespace Swarm

variable {w w' : Swarm β φ}

/-- The marker is not among the indices that are handed out, and nothing is handed
out when no piece is left. -/
structure MarkerFree (w : Swarm β φ) : Prop extends w.shared.Unmarked where
  noneLeft : w.shared.pieceList.NoneLeft →
    w.shared.pieceList.getPiece = (0, -1, w.shared.pieceList)

theorem markerFree_iff : w.MarkerFree ↔ w.shared.Unmarked := by
  refine ⟨fun h => h.toUnmarked, fun h => ⟨h, fun none => ?_⟩⟩
  exact PieceList.exhausted_getPiece (none.exhausted h.queue)

variable [Files φ]

/-- The messages of a step are ones that keep the marker out of the queue. -/
def Careful (w : Swarm β φ) : Action → Prop
  | .message peer type data size => ∀ s, w.view peer = some s → s.Careful data size type
  | .connect _ _ | .destroy _ => True

instance (w : Swarm β φ) (a : Action) : Decidable (w.Careful a) :=
  match a with
  | .message peer type data size =>
    decidable_of_iff ((w.view peer).all fun s => decide (s.Careful data size type)) (by
      rw [Option.all_eq_true]
      simp only [decide_eq_true_eq]
      rfl)
  | .connect _ _ | .destroy _ => inferInstanceAs (Decidable True)

variable [BitSet β]

theorem step_unmarked_iff (h : w.Sound) (clean : w.shared.Unmarked) {a : Action}
    (stepped : w.step a = some w') : w'.shared.Unmarked ↔ w.Careful a := by
  rcases step_cases stepped with ⟨infoHash, random, p, rfl, _, rfl⟩ | ⟨peer, p, rfl, _, rfl⟩ |
    ⟨peer, type, data, size, s, rfl, _, hs, _, rfl⟩
  · exact iff_of_true clean trivial
  · exact iff_of_true clean trivial
  · have shared := (view_eq_some.1 hs).2
    have handled := Peer.handlers_unmarked_iff (h.view hs) (shared ▸ clean) type data size
    refine handled.trans ⟨fun careful s' hs' => ?_, fun careful => careful s hs⟩
    cases hs.symm.trans hs'
    exact careful

theorem reach_unmarked (h : Reach Start step Careful w) : w.Sound ∧ w.shared.Unmarked := by
  refine Reach.invariant (P := fun w => w.Sound ∧ w.shared.Unmarked) ?_ ?_ h
  · intro w start
    refine ⟨(start_places start).1, ?_⟩
    obtain ⟨tf, files, _, rfl⟩ := start
    exact ⟨nofun, nofun⟩
  · rintro w a w' ⟨sound, clean⟩ careful stepped
    exact ⟨(step_sound sound stepped).1, (step_unmarked_iff sound clean stepped).2 careful⟩

/-- **When the marker stays out.** As long as only peers that hold a piece are
choked, and a piece is asked for only when one is left, every index that is
queued or handed out is one of a piece; and the first step that breaks this rule
lets the marker in. -/
theorem marker_free_iff (h : Reach Start step Careful w) :
    w.MarkerFree ∧ ∀ a w', w.step a = some w' → (w'.MarkerFree ↔ w.Careful a) := by
  obtain ⟨sound, clean⟩ := reach_unmarked h
  refine ⟨markerFree_iff.2 clean, fun a w' stepped => ?_⟩
  exact markerFree_iff.trans (step_unmarked_iff sound clean stepped)

theorem marker_free_unchoked :
    ∃ w : Swarm (List Bool) (List Bool),
      replay step Careful (initial twoPieces []) unchoked = some w ∧ w.MarkerFree ∧
      ∀ a w', w.step a = some w' → (w'.MarkerFree ↔ w.Careful a) := by
  have enabled : (replay step Careful (initial twoPieces [] : Swarm (List Bool) (List Bool))
      unchoked).isSome := by decide +kernel
  obtain ⟨w, run⟩ := Option.isSome_iff_exists.1 enabled
  exact ⟨w, run,
    marker_free_iff (Reach.replay (.start (start_initial _ _ (by decide))) run)⟩

/-- A peer that is choked before it holds a piece queues the marker, and a peer
that is unchoked once all pieces are held is handed the marker with the size of a
piece. -/
theorem marker_queued :
    (∃ w : Swarm (List Bool) (List Bool), Reach Start step anyStep w ∧
      (-1 : Int) ∈ w.shared.pieceList.returnedPieces ∧ ¬ w.MarkerFree) ∧
    ∃ w : Swarm (List Bool) (List Bool), Reach Start step anyStep w ∧
      Call.getPiece 1 (-1) ∈ w.shared.calls ∧ ¬ w.MarkerFree := by
  have start : Start (initial twoPieces [] : Swarm (List Bool) (List Bool)) :=
    start_initial _ _ (by decide)
  constructor
  · have run : (replay step anyStep (initial twoPieces [] : Swarm (List Bool) (List Bool))
        [.connect [] (List.replicate 20 0), send .choke []]).any
        (fun w => (-1 : Int) ∈ w.shared.pieceList.returnedPieces) := by decide +kernel
    obtain ⟨w, run, queued⟩ := (Option.any_eq_true _ _).1 run
    have queued := of_decide_eq_true queued
    exact ⟨w, Reach.replay (.start start) run, queued,
      fun free => Shared.marked_queue queued free.toUnmarked⟩
  · have run : (replay step anyStep (initial twoPieces [] : Swarm (List Bool) (List Bool))
        (unchoked ++ [send .unchoke [], send .unchoke []])).any
        (fun w => Call.getPiece 1 (-1) ∈ w.shared.calls) := by decide +kernel
    obtain ⟨w, run, handed⟩ := (Option.any_eq_true _ _).1 run
    have handed := of_decide_eq_true handed
    exact ⟨w, Reach.replay (.start start) run, handed,
      fun free => absurd (free.handed _ _ handed Nat.one_ne_zero).1 (by decide)⟩

end Swarm

end TorrentClient
