import TorrentClient.HonestPeers

/-!
# A marker in the list

A peer that holds no piece returns the -1 that stands for none when it is choked. The list hands
the marker out before any piece that was never issued, and so no such piece is handed out until
the marker is gone; but a marker only goes when an exception is thrown at it.
-/

namespace TorrentClient

variable {β φ α : Type}

/-- The markers that wait to be handed out. -/
def PieceList.markers (pl : PieceList) : Nat := pl.queued (-1)

namespace Peer

variable [BitSet β] {s t : Peer β φ}

/-- The call takes a marker only by an exception, and issues no piece as long as one waits. -/
structure Blocks (s : Peer β φ) (o : Outcome Thrown (Peer β φ) α) : Prop where
  markers : s.shared.pieceList.markers ≤ o.state.shared.pieceList.markers + o.throws
  next : 0 < s.shared.pieceList.markers →
    o.state.shared.pieceList.nextPiece = s.shared.pieceList.nextPiece

omit [BitSet β] in
theorem blocks_of_list {o : Outcome Thrown (Peer β φ) α}
    (same : o.state.shared.pieceList = s.shared.pieceList) : Blocks s o :=
  ⟨by rw [same]; exact Nat.le_add_right _ _, fun _ => by rw [same]⟩

/-- The marker is put back, unless the bits throw at it. -/
theorem attempt_blocks (attempts : Nat) : ∀ s : Peer β φ, s.shared.pieceList.Sound →
    BitSet.test s.protocol.clientsPieces (toUInt64 (-1)) ≠ some true →
      Blocks s (attempt attempts s) := by
  induction attempts with
  | zero => exact fun s _ _ => blocks_of_list rfl
  | succ attempts ih =>
    intro s sound unmarked
    by_cases none : s.shared.pieceList.markers = 0
    · exact ⟨by omega, by omega⟩
    -- a marker waits, so the queue is not empty
    rcases PieceList.getPiece_cases sound with ⟨z, rest, queue, got⟩ | ⟨empty, -⟩ | ⟨empty, -⟩
    · have after := PieceList.getPiece_sound sound
      have list : s.getPiece.shared.pieceList =
          { s.shared.pieceList with returnedPieces := rest } := by rw [getPiece_pieceList, got]
      have index : s.getPiece.protocol.pieceIndex = z := by rw [getPiece_pieceIndex, got]
      have taken : s.shared.pieceList.markers =
          s.getPiece.shared.pieceList.markers + if z = -1 then 1 else 0 := by
        rw [list, PieceList.markers, PieceList.queued, queue, List.count_cons]
        simp only [beq_iff_eq]
        rfl
      rw [attempt]
      cases wanted : s.getPiece.wanted with
      | none =>
        refine ⟨?_, fun _ => ?_⟩
        · show _ ≤ s.getPiece.shared.pieceList.markers + 1
          rw [taken]
          split <;> omega
        · show s.getPiece.shared.pieceList.nextPiece = _
          rw [list]
      | some marked =>
        cases marked with
        | true =>
          have piece : z ≠ -1 := by
            rintro rfl
            rw [Peer.wanted, index] at wanted
            split at wanted
            · cases wanted
            · exact unmarked wanted
          rw [if_neg piece] at taken
          refine ⟨?_, fun _ => ?_⟩
          · show _ ≤ s.getPiece.shared.pieceList.markers + 0
            omega
          · show s.getPiece.shared.pieceList.nextPiece = _
            rw [list]
        | false =>
          have marks : s.getPiece.shared.pieceList.Marks z := by
            rw [list]
            exact sound.queue z (queue ▸ List.mem_cons_self)
          have back := PieceList.returnPiece_count (getPiece_sound sound).list marks (-1)
          have returned : s.getPiece.returnPiece.shared.pieceList.markers =
              s.shared.pieceList.markers := by
            rw [taken, PieceList.markers, returnPiece_pieceList, index]
            exact back
          have kept := ih s.getPiece.returnPiece
            (returnPiece_sound (getPiece_sound sound)).list unmarked
          have next : s.getPiece.returnPiece.shared.pieceList.nextPiece =
              s.shared.pieceList.nextPiece := by
            show s.getPiece.shared.pieceList.nextPiece = _
            rw [list]
          refine ⟨returned ▸ kept.markers, fun some => ?_⟩
          rw [← next]
          exact kept.next (returned ▸ some)
    · rw [PieceList.markers, PieceList.queued, empty] at none
      exact absurd List.count_nil none
    · rw [PieceList.markers, PieceList.queued, empty] at none
      exact absurd List.count_nil none

theorem nextPiece_blocks (sound : s.shared.pieceList.Sound)
    (unmarked : BitSet.test s.protocol.clientsPieces (toUInt64 (-1)) ≠ some true) :
    Blocks s s.nextPiece := by
  have kept := attempt_blocks numberOfAttempts s sound unmarked
  have same := (nextPiece_custody s).shared
  have throws : (attempt numberOfAttempts s).throws ≤ s.nextPiece.throws :=
    Nat.le_trans (Outcome.throws_le_bind _ _) (Outcome.throws_le_bind _ _)
  refine ⟨?_, ?_⟩
  · have := kept.markers
    rw [same]
    omega
  · rw [same]
    exact kept.next

variable [Files φ]

/-- **No message gets past a marker.** -/
theorem handlers_blocks (sound : s.Sound)
    (unmarked : BitSet.test s.protocol.clientsPieces (toUInt64 (-1)) ≠ some true)
    (type : MessageType) (data : List UInt8) (size : Nat) :
    Blocks s (handlers (.message type) data size s) := by
  cases type with
  | choke =>
    have back := PieceList.returnPiece_count sound.list sound.index (-1)
    refine ⟨?_, fun _ => rfl⟩
    show s.shared.pieceList.queued (-1) ≤
      (s.shared.pieceList.returnPiece (toUInt64 s.protocol.pieceIndex)).queued (-1) + 0
    omega
  | unchoke => exact nextPiece_blocks sound.list unmarked
  | have_ => exact blocks_of_list (by rw [handlers, (processHave_custody s data).shared])
  | bitfield =>
    exact blocks_of_list (by rw [handlers, (processBitfield_custody s data size).shared])
  | piece =>
    show Blocks s (s.processPiece data size)
    rcases processPiece_cases s data size with ⟨written, completes, eq⟩ | ⟨-, same | failed⟩
    · have list := (written_places (t := 0) sound completes).1
      rw [eq]
      have bits : written.released.protocol.clientsPieces = s.protocol.clientsPieces := by
        obtain ⟨added, returned, -, wrote⟩ := completes
        have first := addBlock_quiet s data size
        have second := writePiece_quiet added
        rw [returned] at first
        rw [wrote] at second
        exact second.bits.trans first.bits
      have kept := nextPiece_blocks (s := written.released) (list ▸ sound.list) (bits ▸ unmarked)
      exact ⟨list ▸ kept.markers, list ▸ kept.next⟩
    · exact blocks_of_list (by rw [same.shared])
    · exact blocks_of_list failed.pieceList
  | interested | notInterested | request | cancel | port => exact blocks_of_list rfl

end Peer

namespace Swarm

variable [BitSet β] [Files φ] {w w' : Swarm β φ}

/-- The exceptions that a step lets out of the handler of a message. -/
def throws (w : Swarm β φ) : Action → Nat
  | .message peer type data size =>
    (w.view peer).elim 0 fun s => (Peer.handlers (.message type) data size s).throws
  | .connect _ _ | .destroy _ => 0

/-- The steps of a swarm, with the number of exceptions so far. -/
def tally (c : Swarm β φ × Nat) (a : Action) : Option (Swarm β φ × Nat) :=
  (c.1.step a).map fun w => (w, c.2 + c.1.throws a)

omit [Files φ] in
/-- No peer has a bit for the marker. -/
def Unmarked (w : Swarm β φ) : Prop :=
  ∀ peer s, w.view peer = some s → ∀ j,
    BitSet.test s.protocol.clientsPieces j = some true → j < 2 ^ 36

theorem step_unmarked [LawfulBitSet β] (h : w.Unmarked) {a : Action}
    (stepped : w.step a = some w') : w'.Unmarked := by
  rcases step_cases stepped with ⟨infoHash, random, p, rfl, made, rfl⟩ | ⟨other, p, rfl, -, rfl⟩ |
    ⟨other, type, data, size, s, rfl, dispatched, hs, safe, rfl⟩
  · intro peer r hr
    rcases view_connect hr with old | ⟨_, rfl⟩
    · exact h peer r old
    · obtain ⟨⟨bits, size, bound⟩, -⟩ := new_told made
      exact fun j marked => absurd marked (LawfulBitSet.test_bind bound j)
  · exact fun peer r hr => h peer r (view_destroy hr)
  · intro peer r hr j marked
    rcases view_put hr with ⟨-, rfl⟩ | ⟨p, old, rfl⟩
    · rcases Peer.handlers_marks safe peer marked with before | announced
      · exact h other s hs j before
      · exact announced.small dispatched
    · exact h peer _ old j marked

/-- What one step does to the markers. -/
theorem step_blocks (sound : w.Sound) (unmarked : w.Unmarked) {a : Action}
    (stepped : w.step a = some w') :
    w.shared.pieceList.markers ≤ w'.shared.pieceList.markers + w.throws a ∧
      (0 < w.shared.pieceList.markers →
        w'.shared.pieceList.nextPiece = w.shared.pieceList.nextPiece) := by
  rcases step_cases stepped with ⟨infoHash, random, p, rfl, -, rfl⟩ | ⟨other, p, rfl, -, rfl⟩ |
    ⟨other, type, data, size, s, rfl, -, hs, -, rfl⟩
  · exact ⟨Nat.le_refl _, fun _ => rfl⟩
  · exact ⟨Nat.le_refl _, fun _ => rfl⟩
  · have shared := (view_eq_some.1 hs).2
    have marker : BitSet.test s.protocol.clientsPieces (toUInt64 (-1)) ≠ some true :=
      fun marked => absurd (unmarked other s hs _ marked) (by decide)
    have blocks := Peer.handlers_blocks (sound.view hs) marker type data size
    rw [throws, hs, ← shared]
    exact ⟨blocks.markers, blocks.next⟩

/-- The choke of a peer that holds no piece. -/
theorem choke_marks {peer size : Nat} {data : List UInt8} {p : PeerProtocol β} (sound : w.Sound)
    (hp : w.peer? peer = some p) (none : p.pieceIndex = -1)
    (stepped : w.step (.message peer .choke data size) = some w') :
    w'.shared.pieceList.markers = w.shared.pieceList.markers + 1 := by
  rcases step_cases stepped with ⟨_, _, _, other, -⟩ | ⟨_, _, other, -⟩ |
    ⟨_, _, _, _, s, same, -, hs, -, rfl⟩
  · cases other
  · cases other
  · cases same
    obtain ⟨live, shared⟩ := view_eq_some.1 hs
    cases hp.symm.trans live
    have back := PieceList.returnPiece_count (sound.view hs).list (Or.inl none) (-1)
    rw [if_pos none] at back
    rw [← shared]
    exact back

/-- **A marker stops the download.** A peer that holds no piece adds a marker when it is choked;
and from then on, whatever comes, no piece that was not issued yet is handed out or written until
an exception was thrown for each marker that waits. -/
theorem markers_block [LawfulBitSet β] (h : Reach Start step anyStep w) {n : Nat}
    (later : Reach (· = (w, 0)) tally anyStep (w', n)) :
    (∀ peer data size p w₁, w'.peer? peer = some p → p.pieceIndex = -1 →
      w'.step (.message peer .choke data size) = some w₁ →
        w₁.shared.pieceList.markers = w'.shared.pieceList.markers + 1) ∧
    w.shared.pieceList.markers ≤ w'.shared.pieceList.markers + n ∧
    (n < w.shared.pieceList.markers → ∀ t, w'.shared.pieceList.Contains t →
      w.shared.pieceList.nextPiece ≤ t → w'.holders t = 0 ∧ w'.shared.completed t = 0) := by
  have start : w.Unmarked := Reach.invariant (fun w started => by
      obtain ⟨tf, files, -, rfl⟩ := started
      intro peer s live
      exact absurd (view_eq_some.1 live).1 (by simp [peer?, initial]))
    (fun _ _ _ unmarked _ stepped => step_unmarked unmarked stepped) h
  have kept := Reach.invariant (P := fun c => Reach Start step anyStep c.1 ∧ c.1.Unmarked ∧
      w.shared.pieceList.markers ≤ c.1.shared.pieceList.markers + c.2 ∧
      (c.2 < w.shared.pieceList.markers →
        c.1.shared.pieceList.nextPiece = w.shared.pieceList.nextPiece)) ?_ ?_ later
  · obtain ⟨reached, -, markers, next⟩ := kept
    obtain ⟨sound, one⟩ := reach_places_le reached
    dsimp only at markers next sound one
    refine ⟨fun peer data size p w₁ hp none stepped => choke_marks sound hp none stepped, markers,
      fun few t contained unissued => ?_⟩
    · have most := one t contained
      have issued : w'.shared.pieceList.unissued t = 1 := by
        rw [PieceList.unissued, if_pos (by have := next few; omega)]
      rw [places, Shared.places, issued] at most
      omega
  · rintro c rfl
    exact ⟨h, start, Nat.le_refl _, fun _ => rfl⟩
  · rintro ⟨w₁, n₁⟩ a c ⟨reached, unmarked, markers, next⟩ - stepped
    obtain ⟨w₂, taken, rfl⟩ := Option.map_eq_some_iff.1 stepped
    obtain ⟨sound, -⟩ := reach_places_le reached
    obtain ⟨fewer, same⟩ := step_blocks sound unmarked taken
    dsimp only at markers next fewer same ⊢
    refine ⟨.next reached trivial taken, step_unmarked unmarked taken, by omega, fun few => ?_⟩
    rw [same (by omega), next (by omega)]

/-- A peer chokes the client twice before it unchokes it, and nothing is handed out. -/
theorem markers_block_twice :
    ∃ (w w' : Swarm (List Bool) (List Bool)) (n : Nat),
      replay step anyStep (initial twoPieces [])
        [.connect [] (List.replicate 20 0), send .choke [], send .choke []] = some w ∧
      replay tally anyStep (w, 0) [send .bitfield [0xc0], send .unchoke []] = some (w', n) ∧
      w'.holders 0 = 0 ∧ w'.shared.completed 0 = 0 := by
  have enabled : (replay step anyStep (initial twoPieces [] : Swarm (List Bool) (List Bool))
      [.connect [] (List.replicate 20 0), send .choke [], send .choke []]).any fun w =>
        (replay tally anyStep (w, 0) [send .bitfield [0xc0], send .unchoke []]).any fun c =>
          c.2 < w.shared.pieceList.markers ∧ w.shared.pieceList.nextPiece = 0 := by
    decide +kernel
  obtain ⟨w, run, enabled⟩ := (Option.any_eq_true _ _).1 enabled
  obtain ⟨⟨w', n⟩, later, few⟩ := (Option.any_eq_true _ _).1 enabled
  obtain ⟨few, fresh⟩ := of_decide_eq_true few
  obtain ⟨-, -, stopped⟩ := markers_block
    (Reach.replay (.start (start_initial _ _ (by decide))) run) (Reach.replay (.start rfl) later)
  refine ⟨w, w', n, run, later, stopped few 0 ⟨Int.le_refl 0, Int.natCast_nonneg _⟩ ?_⟩
  rw [fresh]
  exact Int.le_refl 0

end Swarm

end TorrentClient
