import TorrentClient.Custody

/-!
# Who owns a piece

In every run of the peers of a torrent a piece is in one place at most. It is
in one place at least as long as no peer is unchoked, or destroyed, while it
holds a piece.
-/

namespace TorrentClient

variable {β φ : Type}

namespace Swarm

variable {w w' : Swarm β φ} {t : Int}

/-- The number of peers that hold a piece. -/
def holders (w : Swarm β φ) (t : Int) : Nat :=
  w.peers.countP fun peer => peer.any (·.pieceIndex = t)

/-- The number of places a piece is in. -/
def places (w : Swarm β φ) (t : Int) : Nat := w.holders t + w.shared.places t

/-- What holds of the peers and the list between steps. -/
structure Sound (w : Swarm β φ) : Prop where
  list : w.shared.pieceList.Sound
  index : ∀ p, some p ∈ w.peers → w.shared.pieceList.Marks p.pieceIndex

theorem Sound.view {peer : Nat} {s : Peer β φ} (h : w.Sound) (hs : w.view peer = some s) :
    s.Sound := by
  obtain ⟨hp, shared⟩ := view_eq_some.1 hs
  exact ⟨shared ▸ h.list, shared ▸ h.index _ (List.mem_of_getElem? (peer?_eq_some.1 hp))⟩

theorem holders_set {peer : Nat} {p : PeerProtocol β} (h : w.peer? peer = some p)
    (after : Option (PeerProtocol β)) :
    (w.peers.set peer after).countP (fun peer => peer.any (·.pieceIndex = t)) +
      (if p.pieceIndex = t then 1 else 0) =
    w.holders t + if after.any (·.pieceIndex = t) then 1 else 0 := by
  obtain ⟨lt, eq⟩ := List.getElem?_eq_some_iff.1 (peer?_eq_some.1 h)
  have counted := List.boole_getElem_le_countP (p := fun peer => peer.any (·.pieceIndex = t)) lt
  rw [List.countP_set lt, holders]
  simp only [eq, Option.any_some, decide_eq_true_eq] at counted ⊢
  omega

theorem put_places {peer : Nat} {s : Peer β φ} (hs : w.view peer = some s) (s' : Peer β φ) :
    (w.put peer s').places t + s.places t = w.places t + s'.places t := by
  obtain ⟨hp, shared⟩ := view_eq_some.1 hs
  have moved := holders_set (t := t) hp (some s'.protocol)
  simp only [Option.any_some, decide_eq_true_eq] at moved
  change (w.peers.set peer (some s'.protocol)).countP (fun peer => peer.any (·.pieceIndex = t)) +
    s'.shared.places t + s.places t = w.places t + s'.places t
  rw [places, Peer.places, Peer.places, shared]
  omega

theorem put_sound {peer : Nat} {s s' : Peer β φ} (h : w.Sound) (hs : w.view peer = some s)
    (h' : s'.Sound)
    (max : s'.shared.pieceList.maxPieceNum = s.shared.pieceList.maxPieceNum) :
    (w.put peer s').Sound where
  list := h'.list
  index := by
    intro p hp
    obtain ⟨_, shared⟩ := view_eq_some.1 hs
    cases List.mem_or_eq_of_mem_set hp with
    | inl old =>
      have marks := h.index p old
      simp only [PieceList.Marks, PieceList.Contains, ← shared, ← max] at marks
      exact marks
    | inr new =>
      cases new
      exact h'.index

/-- The index held by a peer that is unchoked or destroyed. -/
def abandons (w : Swarm β φ) : Action → Option Int
  | .destroy peer | .message peer .unchoke _ _ => (w.peer? peer).map (·.pieceIndex)
  | .connect _ _ | .message _ _ _ _ => none

theorem start_places (h : Start w) :
    w.Sound ∧ ∀ t, w.shared.pieceList.Contains t → w.places t = 1 := by
  obtain ⟨tf, files, nonempty, rfl⟩ := h
  have length := List.length_pos_iff.2 nonempty
  have bound := tf.pieces.property
  have max : sub64 tf.pieces.val.length 1 = tf.pieces.val.length - 1 :=
    sub64_eq (by omega) length
  refine ⟨⟨⟨?_, Nat.zero_le _, nofun⟩, nofun⟩, ?_⟩
  · change sub64 tf.pieces.val.length 1 < 2 ^ 63 - 1
    omega
  · intro t ht
    have nonneg := ht.1
    simp [places, holders, initial, Shared.places, PieceList.queued, PieceList.unissued,
      PieceList.new, Shared.completed, nonneg]

theorem abandons_marks (h : w.Sound) {a : Action} {z : Int} (abandoned : w.abandons a = some z) :
    w.shared.pieceList.Marks z := by
  have held (peer : Nat) (hz : (w.peer? peer).map (·.pieceIndex) = some z) :
      w.shared.pieceList.Marks z := by
    obtain ⟨p, hp, rfl⟩ := Option.map_eq_some_iff.1 hz
    exact h.index p (List.mem_of_getElem? (peer?_eq_some.1 hp))
  cases a with
  | connect infoHash random => cases abandoned
  | destroy peer => exact held peer abandoned
  | message peer type data size =>
    cases type with
    | unchoke => exact held peer abandoned
    | _ => cases abandoned

/-! ## Every piece somewhere -/

/-- No peer is unchoked, or destroyed, while it holds a piece. -/
def KeepsPieces (w : Swarm β φ) (a : Action) : Prop :=
  ∀ z, w.abandons a = some z → z = -1

instance (w : Swarm β φ) (a : Action) : Decidable (w.KeepsPieces a) :=
  decidable_of_iff ((w.abandons a).all (· = -1)) (by
    rw [Option.all_eq_true]
    simp [KeepsPieces])

/-- Every piece that was issued and is not completed is held by a live peer or
waits to be handed out again. -/
def NoPieceLost (w : Swarm β φ) : Prop :=
  ∀ t, w.shared.pieceList.Contains t → t < w.shared.pieceList.nextPiece →
    w.shared.completed t = 0 →
    (∃ peer p, w.peer? peer = some p ∧ p.pieceIndex = t) ∨
      t ∈ w.shared.pieceList.returnedPieces

theorem holders_pos : 0 < w.holders t ↔ ∃ peer p, w.peer? peer = some p ∧ p.pieceIndex = t := by
  rw [holders, List.countP_pos_iff]
  constructor
  · rintro ⟨_ | p, mem, held⟩
    · cases held
    · obtain ⟨peer, at_peer⟩ := List.getElem?_of_mem mem
      exact ⟨peer, p, peer?_eq_some.2 at_peer, by simpa using held⟩
  · rintro ⟨peer, p, hp, held⟩
    exact ⟨some p, List.mem_of_getElem? (peer?_eq_some.1 hp), by simpa using held⟩

theorem noPieceLost_iff :
    w.NoPieceLost ↔ ∀ t, w.shared.pieceList.Contains t → 0 < w.places t := by
  refine forall_congr' fun t => forall_congr' fun ht => ?_
  have queued : t ∈ w.shared.pieceList.returnedPieces ↔ 0 < w.shared.pieceList.queued t :=
    List.count_pos_iff.symm
  rw [← holders_pos, queued, places, Shared.places, PieceList.unissued]
  constructor
  · intro kept
    split
    · omega
    · have := kept (by omega)
      omega
  · intro somewhere issued written
    rw [if_neg (by omega)] at somewhere
    omega

/-! ## Runs -/

variable [BitSet β] [Files φ]

/-- A step moves the pieces between their places, and loses the one that is
abandoned. -/
theorem step_places (h : w.Sound) (ht : w.shared.pieceList.Contains t) {a : Action}
    (stepped : w.step a = some w') :
    w'.Sound ∧ w'.shared.pieceList.maxPieceNum = w.shared.pieceList.maxPieceNum ∧
    w'.places t + (if w.abandons a = some t then 1 else 0) = w.places t := by
  rcases step_cases stepped with ⟨infoHash, random, p, rfl, hn, rfl⟩ | ⟨peer, p, rfl, hp, rfl⟩ |
    ⟨peer, type, data, size, s, rfl, _, hs, _, rfl⟩
  · have index := (new_done hn).1
    have none : ¬ (-1 : Int) = t := by
      have := ht.1
      omega
    refine ⟨⟨h.list, ?_⟩, rfl, ?_⟩
    · intro q hq
      cases List.mem_append.1 hq with
      | inl old => exact h.index q old
      | inr new =>
        cases List.mem_singleton.1 new
        exact Or.inl index
    · simp [places, holders, abandons, List.countP_append, index, none]
  · have moved := holders_set (t := t) hp none
    refine ⟨⟨h.list, ?_⟩, rfl, ?_⟩
    · intro q hq
      cases List.mem_or_eq_of_mem_set hq with
      | inl old => exact h.index q old
      | inr new => cases new
    · simp only [abandons, hp, Option.map_some, Option.some.injEq]
      simp only [Option.any_none, Bool.false_eq_true, if_false] at moved
      rw [places, places, holders]
      dsimp only
      omega
  · obtain ⟨hp, shared⟩ := view_eq_some.1 hs
    have moved := Peer.handlers_moves (h.view hs) (shared ▸ ht) type data size
    have put := put_places (t := t) hs (Peer.handlers (.message type) data size s).state
    have lost : w.abandons (.message peer type data size) = some t ↔
        type = .unchoke ∧ s.protocol.pieceIndex = t := by
      cases type <;> simp [abandons, hp]
    refine ⟨put_sound h hs moved.sound moved.max, moved.max.trans (shared ▸ rfl), ?_⟩
    have := moved.places
    simp only [lost]
    omega

theorem step_sound (h : w.Sound) {a : Action} (stepped : w.step a = some w') :
    w'.Sound ∧ w'.shared.pieceList.maxPieceNum = w.shared.pieceList.maxPieceNum := by
  have first : w.shared.pieceList.Contains 0 := ⟨Int.le_refl 0, Int.natCast_nonneg _⟩
  obtain ⟨sound, max, _⟩ := step_places h first stepped
  exact ⟨sound, max⟩

theorem reach_places_le (h : Reach Start step anyStep w) :
    w.Sound ∧ ∀ t, w.shared.pieceList.Contains t → w.places t ≤ 1 := by
  refine Reach.invariant (P := fun w => w.Sound ∧
    ∀ t, w.shared.pieceList.Contains t → w.places t ≤ 1) ?_ ?_ h
  · intro w hw
    exact ⟨(start_places hw).1, fun t ht => Nat.le_of_eq ((start_places hw).2 t ht)⟩
  · rintro w a w' ⟨sound, one⟩ _ stepped
    obtain ⟨sound', max⟩ := step_sound sound stepped
    refine ⟨sound', fun t ht => ?_⟩
    have contained : w.shared.pieceList.Contains t := ⟨ht.1, max ▸ ht.2⟩
    have moved := (step_places sound contained stepped).2.2
    have := one t contained
    omega

/-- **No piece is in two places**, in whatever order the handlers run. -/
theorem piece_in_one_place (h : Reach Start step anyStep w)
    (ht : w.shared.pieceList.Contains t) :
    w.holders t + w.shared.pieceList.queued t + w.shared.completed t +
      w.shared.pieceList.unissued t ≤ 1 := by
  have := (reach_places_le h).2 t ht
  rw [places, Shared.places] at this
  omega

theorem piece_in_one_place_unchoked :
    ∃ w : Swarm (List Bool) (List Bool),
      replay step anyStep (initial twoPieces []) unchoked = some w ∧
      w.holders 0 + w.shared.pieceList.queued 0 + w.shared.completed 0 +
        w.shared.pieceList.unissued 0 ≤ 1 := by
  have enabled : (replay step anyStep (initial twoPieces [] : Swarm (List Bool) (List Bool))
      unchoked).isSome := by decide +kernel
  obtain ⟨w, run⟩ := Option.isSome_iff_exists.1 enabled
  refine ⟨w, run, piece_in_one_place ?_ ⟨Int.le_refl 0, Int.natCast_nonneg _⟩⟩
  exact Reach.replay (.start (start_initial _ _ (by decide))) run

/-- The writes of a piece that were begun. -/
def passed (w : Swarm β φ) (t : Int) : Nat :=
  w.shared.calls.countP fun
    | .writePiece id _ _ _ => (id : Int) = t
    | .getPiece _ _ | .returnPiece _ => false

/-- A piece whose write fails was handed to the files, and is held still. -/
theorem passed_and_held :
    ∃ w : Swarm (List Bool) (List Bool), Reach Start step anyStep w ∧
      w.shared.pieceList.Contains 0 ∧ w.holders 0 = 1 ∧ w.passed 0 = 1 := by
  have run : (replay step anyStep (initial twoPieces [false] : Swarm (List Bool) (List Bool))
      (unchoked ++ [send .piece [0, 0, 0, 0, 0, 0, 0, 0, 7]])).any
        (fun w => w.holders 0 = 1 ∧ w.passed 0 = 1) := by decide +kernel
  obtain ⟨w, run, held⟩ := (Option.any_eq_true _ _).1 run
  obtain ⟨held, passed⟩ := of_decide_eq_true held
  exact ⟨w, Reach.replay (.start (start_initial _ _ (by decide))) run,
    ⟨Int.le_refl 0, Int.natCast_nonneg _⟩, held, passed⟩

theorem reach_places_eq (h : Reach Start step KeepsPieces w) :
    w.Sound ∧ ∀ t, w.shared.pieceList.Contains t → w.places t = 1 := by
  refine Reach.invariant (P := fun w => w.Sound ∧
    ∀ t, w.shared.pieceList.Contains t → w.places t = 1) ?_ ?_ h
  · exact fun w hw => start_places hw
  · rintro w a w' ⟨sound, one⟩ keeps stepped
    obtain ⟨sound', max⟩ := step_sound sound stepped
    refine ⟨sound', fun t ht => ?_⟩
    have contained : w.shared.pieceList.Contains t := ⟨ht.1, max ▸ ht.2⟩
    have moved := (step_places sound contained stepped).2.2
    have kept : w.abandons a ≠ some t := fun lost => by
      have := keeps t lost
      have := ht.1
      omega
    rw [if_neg kept, Nat.add_zero] at moved
    exact moved.trans (one t contained)

/-- **When no piece is lost.** As long as no peer is unchoked or destroyed while
it holds a piece, every piece can still be downloaded; and the first step
that breaks this rule loses a piece. -/
theorem no_piece_lost_iff (h : Reach Start step KeepsPieces w) :
    w.NoPieceLost ∧ ∀ a w', w.step a = some w' → (w'.NoPieceLost ↔ w.KeepsPieces a) := by
  obtain ⟨sound, one⟩ := reach_places_eq h
  refine ⟨noPieceLost_iff.2 fun t ht => by rw [one t ht]; exact Nat.one_pos, ?_⟩
  intro a w' stepped
  rw [noPieceLost_iff]
  constructor
  · intro kept z abandoned
    apply (abandons_marks sound abandoned).resolve_right
    intro contained
    obtain ⟨_, max, moved⟩ := step_places sound contained stepped
    have somewhere := kept z ⟨contained.1, max ▸ contained.2⟩
    rw [if_pos abandoned, one z contained] at moved
    omega
  · intro keeps t ht
    have := (reach_places_eq (.next h keeps stepped)).2 t ht
    omega

theorem no_piece_lost_unchoked :
    ∃ w : Swarm (List Bool) (List Bool),
      replay step KeepsPieces (initial twoPieces []) unchoked = some w ∧ w.NoPieceLost ∧
      ∀ a w', w.step a = some w' → (w'.NoPieceLost ↔ w.KeepsPieces a) := by
  have enabled : (replay step KeepsPieces (initial twoPieces [] : Swarm (List Bool) (List Bool))
      unchoked).isSome := by decide +kernel
  obtain ⟨w, run⟩ := Option.isSome_iff_exists.1 enabled
  exact ⟨w, run,
    no_piece_lost_iff (Reach.replay (.start (start_initial _ _ (by decide))) run)⟩

/-- A second unchoke loses a piece, and so does the end of the peer that holds it. -/
theorem piece_lost :
    (∃ w : Swarm (List Bool) (List Bool), Reach Start step anyStep w ∧ ¬ w.NoPieceLost) ∧
    ∃ w w' : Swarm (List Bool) (List Bool), Reach Start step anyStep w ∧
      w.step (.destroy 0) = some w' ∧ ¬ w'.NoPieceLost := by
  have nowhere (w : Swarm (List Bool) (List Bool)) (h : w.places 0 = 0) : ¬ w.NoPieceLost := by
    intro kept
    have := noPieceLost_iff.1 kept 0 ⟨Int.le_refl 0, Int.natCast_nonneg _⟩
    omega
  have start : Start (initial twoPieces [] : Swarm (List Bool) (List Bool)) :=
    start_initial _ _ (by decide)
  constructor
  · have run : (replay step anyStep (initial twoPieces [] : Swarm (List Bool) (List Bool))
        (unchoked ++ [send .unchoke []])).any (fun w => w.places 0 = 0) := by decide +kernel
    obtain ⟨w, run, lost⟩ := (Option.any_eq_true _ _).1 run
    exact ⟨w, Reach.replay (.start start) run, nowhere w (of_decide_eq_true lost)⟩
  · have run : (replay step anyStep (initial twoPieces [] : Swarm (List Bool) (List Bool))
        unchoked).any (fun w => (w.step (.destroy 0)).any fun w' => w'.places 0 = 0) := by
      decide +kernel
    obtain ⟨w, run, stepped⟩ := (Option.any_eq_true _ _).1 run
    obtain ⟨w', stepped, lost⟩ := (Option.any_eq_true _ _).1 stepped
    exact ⟨w, w', Reach.replay (.start start) run, stepped, nowhere w' (of_decide_eq_true lost)⟩

end Swarm

end TorrentClient
