import TorrentClient.SendQueue
import TorrentClient.TrackerConnection

/-!
# Where a receive buffer is written

A read writes at the fill level of its buffer, and no more than there is room
behind it. `ClientLogic` gives up on a buffer that is full; `TrackerConnection`
writes a NUL behind it.
-/

namespace TorrentClient

/-- A write to a buffer. -/
structure BufferWrite where
  index : Nat
  size : Nat
  deriving DecidableEq, Repr

def BufferWrite.Inside (capacity : Nat) (w : BufferWrite) : Prop := w.index + w.size ≤ capacity

/-- What a read writes at a fill level. -/
def ReadResult.writes (level : Nat) : ReadResult → List BufferWrite
  | .bytes data => [⟨level, data.length⟩]
  | .failed _ => []

/-- A read returns at most the number of bytes it is asked for. -/
def Granted (capacity level : Nat) (result : ReadResult) : Prop :=
  result.readed ≤ sub64 capacity level

/-- A result below zero takes back no more than there is. -/
def KeepsLevel (level : Nat) (result : ReadResult) : Prop := -result.readed ≤ level

instance (capacity level : Nat) (result : ReadResult) :
    Decidable (Granted capacity level result) :=
  inferInstanceAs (Decidable (_ ≤ _))

instance (level : Nat) (result : ReadResult) : Decidable (KeepsLevel level result) :=
  inferInstanceAs (Decidable (_ ≤ _))

/-! ## The connection to a peer -/

namespace ClientLogic

variable {σ : Type} {handlers : Handlers σ}

/-- What one turn of the loop of `on_read` writes: what is read, and what moves to the
front. -/
def readWrites (handlers : Handlers σ) (c : ClientLogic σ) (result : ReadResult) :
    List BufferWrite :=
  result.writes c.bufferSize ++
    match c.filled result with
    | none => []
    | some c =>
      match processMessage handlers c.buffer.val c.bufferSize c.protocol with
      | .done processed _ =>
        if processed ≠ 0 ∧ processed < c.bufferSize then [⟨0, c.bufferSize - processed⟩] else []
      | .thrown _ _ | .fault _ _ => []

def loopWrites (handlers : Handlers σ) (c : ClientLogic σ) : List ReadResult → List BufferWrite
  | [] => []
  | result :: results =>
    if result.readed = 0 then []
    else
      c.readWrites handlers result ++
        match c.processRead handlers result with
        | .done _ c => c.loopWrites handlers results
        | .thrown _ _ | .fault _ _ => []

/-- What `on_read` writes to the buffer, in order. -/
def writes (handlers : Handlers σ) (c : ClientLogic σ) (results : List ReadResult) :
    List BufferWrite :=
  if c.state ≠ .waitForRead then [] else c.loopWrites handlers results

/-- What has to hold of every read, and of the fill level before it. -/
def EachResult (handlers : Handlers σ) (Q : Nat → ReadResult → Prop) (c : ClientLogic σ) :
    List ReadResult → Prop
  | [] => True
  | result :: results => result.readed = 0 ∨ Q c.bufferSize result ∧
      ∀ c', c.processRead handlers result = .done () c' → c'.EachResult handlers Q results

/-- The buffer is not full, so there is something to be asked for. -/
def HasRoom (c : ClientLogic σ) : Prop := c.bufferSize < bufferCapacity

/-- A read that is granted stays inside the buffer. -/
theorem filled_granted {c : ClientLogic σ} {result : ReadResult} (room : c.HasRoom)
    (granted : Granted bufferCapacity c.bufferSize result)
    (keeps : KeepsLevel c.bufferSize result) :
    (∀ w ∈ result.writes c.bufferSize, w.Inside bufferCapacity) ∧
      ∃ c', c.filled result = some c' ∧ c'.bufferSize ≤ bufferCapacity := by
  have word : bufferCapacity < 2 ^ 64 := by decide
  unfold HasRoom at room
  cases result with
  | bytes data =>
    have asked : data.length ≤ sub64 bufferCapacity c.bufferSize := Int.ofNat_le.1 granted
    rw [sub64_eq word (Nat.le_of_lt room)] at asked
    have fits : c.bufferSize + data.length ≤ bufferCapacity := by omega
    refine ⟨?_, ?_⟩
    · intro w mem
      rw [List.mem_singleton.1 mem]
      exact fits
    · obtain ⟨after, put, -⟩ := Buffer.put_some c.buffer c.bufferSize data fits
      refine ⟨_, by rw [filled, put]; rfl, ?_⟩
      show add64 c.bufferSize data.length ≤ bufferCapacity
      rw [add64_eq (by omega)]
      exact fits
  | failed n =>
    have back : n + 1 ≤ c.bufferSize := by
      have le : -Int.negSucc n ≤ c.bufferSize := keeps
      omega
    refine ⟨fun w mem => absurd mem List.not_mem_nil, _, rfl, ?_⟩
    show add64 c.bufferSize (toUInt64 (Int.negSucc n)) ≤ bufferCapacity
    unfold add64 toUInt64
    omega

theorem checkWaiting_room {c c' : ClientLogic σ} (le : c.bufferSize ≤ bufferCapacity)
    (returned : c.checkWaiting = .done () c') : c'.HasRoom := by
  unfold checkWaiting at returned
  dsimp only at returned
  split at returned
  · cases returned
  · split at returned
    · cases returned
    · rename_i notFull
      cases returned
      exact Nat.lt_of_le_of_ne le notFull

theorem consume_room {c c' : ClientLogic σ} {processed : Nat}
    (le : c.bufferSize ≤ bufferCapacity) (returned : c.consume processed = .done () c') :
    c'.HasRoom := by
  unfold consume at returned
  split at returned
  · dsimp only at returned
    split at returned
    · cases returned
    · split at returned
      · cases returned
      · rename_i notFull
        cases returned
        exact Nat.lt_of_le_of_ne (Nat.le_trans (Nat.sub_le _ _) le) notFull
  · cases returned
    show 0 < bufferCapacity
    decide

/-- One turn of the loop writes inside the buffer, and leaves room in it. -/
theorem readWrites_inside {c : ClientLogic σ} {result : ReadResult} (room : c.HasRoom)
    (granted : Granted bufferCapacity c.bufferSize result)
    (keeps : KeepsLevel c.bufferSize result) :
    (∀ w ∈ c.readWrites handlers result, w.Inside bufferCapacity) ∧
      ∀ c', c.processRead handlers result = .done () c' → c'.HasRoom := by
  obtain ⟨inside, full, hf, le⟩ := filled_granted room granted keeps
  constructor
  · intro w mem
    rcases List.mem_append.1 mem with read | moved
    · exact inside w read
    · rw [hf] at moved
      dsimp only at moved
      split at moved
      · split at moved
        · rw [List.mem_singleton.1 moved]
          exact (Nat.zero_add _).trans_le ((Nat.sub_le _ _).trans le)
        · cases moved
      · cases moved
      · cases moved
  · intro c' returned
    rw [processRead, hf] at returned
    dsimp only at returned
    split at returned
    · cases returned
    · cases returned
    · rename_i processed t _
      split at returned
      · exact checkWaiting_room (c := { full with protocol := t }) le returned
      · exact consume_room (c := { full with protocol := t }) le returned

/-- What a read has to return. -/
def Bounded (level : Nat) (result : ReadResult) : Prop :=
  Granted bufferCapacity level result ∧ KeepsLevel level result

theorem processRead_level {c c' : ClientLogic σ} {data : List UInt8}
    (fits : c.bufferSize + data.length ≤ bufferCapacity)
    (returned : c.processRead handlers (.bytes data) = .done () c') :
    c'.bufferSize ≤ c.bufferSize + data.length := by
  obtain ⟨buffer, put, -⟩ := Buffer.put_some c.buffer c.bufferSize data fits
  have word : c.bufferSize + data.length < 2 ^ 64 := by
    have : bufferCapacity < 2 ^ 64 := by decide
    omega
  rw [processRead, filled, put, Option.map_some, add64_eq word] at returned
  dsimp only at returned
  split at returned
  · cases returned
  · cases returned
  · split at returned
    · unfold checkWaiting at returned
      dsimp only at returned
      split at returned
      · cases returned
      · split at returned <;> cases returned
        exact Nat.le_refl _
    · unfold consume at returned
      split at returned
      · dsimp only at returned
        split at returned
        · cases returned
        · split at returned <;> cases returned
          exact Nat.sub_le _ _
      · cases returned
        exact Nat.zero_le _

/-- Reads that fit into the buffer together return what they may. -/
theorem each_bounded (chunks : List (List UInt8)) : ∀ c : ClientLogic σ,
    c.bufferSize + chunks.flatten.length ≤ bufferCapacity →
      c.EachResult handlers Bounded (chunks.map .bytes) := by
  induction chunks with
  | nil => exact fun _ _ => trivial
  | cons chunk chunks ih =>
    intro c fits
    rw [List.flatten_cons, List.length_append] at fits
    refine Or.inr ⟨⟨?_, ?_⟩, fun c' returned => ih c' ?_⟩
    · show (chunk.length : Int) ≤ _
      rw [sub64_eq (by decide) (by omega)]
      omega
    · show -(chunk.length : Int) ≤ _
      omega
    · have level := processRead_level (by omega) returned
      omega

theorem loopWrites_inside (results : List ReadResult) : ∀ c : ClientLogic σ, c.HasRoom →
    c.EachResult handlers Bounded results →
      (∀ w ∈ c.loopWrites handlers results, w.Inside bufferCapacity) ∧
        ∀ c', c.readLoop handlers results = .done () c' → c'.HasRoom := by
  induction results with
  | nil =>
    intro c room _
    refine ⟨fun w mem => absurd mem List.not_mem_nil, ?_⟩
    rintro c' ⟨⟩
    exact room
  | cons result results ih =>
    intro c room each
    rw [loopWrites, readLoop]
    by_cases last : result.readed = 0
    · rw [if_pos last, if_pos last]
      refine ⟨fun w mem => absurd mem List.not_mem_nil, ?_⟩
      rintro c' ⟨⟩
      exact room
    · rw [if_neg last, if_neg last]
      obtain ⟨⟨granted, keeps⟩, later⟩ := each.resolve_left last
      obtain ⟨inside, after⟩ := @readWrites_inside _ handlers _ _ room granted keeps
      constructor
      · intro w mem
        rcases List.mem_append.1 mem with now | more
        · exact inside w now
        · cases returned : c.processRead handlers result with
          | done _ c' =>
            rw [returned] at more
            exact (ih c' (after c' returned) (later c' returned)).1 w more
          | thrown e c' =>
            rw [returned] at more
            cases more
          | fault r c' =>
            rw [returned] at more
            cases more
      · intro c' looped
        obtain ⟨_, mid, returned, looped⟩ := Outcome.bind_eq_done looped
        exact (ih mid (after mid returned) (later mid returned)).2 c' looped

theorem writes_inside {c : ClientLogic σ} (room : c.HasRoom) {results : List ReadResult}
    (bounded : c.state = .waitForRead → c.EachResult handlers Bounded results) :
    ∀ w ∈ c.writes handlers results, w.Inside bufferCapacity := by
  unfold writes
  split
  · exact fun w mem => absurd mem List.not_mem_nil
  · rename_i reads
    exact (loopWrites_inside results c room (bounded (not_not.1 reads))).1

theorem onRead_room {hasMessage : σ → Bool} {c c' : ClientLogic σ} (room : c.HasRoom)
    {results : List ReadResult}
    (bounded : c.state = .waitForRead → c.EachResult handlers Bounded results)
    (returned : c.onRead handlers hasMessage results = .done () c') : c'.HasRoom := by
  unfold onRead at returned
  split at returned
  · cases returned
    exact room
  · rename_i reads
    obtain ⟨_, mid, looped, last⟩ := Outcome.bind_eq_done returned
    have after := (loopWrites_inside results c room (bounded (not_not.1 reads))).2 mid looped
    cases last
    split <;> exact after

end ClientLogic

section
variable {β φ : Type} {c c' : ClientLogic (Peer β φ)}

namespace ClientLogic

theorem onWrite_room (room : c.HasRoom) {write : List Message → Message → Option Thrown}
    {sent : List Message} (returned : c.onWrite write = .done sent c') : c'.HasRoom := by
  unfold onWrite at returned
  split at returned
  · cases returned
    exact room
  · obtain ⟨all, mid, looped, last⟩ := Outcome.bind_eq_done returned
    obtain ⟨p, -, rfl⟩ := Outcome.lift_eq_done looped
    cases last
    exact room

variable [BitSet β] [Files φ]

/-- The reads of a callback return what they may. -/
def ReadsBounded (c : ClientLogic (Peer β φ)) : Callback φ → Prop
  | .read results => c.state = .waitForRead → c.EachResult Peer.handlers Bounded results
  | .write _ | .others _ => True

theorem callback_room (room : c.HasRoom) {a : Callback φ} (bounded : c.ReadsBounded a)
    (called : c.callback a = some c') : c'.HasRoom := by
  rcases callback_cases called with ⟨results, rfl, returned⟩ | ⟨throws, sent, -, returned⟩ |
    ⟨shared, -, rfl⟩
  · exact onRead_room room bounded returned
  · exact onWrite_room room returned
  · exact room

theorem reach_room (h : Reach Made callback ReadsBounded c) : c.HasRoom := by
  apply Reach.invariant ?_ ?_ h
  · rintro c ⟨buffer, infoHash, random, p, shared, -, rfl⟩
    show 0 < bufferCapacity
    decide
  · intro c a c' room bounded called
    exact callback_room room bounded called

end ClientLogic

end

/-! ## The connection to a tracker -/

namespace TrackerConnection

/-- What the loop of `on_read` writes from a fill level on, and the NUL behind it. -/
def loopWrites (level : Nat) : List ReadResult → List BufferWrite
  | [] => [⟨level, 1⟩]
  | result :: results =>
    if result.readed = 0 then [⟨level, 1⟩]
    else result.writes level ++ loopWrites (add64 level (toUInt64 result.readed)) results

/-- What `on_read` writes to the buffer, in order. -/
def writes (c : TrackerConnection) (results : List ReadResult) : List BufferWrite :=
  if c.state ≠ .waitForRead then [] else ⟨0, trackerCapacity⟩ :: loopWrites 0 results

/-- Every read returns at most the number of bytes it is asked for. -/
def EachGranted (level : Nat) : List ReadResult → Prop
  | [] => True
  | result :: results => result.readed = 0 ∨ Granted trackerCapacity level result ∧
      EachGranted (add64 level (toUInt64 result.readed)) results

/-- The results up to the one that ends the loop. -/
def reads (results : List ReadResult) : List Int :=
  (results.map ReadResult.readed).takeWhile (· ≠ 0)

/-- Nothing is read into a full buffer, and in the end there is room for one byte. The
sums are those of the results so far. -/
structure LeavesRoom (results : List ReadResult) : Prop where
  each : ∀ front n back, reads results = front ++ n :: back → 0 < n →
    toUInt64 front.sum ≤ trackerCapacity
  last : toUInt64 (reads results).sum < trackerCapacity

theorem add64_toUInt64 (a b : Int) : add64 (toUInt64 a) (toUInt64 b) = toUInt64 (a + b) := by
  unfold add64 toUInt64
  omega

/-- A read that is granted is inside the buffer when it starts there. -/
theorem writes_inside_iff {level : Nat} {result : ReadResult} (some : result.readed ≠ 0)
    (granted : Granted trackerCapacity level result) :
    (∀ w ∈ result.writes level, w.Inside trackerCapacity) ↔
      (0 < result.readed → level ≤ trackerCapacity) := by
  cases result with
  | bytes data =>
    have asked : data.length ≤ sub64 trackerCapacity level := Int.ofNat_le.1 granted
    have pos : 0 < data.length := Nat.pos_of_ne_zero fun zero => some (congrArg Int.ofNat zero)
    constructor
    · intro inside _
      have fits : level + data.length ≤ trackerCapacity := inside _ List.mem_cons_self
      omega
    · intro starts w mem
      have le := starts (Int.ofNat_lt.2 pos)
      rw [sub64_eq (by decide) le] at asked
      rw [List.mem_singleton.1 mem]
      show level + data.length ≤ trackerCapacity
      omega
  | failed n =>
    apply iff_of_true
    · exact fun w mem => absurd mem List.not_mem_nil
    · exact fun pos => absurd pos (Int.not_lt.2 (Int.le_of_lt (Int.negSucc_lt_zero n)))

theorem reads_cons {result : ReadResult} (results : List ReadResult) (some : result.readed ≠ 0) :
    reads (result :: results) = result.readed :: reads results := by
  rw [reads, List.map_cons, List.takeWhile_cons_of_pos (by simpa using some)]
  rfl

theorem reads_end {result : ReadResult} (results : List ReadResult) (last : result.readed = 0) :
    reads (result :: results) = [] := by
  rw [reads, List.map_cons, List.takeWhile_cons_of_neg (by simpa using last)]

theorem loopWrites_inside_iff (results : List ReadResult) : ∀ sum : Int,
    EachGranted (toUInt64 sum) results →
      ((∀ w ∈ loopWrites (toUInt64 sum) results, w.Inside trackerCapacity) ↔
        (∀ front n back, reads results = front ++ n :: back → 0 < n →
          toUInt64 (sum + front.sum) ≤ trackerCapacity) ∧
        toUInt64 (sum + (reads results).sum) < trackerCapacity) := by
  have nul (sum : Int) :
      (∀ w ∈ [(⟨toUInt64 sum, 1⟩ : BufferWrite)], w.Inside trackerCapacity) ↔
      (∀ front n back, [] = front ++ n :: back → 0 < n →
        toUInt64 (sum + front.sum) ≤ trackerCapacity) ∧
      toUInt64 (sum + List.sum []) < trackerCapacity := by
    rw [List.forall_mem_singleton, List.sum_nil, Int.add_zero]
    refine (and_iff_right ?_).symm
    intro front n back split
    exact absurd split.symm (List.append_ne_nil_of_right_ne_nil _ (List.cons_ne_nil _ _))
  induction results with
  | nil => exact fun sum _ => nul sum
  | cons result results ih =>
    intro sum each
    by_cases last : result.readed = 0
    · rw [loopWrites, if_pos last, reads_end results last]
      exact nul sum
    · obtain ⟨granted, later⟩ := each.resolve_left last
      rw [add64_toUInt64] at later
      rw [loopWrites, if_neg last, reads_cons results last, List.forall_mem_append,
        writes_inside_iff last granted, add64_toUInt64,
        ih (sum + result.readed) later, ← and_assoc, List.sum_cons, Int.add_assoc]
      apply and_congr_left
      intro _
      constructor
      · rintro ⟨first, more⟩ front n back split pos
        cases front with
        | nil =>
          cases split
          rw [List.sum_nil, Int.add_zero]
          exact first pos
        | cons m front =>
          injection split with first split
          rw [← first, List.sum_cons, ← Int.add_assoc]
          exact more front n back split pos
      · intro every
        constructor
        · intro pos
          have first := every [] _ _ rfl pos
          rwa [List.sum_nil, Int.add_zero] at first
        · intro front n back split pos
          have more := every (result.readed :: front) n back (by rw [split]; rfl) pos
          rwa [List.sum_cons, ← Int.add_assoc] at more

/-- **When `on_read` stays inside its buffer.** -/
theorem writes_inside_iff_leavesRoom (c : TrackerConnection) {results : List ReadResult}
    (granted : EachGranted 0 results) :
    (∀ w ∈ c.writes results, w.Inside trackerCapacity) ↔
      (c.state = .waitForRead → LeavesRoom results) := by
  have zeroed : (⟨0, trackerCapacity⟩ : BufferWrite).Inside trackerCapacity := Nat.le_refl _
  have loop := loopWrites_inside_iff results 0 granted
  simp only [Int.zero_add] at loop
  unfold writes
  by_cases reads : c.state = .waitForRead
  · rw [if_neg (not_not.2 reads), List.forall_mem_cons, and_iff_right zeroed]
    apply loop.trans
    constructor
    · exact fun room _ => ⟨room.1, room.2⟩
    · exact fun room => ⟨(room reads).each, (room reads).last⟩
  · rw [if_pos reads]
    exact iff_of_true (fun w mem => absurd mem List.not_mem_nil) fun now => absurd now reads

/-! ## Reads that return bytes -/

section
variable {chunks : List Bytes} (some : ∀ data ∈ chunks, data ≠ [])
include some

theorem readed_ne_zero {data : Bytes} (mem : data ∈ chunks) :
    (ReadResult.bytes data).readed ≠ 0 :=
  fun zero => some data mem (List.eq_nil_of_length_eq_zero (Int.ofNat_eq_zero.1 zero))

theorem reads_bytes :
    reads (chunks.map .bytes) = chunks.map fun data => (data.length : Int) := by
  induction chunks with
  | nil => rfl
  | cons data chunks ih =>
    have readed := readed_ne_zero some List.mem_cons_self
    rw [List.map_cons, reads_cons _ readed, ih (List.forall_mem_cons.1 some).2]
    rfl

/-- They fill the buffer to its end at most. -/
theorem bytes_le {level : Nat} (le : level ≤ trackerCapacity)
    (granted : EachGranted level (chunks.map .bytes)) :
    level + chunks.flatten.length ≤ trackerCapacity := by
  induction chunks generalizing level with
  | nil => exact le
  | cons data chunks ih =>
    have readed := readed_ne_zero some List.mem_cons_self
    rw [List.forall_mem_cons] at some
    obtain ⟨asked, later⟩ := granted.resolve_left readed
    have short : data.length ≤ sub64 trackerCapacity level := Int.ofNat_le.1 asked
    rw [sub64_eq (by decide) le] at short
    have next : add64 level (toUInt64 data.length) = level + data.length := by
      simp only [add64, toUInt64, trackerCapacity] at *
      omega
    rw [show (ReadResult.bytes data).readed = data.length from rfl, next] at later
    have rest := ih some.2 (by omega) later
    rw [List.flatten_cons, List.length_append]
    omega

/-- Reads that return bytes leave room when these are fewer than the buffer holds. -/
theorem leavesRoom_bytes (granted : EachGranted 0 (chunks.map .bytes)) :
    LeavesRoom (chunks.map .bytes) ↔ chunks.flatten.length < trackerCapacity := by
  have le := bytes_le some (Nat.zero_le _) granted
  have sums (lengths : List Bytes) :
      (lengths.map fun data => (data.length : Int)).sum = lengths.flatten.length := by
    induction lengths with
    | nil => rfl
    | cons data lengths ih => rw [List.map_cons, List.sum_cons, ih, List.flatten_cons,
        List.length_append, Int.natCast_add]
  have total : toUInt64 (reads (chunks.map .bytes)).sum = chunks.flatten.length := by
    rw [reads_bytes some, sums]
    simp only [toUInt64, trackerCapacity] at *
    omega
  constructor
  · intro room
    rw [← total]
    exact room.last
  · intro less
    refine ⟨?_, by rwa [total]⟩
    intro front n back split _
    rw [reads_bytes some] at split
    obtain ⟨before, after, rfl, rfl, -⟩ := List.map_eq_append_iff.1 split
    rw [List.flatten_append, List.length_append] at le
    rw [sums]
    simp only [toUInt64, trackerCapacity] at *
    omega

end

section
variable {c : TrackerConnection} {result : ReadResult}

theorem filled_offset {c' : TrackerConnection} (filled : c.filled result = some c') :
    c'.offset = add64 c.offset (toUInt64 result.readed) := by
  cases result with
  | bytes data =>
    obtain ⟨buffer, -, rfl⟩ := Option.map_eq_some_iff.1 filled
    show (c.offset + data.length) % 2 ^ 64 = (c.offset + toUInt64 data.length) % 2 ^ 64
    unfold toUInt64
    omega
  | failed n =>
    cases filled
    rfl

/-- A read is put into the buffer when it is inside. -/
theorem filled_isSome : (c.filled result).isSome ↔
    ∀ w ∈ result.writes c.offset, w.Inside trackerCapacity := by
  cases result with
  | bytes data =>
    rw [ReadResult.writes, List.forall_mem_singleton, filled, Option.isSome_map,
      TrackerBuffer.put]
    show _ ↔ c.offset + data.length ≤ trackerCapacity
    split
    · rename_i fits
      exact iff_of_true rfl fits
    · rename_i outside
      exact iff_of_false Bool.false_ne_true outside
  | failed n => exact iff_of_true rfl fun w mem => absurd mem List.not_mem_nil

end

/-- The writes of the loop are inside the buffer when it returns with room for the NUL. -/
theorem loopWrites_inside_iff_returned (results : List ReadResult) : ∀ c : TrackerConnection,
    (∀ w ∈ loopWrites c.offset results, w.Inside trackerCapacity) ↔
      ∃ c', c.readLoop results = .done () c' ∧ c'.offset < trackerCapacity := by
  have nul (c : TrackerConnection) :
      (∀ w ∈ [(⟨c.offset, 1⟩ : BufferWrite)], w.Inside trackerCapacity) ↔
        ∃ c', (.done () c : Outcome Thrown TrackerConnection Unit) = .done () c' ∧
          c'.offset < trackerCapacity := by
    rw [List.forall_mem_singleton]
    constructor
    · exact fun inside => ⟨c, rfl, inside⟩
    · rintro ⟨_, ⟨⟩, inside⟩
      exact inside
  induction results with
  | nil => exact nul
  | cons result results ih =>
    intro c
    by_cases last : result.readed = 0
    · rw [loopWrites, if_pos last, readLoop, if_pos last]
      exact nul c
    · rw [loopWrites, if_neg last, readLoop, if_neg last, List.forall_mem_append,
        ← filled_isSome]
      cases filled : c.filled result with
      | none =>
        constructor
        · rintro ⟨⟨⟩, -⟩
        · rintro ⟨_, ⟨⟩, -⟩
      | some next =>
        rw [← filled_offset filled, ih next]
        exact and_iff_right rfl

end TrackerConnection

/-- **The receive buffers are written inside their bounds.** That of a peer in every
run whose reads return no more than they are asked for, and take back no more than there
is; that of a tracker exactly when its reads leave room for the NUL. -/
theorem receive_inside {β φ : Type} [BitSet β] [Files φ] {c : ClientLogic (Peer β φ)}
    (h : Reach ClientLogic.Made ClientLogic.callback ClientLogic.ReadsBounded c)
    {results : List ReadResult} (bounded : c.ReadsBounded (.read results))
    (t : TrackerConnection) {results' : List ReadResult}
    (granted : TrackerConnection.EachGranted 0 results') :
    (∀ w ∈ c.writes Peer.handlers results, w.Inside bufferCapacity) ∧
    ((∀ w ∈ t.writes results', w.Inside trackerCapacity) ↔
      (t.state = .waitForRead → TrackerConnection.LeavesRoom results')) :=
  ⟨ClientLogic.writes_inside (ClientLogic.reach_room h) bounded,
    t.writes_inside_iff_leavesRoom granted⟩

/-- A connection that waits for the response of its tracker. -/
def TrackerConnection.waiting : TrackerConnection := ⟨.waitForRead, .zeroed, 0, []⟩

/-- The first read of a connection whose handshake was written, and a short response. -/
theorem receive_inside_fresh :
    ∃ c, ClientLogic.fresh.callback (.write fun _ _ => none) = some c ∧
      c.state = .waitForRead ∧
      (∀ w ∈ c.writes Peer.handlers [.bytes zeroHandshake], w.Inside bufferCapacity) ∧
      ((∀ w ∈ TrackerConnection.waiting.writes [.bytes lf2], w.Inside trackerCapacity) ↔
        (TrackerConnection.waiting.state = .waitForRead →
          TrackerConnection.LeavesRoom [.bytes lf2])) := by
  have enabled : (ClientLogic.fresh.callback (.write fun _ _ => none)).any
      fun c => c.state = .waitForRead ∧ c.bufferSize = 0 := by decide +kernel
  obtain ⟨c, written, at_c⟩ := (Option.any_eq_true _ _).1 enabled
  obtain ⟨waits, empty⟩ := of_decide_eq_true at_c
  have reached : Reach ClientLogic.Made ClientLogic.callback ClientLogic.ReadsBounded c :=
    Reach.next (a := Callback.write fun _ _ => none) (.start ClientLogic.made_fresh) trivial written
  have bounded : c.ReadsBounded (.read [.bytes zeroHandshake]) := by
    intro _
    refine Or.inr ⟨?_, fun _ _ => trivial⟩
    rw [empty]
    exact ⟨by decide, by decide⟩
  have granted : TrackerConnection.EachGranted 0 [.bytes lf2] :=
    Or.inr ⟨by decide, trivial⟩
  exact ⟨c, written, waits, receive_inside reached bounded .waiting granted⟩

/-- A response of as many bytes as the buffer holds. -/
def fullResponse : List ReadResult := [.bytes (List.replicate trackerCapacity 65)]

theorem nul_outside :
    TrackerConnection.waiting.state = .waitForRead ∧
    TrackerConnection.EachGranted 0 fullResponse ∧
    ¬ ∀ w ∈ TrackerConnection.waiting.writes fullResponse, w.Inside trackerCapacity := by
  have length : (List.replicate trackerCapacity (65 : UInt8)).length = trackerCapacity :=
    List.length_replicate
  have granted : TrackerConnection.EachGranted 0 fullResponse := by
    refine Or.inr ⟨?_, trivial⟩
    show ((List.replicate trackerCapacity (65 : UInt8)).length : Int) ≤ _
    rw [length]
    decide
  refine ⟨rfl, granted, ?_⟩
  intro inside
  have room := (TrackerConnection.waiting.writes_inside_iff_leavesRoom granted).1 inside rfl
  have some : ∀ data ∈ [List.replicate trackerCapacity (65 : UInt8)], data ≠ [] := by
    intro data mem
    rw [List.mem_singleton.1 mem]
    exact List.ne_nil_of_length_pos (by rw [length]; decide)
  have less := (TrackerConnection.leavesRoom_bytes some granted).1 room
  rw [List.flatten_singleton, length] at less
  exact Nat.lt_irrefl _ less

end TorrentClient
