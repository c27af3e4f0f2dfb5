import TorrentClient.BitSet
import TorrentClient.TorrentFile

/-!
# Writing a piece to a file

`File::write_piece` cuts a file's part out of a piece and hands it to `pwrite`.
-/

namespace TorrentClient

/-- The arguments of a call of `pwrite`. -/
structure Write where
  bytes : Bytes
  position : Nat
  deriving DecidableEq, Repr

/-- What `pwrite` does for a number of bytes and a position: the number it
writes, `none` when it fails, and the text for `errno` after it. -/
structure Pwritten where
  count : Option Nat
  reason : String

abbrev Pwrite := Nat → Nat → Pwritten

/-- The content of a file after a write, with zeros in a gap before it. -/
def Write.apply (content : Bytes) (w : Write) : Bytes :=
  if w.bytes = [] then content
  else overwrite (content ++ List.replicate (w.position - content.length) 0) w.position w.bytes

@[simp] theorem Write.apply_nil (bytes : Bytes) : Write.apply [] ⟨bytes, 0⟩ = bytes := by
  unfold apply
  split
  · exact (‹bytes = []›).symm
  · simp [overwrite]

theorem Write.apply_length (content : Bytes) {w : Write} (h : w.bytes ≠ []) :
    (Write.apply content w).length = max content.length (w.position + w.bytes.length) := by
  rw [apply, if_neg h]
  simp only [overwrite, List.length_append, List.length_take, List.length_drop,
    List.length_replicate]
  omega

theorem Write.length_le_apply (content : Bytes) (w : Write) :
    content.length ≤ (Write.apply content w).length := by
  by_cases empty : w.bytes = []
  · rw [apply, if_pos empty]
  · rw [apply_length content empty]
    exact Nat.le_max_left _ _

/-- Later writes do not shorten a file, so it ends no earlier than each of them. -/
theorem Write.stop_le_length {w : Write} (h : w.bytes ≠ []) {ws : List Write} (mem : w ∈ ws)
    (content : Bytes) : w.position + w.bytes.length ≤ (ws.foldl Write.apply content).length := by
  induction ws generalizing content with
  | nil => exact absurd mem List.not_mem_nil
  | cons v ws ih =>
    cases List.mem_cons.1 mem with
    | inl eq =>
      rw [← eq, List.foldl_cons]
      have reached : w.position + w.bytes.length ≤ (Write.apply content w).length :=
        apply_length content h ▸ Nat.le_max_right _ _
      refine List.foldlRecOn (motive := fun content : Bytes => w.position + w.bytes.length ≤
        content.length) ws _ reached ?_
      exact fun content kept v _ => Nat.le_trans kept (length_le_apply content v)
    | inr mem => exact ih mem _

structure File (β : Type) where
  bitset : β
  fi : FileInfo
  pieceSize : Nat
  /-- What the open file holds. -/
  content : Bytes
  /-- The calls of `pwrite`, in order. -/
  writes : List Write

namespace File

variable {β : Type}

/-- The state `pwrite` leaves behind. -/
def written (f : File β) (w : Write) (count : Option Nat) : File β :=
  { f with
    content := Write.apply f.content ⟨w.bytes.take (count.getD 0), w.position⟩
    writes := f.writes ++ [w] }

def offset (f : File β) (id : Nat) : Nat :=
  if id = f.fi.firstPiece.index then f.fi.firstPiece.offset else 0

def size (f : File β) (id sourceSize : Nat) : Int :=
  toInt64 (sub64 (if id = f.fi.lastPiece.index then f.fi.lastPiece.offset else sourceSize)
    (f.offset id))

def offsetInFile (f : File β) (id : Nat) : Nat :=
  if id ≠ f.fi.firstPiece.index then
    add64 (sub64 f.pieceSize f.fi.firstPiece.offset)
      (mul64 (sub64 id f.fi.firstPiece.index) f.pieceSize)
  else 0

/-- `source` is the memory that can be read through the source pointer. -/
def writePiece [BitSet β] (f : File β) (pwrite : Pwrite) (id : Nat) (source : Bytes)
    (sourceSize : Nat) : Outcome Thrown (File β) Unit :=
  if id < f.fi.firstPiece.index ∨ id > f.fi.lastPiece.index then .done () f
  else
    let size := f.size id sourceSize
    match bytesAt source (f.offset id) (toUInt64 size) with
    | none => .fault .outOfBounds f
    | some bytes =>
      let result := pwrite (toUInt64 size) (f.offsetInFile id)
      let f := f.written ⟨bytes, f.offsetInFile id⟩ result.count
      if (result.count.elim (-1) fun n => (n : Int)) ≠ size then
        .thrown (.runtimeError ("error while writing: " ++ result.reason)) f
      else
        match BitSet.set f.bitset (sub64 id f.fi.firstPiece.index) true with
        | none => .thrown .bitSet f
        | some bitset => .done () { f with bitset := bitset }

end File

/-! ## The part of a file inside a piece -/

/-- A piece of the content stream. -/
def pieceOf (stream : Bytes) (pieceSize id : Nat) : Bytes :=
  (stream.drop (id * pieceSize)).take pieceSize

/-- The piece and the file, which starts at `start`, have a byte in common. -/
def Overlaps (pieceSize start : Nat) (file : FileInfo) (id : Nat) : Prop :=
  id * pieceSize < start + file.size ∧ start < (id + 1) * pieceSize

/-- The write of the bytes of the file inside the piece to their place in the file. -/
def partOf (stream : Bytes) (pieceSize start : Nat) (file : FileInfo) (id : Nat) : Write :=
  let lo := max (id * pieceSize) start
  let hi := min ((id + 1) * pieceSize) (start + file.size)
  ⟨(stream.drop lo).take (hi - lo), lo - start⟩

theorem piece_before {a b : Nat} (h : a < b) (pieceSize : Nat) :
    a * pieceSize + pieceSize ≤ b * pieceSize :=
  Nat.succ_mul a pieceSize ▸ Nat.mul_le_mul_right pieceSize h

section
variable {pieceSize start id : Nat} {file : FileInfo}

theorem Placed.index_le (placed : Placed pieceSize start file) (nonempty : 0 < file.size) :
    file.firstPiece.index ≤ file.lastPiece.index := by
  have first := placed.first
  have last := placed.last nonempty
  have ⟨_, last_le⟩ := placed.last_range nonempty
  simp only [OffsetInPiece.position] at first last
  by_contra above
  have := piece_before (Nat.lt_of_not_le above) pieceSize
  omega

theorem overlaps_iff (placed : Placed pieceSize start file) (nonempty : 0 < file.size) :
    Overlaps pieceSize start file id ↔ file.firstPiece.index ≤ id ∧ id ≤ file.lastPiece.index := by
  have first := placed.first
  have last := placed.last nonempty
  have ⟨lo, hi⟩ := placed.last_range nonempty
  have offset_lt := placed.first_lt
  simp only [OffsetInPiece.position] at first last
  simp only [Overlaps, Nat.succ_mul]
  constructor
  · rintro ⟨before_end, after_start⟩
    constructor
    · by_contra above
      have := piece_before (Nat.lt_of_not_le above) pieceSize
      omega
    · by_contra below
      have := piece_before (Nat.lt_of_not_le below) pieceSize
      omega
  · rintro ⟨above, below⟩
    have := Nat.mul_le_mul_right pieceSize above
    have := Nat.mul_le_mul_right pieceSize below
    omega

end

namespace File

variable {β : Type} {f : File β} {stream : Bytes} {start id : Nat}

/-- The offset in the piece at which its part of the file starts. -/
theorem part_start (placed : Placed f.pieceSize start f.fi) (h : f.fi.firstPiece.index ≤ id) :
    max (id * f.pieceSize) start = id * f.pieceSize + f.offset id := by
  have first := placed.first
  have offset_lt := placed.first_lt
  simp only [OffsetInPiece.position] at first
  unfold offset
  split
  · rename_i eq
    rw [← eq] at first
    omega
  · have := piece_before (Nat.lt_of_le_of_ne h (Ne.symm ‹_›)) f.pieceSize
    omega

theorem part_stop (placed : Placed f.pieceSize start f.fi) (nonempty : 0 < f.fi.size)
    (h : id ≤ f.fi.lastPiece.index) :
    min ((id + 1) * f.pieceSize) (start + f.fi.size) = id * f.pieceSize +
      if id = f.fi.lastPiece.index then f.fi.lastPiece.offset else f.pieceSize := by
  have last := placed.last nonempty
  have ⟨lo, hi⟩ := placed.last_range nonempty
  simp only [OffsetInPiece.position] at last
  rw [Nat.succ_mul]
  split
  · rename_i eq
    rw [← eq] at last
    omega
  · have := piece_before (Nat.lt_of_le_of_ne h ‹_›) f.pieceSize
    omega

theorem part_nonempty (placed : Placed f.pieceSize start f.fi) (nonempty : 0 < f.fi.size)
    (overlaps : Overlaps f.pieceSize start f.fi id) :
    max (id * f.pieceSize) start < min ((id + 1) * f.pieceSize) (start + f.fi.size) := by
  obtain ⟨before_end, after_start⟩ := overlaps
  have := placed.first_lt
  rw [Nat.succ_mul] at *
  omega

theorem part_length (whole : start + f.fi.size ≤ stream.length) :
    (partOf stream f.pieceSize start f.fi id).bytes.length =
      min ((id + 1) * f.pieceSize) (start + f.fi.size) - max (id * f.pieceSize) start := by
  simp only [partOf, List.length_take, List.length_drop]
  omega

theorem size_eq (word : f.pieceSize < 2 ^ 64) (placed : Placed f.pieceSize start f.fi)
    (nonempty : 0 < f.fi.size) (whole : start + f.fi.size ≤ stream.length)
    (overlaps : Overlaps f.pieceSize start f.fi id) :
    toUInt64 (f.size id (pieceOf stream f.pieceSize id).length) =
      (partOf stream f.pieceSize start f.fi id).bytes.length := by
  obtain ⟨above, below⟩ := (overlaps_iff placed nonempty).1 overlaps
  have range := part_nonempty placed nonempty overlaps
  have length : (partOf stream f.pieceSize start f.fi id).bytes.length =
      min ((id + 1) * f.pieceSize) (start + f.fi.size) - max (id * f.pieceSize) start :=
    part_length whole
  have hi := part_stop placed nonempty below
  have ⟨_, last_le⟩ := placed.last_range nonempty
  rw [part_start placed above, hi] at range length
  have cut : (if id = f.fi.lastPiece.index then f.fi.lastPiece.offset
      else (pieceOf stream f.pieceSize id).length) =
      if id = f.fi.lastPiece.index then f.fi.lastPiece.offset else f.pieceSize := by
    split
    · rfl
    · rename_i inside
      rw [if_neg inside] at hi
      simp only [pieceOf, List.length_take, List.length_drop]
      omega
  rw [size, cut, toUInt64_toInt64 (sub64_lt _ _), length, sub64_eq _ (by omega)]
  · omega
  · split <;> omega

theorem bytesAt_part (placed : Placed f.pieceSize start f.fi) (nonempty : 0 < f.fi.size)
    (whole : start + f.fi.size ≤ stream.length) (overlaps : Overlaps f.pieceSize start f.fi id) :
    bytesAt (pieceOf stream f.pieceSize id) (f.offset id)
      (partOf stream f.pieceSize start f.fi id).bytes.length =
      some (partOf stream f.pieceSize start f.fi id).bytes := by
  obtain ⟨above, below⟩ := (overlaps_iff placed nonempty).1 overlaps
  have range := part_nonempty placed nonempty overlaps
  have lo := part_start placed above
  have hi : min ((id + 1) * f.pieceSize) (start + f.fi.size) ≤ id * f.pieceSize + f.pieceSize :=
    Nat.succ_mul id f.pieceSize ▸ Nat.min_le_left _ _
  have inside : min ((id + 1) * f.pieceSize) (start + f.fi.size) ≤ stream.length := by omega
  simp only [partOf, lo] at *
  generalize min ((id + 1) * f.pieceSize) (start + f.fi.size) = stop at *
  rw [bytesAt_eq, pieceOf, List.drop_take, List.drop_drop, List.take_take]
  · congr 2
    simp only [List.length_take, List.length_drop]
    omega
  · simp only [pieceOf, List.length_take, List.length_drop]
    omega

/-- The write `write_piece` issues for a piece. Its position is one piece too
far in every piece but the first. -/
def issued (f : File β) (stream : Bytes) (start id : Nat) : Write :=
  let part := partOf stream f.pieceSize start f.fi id
  if id = f.fi.firstPiece.index then part else ⟨part.bytes, add64 part.position f.pieceSize⟩

theorem issued_bytes (f : File β) (stream : Bytes) (start id : Nat) :
    (f.issued stream start id).bytes = (partOf stream f.pieceSize start f.fi id).bytes := by
  unfold issued
  dsimp only
  split <;> rfl

theorem offsetInFile_eq (words : id < 2 ^ 64) (word : f.pieceSize < 2 ^ 64)
    (placed : Placed f.pieceSize start f.fi) (h : f.fi.firstPiece.index ≤ id) :
    f.offsetInFile id = (f.issued stream start id).position := by
  have first := placed.first
  have offset_lt := placed.first_lt
  have lo := part_start placed h
  simp only [OffsetInPiece.position, offset] at first lo
  unfold issued offsetInFile
  split
  · rename_i after
    have further := piece_before (Nat.lt_of_le_of_ne h (Ne.symm after)) f.pieceSize
    have grid : (id - f.fi.firstPiece.index) * f.pieceSize =
        id * f.pieceSize - f.fi.firstPiece.index * f.pieceSize := Nat.sub_mul _ _ _
    rw [if_neg after] at lo
    rw [sub64_eq word (by omega), sub64_eq words h, mul64, grid]
    simp only [add64, partOf, lo]
    omega
  · rename_i same
    rw [if_pos (not_not.1 same), not_not.1 same] at lo
    simp only [partOf, not_not.1 same, if_true]
    omega

/-- What a call for a piece that overlaps the file does. -/
theorem writePiece_overlapping [BitSet β] (f : File β) (pwrite : Pwrite)
    (word : f.pieceSize < 2 ^ 64) (words : f.fi.lastPiece.index < 2 ^ 64)
    (placed : Placed f.pieceSize start f.fi) (nonempty : 0 < f.fi.size)
    (whole : start + f.fi.size ≤ stream.length) (overlaps : Overlaps f.pieceSize start f.fi id) :
    let piece := pieceOf stream f.pieceSize id
    let w := f.issued stream start id
    ∃ bitset, (f.writePiece pwrite id piece piece.length).state =
      { f.written w (pwrite w.bytes.length w.position).count with bitset := bitset } := by
  intro piece w
  obtain ⟨above, below⟩ := (overlaps_iff placed nonempty).1 overlaps
  have bytes : w.bytes = (partOf stream f.pieceSize start f.fi id).bytes :=
    issued_bytes f stream start id
  have size : toUInt64 (f.size id piece.length) = w.bytes.length :=
    bytes ▸ size_eq word placed nonempty whole overlaps
  have position : f.offsetInFile id = w.position :=
    offsetInFile_eq (Nat.lt_of_le_of_lt below words) word placed above
  have cut : bytesAt piece (f.offset id) w.bytes.length = some w.bytes :=
    bytes ▸ bytesAt_part placed nonempty whole overlaps
  have inside : ¬ (id < f.fi.firstPiece.index ∨ id > f.fi.lastPiece.index) := by omega
  simp only [writePiece, if_neg inside, size, position, cut]
  split
  · exact ⟨f.bitset, rfl⟩
  · split
    · exact ⟨f.bitset, rfl⟩
    · exact ⟨_, rfl⟩

/-- The slice of the content stream that belongs to the file. -/
def slice (f : File β) (stream : Bytes) (start : Nat) : Bytes :=
  (stream.drop start).take f.fi.size

/-- Each piece that overlaps the file makes one write, of the file's part of it
to the place of that part in the file. -/
def WritesParts [BitSet β] (f : File β) (pwrite : Pwrite) (stream : Bytes) (start : Nat) : Prop :=
  ∀ id, Overlaps f.pieceSize start f.fi id →
    let piece := pieceOf stream f.pieceSize id
    (f.writePiece pwrite id piece piece.length).state.writes =
      f.writes ++ [partOf stream f.pieceSize start f.fi id]

/-- However the overlapping pieces are ordered, writing each once fills an empty
file with its slice of the stream. -/
def FilledInAnyOrder [BitSet β] (f : File β) (pwrite : Pwrite) (stream : Bytes) (start : Nat) :
    Prop :=
  ∀ ids : List Nat, ids.Nodup → (∀ id, id ∈ ids ↔ Overlaps f.pieceSize start f.fi id) →
    (ids.foldl (fun g id =>
      let piece := pieceOf stream f.pieceSize id
      (g.writePiece pwrite id piece piece.length).state) f).content = f.slice stream start

theorem issued_eq_part_iff (word : f.pieceSize < 2 ^ 64) (pos : 0 < f.pieceSize) :
    f.issued stream start id = partOf stream f.pieceSize start f.fi id ↔
      id = f.fi.firstPiece.index := by
  unfold issued
  dsimp only
  split
  · exact iff_of_true rfl ‹_›
  · apply iff_of_false ?_ ‹_›
    intro eq
    have shifted := congrArg Write.position eq
    simp only [add64] at shifted
    omega

theorem partOf_whole (placed : Placed f.pieceSize start f.fi) (nonempty : 0 < f.fi.size)
    (one : f.fi.firstPiece.index = f.fi.lastPiece.index) :
    partOf stream f.pieceSize start f.fi f.fi.firstPiece.index = ⟨f.slice stream start, 0⟩ := by
  have first := placed.first
  have last := placed.last nonempty
  have ⟨_, last_le⟩ := placed.last_range nonempty
  simp only [OffsetInPiece.position, ← one] at first last
  have lo : max (f.fi.firstPiece.index * f.pieceSize) start = start := by omega
  have hi : min ((f.fi.firstPiece.index + 1) * f.pieceSize) (start + f.fi.size) =
      start + f.fi.size := by
    rw [Nat.succ_mul]
    omega
  simp only [partOf, slice, lo, hi, Nat.sub_self, Nat.add_sub_cancel_left]

/-- What writing pieces one after another leaves in the file. -/
theorem content_after [BitSet β] {pwrite : Pwrite} {pieceSize : Nat} {fi : FileInfo}
    (word : pieceSize < 2 ^ 64) (words : fi.lastPiece.index < 2 ^ 64)
    (placed : Placed pieceSize start fi) (nonempty : 0 < fi.size)
    (whole : start + fi.size ≤ stream.length)
    (all : ∀ size position, (pwrite size position).count = some size) (ids : List Nat)
    (inside : ∀ id ∈ ids, Overlaps pieceSize start fi id) :
    ∀ f : File β, f.fi = fi → f.pieceSize = pieceSize →
      (ids.foldl (fun g id =>
        let piece := pieceOf stream pieceSize id
        (g.writePiece pwrite id piece piece.length).state) f).content =
      (ids.map (f.issued stream start)).foldl Write.apply f.content := by
  induction ids with
  | nil => exact fun _ _ _ => rfl
  | cons id ids ih =>
    rintro f rfl rfl
    obtain ⟨bitset, state⟩ := writePiece_overlapping f pwrite word words placed nonempty whole
      (inside id List.mem_cons_self)
    have later := ih fun i hi => inside i (List.mem_cons_of_mem _ hi)
    simp only [List.foldl_cons, List.map_cons, state]
    apply (later { f.written (f.issued stream start id) _ with bitset := bitset } rfl rfl).trans
    simp only [written, all, Option.getD_some, List.take_length]
    rfl

theorem issued_first {f : File β} (placed : Placed f.pieceSize start f.fi)
    (nonempty : 0 < f.fi.size) (whole : start + f.fi.size ≤ stream.length)
    (several : f.fi.firstPiece.index < f.fi.lastPiece.index) :
    (f.issued stream start f.fi.firstPiece.index).position = 0 ∧
    (f.issued stream start f.fi.firstPiece.index).bytes.length =
      (f.fi.firstPiece.index + 1) * f.pieceSize - start := by
  have first := placed.first
  have lo := part_start placed (Nat.le_refl f.fi.firstPiece.index)
  have hi := part_stop placed nonempty (Nat.le_of_lt several)
  simp only [OffsetInPiece.position] at first
  rw [offset, if_pos rfl, first] at lo
  rw [if_neg (Nat.ne_of_lt several), ← Nat.add_one_mul] at hi
  rw [issued_bytes, part_length whole, lo, hi]
  simp only [issued, if_true, partOf, lo, Nat.sub_self, and_self]

/-- Every write after the first is one piece too far, unless the position wraps. -/
theorem issued_later {f : File β} (placed : Placed f.pieceSize start f.fi)
    (nonempty : 0 < f.fi.size) (whole : start + f.fi.size ≤ stream.length)
    (after : f.fi.firstPiece.index < id) (before : id ≤ f.fi.lastPiece.index) :
    (f.issued stream start id).position = add64 (id * f.pieceSize - start) f.pieceSize ∧
    (f.issued stream start id).bytes.length =
      if id = f.fi.lastPiece.index then start + f.fi.size - id * f.pieceSize
      else f.pieceSize := by
  have lo := part_start placed (Nat.le_of_lt after)
  have hi := part_stop placed nonempty before
  have last := placed.last nonempty
  have other : id ≠ f.fi.firstPiece.index := Nat.ne_of_gt after
  simp only [OffsetInPiece.position] at last
  rw [offset, if_neg other, Nat.add_zero] at lo
  rw [issued_bytes, part_length whole, lo, hi]
  constructor
  · simp only [issued, if_neg other, partOf, lo]
  · split
    · rename_i eq
      rw [eq]
      omega
    · omega

/-- In a file over several pieces a write ends past the end of the file: the last
one, or, when its position wraps, the one before. -/
theorem issued_past_end {f : File β} (sized : f.fi.size < 2 ^ 64)
    (placed : Placed f.pieceSize start f.fi) (nonempty : 0 < f.fi.size)
    (whole : start + f.fi.size ≤ stream.length)
    (several : f.fi.firstPiece.index < f.fi.lastPiece.index)
    (h : f.fi.lastPiece.index * f.pieceSize - start + f.pieceSize < 2 ^ 64 ∨
      f.fi.firstPiece.index + 1 < f.fi.lastPiece.index) :
    ∃ id, Overlaps f.pieceSize start f.fi id ∧
      f.fi.size <
        (f.issued stream start id).position + (f.issued stream start id).bytes.length := by
  have at_start := placed.first
  have at_end := placed.last nonempty
  have ⟨last_pos, last_le⟩ := placed.last_range nonempty
  have offset_lt := placed.first_lt
  have further := piece_before several f.pieceSize
  simp only [OffsetInPiece.position] at at_start at_end
  by_cases fits : f.fi.lastPiece.index * f.pieceSize - start + f.pieceSize < 2 ^ 64
  · refine ⟨f.fi.lastPiece.index, (overlaps_iff placed nonempty).2 ⟨several.le, le_rfl⟩, ?_⟩
    obtain ⟨position, bytes⟩ := issued_later placed nonempty whole several le_rfl
    rw [position, add64_eq fits, bytes, if_pos rfl]
    omega
  · obtain ⟨before, eq⟩ := Nat.exists_eq_add_one_of_ne_zero (Nat.ne_zero_of_lt several)
    have after : f.fi.firstPiece.index < before := by omega
    have le : before ≤ f.fi.lastPiece.index := by omega
    refine ⟨before, (overlaps_iff placed nonempty).2 ⟨after.le, le⟩, ?_⟩
    obtain ⟨position, bytes⟩ := issued_later placed nonempty whole after le
    have inner := piece_before after f.pieceSize
    rw [eq, Nat.add_one_mul] at fits at_end
    rw [position, add64_eq (by omega), bytes, if_neg (by omega)]
    omega

/-- A file over two pieces comes out too short when the position of the second
one wraps. -/
theorem two_writes_short {f : File β} (word : f.pieceSize < 2 ^ 64) (sized : f.fi.size < 2 ^ 64)
    (placed : Placed f.pieceSize start f.fi) (nonempty : 0 < f.fi.size)
    (whole : start + f.fi.size ≤ stream.length)
    (two : f.fi.lastPiece.index = f.fi.firstPiece.index + 1)
    (wraps : 2 ^ 64 ≤ f.fi.lastPiece.index * f.pieceSize - start + f.pieceSize) :
    ([f.issued stream start f.fi.firstPiece.index,
      f.issued stream start f.fi.lastPiece.index].foldl Write.apply []).length < f.fi.size := by
  have several : f.fi.firstPiece.index < f.fi.lastPiece.index := by omega
  have at_start := placed.first
  have at_end := placed.last nonempty
  have ⟨last_pos, last_le⟩ := placed.last_range nonempty
  have offset_lt := placed.first_lt
  have further := piece_before several f.pieceSize
  simp only [OffsetInPiece.position] at at_start at_end
  obtain ⟨position, bytes⟩ := issued_first placed nonempty whole several
  obtain ⟨position', bytes'⟩ := issued_later placed nonempty whole several le_rfl
  rw [← two] at bytes
  rw [if_pos rfl] at bytes'
  have some : (f.issued stream start f.fi.firstPiece.index).bytes ≠ [] :=
    List.ne_nil_of_length_pos (by omega)
  have some' : (f.issued stream start f.fi.lastPiece.index).bytes ≠ [] :=
    List.ne_nil_of_length_pos (by omega)
  simp only [List.foldl_cons, List.foldl_nil, Write.apply_length _ some,
    Write.apply_length _ some', position, bytes, position', bytes', List.length_nil, add64]
  omega

theorem not_filled [BitSet β] {f : File β} {pwrite : Pwrite} (word : f.pieceSize < 2 ^ 64)
    (words : f.fi.lastPiece.index < 2 ^ 64) (sized : f.fi.size < 2 ^ 64)
    (placed : Placed f.pieceSize start f.fi) (nonempty : 0 < f.fi.size)
    (whole : start + f.fi.size ≤ stream.length) (created : f.content = [])
    (all : ∀ size position, (pwrite size position).count = some size)
    (several : f.fi.firstPiece.index < f.fi.lastPiece.index) :
    ¬ f.FilledInAnyOrder pwrite stream start := by
  intro filled
  have mem (id : Nat) :
      id ∈ List.range' f.fi.firstPiece.index (f.fi.lastPiece.index - f.fi.firstPiece.index + 1) ↔
        Overlaps f.pieceSize start f.fi id := by
    rw [overlaps_iff placed nonempty, List.mem_range'_1]
    omega
  have content := filled _ List.nodup_range' mem
  rw [content_after word words placed nonempty whole all _ (fun id h => (mem id).1 h) f rfl rfl,
    created] at content
  have length := congrArg List.length content
  rw [slice, List.length_take, List.length_drop, Nat.min_eq_left (by omega)] at length
  by_cases past : f.fi.lastPiece.index * f.pieceSize - start + f.pieceSize < 2 ^ 64 ∨
      f.fi.firstPiece.index + 1 < f.fi.lastPiece.index
  · obtain ⟨id, overlaps, after⟩ := issued_past_end sized placed nonempty whole several past
    have range := part_nonempty placed nonempty overlaps
    have some : (f.issued stream start id).bytes ≠ [] := by
      apply List.ne_nil_of_length_pos
      rw [issued_bytes, part_length whole]
      omega
    have reached := Write.stop_le_length some (List.mem_map_of_mem ((mem id).2 overlaps)) []
    omega
  · have two : f.fi.lastPiece.index = f.fi.firstPiece.index + 1 := by omega
    have short := two_writes_short word sized placed nonempty whole two (by omega)
    have ids : List.range' f.fi.firstPiece.index
        (f.fi.lastPiece.index - f.fi.firstPiece.index + 1) =
        [f.fi.firstPiece.index, f.fi.lastPiece.index] := by
      rw [two, Nat.add_sub_cancel_left]
      rfl
    rw [ids, List.map_cons, List.map_singleton] at length
    omega

/-- **A file is written right when it lies within one piece, and never else.** -/
theorem writePiece_right_iff [BitSet β] (f : File β) (pwrite : Pwrite) (stream : Bytes)
    (start : Nat) (word : f.pieceSize < 2 ^ 64) (words : f.fi.lastPiece.index < 2 ^ 64)
    (sized : f.fi.size < 2 ^ 64) (placed : Placed f.pieceSize start f.fi)
    (nonempty : 0 < f.fi.size) (whole : start + f.fi.size ≤ stream.length) :
    (f.WritesParts pwrite stream start ↔ f.fi.firstPiece.index = f.fi.lastPiece.index) ∧
    (f.content = [] → (∀ size position, (pwrite size position).count = some size) →
      (f.FilledInAnyOrder pwrite stream start ↔
        f.fi.firstPiece.index = f.fi.lastPiece.index)) := by
  have pos : 0 < f.pieceSize := Nat.zero_lt_of_lt placed.first_lt
  have first_le := placed.index_le nonempty
  have only (one : f.fi.firstPiece.index = f.fi.lastPiece.index) (id : Nat) :
      Overlaps f.pieceSize start f.fi id ↔ id = f.fi.firstPiece.index := by
    rw [overlaps_iff placed nonempty]
    omega
  have right : f.issued stream start f.fi.firstPiece.index =
      partOf stream f.pieceSize start f.fi f.fi.firstPiece.index :=
    (issued_eq_part_iff word pos).2 rfl
  constructor
  · constructor
    · intro parts
      have overlaps := (overlaps_iff placed nonempty).2 ⟨first_le, Nat.le_refl _⟩
      obtain ⟨_, state⟩ := writePiece_overlapping f pwrite word words placed nonempty whole overlaps
      have writes := parts _ overlaps
      simp only [state, written, List.append_cancel_left_eq, List.cons.injEq, and_true] at writes
      exact ((issued_eq_part_iff word pos).1 writes).symm
    · intro one id overlaps piece
      obtain ⟨_, state⟩ := writePiece_overlapping f pwrite word words placed nonempty whole overlaps
      cases (only one id).1 overlaps
      rw [state, right]
      rfl
  · intro created all
    constructor
    · intro filled
      by_contra several
      exact not_filled word words sized placed nonempty whole created all (by omega) filled
    · intro one ids nodup mem
      have single : ids = [f.fi.firstPiece.index] := by
        apply List.perm_singleton.1
        apply (List.perm_ext_iff_of_nodup nodup (by simp)).2
        intro id
        rw [mem, only one, List.mem_singleton]
      rw [content_after word words placed nonempty whole all ids (fun id h => (mem id).1 h) f rfl
        rfl, single, created, List.map_singleton, List.foldl_cons, List.foldl_nil, right,
        partOf_whole placed nonempty one, Write.apply_nil]

/-- A file at the start of a stream, over pieces of four bytes. -/
def opened (fi : FileInfo) : File (List Bool) := ⟨List.replicate 16 false, fi, 4, [], []⟩

def writesAll : Pwrite := fun size _ => ⟨some size, ""⟩

theorem writePiece_right_three :
    (opened ⟨[], [], [], 3, ⟨0, 0⟩, ⟨0, 3⟩⟩).WritesParts writesAll [1, 2, 3] 0 ∧
    (opened ⟨[], [], [], 3, ⟨0, 0⟩, ⟨0, 3⟩⟩).FilledInAnyOrder writesAll [1, 2, 3] 0 := by
  have right := writePiece_right_iff (opened ⟨[], [], [], 3, ⟨0, 0⟩, ⟨0, 3⟩⟩) writesAll [1, 2, 3]
    0 (by decide) (by decide) (by decide) ⟨by decide, by decide, by decide, by decide⟩
    (by decide) (by decide)
  exact ⟨right.1.2 rfl, (right.2 rfl fun _ _ => rfl).2 rfl⟩

/-- The last two of six bytes belong at position four and are written at eight. -/
theorem writePiece_shifts_second_piece :
    Placed 4 0 ⟨[], [], [], 6, ⟨0, 0⟩, ⟨1, 2⟩⟩ ∧
    ¬ (opened ⟨[], [], [], 6, ⟨0, 0⟩, ⟨1, 2⟩⟩).WritesParts writesAll [1, 2, 3, 4, 5, 6] 0 ∧
    ¬ (opened ⟨[], [], [], 6, ⟨0, 0⟩, ⟨1, 2⟩⟩).FilledInAnyOrder writesAll
      [1, 2, 3, 4, 5, 6] 0 := by
  have overlaps (id : Nat) :
      Overlaps 4 0 ⟨[], [], [], 6, ⟨0, 0⟩, ⟨1, 2⟩⟩ id ↔ id = 0 ∨ id = 1 := by
    simp only [Overlaps]
    omega
  refine ⟨⟨by decide, by decide, by decide, by decide⟩, ?_, ?_⟩
  · intro parts
    have second := parts 1 ((overlaps 1).2 (Or.inr rfl))
    revert second
    decide
  · intro filled
    have mem (id : Nat) : id ∈ [0, 1] ↔ id = 0 ∨ id = 1 := by simp
    have content := filled [0, 1] (by decide) fun id => (mem id).trans (overlaps id).symm
    revert content
    decide

end File

end TorrentClient
