import TorrentClient.Base.Patches
import TorrentClient.SearchEnds

/-!
# What is left on the disk

The pieces of a torrent are written to its files in any order. A file within one piece ends
with its slice of the stream; in any other one the parts behind the first are one piece too
far, and leave a gap in front of them.
-/

namespace TorrentClient

variable {β : Type}

def Write.patch (w : Write) : Patch UInt8 := ⟨w.position, w.bytes⟩

theorem Write.foldl_apply (content : Bytes) (ws : List Write) :
    ws.foldl Write.apply content = (ws.map Write.patch).foldl (Patch.apply 0) content := by
  rw [List.foldl_map]
  rfl

/-! ## One file -/

/-- The slice of the stream that belongs to a file, with a gap of one piece behind the first of
several parts. -/
def FileInfo.shifted (fi : FileInfo) (pieceSize : Nat) (stream : Bytes) (start : Nat) : Bytes :=
  let slice := (stream.drop start).take fi.size
  let firstPart := pieceSize - fi.firstPiece.offset
  if fi.firstPiece.index = fi.lastPiece.index then slice
  else slice.take firstPart ++ (List.replicate pieceSize 0 ++ slice.drop firstPart)

/-- What the files of a torrent hold when all its pieces were written. -/
def TorrentFile.stored (tf : TorrentFile) (stream : Bytes) : List Bytes :=
  tf.files.mapIdx fun i fi => fi.shifted tf.pieceSize stream (total (tf.files.take i))

namespace File

variable {f : File β} {stream : Bytes} {start id k : Nat}

/-- The length of the file's part of its first piece, when there are others. -/
def firstPart (f : File β) : Nat := f.pieceSize - f.fi.firstPiece.offset

def shifted (f : File β) (stream : Bytes) (start : Nat) : Bytes :=
  f.fi.shifted f.pieceSize stream start

theorem shifted_eq (f : File β) (stream : Bytes) (start : Nat) :
    f.shifted stream start =
      if f.fi.firstPiece.index = f.fi.lastPiece.index then f.slice stream start
      else (f.slice stream start).take f.firstPart ++
        (List.replicate f.pieceSize 0 ++ (f.slice stream start).drop f.firstPart) := rfl

theorem slice_length (whole : start + f.fi.size ≤ stream.length) :
    (f.slice stream start).length = f.fi.size := by
  rw [slice, List.length_take, List.length_drop]
  omega

theorem slice_getElem? (inside : k < f.fi.size) :
    (f.slice stream start)[k]? = stream[start + k]? := by
  rw [slice, List.getElem?_take_of_lt inside, List.getElem?_drop]

section
variable (placed : Placed f.pieceSize start f.fi) (nonempty : 0 < f.fi.size)
  (whole : start + f.fi.size ≤ stream.length)
  (several : f.fi.firstPiece.index < f.fi.lastPiece.index)
include placed nonempty several

theorem firstPart_lt : 0 < f.firstPart ∧ f.firstPart < f.fi.size ∧
    start + f.firstPart = (f.fi.firstPiece.index + 1) * f.pieceSize := by
  have first := placed.first
  have last := placed.last nonempty
  obtain ⟨above, _⟩ := placed.last_range nonempty
  have offset_lt := placed.first_lt
  have further := piece_before several f.pieceSize
  simp only [OffsetInPiece.position] at first last
  rw [firstPart, Nat.succ_mul]
  omega

include whole

theorem shifted_length : (f.shifted stream start).length = f.fi.size + f.pieceSize := by
  obtain ⟨_, inside, _⟩ := firstPart_lt placed nonempty several
  rw [shifted_eq, if_neg (Nat.ne_of_lt several)]
  simp only [List.length_append, List.length_take, List.length_drop, List.length_replicate,
    slice_length whole]
  omega

theorem shifted_getElem?_first (inside : k < f.firstPart) :
    (f.shifted stream start)[k]? = stream[start + k]? := by
  obtain ⟨_, short, _⟩ := firstPart_lt placed nonempty several
  rw [shifted_eq, if_neg (Nat.ne_of_lt several), List.getElem?_append_left,
    List.getElem?_take_of_lt inside, slice_getElem? (by omega)]
  rw [List.length_take, slice_length whole]
  omega

theorem shifted_getElem?_gap (above : f.firstPart ≤ k) (below : k < f.firstPart + f.pieceSize) :
    (f.shifted stream start)[k]? = some 0 := by
  obtain ⟨_, short, _⟩ := firstPart_lt placed nonempty several
  have length : ((f.slice stream start).take f.firstPart).length = f.firstPart := by
    rw [List.length_take, slice_length whole]
    omega
  rw [shifted_eq, if_neg (Nat.ne_of_lt several), List.getElem?_append_right (by omega), length,
    List.getElem?_append_left (by rw [List.length_replicate]; omega), List.getElem?_replicate,
    if_pos (by omega)]

theorem shifted_getElem?_later (above : f.firstPart + f.pieceSize ≤ k)
    (below : k < f.fi.size + f.pieceSize) :
    (f.shifted stream start)[k]? = stream[start + (k - f.pieceSize)]? := by
  obtain ⟨_, short, _⟩ := firstPart_lt placed nonempty several
  have length : ((f.slice stream start).take f.firstPart).length = f.firstPart := by
    rw [List.length_take, slice_length whole]
    omega
  rw [shifted_eq, if_neg (Nat.ne_of_lt several), List.getElem?_append_right (by omega), length,
    List.getElem?_append_right (by rw [List.length_replicate]; omega), List.length_replicate,
    List.getElem?_drop, slice_getElem? (by omega)]
  congr 1
  omega

end

/-- The bytes of a write are those of the stream at the part of the file in the piece. -/
theorem issued_getElem? (inside : k < (f.issued stream start id).bytes.length) :
    (f.issued stream start id).bytes[k]? = stream[max (id * f.pieceSize) start + k]? := by
  rw [issued_bytes] at inside ⊢
  simp only [partOf, List.length_take] at inside ⊢
  rw [List.getElem?_take_of_lt (by omega), List.getElem?_drop]

section
variable (placed : Placed f.pieceSize start f.fi) (nonempty : 0 < f.fi.size)
include placed nonempty

/-- Within one piece there is one write, of all the file. -/
theorem issued_one (one : f.fi.firstPiece.index = f.fi.lastPiece.index) :
    f.issued stream start f.fi.firstPiece.index = ⟨f.shifted stream start, 0⟩ := by
  rw [shifted_eq, if_pos one, ← partOf_whole placed nonempty one, issued, if_pos rfl]

variable (whole : start + f.fi.size ≤ stream.length) (words : f.fi.size + f.pieceSize < 2 ^ 64)
include whole words

/-- Where the writes behind the first one go. -/
theorem issued_behind (after : f.fi.firstPiece.index < id) (before : id ≤ f.fi.lastPiece.index) :
    start ≤ id * f.pieceSize ∧
      (f.issued stream start id).position = id * f.pieceSize - start + f.pieceSize ∧
      (f.issued stream start id).bytes.length =
        if id = f.fi.lastPiece.index then start + f.fi.size - id * f.pieceSize
        else f.pieceSize := by
  obtain ⟨position, length⟩ := issued_later placed nonempty whole after before
  have several := Nat.lt_of_lt_of_le after before
  obtain ⟨_, short, reaches⟩ := firstPart_lt placed nonempty several
  have grid : (f.fi.firstPiece.index + 1) * f.pieceSize ≤ id * f.pieceSize :=
    Nat.mul_le_mul_right f.pieceSize after
  have upto := Nat.mul_le_mul_right f.pieceSize before
  have last := placed.last nonempty
  simp only [OffsetInPiece.position] at last
  refine ⟨by omega, ?_, length⟩
  rw [position, add64_eq (by omega)]

theorem issued_fits (overlaps : Overlaps f.pieceSize start f.fi id) :
    (f.issued stream start id).patch.Fits (f.shifted stream start) := by
  obtain ⟨above, below⟩ := (overlaps_iff placed nonempty).1 overlaps
  rintro k ⟨from_here, up_to⟩
  simp only [Write.patch] at from_here up_to ⊢
  rcases Nat.lt_or_ge f.fi.firstPiece.index f.fi.lastPiece.index with several | le
  · obtain ⟨_, short, reaches⟩ := firstPart_lt placed nonempty several
    rw [issued_getElem? (by omega)]
    rcases Nat.eq_or_lt_of_le above with same | after
    · subst same
      obtain ⟨position, length⟩ := issued_first placed nonempty whole several
      have first := placed.first
      simp only [OffsetInPiece.position] at first
      rw [shifted_getElem?_first placed nonempty whole several (by omega), position]
      congr 1
      omega
    · obtain ⟨behind, position, length⟩ := issued_behind placed nonempty whole words after below
      have grid : (f.fi.firstPiece.index + 1) * f.pieceSize ≤ id * f.pieceSize :=
        Nat.mul_le_mul_right f.pieceSize after
      have within : k < f.fi.size + f.pieceSize := by
        have upto := Nat.mul_le_mul_right f.pieceSize below
        have last := placed.last nonempty
        obtain ⟨pos, _⟩ := placed.last_range nonempty
        simp only [OffsetInPiece.position] at last
        split at length
        · omega
        · have inner := piece_before (Nat.lt_of_le_of_ne below ‹_›) f.pieceSize
          omega
      rw [shifted_getElem?_later placed nonempty whole several (by omega) within]
      congr 1
      omega
  · have one : f.fi.firstPiece.index = f.fi.lastPiece.index := by omega
    have same : id = f.fi.firstPiece.index := by omega
    rw [same, issued_one placed nonempty one]
    rfl

/-- Everything but the gap is written. -/
theorem issued_covers (inside : k < (f.shifted stream start).length) :
    (∃ id, Overlaps f.pieceSize start f.fi id ∧ (f.issued stream start id).patch.Covers k) ∨
      k + 1 < (f.shifted stream start).length ∧ (f.shifted stream start)[k]? = some 0 := by
  have ordered := placed.index_le nonempty
  rcases Nat.lt_or_ge f.fi.firstPiece.index f.fi.lastPiece.index with several | le
  · obtain ⟨_, short, reaches⟩ := firstPart_lt placed nonempty several
    have total := shifted_length placed nonempty whole several
    rw [total] at inside ⊢
    rcases Nat.lt_or_ge k f.firstPart with early | late
    · left
      obtain ⟨position, length⟩ := issued_first placed nonempty whole several
      refine ⟨f.fi.firstPiece.index, (overlaps_iff placed nonempty).2 ⟨Nat.le_refl _, ordered⟩, ?_⟩
      simp only [Patch.Covers, Write.patch, position, length]
      omega
    rcases Nat.lt_or_ge k (f.firstPart + f.pieceSize) with gap | late
    · right
      exact ⟨by omega, shifted_getElem?_gap placed nonempty whole several late gap⟩
    · -- the byte comes from one piece further in front
      left
      have pos : 0 < f.pieceSize := Nat.zero_lt_of_lt placed.first_lt
      have under := Nat.div_mul_le_self (start + (k - f.pieceSize)) f.pieceSize
      have upper := Nat.lt_div_mul_add (a := start + (k - f.pieceSize)) pos
      generalize (start + (k - f.pieceSize)) / f.pieceSize = id at under upper
      have after : f.fi.firstPiece.index < id := by
        by_contra before
        have := Nat.mul_le_mul_right f.pieceSize (Nat.le_of_not_lt before)
        rw [Nat.succ_mul] at reaches
        omega
      have last := placed.last nonempty
      obtain ⟨_, most⟩ := placed.last_range nonempty
      simp only [OffsetInPiece.position] at last
      have before : id ≤ f.fi.lastPiece.index := by
        by_contra past
        have := piece_before (Nat.lt_of_not_le past) f.pieceSize
        omega
      obtain ⟨behind, position, length⟩ := issued_behind placed nonempty whole words after before
      refine ⟨id, (overlaps_iff placed nonempty).2 ⟨Nat.le_of_lt after, before⟩, ?_⟩
      simp only [Patch.Covers, Write.patch, position, length]
      split <;> omega
  · left
    have one : f.fi.firstPiece.index = f.fi.lastPiece.index := by omega
    refine ⟨f.fi.firstPiece.index, (overlaps_iff placed nonempty).2 ⟨Nat.le_refl _, ordered⟩, ?_⟩
    rw [issued_one placed nonempty one]
    exact ⟨Nat.zero_le _, by rw [Write.patch, Nat.zero_add]; exact inside⟩

/-- All the writes, in any order and however often, leave the shifted content. -/
theorem issued_build (ids : List Nat) (inside : ∀ id ∈ ids, Overlaps f.pieceSize start f.fi id)
    (all : ∀ id, Overlaps f.pieceSize start f.fi id → id ∈ ids) :
    (ids.map (f.issued stream start)).foldl Write.apply [] = f.shifted stream start := by
  rw [Write.foldl_apply, List.map_map]
  apply Patch.foldl_eq (Patch.Towards.nil 0 _)
  · intro p mem
    obtain ⟨id, there, rfl⟩ := List.mem_map.1 mem
    exact issued_fits placed nonempty whole words (inside id there)
  · intro k within
    rcases issued_covers placed nonempty whole words within with ⟨id, overlaps, covers⟩ | gap
    · exact Or.inl ⟨_, List.mem_map_of_mem (all id overlaps), covers⟩
    · exact Or.inr gap

end

end File

/-! ## A call that returns -/

/-- Bits below the bound of a bit set are there, and can be set. -/
class BoundBitSet (β : Type) [BitSet β] : Prop where
  test_bind {bits bits' : β} {size i : Nat} (bound : BitSet.bind bits size = some bits')
    (below : i < size) : (BitSet.test bits' i).isSome
  set_isSome {bits : β} {i : Nat} (value : Bool) (there : (BitSet.test bits i).isSome) :
    (BitSet.set bits i value).isSome
  test_set {bits bits' : β} {i j : Nat} {value : Bool}
    (changed : BitSet.set bits i value = some bits') (there : (BitSet.test bits j).isSome) :
    (BitSet.test bits' j).isSome

instance : BoundBitSet (List Bool) where
  test_bind := by
    rintro bits _ size i ⟨⟩ below
    simp only [BitSet.test, isSome_getElem?, List.length_replicate]
    omega
  set_isSome := by
    intro bits i value there
    simp only [BitSet.test, isSome_getElem?] at there
    simp only [BitSet.set, if_pos there, Option.isSome_some]
  test_set := by
    intro bits bits' i j value changed there
    simp only [BitSet.set] at changed
    split at changed
    · cases changed
      simpa only [BitSet.test, isSome_getElem?, List.length_set] using there
    · cases changed

namespace File

variable [BitSet β] {f : File β} {pwrite : Pwrite} {stream : Bytes} {start id : Nat}

/-- There is a bit for each piece of the file. -/
def Marked (f : File β) : Prop :=
  ∀ i ≤ f.fi.lastPiece.index - f.fi.firstPiece.index, (BitSet.test f.bitset i).isSome

/-- What the calls for the pieces of one stream keep. -/
structure Kept (fi : FileInfo) (pieceSize : Nat) (f : File β) : Prop where
  fi : f.fi = fi
  size : f.pieceSize = pieceSize
  marked : f.Marked

/-- The call for a piece of the file returns, when `pwrite` writes everything. -/
theorem writePiece_returns [BoundBitSet β] (marked : f.Marked) (word : f.pieceSize < 2 ^ 63)
    (words : f.fi.lastPiece.index < 2 ^ 64) (placed : Placed f.pieceSize start f.fi)
    (nonempty : 0 < f.fi.size) (whole : start + f.fi.size ≤ stream.length)
    (all : ∀ size position, (pwrite size position).count = some size)
    (overlaps : Overlaps f.pieceSize start f.fi id) :
    ∃ g, f.writePiece pwrite id (pieceOf stream f.pieceSize id)
        (pieceOf stream f.pieceSize id).length = .done () g ∧
      Kept f.fi f.pieceSize g := by
  obtain ⟨above, below⟩ := (overlaps_iff placed nonempty).1 overlaps
  have size := size_eq (by omega) placed nonempty whole overlaps
  have cut := bytesAt_part placed nonempty whole overlaps
  have inside : ¬ (id < f.fi.firstPiece.index ∨ id > f.fi.lastPiece.index) := by omega
  have short : (partOf stream f.pieceSize start f.fi id).bytes.length < 2 ^ 63 := by
    have length := @part_length _ f stream start id whole
    rw [Nat.succ_mul] at length
    omega
  have same : (partOf stream f.pieceSize start f.fi id).bytes.length =
      f.size id (pieceOf stream f.pieceSize id).length := by
    rw [← size] at short ⊢
    rw [File.size] at short ⊢
    rw [toUInt64_toInt64 (sub64_lt _ _)] at short ⊢
    exact (toInt64_of_lt short).symm
  have there := marked (id - f.fi.firstPiece.index) (by omega)
  obtain ⟨bitset, set⟩ := Option.isSome_iff_exists.1 (BoundBitSet.set_isSome true there)
  have index : sub64 id f.fi.firstPiece.index = id - f.fi.firstPiece.index :=
    sub64_eq (Nat.lt_of_le_of_lt below words) above
  simp only [writePiece, if_neg inside, size, cut, all, Option.elim_some, same, ne_eq, not_true,
    if_false, written, index, set]
  refine ⟨_, rfl, rfl, rfl, ?_⟩
  intro i within
  exact BoundBitSet.test_set set (marked i within)

theorem new_kept [BoundBitSet β] {fi : FileInfo} {pieceSize : Nat} {file : File β}
    (ordered : fi.firstPiece.index ≤ fi.lastPiece.index) (small : fi.lastPiece.index < 2 ^ 60)
    (opened : File.new fi pieceSize = some file) :
    Kept fi pieceSize file ∧ file.content = [] := by
  obtain ⟨bitset, bound, rfl⟩ := Option.map_eq_some_iff.1 opened
  refine ⟨⟨rfl, rfl, ?_⟩, rfl⟩
  intro i within
  apply BoundBitSet.test_bind bound
  dsimp only at within
  rw [sub64_eq (by omega) ordered, add64_eq (by omega), mul64]
  omega

end File

/-! ## All the files -/

namespace OpenFiles

variable [BitSet β] {pwrite : Pwrite} {id : Nat} {source : Bytes} {size : Nat}

/-- The files that the loop comes to are written, the others are left as they are. -/
theorem writeLoop_files (o : OpenFiles β) {fileId : Nat} (inside : fileId < o.files.val.length)
    (returns : ∀ i ∈ Bisect.sweep (startsIn o.files.val id) o.files.val.length fileId,
      ¬ Stops pwrite id source size o i) :
    ∃ o', writeLoop pwrite id source size o fileId = .done () o' ∧
      ∀ i, o'.files.val[i]? = o.files.val[i]?.map fun file =>
        if i ∈ Bisect.sweep (startsIn o.files.val id) o.files.val.length fileId then
          (file.writePiece pwrite id source size).state
        else file := by
  induction left : o.files.val.length - fileId using Nat.strongRecOn generalizing o fileId with
  | ind n ih =>
    have kept := o.files.val[fileId].writePiece_fi pwrite id source size
    have at_file := List.getElem?_eq_getElem inside
    have first : fileId ∈ Bisect.sweep (startsIn o.files.val id) o.files.val.length fileId := by
      rw [Bisect.sweep]
      exact List.mem_cons_self
    obtain ⟨file, wrote⟩ : ∃ file,
        o.files.val[fileId].writePiece pwrite id source size = .done () file := by
      by_contra none
      exact returns fileId first ⟨_, at_file, fun file wrote => none ⟨file, wrote⟩⟩
    have starts : startsIn (o.called fileId file).files.val id = startsIn o.files.val id := by
      rw [wrote] at kept
      exact called_startsIn o inside kept id
    have length : (o.called fileId file).files.val.length = o.files.val.length :=
      List.length_set
    have called (i : Nat) : (o.called fileId file).files.val[i]? = o.files.val[i]?.map fun g =>
        if i = fileId then (g.writePiece pwrite id source size).state else g := by
      show (o.files.val.set fileId file)[i]? = _
      by_cases same : i = fileId
      · subst same
        rw [List.getElem?_set_self inside, at_file, Option.map_some, if_pos rfl, wrote]
        rfl
      · rw [List.getElem?_set_ne (Ne.symm same)]
        simp only [if_neg same, Option.map_id']
    rw [writeLoop, dif_pos inside, wrote]
    dsimp only
    rw [starts]
    by_cases more : fileId + 1 < o.files.val.length ∧ startsIn o.files.val id (fileId + 1)
    · have next : fileId + 1 < (o.called fileId file).files.val.length := length ▸ more.1
      have swept : Bisect.sweep (startsIn o.files.val id) o.files.val.length fileId =
          fileId :: Bisect.sweep (startsIn o.files.val id) o.files.val.length (fileId + 1) := by
        conv_lhs => rw [Bisect.sweep, if_pos more]
      have behind {i : Nat} (mem : i ∈ Bisect.sweep (startsIn o.files.val id)
          o.files.val.length (fileId + 1)) : fileId < i := (Bisect.mem_sweep more.1 mem).1
      rw [if_pos more]
      obtain ⟨o', looped, files⟩ := ih _ (by rw [length]; omega) (o.called fileId file) next
        (by
          rw [starts, length]
          intro i mem stops
          refine returns i (swept ▸ List.mem_cons_of_mem _ mem) ?_
          exact (called_stops (Nat.ne_of_lt (behind mem))).1 stops) rfl
      refine ⟨o', looped, fun i => ?_⟩
      rw [files, starts, length, called, Option.map_map, swept]
      congr 1
      funext g
      simp only [Function.comp_apply, List.mem_cons]
      by_cases same : i = fileId
      · rw [if_pos (Or.inl same), if_pos same, if_neg fun mem => (behind mem).ne' same]
      · rw [if_neg same]
        simp only [same, false_or]
    · rw [if_neg more]
      refine ⟨_, rfl, fun i => ?_⟩
      have swept : Bisect.sweep (startsIn o.files.val id) o.files.val.length fileId = [fileId] := by
        rw [Bisect.sweep, if_neg more]
      rw [called, swept]
      simp only [List.mem_singleton]

/-- `Files::write_piece` writes the piece to all files, as far as they have a part of it. -/
theorem writePiece_files {pieceSize : Nat} {o : OpenFiles β}
    (laid : LaidOut pieceSize 0 (infos o.files.val))
    (nonempty : ∀ file ∈ infos o.files.val, 0 < file.size)
    (some : overlapping pieceSize (infos o.files.val) id ≠ [])
    (returns : ∀ file ∈ o.files.val, file.fi.Takes id →
      ∃ g, file.writePiece pwrite id source size = .done () g) :
    ∃ o', writePiece pwrite id source size o = .done () o' ∧
      o'.files.val = o.files.val.map fun file =>
        (file.writePiece pwrite id source size).state := by
  obtain ⟨first, found, first_lt, swept⟩ := search_overlapping laid nonempty some
  obtain ⟨o', looped, files⟩ := @writeLoop_files β _ pwrite id source size o _ first_lt (by
      rintro i mem ⟨file, at_i, stops⟩
      by_cases takes : file.fi.Takes id
      · obtain ⟨g, wrote⟩ := returns file (List.mem_of_getElem? at_i) takes
        exact stops g wrote
      · exact stops file (File.writePiece_refused takes pwrite source size))
  refine ⟨o', ?_, ?_⟩
  · rw [writePiece, found]
    exact looped
  · apply List.ext_getElem?
    intro i
    rw [files, List.getElem?_map]
    cases at_i : o.files.val[i]? with
    | none => rfl
    | some file =>
      rw [Option.map_some, Option.map_some]
      split
      · rfl
      · rename_i out
        rw [File.writePiece_refused ?_ pwrite source size]
        · rfl
        intro takes
        have below := (List.getElem?_eq_some_iff.1 at_i).1
        have mem : i ∈ overlapping pieceSize (infos o.files.val) id := by
          rw [overlapping_eq laid nonempty, effective, List.mem_filter, List.mem_range, infos,
            List.getElem?_map, at_i]
          exact ⟨below, decide_eq_true takes⟩
        rw [← swept] at mem
        exact out (List.mem_filter.1 mem).1

end OpenFiles

/-! ## All the pieces -/

/-- A position of the stream lies in one of the files. -/
theorem exists_file_at (files : List FileInfo) : ∀ {base x : Nat}, base ≤ x →
    x < base + total files → ∃ i file, files[i]? = some file ∧ base + total (files.take i) ≤ x ∧
      x < base + total (files.take i) + file.size := by
  induction files with
  | nil =>
    intro base x above below
    rw [total_nil] at below
    omega
  | cons file files ih =>
    intro base x above below
    rw [total_cons] at below
    by_cases here : x < base + file.size
    · exact ⟨0, file, rfl, above, here⟩
    · have behind : base + file.size ≤ x := by omega
      obtain ⟨i, other, at_i, lower, upper⟩ := ih behind (by omega)
      refine ⟨i + 1, other, at_i, ?_, ?_⟩
      all_goals
        rw [List.take_succ_cons, total_cons]
        omega

theorem total_take_add {files : List FileInfo} {i : Nat} {file : FileInfo}
    (at_i : files[i]? = some file) : total (files.take i) + file.size ≤ total files := by
  obtain ⟨below, eq⟩ := List.getElem?_eq_some_iff.1 at_i
  have split := congrArg total (List.take_append_drop i files)
  rw [List.drop_eq_getElem_cons below, eq, total, List.map_append, List.sum_append, List.map_cons,
    List.sum_cons] at split
  change total _ + (_ + total _) = _ at split
  omega

namespace File

variable [BitSet β]

/-- The file after calls for pieces of a stream, one after another. -/
def after (pwrite : Pwrite) (stream : Bytes) (pieceSize : Nat) (ids : List Nat) (f : File β) :
    File β :=
  ids.foldl (fun g id =>
    let piece := pieceOf stream pieceSize id
    (g.writePiece pwrite id piece piece.length).state) f

variable {pwrite : Pwrite} {stream : Bytes} {pieceSize start : Nat} {fi : FileInfo}

/-- The calls that the index guard refuses leave nothing behind. -/
theorem after_filter (ids : List Nat) : ∀ f : File β, f.fi = fi →
    f.after pwrite stream pieceSize ids =
      f.after pwrite stream pieceSize (ids.filter fun id => fi.Takes id) := by
  induction ids with
  | nil => exact fun _ _ => rfl
  | cons id ids ih =>
    rintro f rfl
    by_cases takes : f.fi.Takes id
    · rw [List.filter_cons_of_pos (by simpa using takes)]
      exact ih _ (writePiece_fi f pwrite id _ _)
    · rw [List.filter_cons_of_neg (by simpa using takes), after, List.foldl_cons]
      dsimp only
      rw [writePiece_refused takes]
      exact ih f rfl

/-- A new file, after calls for all the pieces it has a part of. -/
theorem after_shifted {f : File β} (size : f.pieceSize = pieceSize) (created : f.content = [])
    (placed : Placed pieceSize start f.fi) (nonempty : 0 < f.fi.size)
    (whole : start + f.fi.size ≤ stream.length) (words : f.fi.lastPiece.index < 2 ^ 64)
    (room : f.fi.size + pieceSize < 2 ^ 64)
    (all : ∀ size position, (pwrite size position).count = some size) {ids : List Nat}
    (every : ∀ id, Overlaps pieceSize start f.fi id → id ∈ ids) :
    (f.after pwrite stream pieceSize ids).content = f.shifted stream start := by
  subst size
  have overlaps (id : Nat) : f.fi.Takes id ↔ Overlaps f.pieceSize start f.fi id :=
    (overlaps_iff placed nonempty).symm
  have inside (id : Nat) (mem : id ∈ ids.filter fun id => f.fi.Takes id) :
      Overlaps f.pieceSize start f.fi id :=
    (overlaps id).1 (of_decide_eq_true (List.mem_filter.1 mem).2)
  rw [after_filter ids f rfl, after, content_after (by omega) words placed nonempty whole all _
    inside f rfl rfl, created]
  apply issued_build placed nonempty whole room _ inside
  intro id there
  exact List.mem_filter.2 ⟨every id there, decide_eq_true ((overlaps id).2 there)⟩

end File

namespace OpenFiles

variable [BitSet β]

/-- Pieces of a stream, written one after another. -/
def writePieces (pwrite : Pwrite) (stream : Bytes) (pieceSize : Nat) :
    List Nat → OpenFiles β → Outcome Thrown (OpenFiles β) Unit
  | [], o => .done () o
  | id :: ids, o =>
    (writePiece pwrite id (pieceOf stream pieceSize id) (pieceOf stream pieceSize id).length o).bind
      fun _ => writePieces pwrite stream pieceSize ids

/-- The files of a torrent, open and with a bit for each of their pieces. -/
structure Ready (infos' : List FileInfo) (pieceSize : Nat) (o : OpenFiles β) : Prop where
  descriptors : infos o.files.val = infos'
  sizes : ∀ file ∈ o.files.val, file.pieceSize = pieceSize
  marked : ∀ file ∈ o.files.val, file.Marked

/-- A torrent whose files lie end to end on the piece grid, with the stream of their bytes. -/
structure Grid (files : List FileInfo) (pieceSize : Nat) (stream : Bytes) : Prop where
  laid : LaidOut pieceSize 0 files
  nonempty : ∀ file ∈ files, 0 < file.size
  whole : stream.length = total files
  small : total files + pieceSize < 2 ^ 60

variable {pwrite : Pwrite} {stream : Bytes} {pieceSize i : Nat} {infos' : List FileInfo}
  {o : OpenFiles β} {file : File β}

omit [BitSet β] in
/-- What the grid tells of one of the files. -/
theorem Grid.placed (grid : Grid (infos o.files.val) pieceSize stream)
    (at_i : o.files.val[i]? = some file) :
    Placed pieceSize (total ((infos o.files.val).take i)) file.fi ∧ 0 < file.fi.size ∧
      total ((infos o.files.val).take i) + file.fi.size ≤ stream.length ∧
      file.fi.lastPiece.index < 2 ^ 60 := by
  obtain ⟨below, rfl⟩ := List.getElem?_eq_some_iff.1 at_i
  have placed := placed_at grid.laid below
  have nonempty := grid.nonempty _ (List.mem_map_of_mem (List.getElem_mem below))
  have whole : total ((infos o.files.val).take i) + o.files.val[i].fi.size ≤
      total (infos o.files.val) := by
    apply total_take_add
    rw [infos, List.getElem?_map, at_i]
    rfl
  have small := grid.small
  have last := placed.last nonempty
  have pos : 0 < pieceSize := Nat.zero_lt_of_lt placed.first_lt
  have index := Nat.le_mul_of_pos_right o.files.val[i].fi.lastPiece.index pos
  simp only [OffsetInPiece.position] at last
  exact ⟨placed, nonempty, grid.whole ▸ whole, by omega⟩

omit [BitSet β] in
/-- A piece that starts inside the torrent has a part of some file. -/
theorem Grid.overlapping (grid : Grid (infos o.files.val) pieceSize stream) {id : Nat}
    (inside : id * pieceSize < total (infos o.files.val)) :
    overlapping pieceSize (infos o.files.val) id ≠ [] := by
  obtain ⟨i, fi, at_i, lower, upper⟩ :=
    exists_file_at (infos o.files.val) (Nat.zero_le _) (by rwa [Nat.zero_add])
  rw [Nat.zero_add] at lower upper
  have below := (List.getElem?_eq_some_iff.1 at_i).1
  have pos : 0 < pieceSize := by
    have at_file := at_i
    rw [infos, List.getElem?_map, Option.map_eq_some_iff] at at_file
    obtain ⟨file, at_file, -⟩ := at_file
    exact Nat.zero_lt_of_lt (grid.placed at_file).1.first_lt
  apply List.ne_nil_of_mem (a := i)
  rw [OpenFiles.overlapping, List.mem_filter, List.mem_range, at_i]
  refine ⟨below, decide_eq_true ⟨upper, ?_⟩⟩
  rw [Nat.succ_mul]
  omega

/-- The call of `Files::write_piece` for a piece returns, and is a call of
`File::write_piece` for each file. -/
theorem Ready.writePiece [BoundBitSet β] (ready : Ready infos' pieceSize o)
    (grid : Grid infos' pieceSize stream)
    (all : ∀ size position, (pwrite size position).count = some size) {id : Nat}
    (inside : id * pieceSize < total infos') :
    ∃ o', writePiece pwrite id (pieceOf stream pieceSize id)
        (pieceOf stream pieceSize id).length o = .done () o' ∧ Ready infos' pieceSize o' ∧
      o'.files.val = o.files.val.map (File.after pwrite stream pieceSize [id]) := by
  obtain ⟨rfl, sizes, marked⟩ := ready
  have takes (file : File β) (mem : file ∈ o.files.val) (takes : file.fi.Takes id) :
      ∃ g, file.writePiece pwrite id (pieceOf stream pieceSize id)
        (pieceOf stream pieceSize id).length = .done () g ∧ g.Kept file.fi pieceSize := by
    obtain ⟨i, at_i⟩ := List.getElem?_of_mem mem
    obtain ⟨placed, nonempty, whole, last⟩ := grid.placed at_i
    have small := grid.small
    have size := sizes file mem
    subst size
    exact File.writePiece_returns (marked file mem) (by omega) (by omega) placed nonempty whole all
      ((overlaps_iff placed nonempty).2 takes)
  obtain ⟨o', wrote, files⟩ := writePiece_files grid.laid grid.nonempty (grid.overlapping inside)
    fun file mem taken => (takes file mem taken).imp fun _ => And.left
  have kept (file : File β) (mem : file ∈ o.files.val) :
      (file.after pwrite stream pieceSize [id]).Kept file.fi pieceSize := by
    by_cases taken : file.fi.Takes id
    · obtain ⟨g, wrote, kept⟩ := takes file mem taken
      rw [File.after, List.foldl_cons]
      dsimp only
      rw [wrote]
      exact kept
    · rw [File.after, List.foldl_cons]
      dsimp only
      rw [File.writePiece_refused taken]
      exact ⟨rfl, sizes file mem, marked file mem⟩
  have same : o'.files.val = o.files.val.map (File.after pwrite stream pieceSize [id]) := files
  have descriptors : infos o'.files.val = infos o.files.val := by
    rw [same, infos, infos, List.map_map]
    exact List.map_congr_left fun file mem => (kept file mem).fi
  refine ⟨o', wrote, ⟨descriptors, ?_, ?_⟩, same⟩
  · rw [same]
    intro file mem
    obtain ⟨g, there, rfl⟩ := List.mem_map.1 mem
    exact (kept g there).size
  · rw [same]
    intro file mem
    obtain ⟨g, there, rfl⟩ := List.mem_map.1 mem
    exact (kept g there).marked

/-- Calls for pieces one after another. -/
theorem Ready.writePieces [BoundBitSet β] (grid : Grid infos' pieceSize stream)
    (all : ∀ size position, (pwrite size position).count = some size) (ids : List Nat) :
    ∀ {o : OpenFiles β}, Ready infos' pieceSize o → (∀ id ∈ ids, id * pieceSize < total infos') →
      ∃ o', writePieces pwrite stream pieceSize ids o = .done () o' ∧ Ready infos' pieceSize o' ∧
        o'.files.val = o.files.val.map (File.after pwrite stream pieceSize ids) := by
  induction ids with
  | nil =>
    intro o ready _
    exact ⟨o, rfl, ready, (List.map_id _).symm⟩
  | cons id ids ih =>
    intro o ready inside
    obtain ⟨mid, wrote, ready', files⟩ :=
      ready.writePiece grid all (inside id List.mem_cons_self)
    obtain ⟨o', later, ready'', files'⟩ :=
      ih ready' fun i mem => inside i (List.mem_cons_of_mem id mem)
    refine ⟨o', ?_, ready'', ?_⟩
    · rw [OpenFiles.writePieces, wrote]
      exact later
    · rw [files', files, List.map_map]
      rfl

/-- The files that are constructed for a torrent are ready, and empty. -/
theorem Ready.new [BoundBitSet β] {tf : TorrentFile} {files : StdVector (File β)}
    (constructed : Files.Constructed tf files.val) (grid : Grid tf.files tf.pieceSize stream) :
    Ready tf.files tf.pieceSize ⟨files, []⟩ ∧ ∀ file ∈ files.val, file.content = [] := by
  have same := constructed.infos
  have kept (file : File β) (mem : file ∈ files.val) :
      file.Kept file.fi tf.pieceSize ∧ file.content = [] := by
    obtain ⟨i, at_i⟩ := List.getElem?_of_mem mem
    obtain ⟨placed, nonempty, -, last⟩ := Grid.placed (o := ⟨files, []⟩) (same ▸ grid) at_i
    exact File.new_kept (placed.index_le nonempty) last (constructed.new mem)
  exact ⟨⟨same, fun file mem => (kept file mem).1.size, fun file mem => (kept file mem).1.marked⟩,
    fun file mem => (kept file mem).2⟩

/-- What calls for all the pieces leave in new files. -/
theorem Ready.contents {tf : TorrentFile} {files : StdVector (File β)} {ids : List Nat}
    (ready : Ready tf.files tf.pieceSize ⟨files, []⟩)
    (created : ∀ file ∈ files.val, file.content = []) (grid : Grid tf.files tf.pieceSize stream)
    (all : ∀ size position, (pwrite size position).count = some size)
    (every : ∀ id, id * tf.pieceSize < total tf.files → id ∈ ids)
    (same : o.files.val = files.val.map (File.after pwrite stream tf.pieceSize ids)) :
    o.files.val.map (·.content) = tf.stored stream := by
  have small := grid.small
  have whole := grid.whole
  rw [same, List.map_map, TorrentFile.stored]
  apply List.ext_getElem?
  intro i
  have info : files.val[i]?.map (·.fi) = tf.files[i]? := by
    rw [← ready.descriptors, infos, List.getElem?_map]
  rw [List.getElem?_map, List.getElem?_mapIdx, ← info, Option.map_map]
  cases at_i : files.val[i]? with
  | none => rfl
  | some f =>
    have size : f.pieceSize = tf.pieceSize := ready.sizes f (List.mem_of_getElem? at_i)
    rw [← ready.descriptors] at grid
    obtain ⟨placed, nonempty, inside, last⟩ := grid.placed at_i
    rw [ready.descriptors] at placed inside
    have content := File.after_shifted size (created f (List.mem_of_getElem? at_i)) placed nonempty
      inside (by omega) (by omega) all fun id overlaps =>
        every id (Nat.lt_of_lt_of_le overlaps.1 (whole ▸ inside))
    rw [File.shifted, size] at content
    exact congrArg some content

end OpenFiles

end TorrentClient
