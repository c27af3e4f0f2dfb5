import TorrentClient.Base.Bisect
import TorrentClient.FileWrite

/-!
# Finding the files of a piece

`Files::write_piece` bisects the files for one that the piece reaches, goes back to
the first file that starts in the piece, and calls `File::write_piece` from there on.
-/

namespace TorrentClient

variable {β : Type}

/-- `m_files`, with the files that `File::write_piece` was called on so far. -/
structure OpenFiles (β : Type) where
  files : StdVector (File β)
  calls : List Nat

namespace OpenFiles

/-- `data[i].file_info().first_piece.index == value` -/
def startsIn (data : List (File β)) (value i : Nat) : Bool :=
  data[i]?.any fun file => file.fi.firstPiece.index = value

/-- An interval that does not shrink is searched again and again. -/
def search (data : List (File β)) (start stop value : Nat) : Except Fault Nat :=
  let middle := add64 stop start / 2
  match data[middle]? with
  | none => .error .outOfBounds
  | some file =>
    if value > file.fi.lastPiece.index then
      if stop - middle < stop - start then search data middle stop value else .error .diverges
    else if value < file.fi.firstPiece.index then
      if middle - start < stop - start then search data start middle value else .error .diverges
    else .ok (Bisect.walkBack (startsIn data value) middle)
termination_by stop - start

/-- The files once `File::write_piece` was called on one of them. -/
def called (o : OpenFiles β) (fileId : Nat) (file : File β) : OpenFiles β where
  files := ⟨o.files.val.set fileId file, by rw [List.length_set]; exact o.files.property⟩
  calls := o.calls ++ [fileId]

section
variable [BitSet β] (pwrite : Pwrite) (id : Nat) (source : Bytes) (size : Nat)

/-- The loop of `Files::write_piece`. -/
def writeLoop (o : OpenFiles β) (fileId : Nat) : Outcome Thrown (OpenFiles β) Unit :=
  if inside : fileId < o.files.val.length then
    match o.files.val[fileId].writePiece pwrite id source size with
    | .done _ file =>
      if fileId + 1 < o.files.val.length ∧
          startsIn (o.called fileId file).files.val id (fileId + 1) then
        writeLoop (o.called fileId file) (fileId + 1)
      else .done () (o.called fileId file)
    | .thrown e file => .thrown e (o.called fileId file)
    | .fault r file => .fault r (o.called fileId file)
  else .fault .outOfBounds o
termination_by o.files.val.length - fileId
decreasing_by
  simp only [called, List.length_set]
  omega

/-- `Files::write_piece` -/
def writePiece (o : OpenFiles β) : Outcome Thrown (OpenFiles β) Unit :=
  match search o.files.val 0 o.files.val.length id with
  | .error r => .fault r o
  | .ok fileId => writeLoop pwrite id source size o fileId

end

/-! ## The search -/

/-- The index of the piece a file starts in. -/
def firstIndex (data : List (File β)) (i : Nat) : Nat :=
  data[i]?.elim 0 fun file => file.fi.firstPiece.index

def lastIndex (data : List (File β)) (i : Nat) : Nat :=
  data[i]?.elim 0 fun file => file.fi.lastPiece.index

theorem firstIndex_eq {data : List (File β)} {i : Nat} (inside : i < data.length) :
    firstIndex data i = data[i].fi.firstPiece.index := by
  rw [firstIndex, List.getElem?_eq_getElem inside]
  rfl

theorem lastIndex_eq {data : List (File β)} {i : Nat} (inside : i < data.length) :
    lastIndex data i = data[i].fi.lastPiece.index := by
  rw [lastIndex, List.getElem?_eq_getElem inside]
  rfl

theorem startsIn_iff {data : List (File β)} {value i : Nat} (inside : i < data.length) :
    startsIn data value i ↔ firstIndex data i = value := by
  simp [startsIn, firstIndex, List.getElem?_eq_getElem inside]

/-- The search bisects the pieces the files reach over. -/
theorem search_eq {data : List (File β)} (vector : data.length < 2 ^ 63) {start stop : Nat}
    (ordered : start ≤ stop) (inside : stop ≤ data.length) (starts : start < data.length)
    (value : Nat) : search data start stop value =
      (Bisect.bisect (firstIndex data) (lastIndex data) value start stop).elim (.error .diverges)
        fun middle => .ok (Bisect.walkBack (startsIn data value) middle) := by
  induction length : stop - start using Nat.strongRecOn generalizing start stop with
  | ind k ih =>
    have reaches : start ≤ (stop + start) / 2 := by omega
    have short : (stop + start) / 2 ≤ stop := by omega
    have half : add64 stop start / 2 = (stop + start) / 2 := by rw [add64_eq (by omega)]
    have at_middle : (stop + start) / 2 < data.length := by omega
    rw [search, Bisect.bisect]
    simp only [half, List.getElem?_eq_getElem at_middle, gt_iff_lt]
    rw [lastIndex_eq at_middle, firstIndex_eq at_middle]
    generalize (stop + start) / 2 = middle at *
    by_cases right : data[middle].fi.lastPiece.index < value
    · rw [if_pos right, if_pos right]
      split
      · exact ih (stop - middle) (by omega) short inside at_middle rfl
      · rfl
    · rw [if_neg right, if_neg right]
      by_cases left : value < data[middle].fi.firstPiece.index
      · rw [if_pos left, if_pos left]
        split
        · exact ih (middle - start) (by omega) reaches (Nat.le_of_lt at_middle) starts rfl
        · rfl
      · rw [if_neg left, if_neg left]
        rfl

end OpenFiles

/-! ## The calls -/

/-- The guard of `File::write_piece` lets the call pass. -/
def FileInfo.Takes (file : FileInfo) (id : Nat) : Prop :=
  file.firstPiece.index ≤ id ∧ id ≤ file.lastPiece.index

instance (file : FileInfo) (id : Nat) : Decidable (file.Takes id) :=
  inferInstanceAs (Decidable (_ ∧ _))

instance (pieceSize start : Nat) (file : FileInfo) (id : Nat) :
    Decidable (Overlaps pieceSize start file id) :=
  inferInstanceAs (Decidable (_ ∧ _))

theorem File.writePiece_fi [BitSet β] (f : File β) (pwrite : Pwrite) (id : Nat) (source : Bytes)
    (size : Nat) : (f.writePiece pwrite id source size).state.fi = f.fi := by
  unfold writePiece
  dsimp only
  split
  · rfl
  · split
    · rfl
    · split
      · rfl
      · split <;> rfl

theorem File.writePiece_refused [BitSet β] {f : File β} {id : Nat} (refused : ¬ f.fi.Takes id)
    (pwrite : Pwrite) (source : Bytes) (size : Nat) :
    f.writePiece pwrite id source size = .done () f := by
  have guard : id < f.fi.firstPiece.index ∨ id > f.fi.lastPiece.index := by
    by_contra passes
    exact refused ⟨Nat.not_lt.1 fun lt => passes (Or.inl lt),
      Nat.not_lt.1 fun lt => passes (Or.inr lt)⟩
  rw [writePiece, if_pos guard]

namespace OpenFiles

theorem called_startsIn (o : OpenFiles β) {fileId : Nat} (inside : fileId < o.files.val.length)
    {file : File β} (same : file.fi = o.files.val[fileId].fi) (id : Nat) :
    startsIn (o.called fileId file).files.val id = startsIn o.files.val id := by
  funext i
  show ((o.files.val.set fileId file)[i]?.any _ : Bool) = _
  by_cases eq : fileId = i
  · subst eq
    rw [List.getElem?_set_self inside, startsIn, List.getElem?_eq_getElem inside,
      Option.any_some, Option.any_some, same]
  · rw [List.getElem?_set_ne eq]
    rfl

section
variable [BitSet β] {pwrite : Pwrite} {id : Nat} {source : Bytes} {size : Nat}

/-- A file whose `File::write_piece` throws, or has no defined continuation. -/
def Stops (pwrite : Pwrite) (id : Nat) (source : Bytes) (size : Nat) (o : OpenFiles β)
    (fileId : Nat) : Prop :=
  ∃ file, o.files.val[fileId]? = some file ∧
    ∀ file', file.writePiece pwrite id source size ≠ .done () file'

theorem called_stops {o : OpenFiles β} {fileId i : Nat} {file : File β} (other : fileId ≠ i) :
    Stops pwrite id source size (o.called fileId file) i ↔ Stops pwrite id source size o i := by
  have same : (o.called fileId file).files.val[i]? = o.files.val[i]? :=
    List.getElem?_set_ne other
  rw [Stops, Stops, same]

/-- The loop calls the files one after another, up to one that stops it. -/
theorem writeLoop_calls (o : OpenFiles β) {fileId : Nat}
    (inside : fileId < o.files.val.length) :
    ∃ made, (writeLoop pwrite id source size o fileId).state.calls = o.calls ++ made ∧
      made <+: Bisect.sweep (startsIn o.files.val id) o.files.val.length fileId ∧
      ((∃ o', writeLoop pwrite id source size o fileId = .done () o' ∧
          made = Bisect.sweep (startsIn o.files.val id) o.files.val.length fileId) ∨
        (∀ o', writeLoop pwrite id source size o fileId ≠ .done () o') ∧
          ∃ i ∈ made, Stops pwrite id source size o i) := by
  induction left : o.files.val.length - fileId using Nat.strongRecOn generalizing o fileId with
  | ind n ih =>
    have kept := o.files.val[fileId].writePiece_fi pwrite id source size
    have at_file := List.getElem?_eq_getElem inside
    have stopped (file : File β)
        (ends : ∀ file', o.files.val[fileId].writePiece pwrite id source size ≠ .done () file') :
        ∃ made, (o.called fileId file).calls = o.calls ++ made ∧
          made <+: Bisect.sweep (startsIn o.files.val id) o.files.val.length fileId ∧
          ∃ i ∈ made, Stops pwrite id source size o i := by
      refine ⟨[fileId], rfl, ?_, fileId, List.mem_singleton_self _, _, at_file, ends⟩
      rw [Bisect.sweep]
      exact ⟨_, rfl⟩
    rw [writeLoop, dif_pos inside]
    cases result : o.files.val[fileId].writePiece pwrite id source size with
    | thrown e file =>
      obtain ⟨made, calls, first, stops⟩ := stopped file (by rw [result]; rintro _ ⟨⟩)
      exact ⟨made, calls, first, Or.inr ⟨by rintro _ ⟨⟩, stops⟩⟩
    | fault r file =>
      obtain ⟨made, calls, first, stops⟩ := stopped file (by rw [result]; rintro _ ⟨⟩)
      exact ⟨made, calls, first, Or.inr ⟨by rintro _ ⟨⟩, stops⟩⟩
    | done _ file =>
      rw [result] at kept
      have starts : startsIn (o.called fileId file).files.val id = startsIn o.files.val id :=
        called_startsIn o inside kept id
      have length : (o.called fileId file).files.val.length = o.files.val.length :=
        List.length_set
      dsimp only
      rw [starts, Bisect.sweep]
      by_cases more : fileId + 1 < o.files.val.length ∧ startsIn o.files.val id (fileId + 1)
      · rw [if_pos more, if_pos more]
        have next : fileId + 1 < (o.called fileId file).files.val.length := length ▸ more.1
        obtain ⟨made, calls, first, ends⟩ := ih _ (by rw [length]; omega) _ next rfl
        rw [starts, length] at first ends
        refine ⟨fileId :: made, ?_, ?_, ?_⟩
        · rw [calls]
          exact List.append_assoc _ _ _
        · exact (List.prefix_cons_inj fileId).2 first
        · rcases ends with ⟨o', done, whole⟩ | ⟨ends, i, mem, stops⟩
          · exact Or.inl ⟨o', done, by rw [whole]⟩
          · have behind := (Bisect.mem_sweep more.1 (first.mem mem)).1
            refine Or.inr ⟨ends, i, List.mem_cons_of_mem fileId mem, ?_⟩
            exact (called_stops (by omega)).1 stops
      · rw [if_neg more, if_neg more]
        exact ⟨[fileId], rfl, List.prefix_refl _, Or.inl ⟨_, rfl, rfl⟩⟩

end

/-! ## The files of a piece -/

/-- The descriptors of the files. -/
def infos (data : List (File β)) : List FileInfo := data.map (·.fi)

/-- The files, by their places, that have a byte in common with a piece. -/
def overlapping (pieceSize : Nat) (infos : List FileInfo) (id : Nat) : List Nat :=
  (List.range infos.length).filter fun i =>
    infos[i]?.any fun file => Overlaps pieceSize (total (infos.take i)) file id

/-- The calls that are not refused by the index guard. -/
def effective (infos : List FileInfo) (id : Nat) (calls : List Nat) : List Nat :=
  calls.filter fun i => infos[i]?.any fun file => file.Takes id

section
variable {pieceSize : Nat} {data : List (File β)}

theorem placed_at (laid : LaidOut pieceSize 0 (infos data)) {i : Nat} (inside : i < data.length) :
    Placed pieceSize (total ((infos data).take i)) data[i].fi := by
  have split := List.take_append_drop i (infos data)
  have inside' : i < (infos data).length := by rw [infos, List.length_map]; exact inside
  rw [List.drop_eq_getElem_cons inside'] at split
  have placed := laid _ _ _ split.symm
  rw [Nat.zero_add] at placed
  simpa only [infos, List.getElem_map] using placed

theorem chain_of_laidOut (laid : LaidOut pieceSize 0 (infos data))
    (nonempty : ∀ file ∈ infos data, 0 < file.size) :
    Bisect.Chain (firstIndex data) (lastIndex data) data.length := by
  have sized {i : Nat} (inside : i < data.length) : 0 < data[i].fi.size :=
    nonempty _ (List.mem_map_of_mem (List.getElem_mem inside))
  constructor
  · intro i inside
    rw [firstIndex_eq inside, lastIndex_eq inside]
    exact (placed_at laid inside).index_le (sized inside)
  · intro i next
    have inside := Nat.lt_of_succ_lt next
    rw [firstIndex_eq next, lastIndex_eq inside]
    have starts := (placed_at laid next).first
    have ends := (placed_at laid inside).last (sized inside)
    have ⟨after, _⟩ := (placed_at laid inside).last_range (sized inside)
    have before := (placed_at laid next).first_lt
    have there : (infos data).take (i + 1) = (infos data).take i ++ [data[i].fi] := by
      rw [infos, List.take_add_one, List.getElem?_map, List.getElem?_eq_getElem inside]
      rfl
    rw [there, total, List.map_append, List.sum_append, List.map_singleton,
      List.sum_singleton] at starts
    change _ = total _ + _ at starts
    simp only [OffsetInPiece.position] at starts ends
    by_contra behind
    have := piece_before (Nat.lt_of_not_le behind) pieceSize
    omega

theorem effective_eq (id : Nat) {calls : List Nat} (inside : ∀ i ∈ calls, i < data.length) :
    effective (infos data) id calls =
      calls.filter fun i => firstIndex data i ≤ id ∧ id ≤ lastIndex data i := by
  apply List.filter_congr
  intro i mem
  have at_place := List.getElem?_eq_getElem (inside i mem)
  rw [infos, List.getElem?_map, firstIndex, lastIndex, at_place]
  rfl

theorem overlapping_eq (laid : LaidOut pieceSize 0 (infos data))
    (nonempty : ∀ file ∈ infos data, 0 < file.size) (id : Nat) :
    overlapping pieceSize (infos data) id = effective (infos data) id (List.range data.length) := by
  rw [overlapping, infos, List.length_map]
  apply List.filter_congr
  intro i mem
  have inside := List.mem_range.1 mem
  have sized : 0 < data[i].fi.size :=
    nonempty _ (List.mem_map_of_mem (List.getElem_mem inside))
  have placed := placed_at laid inside
  rw [List.getElem?_map, List.getElem?_eq_getElem inside, Option.map_some, Option.any_some,
    Option.any_some]
  exact decide_eq_decide.2 (overlaps_iff placed sized)

end

/-- `Files::write_piece` calls `File::write_piece` once on each file of the piece, in
order, as long as these calls return; its other calls are refused. -/
structure OnceEach [BitSet β] (pwrite : Pwrite) (id : Nat) (source : Bytes) (size pieceSize : Nat)
    (files : StdVector (File β)) : Prop where
  terminates : ∃ fileId, search files.val 0 files.val.length id = .ok fileId
  in_order : effective (infos files.val) id
    (writePiece pwrite id source size ⟨files, []⟩).state.calls <+:
      overlapping pieceSize (infos files.val) id
  all : ∀ o, writePiece pwrite id source size ⟨files, []⟩ = .done () o →
    effective (infos files.val) id o.calls = overlapping pieceSize (infos files.val) id
  returns : (∀ i ∈ overlapping pieceSize (infos files.val) id,
      ¬ Stops pwrite id source size ⟨files, []⟩ i) →
    ∃ o, writePiece pwrite id source size ⟨files, []⟩ = .done () o

/-- From where the search ends, the loop comes to the files the piece lies in, in order. -/
theorem search_overlapping {id pieceSize : Nat} {files : StdVector (File β)}
    (laid : LaidOut pieceSize 0 (infos files.val))
    (nonempty : ∀ file ∈ infos files.val, 0 < file.size)
    (some : overlapping pieceSize (infos files.val) id ≠ []) :
    ∃ first, search files.val 0 files.val.length id = .ok first ∧ first < files.val.length ∧
      effective (infos files.val) id
        (Bisect.sweep (startsIn files.val id) files.val.length first) =
          overlapping pieceSize (infos files.val) id := by
  have chain := chain_of_laidOut laid nonempty
  have whole := overlapping_eq laid nonempty id
  rw [effective_eq id fun i mem => List.mem_range.1 mem] at whole
  obtain ⟨j, mem⟩ := List.exists_mem_of_ne_nil _ some
  rw [whole, List.mem_filter, decide_eq_true_eq] at mem
  obtain ⟨place, above, below⟩ := mem
  have upper := List.mem_range.1 place
  obtain ⟨m, ended, m_lt, m_above, m_below⟩ :=
    Bisect.bisect_found chain (Nat.le_refl _) (Nat.zero_le j) upper above below
  have first_lt : Bisect.walkBack (startsIn files.val id) m < files.val.length :=
    Nat.lt_of_le_of_lt (Bisect.walkBack_spec _ m).1 m_lt
  refine ⟨Bisect.walkBack (startsIn files.val id) m, ?_, first_lt, ?_⟩
  · rw [search_eq files.property (Nat.zero_le _) (Nat.le_refl _) (Nat.zero_lt_of_lt upper), ended]
    rfl
  · rw [whole, effective_eq id fun i mem => (Bisect.mem_sweep first_lt mem).2]
    exact Bisect.sweep_filter chain m_lt m_above m_below fun i inside => startsIn_iff inside

/-- **Each file of a piece is written once**, and no other file. -/
theorem writePiece_onceEach [BitSet β] (pwrite : Pwrite) (id : Nat) (source : Bytes)
    (size pieceSize : Nat) (files : StdVector (File β))
    (laid : LaidOut pieceSize 0 (infos files.val))
    (nonempty : ∀ file ∈ infos files.val, 0 < file.size)
    (some : overlapping pieceSize (infos files.val) id ≠ []) :
    OnceEach pwrite id source size pieceSize files := by
  obtain ⟨first, found, first_lt, swept⟩ := search_overlapping laid nonempty some
  obtain ⟨made, calls, front, ends⟩ :=
    @writeLoop_calls β _ pwrite id source size ⟨files, []⟩ _ first_lt
  have run : writePiece pwrite id source size ⟨files, []⟩ =
      writeLoop pwrite id source size ⟨files, []⟩ first := by
    rw [writePiece, found]
  rw [List.nil_append] at calls
  rw [← run] at calls ends
  have part : effective (infos files.val) id made <+:
      overlapping pieceSize (infos files.val) id := by
    rw [← swept]
    exact front.filter _
  refine ⟨⟨_, found⟩, calls ▸ part, ?_, ?_⟩
  · intro o done
    rcases ends with ⟨-, -, complete⟩ | ⟨never, -⟩
    · rw [done] at calls
      change o.calls = made at calls
      rw [calls, complete, swept]
    · exact absurd done (never o)
  · intro none
    rcases ends with ⟨o, done, -⟩ | ⟨-, i, mem, stops⟩
    · exact ⟨o, done⟩
    · have stopped := stops
      obtain ⟨file, at_place, ends⟩ := stopped
      have taken : file.fi.Takes id := by
        by_contra refused
        exact ends file (File.writePiece_refused refused pwrite source size)
      refine absurd stops (none i (part.mem (List.mem_filter.2 ⟨mem, ?_⟩)))
      change files.val[i]? = _ at at_place
      rw [infos, List.getElem?_map, at_place]
      exact decide_eq_true taken

/-- Five files over pieces of four bytes, two of them inside the second piece. -/
def packed : StdVector (File (List Bool)) :=
  ⟨[⟨[], [], [], 3, ⟨0, 0⟩, ⟨0, 3⟩⟩, ⟨[], [], [], 2, ⟨0, 3⟩, ⟨1, 1⟩⟩,
    ⟨[], [], [], 1, ⟨1, 1⟩, ⟨1, 2⟩⟩, ⟨[], [], [], 1, ⟨1, 2⟩, ⟨1, 3⟩⟩,
    ⟨[], [], [], 3, ⟨1, 3⟩, ⟨2, 2⟩⟩].map File.opened, by decide⟩

theorem writePiece_onceEach_packed :
    overlapping 4 (infos packed.val) 1 = [1, 2, 3, 4] ∧
      OnceEach File.writesAll 1 [1, 2, 3, 4] 4 4 packed := by
  have placed (size start first firstOffset last lastOffset : Nat) (lt : firstOffset < 4)
      (starts : first * 4 + firstOffset = start) (after : 1 ≤ lastOffset) (upto : lastOffset ≤ 4)
      (ends : last * 4 + lastOffset = start + size) :
      Placed 4 start ⟨[], [], [], size, ⟨first, firstOffset⟩, ⟨last, lastOffset⟩⟩ :=
    ⟨lt, starts, fun _ => ⟨after, upto⟩, fun _ => ends⟩
  have laid : LaidOut 4 0 (infos packed.val) := by
    simp only [packed, infos, List.map_cons, List.map_nil, File.opened, laidOut_cons]
    refine ⟨?_, ?_, ?_, ?_, ?_, laidOut_nil _ _⟩ <;> apply placed <;> decide
  exact ⟨by decide, writePiece_onceEach File.writesAll 1 [1, 2, 3, 4] 4 4 packed laid (by decide)
    (by decide)⟩

end OpenFiles

end TorrentClient
