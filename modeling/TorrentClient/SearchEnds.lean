import TorrentClient.OpenPath

/-!
# Where the search for a piece ends

`Files` opens the files of an accepted torrent file, and `Files::write_piece` searches
them for the pieces that `PieceList` hands out, of which there is one for each hash.
-/

namespace TorrentClient

/-! ## The search -/

/-- Of the files that the search comes to on its way to the right, one ends in the piece of
the last of so many hashes, or behind it. -/
def InReach (files : List FileInfo) (hashes : Nat) : Prop :=
  ∃ i ∈ Bisect.spine 0 files.length, ∃ file ∈ files[i]?, hashes ≤ file.lastPiece.index + 1

/-- It is enough that the last file does. -/
theorem inReach_last {files : List FileInfo} {hashes : Nat} (some : files ≠ [])
    (last : hashes ≤ lastPieceIndex files + 1) : InReach files hashes := by
  have nonempty := List.length_pos_iff.2 some
  have there := List.getElem?_eq_getElem (Nat.sub_one_lt_of_lt nonempty)
  refine ⟨files.length - 1, Bisect.last_mem_spine nonempty, _, there, ?_⟩
  rwa [lastPieceIndex, List.getLast?_eq_getElem?, there] at last

/-- In order, no file reaches farther than the last. -/
theorem inReach_iff_last {files : List FileInfo} {hashes : Nat} (some : files ≠ [])
    (ascending : Ascending files) : InReach files hashes ↔ hashes ≤ lastPieceIndex files + 1 := by
  refine ⟨?_, inReach_last some⟩
  rintro ⟨i, mem, file, at_i, le⟩
  have nonempty := List.length_pos_iff.2 some
  have inside := Bisect.spine_inside nonempty i mem
  obtain ⟨_, rfl⟩ := List.getElem?_eq_some_iff.1 at_i
  have rises : (files.map (·.lastPiece.index)).IsChain (· ≤ ·) := by
    rw [List.isChain_map]
    refine List.isChain_iff_getElem.2 fun i inside => ?_
    exact (List.isChain_iff_getElem.1 ascending.between i inside).trans
      (ascending.inside _ (List.getElem_mem _))
  have last := (List.isChain_iff_pairwise.1 rises).rel_getLast
    (List.mem_map_of_mem (List.getElem_mem inside))
  rw [List.getLast_map] at last
  rw [lastPieceIndex, List.getLast?_eq_some_getLast some]
  exact Nat.le_trans le (Nat.succ_le_succ last)

namespace OpenFiles

variable {β : Type} {data : List (File β)}

/-- Files that are laid out start and end in pieces that leave no gap, also where indices wrap. -/
theorem gapless_of_next (some : data ≠ []) (chain : (infos data).IsChain Next)
    (first : ∀ file ∈ (infos data).head?, file.firstPiece.index = 0) :
    Bisect.Gapless (firstIndex data) (lastIndex data) data.length where
  first := by
    have nonempty := List.length_pos_iff.2 some
    rw [firstIndex_eq nonempty]
    apply first
    rw [infos, List.head?_map, List.head?_eq_getElem?, List.getElem?_eq_getElem nonempty]
    rfl
  next i inside := by
    have le := next_le chain (by rw [infos, List.length_map]; exact inside)
    rw [firstIndex_eq inside, lastIndex_eq (Nat.lt_of_succ_lt inside)]
    simpa only [infos, List.getElem_map] using le

/-- The search ends where a file on the way to the right reaches the piece. -/
theorem search_ends_iff (some : data ≠ []) (vector : data.length < 2 ^ 63)
    (chain : (infos data).IsChain Next)
    (first : ∀ file ∈ (infos data).head?, file.firstPiece.index = 0) (value : Nat) :
    search data 0 data.length value ≠ .error .diverges ↔
      InReach (infos data) (value + 1) := by
  have nonempty := List.length_pos_iff.2 some
  have row := gapless_of_next some chain first
  have none : Bisect.bisect (firstIndex data) (lastIndex data) value 0 data.length = none ↔
      ∀ m ∈ Bisect.spine 0 data.length, lastIndex data m < value :=
    row.bisect_eq_none_iff nonempty (Nat.le_refl _) (Or.inl rfl)
  have reach : InReach (infos data) (value + 1) ↔
      ¬ ∀ m ∈ Bisect.spine 0 data.length, lastIndex data m < value := by
    rw [InReach, infos, List.length_map]
    push Not
    refine exists_congr fun m => and_congr_right fun mem => ?_
    have inside := Bisect.spine_inside nonempty m mem
    rw [lastIndex_eq inside, List.getElem?_map, List.getElem?_eq_getElem inside]
    simp
  rw [reach, ← none, search_eq vector (Nat.zero_le _) (Nat.le_refl _) nonempty]
  cases Bisect.bisect (firstIndex data) (lastIndex data) value 0 data.length with
  | none => exact iff_of_false (fun ends => ends rfl) fun h => h rfl
  | some middle => exact iff_of_true (by rintro ⟨⟩) (Option.some_ne_none middle)

end OpenFiles

/-! ## The pieces that are handed out -/

/-- An index below the number of hashes is handed out with some size. -/
theorem PieceList.new_returns {tf : TorrentFile} {i : Nat} (inside : i < tf.pieces.val.length) :
    (PieceList.new tf).Returns i ((PieceList.new tf).sizeOf i) := by
  have bound := tf.pieces.2
  have max : (PieceList.new tf).maxPieceNum = tf.pieces.val.length - 1 :=
    sub64_eq (by omega) (by omega)
  have sound : (PieceList.new tf).Sound :=
    ⟨by rw [max]; omega, Nat.zero_le _, fun z hz => absurd hz List.not_mem_nil⟩
  exact (PieceList.returns_iff sound rfl rfl (by rw [max]; omega)).2 rfl

section
variable [SubStrings] [Externals] {β : Type} [BitSet β] {path : Bytes} {source : StringWrapper}
  {tf : Metainfo} {files : StdVector (File β)}

theorem OpenFiles.search_accepted_iff (accepted : Metainfo.new path source = .done () tf)
    (constructed : Files.Constructed tf.toTorrentFile files.val) (value : Nat) :
    search files.val 0 files.val.length value ≠ .error .diverges ↔
      InReach tf.files (value + 1) := by
  obtain ⟨-, -, laid, some, layout⟩ := Metainfo.new_done accepted
  obtain ⟨chain, first⟩ := layFiles_next tf.pieceSize laid 0 0
  rw [← layout] at chain first
  have descriptors : infos files.val = tf.files := constructed.infos
  have nonempty : files.val ≠ [] := by
    intro none
    apply @layFiles_ne_nil tf.pieceSize 0 0 laid some
    rw [← layout, ← descriptors, none]
    rfl
  rw [← descriptors] at chain first ⊢
  exact search_ends_iff nonempty files.property chain first value

/-- For each piece of the torrent that can be handed out the search ends. -/
def SearchesEnd (tf : TorrentFile) (files : StdVector (File β)) : Prop :=
  ∀ i < tf.pieces.val.length, ∀ size, (PieceList.new tf).Returns i size →
    OpenFiles.search files.val 0 files.val.length i ≠ .error .diverges

/-- **When the search for every piece ends**: when a file that it comes to on its way to the
right reaches the piece of the last hash. -/
theorem searchesEnd_iff (accepted : Metainfo.new path source = .done () tf)
    (constructed : Files.Constructed tf.toTorrentFile files.val) :
    SearchesEnd tf.toTorrentFile files ↔ InReach tf.files tf.pieces.val.length := by
  have ends := OpenFiles.search_accepted_iff accepted constructed
  constructor
  · intro all
    have pieces := List.length_pos_iff.2 (Metainfo.new_done accepted).1
    have last : tf.pieces.val.length - 1 < tf.pieces.val.length := Nat.sub_one_lt_of_lt pieces
    have reach := (ends _).1 (all _ last _ (PieceList.new_returns last))
    rwa [Nat.sub_add_cancel pieces] at reach
  · rintro ⟨m, mem, file, at_m, le⟩ i inside _ _
    exact (ends i).2 ⟨m, mem, file, at_m, Nat.le_trans inside le⟩

/-- A torrent with no more hashes than pieces is in reach. -/
theorem inReach_of_hashes (accepted : Metainfo.new path source = .done () tf)
    (small : total tf.files + tf.files.length < 2 ^ 64)
    (hashes : tf.pieces.val.length ≤ total tf.files ⌈/⌉ tf.pieceSize) :
    InReach tf.files tf.pieces.val.length := by
  obtain ⟨-, size, laid, some, layout⟩ := Metainfo.new_done accepted
  have pos := Nat.pos_of_ne_zero size
  have sizes := layFiles_sizes tf.pieceSize laid 0 0
  rw [← layout] at sizes
  have same : total tf.files = total laid := congrArg List.sum sizes
  have length : tf.files.length = laid.length := by
    have lengths := congrArg List.length sizes
    rwa [List.length_map, List.length_map] at lengths
  have last := (@layFiles_reaches tf.pieceSize pos laid 0 0 (by omega)).2 some
  rw [← layout, Nat.zero_add, Nat.zero_add, ← same] at last
  have ceiling : total tf.files ⌈/⌉ tf.pieceSize ≤ total tf.files / tf.pieceSize + 1 := by
    rw [ceilDiv_le_iff_le_mul pos]
    exact (Nat.lt_mul_div_succ _ pos).le
  exact inReach_last (layout ▸ layFiles_ne_nil some) (by omega)

end

/-- A torrent file for five bytes in pieces of four, which are two. -/
def fiveBytes (hashes : Nat) : Value :=
  .dict [(ascii "info", .dict [(ascii "length", .int 5), (ascii "name", .str (ascii "a")),
    (ascii "piece length", .int 4), (ascii "pieces", .str (List.replicate (20 * hashes) 7))])]

def twoHashes : StringWrapper := .ofBytes (fiveBytes 2).encode (by decide)

def threeHashes : StringWrapper := .ofBytes (fiveBytes 3).encode (by decide)

/-- The file, from the first piece to the first byte of the second. -/
def fiveFile : FileInfo := ⟨[ascii "a"], ascii "/tmp/torrents/", [], 5, ⟨0, 0⟩, ⟨1, 1⟩⟩

def fiveOpened : StdVector (File (List Bool)) :=
  ⟨[⟨List.replicate 128 false, fiveFile, 4, [], []⟩], by decide⟩

theorem fiveBytes_constructed {tf : TorrentFile} (files : tf.files = [fiveFile])
    (size : tf.pieceSize = 4) : Files.Constructed tf fiveOpened.val := by
  rw [Files.constructed_iff (by rw [files]; decide), files, size]
  exact .cons rfl .nil

theorem searchesEnd_two :
    ∃ tf, @Metainfo.new SubStrings.cut (Metainfo.exactExternals id) [] twoHashes = .done () tf ∧
      Files.Constructed tf.toTorrentFile fiveOpened.val ∧
      SearchesEnd tf.toTorrentFile fiveOpened := by
  have text : twoHashes.bytes = (fiveBytes 2).encode := StringWrapper.bytes_ofBytes _ _
  have ⟨tf, accepted, size, files, pieces⟩ : ∃ tf,
      @Metainfo.new SubStrings.cut (Metainfo.exactExternals id) [] twoHashes = .done () tf ∧
      tf.pieceSize = 4 ∧ tf.files = [fiveFile] ∧ tf.pieces.val.length = 2 := by
    rw [@Metainfo.new_value SubStrings.cut (Metainfo.exactExternals id) _ _ text]
    exact ⟨_, rfl, rfl, rfl, rfl⟩
  have constructed := fiveBytes_constructed files size
  refine ⟨tf, accepted, constructed, ?_⟩
  apply (@searchesEnd_iff SubStrings.cut (Metainfo.exactExternals id) _ _ _ _ _ _
    accepted constructed).2
  rw [files, pieces]
  exact inReach_last (List.cons_ne_nil _ _) (by decide)

set_option maxRecDepth 2000 in
/-- The third hash stands for a piece behind the file. -/
theorem not_searchesEnd_three :
    ∃ tf, @Metainfo.new SubStrings.cut (Metainfo.exactExternals id) [] threeHashes = .done () tf ∧
      Files.Constructed tf.toTorrentFile fiveOpened.val ∧
      ¬ SearchesEnd tf.toTorrentFile fiveOpened := by
  have text : threeHashes.bytes = (fiveBytes 3).encode := StringWrapper.bytes_ofBytes _ _
  have ⟨tf, accepted, size, files, pieces⟩ : ∃ tf,
      @Metainfo.new SubStrings.cut (Metainfo.exactExternals id) [] threeHashes = .done () tf ∧
      tf.pieceSize = 4 ∧ tf.files = [fiveFile] ∧ tf.pieces.val.length = 3 := by
    rw [@Metainfo.new_value SubStrings.cut (Metainfo.exactExternals id) _ _ text]
    exact ⟨_, rfl, rfl, rfl, rfl⟩
  have constructed := fiveBytes_constructed files size
  refine ⟨tf, accepted, constructed, fun all => ?_⟩
  have inside : 2 < tf.pieces.val.length := by
    rw [pieces]
    decide
  have reach := (@OpenFiles.search_accepted_iff SubStrings.cut (Metainfo.exactExternals id)
    _ _ _ _ _ _ accepted constructed 2).1 (all 2 inside _ (PieceList.new_returns inside))
  rw [files, inReach_iff_last (List.cons_ne_nil _ _) ⟨by decide, .singleton _⟩] at reach
  exact absurd reach (by decide)

end TorrentClient
