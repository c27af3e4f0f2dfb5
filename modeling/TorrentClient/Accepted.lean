import TorrentClient.MetainfoSafety
import TorrentClient.PieceSizes

/-!
# Torrent files that are accepted

What the constructor has checked when it returns: there are pieces and files, and the files
are laid out one behind the other.
-/

namespace TorrentClient

/-! ## The layout -/

/-- The piece indices never decrease along the files, as they do where one wraps. -/
structure Ascending (files : List FileInfo) : Prop where
  inside : ∀ file ∈ files, file.firstPiece.index ≤ file.lastPiece.index
  between : files.IsChain fun file next => file.lastPiece.index ≤ next.firstPiece.index

/-- The index of the piece the last file ends in. -/
def lastPieceIndex (files : List FileInfo) : Nat :=
  files.getLast?.elim 0 fun file => file.lastPiece.index

/-- A file starts in the piece the one before it ends in, or in the next one. -/
def Next (file next : FileInfo) : Prop :=
  next.firstPiece.index = file.lastPiece.index ∨
    next.firstPiece.index = add64 file.lastPiece.index 1

theorem layFiles_next (pieceSize : Nat) (files : List FileInfo) :
    ∀ pieceIndex offset, (layFiles pieceSize pieceIndex offset files).IsChain Next ∧
      ∀ file ∈ (layFiles pieceSize pieceIndex offset files).head?,
        file.firstPiece.index = pieceIndex := by
  induction files with
  | nil => exact fun _ _ => ⟨.nil, by rintro _ ⟨⟩⟩
  | cons file files ih =>
    intro pieceIndex offset
    obtain ⟨chain, first⟩ := ih _ ((add64 offset file.size) % pieceSize)
    refine ⟨List.isChain_cons.2 ⟨?_, chain⟩, by rintro _ ⟨⟩; rfl⟩
    intro next mem
    rw [Next, first next mem]
    dsimp only
    split
    · exact Or.inr rfl
    · exact Or.inl rfl

/-- A file starts at most one piece behind the one before it, also where its index wraps. -/
theorem next_le {files : List FileInfo} (chain : files.IsChain Next) {i : Nat}
    (inside : i + 1 < files.length) :
    files[i + 1].firstPiece.index ≤ files[i].lastPiece.index + 1 := by
  rcases List.isChain_iff_getElem.1 chain i inside with same | next
  · omega
  · rw [next, add64]
    exact Nat.mod_le _ _

theorem layFiles_ne_nil {pieceSize pieceIndex offset : Nat} {files : List FileInfo}
    (some : files ≠ []) : layFiles pieceSize pieceIndex offset files ≠ [] := by
  cases files with
  | nil => exact absurd rfl some
  | cons file files => exact List.cons_ne_nil _ _

/-- While no index wraps the files are in order, and they reach over all their bytes. -/
theorem layFiles_reaches {pieceSize : Nat} (pos : 0 < pieceSize) (files : List FileInfo) :
    ∀ {pieceIndex offset : Nat}, pieceIndex + (offset + total files) + files.length < 2 ^ 64 →
      Ascending (layFiles pieceSize pieceIndex offset files) ∧ (files ≠ [] →
        pieceIndex + (offset + total files) / pieceSize ≤
          lastPieceIndex (layFiles pieceSize pieceIndex offset files)) := by
  induction files with
  | nil =>
    intro _ _ _
    exact ⟨⟨by rintro _ ⟨⟩, .nil⟩, fun some => absurd rfl some⟩
  | cons file files ih =>
    intro pieceIndex offset bound
    rw [total_cons, List.length_cons] at bound
    have reached : add64 offset file.size = offset + file.size := add64_eq (by omega)
    have divided := Nat.div_add_mod (offset + file.size) pieceSize
    have pieces := Nat.le_mul_of_pos_left ((offset + file.size) / pieceSize) pos
    have last : add64 pieceIndex ((offset + file.size) / pieceSize) =
        pieceIndex + (offset + file.size) / pieceSize := add64_eq (by omega)
    have whole : (offset + (file.size + total files)) / pieceSize =
        (offset + file.size) / pieceSize +
          ((offset + file.size) % pieceSize + total files) / pieceSize := by
      rw [← Nat.add_assoc, ← Nat.mul_add_div pos, ← Nat.add_assoc, divided]
    have short := Nat.mod_lt (offset + file.size) pos
    have next : add64 (pieceIndex + (offset + file.size) / pieceSize) 1 =
        pieceIndex + (offset + file.size) / pieceSize + 1 := add64_eq (by omega)
    rw [layFiles, total_cons, whole, reached, last, next]
    generalize (offset + file.size) / pieceSize = count at *
    generalize (offset + file.size) % pieceSize = rest at *
    generalize follows : (if rest = 0 then pieceIndex + count + 1 else pieceIndex + count) = index
    have after : pieceIndex + count ≤ index ∧ index ≤ pieceIndex + count + 1 := by
      split at follows <;> omega
    obtain ⟨ascending, behind⟩ := @ih index rest (by omega)
    obtain ⟨-, first⟩ := layFiles_next pieceSize files index rest
    refine ⟨⟨List.forall_mem_cons.2 ⟨Nat.le_add_right _ _, ascending.inside⟩,
      List.isChain_cons.2 ⟨fun file mem => ?_, ascending.between⟩⟩, fun _ => ?_⟩
    · rw [first file mem]
      exact after.1
    · cases files with
      | nil =>
        rw [total_nil, Nat.add_zero, Nat.div_eq_of_lt short]
        exact Nat.le_refl _
      | cons g files =>
        have reaches := behind (List.cons_ne_nil _ _)
        rw [layFiles, lastPieceIndex] at reaches
        rw [layFiles, lastPieceIndex, List.getLast?_cons_cons]
        omega

/-! ## An accepted file -/

namespace Metainfo

theorem fillPieceOffsets_done {tf tf' : TorrentFile} (done : tf.fillPieceOffsets = .done () tf') :
    tf.pieces.val ≠ [] ∧ tf'.pieces = tf.pieces ∧ tf'.pieceSize ≠ 0 ∧
      tf'.files = layFiles tf'.pieceSize 0 0 tf.files := by
  rw [TorrentFile.fillPieceOffsets] at done
  by_cases zero : tf.files ≠ [] ∧ tf.pieceSize = 0
  · rw [if_pos zero] at done
    cases done
  · rw [if_neg zero] at done
    dsimp only at done
    split at done
    · cases done
    · rename_i some
      split at done
      · cases done
      · rename_i size
        cases done
        exact ⟨some, rfl, size, rfl⟩

/-- A torrent file that is accepted has pieces, and files that are laid out. -/
theorem new_done [SubStrings] [Externals] {path : Bytes} {source : StringWrapper}
    {tf : Metainfo} (accepted : new path source = .done () tf) :
    tf.pieces.val ≠ [] ∧ tf.pieceSize ≠ 0 ∧
      ∃ files, files ≠ [] ∧ tf.files = layFiles tf.pieceSize 0 0 files := by
  obtain ⟨tokens, parsed, later⟩ := Outcome.ofExcept_bind_eq_done accepted
  obtain ⟨_, read, processed, later⟩ := Outcome.bind_eq_done later
  obtain ⟨_, hashed, calculated, later⟩ := Outcome.bind_eq_done later
  have sound : read.files = [] → read.pieces.val = [] := by
    have passes : outline.Passes (tokens.map (·.on source)) start := by
      by_contra throws
      obtain ⟨e, tf', thrown⟩ := @processLoop_thrown _ _ path throws
      rw [thrown] at processed
      cases processed
    have ends : ¬ Awaits (outline.after (tokens.map (·.on source)) start).mode := by
      intro awaits
      apply @processLoop_awaits _ _ path passes awaits
      rw [processed]
      exact Outcome.safe_done
    obtain ⟨tf', run, -, sound⟩ := @processLoop_passes _ _ path passes ends
    rw [processed] at run
    cases run
    intro none
    exact List.length_eq_zero_iff.1 (sound (extent_files.2 none))
  obtain ⟨tf', calculated', same⟩ :=
    @calculateInfoSha1_hashes read _ _ _ _ (hashes_of_done calculated)
  rw [calculated] at calculated'
  cases calculated'
  obtain ⟨laid, layout, rfl⟩ := Outcome.lift_eq_done later
  obtain ⟨some, pieces, size, files⟩ := fillPieceOffsets_done layout
  refine ⟨pieces ▸ some, size, hashed.files, ?_, files⟩
  intro none
  have fewer : read.files = [] := extent_files.1 (same ▸ extent_files.2 none)
  have lengths := congrArg Extent.pieces same
  change hashed.pieces.val.length = read.pieces.val.length at lengths
  rw [sound fewer] at lengths
  exact some (List.length_eq_zero_iff.1 lengths)

end Metainfo

theorem Metainfo.new_value [SubStrings] [Externals] {value : Value} {source : StringWrapper}
    (text : source.bytes = value.encode) : Metainfo.new [] source =
      (Metainfo.metainfoReader.reader.complete
        ((valuesTokens [value] 0).map (·.on source)) none (Metainfo.opened [])).bind
        fun _ tf => (tf.calculateInfoSha1 (valuesTokens [value] 0) source).bind
          fun _ tf => tf.toTorrentFile.fillPieceOffsets.lift
            fun layout => { tf with toTorrentFile := layout } := by
  rw [Metainfo.new, BeParser.parse_value text, Outcome.ofExcept_ok, Outcome.bind_done,
    Metainfo.processLoop_fillers]

end TorrentClient
