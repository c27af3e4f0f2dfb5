import Mathlib.Data.List.Forall2
import TorrentClient.InfoDict

/-!
# Torrents of several files

The list of files in the dictionary `info`, from `fill_info` on.
-/

namespace TorrentClient

/-- A dictionary with a list of files. -/
structure InfoDict.Multi (d : InfoDict) (dicts : List FileDict) : Prop where
  files : d.files = some dicts
  nonempty : dicts ≠ []
  length : d.length = none
  md5sum : d.md5sum = none

/-- A dictionary that is read as it should be. -/
structure FileDict.Read (d : FileDict) : Prop where
  walked : d.Walked
  nonneg : 0 ≤ d.length
  md5sum : lastMd5 d.pairs [] = d.md5sum.getD []

/-- The keys `fill_info` does more at than to store a name. -/
def infoKeys : List Bytes :=
  [ascii "files", ascii "length", ascii "md5sum", ascii "piece length", ascii "pieces",
    ascii "private"]

theorem InfoDict.Multi.walked {d : InfoDict} (multi : d.Multi dicts)
    (walked : ∀ f ∈ dicts, f.Walked) :
    ∀ dicts' ∈ d.files, ∀ f ∈ dicts', f.Walked := by
  rw [multi.files]
  rintro _ ⟨⟩
  exact walked

namespace Metainfo

variable {tf tf' : Metainfo} {cursor rest behind : List Lexeme} {dicts : List FileDict}

/-- Where the list of files is left at its end. -/
theorem fillFiles_closes_iff (ne : dicts ≠ []) (one : tf.files = [{}]) :
    (∃ tf', tf.fillFiles (listTokens dicts rest) = .done (.mark .listEnd :: rest) tf') ↔
      ∀ d ∈ dicts, d.Walked := by
  rw [fillFiles_eq ne one]
  constructor
  · rintro ⟨tf', closed⟩
    by_contra stuck
    rcases @filesLoop_astray { tf with files := [] } rest _ stuck with
      ⟨e, tf₁, thrown⟩ | ⟨t, cursor, tf₁, stopped, other, longer⟩
    · rw [thrown] at closed
      cases closed
    · rw [stopped] at closed
      obtain ⟨same, -⟩ := Outcome.done.inj closed
      obtain ⟨-, rfl⟩ := List.cons.inj same
      exact Nat.not_succ_le_self _ longer
  · intro walked
    exact ⟨_, filesLoop_walked walked⟩

/-! ## Behind the list -/

theorem pushPieces_files (slices : List Bytes)
    (room : tf.pieces.val.length + slices.length < 2 ^ 63) :
    ∃ tf', pushPieces (slices.map some) tf = .done () tf' ∧ tf'.files = tf.files := by
  induction slices generalizing tf with
  | nil => exact ⟨tf, rfl, rfl⟩
  | cons slice slices ih =>
    rw [List.length_cons] at room
    have fits : tf.pieces.val.length + 1 < 2 ^ 63 := by omega
    obtain ⟨pieces, pushed, eq⟩ := pushBack_some slice fits
    obtain ⟨tf', done, same⟩ := @ih { tf with pieces := pieces } (by
      rw [eq, List.length_append, List.length_singleton]
      omega)
    rw [List.map_cons, pushPieces, pushed]
    exact ⟨tf', done, same⟩

theorem fillPieces_files [Heap Bytes] {pieces : Bytes} (whole : pieces.length % 20 = 0)
    (granted : Heap.refuses Bytes (pieces.length / 20) = none)
    (room : tf.pieces.val.length + pieces.length < 2 ^ 63) :
    ∃ tf', tf.fillPieces (.leaf .str pieces) rest = .done rest tf' ∧ tf'.files = tf.files := by
  have slices : (Lexeme.leaf .str pieces).slices sha1PieceLength = (slices20 pieces).map some := by
    rw [slices20, List.map_map]
    rfl
  have fits : tf.pieces.val.length + (slices20 pieces).length < 2 ^ 63 := by
    rw [slices20, List.length_map, List.length_range]
    omega
  obtain ⟨tf', done, same⟩ := pushPieces_files _ fits
  refine ⟨tf', ?_, same⟩
  have enough : ¬ (Lexeme.leaf .str pieces).size % sha1PieceLength ≠ 0 := not_not.2 whole
  have room : Heap.refuses Bytes ((Lexeme.leaf .str pieces).size / sha1PieceLength) = none :=
    granted
  rw [fillPieces, if_neg enough, reservePieces_granted room, Outcome.bind_done, slices, done]
  rfl

/-- Pieces that are filled in are whole, and have room. -/
theorem fillPieces_read [Heap Bytes] {pieces : Bytes}
    (filled : tf.fillPieces (.leaf .str pieces) cursor = .done rest tf') :
    pieces.length % 20 = 0 ∧ Heap.refuses Bytes (pieces.length / 20) = none := by
  rw [fillPieces] at filled
  split at filled
  · cases filled
  · rename_i whole
    refine ⟨not_not.1 whole, ?_⟩
    cases room : Heap.refuses Bytes ((Lexeme.leaf .str pieces).size / sha1PieceLength) with
    | none => exact room
    | some e =>
      rw [reservePieces_refused room] at filled
      cases filled

theorem setInfo_free {key : Bytes} {v : Lexeme} (free : key ∉ infoKeys)
    (leaf : v.IsLeaf → v.str ≠ none) :
    ∃ tf', tf.setInfo key v = .done () tf' ∧ tf'.files = tf.files := by
  simp only [infoKeys, List.mem_cons, List.not_mem_nil, or_false, not_or] at free
  obtain ⟨-, length, md5, pieceLength, -, secret⟩ := free
  rw [setInfo, if_neg fun h => pieceLength h.1, if_neg fun h => secret h.1]
  split
  · rename_i name
    obtain ⟨text, eq⟩ := Option.ne_none_iff_exists'.1 (leaf (Or.inr name.2))
    refine ⟨{ tf with dirName := text }, ?_, rfl⟩
    rw [Lexeme.text, eq]
    rfl
  · rw [if_neg fun h => md5 h.1, if_neg fun h => length h.1]
    exact ⟨tf, rfl, rfl⟩

/-! ## The files only grow -/

/-- Each file is still where it was, and its path goes on from what it was. -/
def Grows (tf tf' : Metainfo) : Prop :=
  ∀ (i : Nat) (file : FileInfo), tf.files[i]? = some file →
    ∃ file' : FileInfo, tf'.files[i]? = some file' ∧ file.path <+: file'.path

theorem Grows.of_files {tf tf' : Metainfo} (same : tf'.files = tf.files) : Grows tf tf' := by
  intro i file at_i
  exact ⟨file, by rw [same, at_i], List.prefix_rfl⟩

theorem Grows.trans {tf₁ tf₂ tf₃ : Metainfo} (first : Grows tf₁ tf₂) (second : Grows tf₂ tf₃) :
    Grows tf₁ tf₃ := by
  intro i file at_i
  obtain ⟨file₂, at_i₂, path₂⟩ := first i file at_i
  obtain ⟨file₃, at_i₃, path₃⟩ := second i file₂ at_i₂
  exact ⟨file₃, at_i₃, path₂.trans path₃⟩

theorem grows_push (file : FileInfo) : Grows tf { tf with files := tf.files ++ [file] } := by
  intro i file' at_i
  refine ⟨file', ?_, List.prefix_rfl⟩
  exact List.getElem?_append_left (List.getElem?_eq_some_iff.1 at_i).1 |>.trans at_i

theorem grows_setBack {f : FileInfo → FileInfo} (longer : ∀ file, file.path <+: (f file).path)
    (done : tf.setBack f = .done () tf') : Grows tf tf' := by
  rw [setBack, modifyBack] at done
  cases last : tf.files.getLast? with
  | none =>
    rw [last] at done
    cases done
  | some file =>
    obtain ⟨front, split⟩ := List.getLast?_eq_some_iff.1 last
    rw [last, split, List.dropLast_concat] at done
    cases done
    intro i file' at_i
    rw [split] at at_i
    dsimp only
    by_cases lt : i < front.length
    · rw [List.getElem?_append_left lt] at at_i ⊢
      exact ⟨file', at_i, List.prefix_rfl⟩
    · rw [List.getElem?_append_right (Nat.not_lt.1 lt), List.getElem?_singleton] at at_i ⊢
      split at at_i
      · rename_i first
        cases at_i
        exact ⟨f file, if_pos first, longer file⟩
      · cases at_i

theorem grows_setFirst {f : FileInfo → FileInfo} (longer : ∀ file, file.path <+: (f file).path)
    (done : tf.setFirst f = .done () tf') : Grows tf tf' := by
  rw [setFirst] at done
  cases files : tf.files with
  | nil =>
    rw [files] at done
    cases done
  | cons file files' =>
    rw [files] at done
    cases done
    intro i file' at_i
    rw [files] at at_i
    cases i with
    | zero =>
      cases at_i
      exact ⟨f file, rfl, longer file⟩
    | succ i => exact ⟨file', at_i, List.prefix_rfl⟩

theorem setFile_grows {key : Bytes} {v : Lexeme} (done : tf.setFile key v = .done () tf') :
    Grows tf tf' := by
  unfold setFile at done
  split at done
  · obtain ⟨text, -, set⟩ := Outcome.ofExcept_bind_eq_done done
    exact grows_setBack (f := fun file => { file with md5Sum := text })
      (fun _ => List.prefix_rfl) set
  · split at done
    · obtain ⟨value, -, set⟩ := Outcome.ofExcept_bind_eq_done done
      exact grows_setBack (f := fun file => { file with size := toUInt64 value })
        (fun _ => List.prefix_rfl) set
    · cases done
      exact .of_files rfl

theorem storeFile_grows {key : Bytes} {v : Lexeme}
    (done : tf.storeFile key v cursor = .done rest tf') : Grows tf tf' := by
  unfold storeFile at done
  split at done
  · obtain ⟨⟨path, cursor'⟩, -, later⟩ := Outcome.ofExcept_bind_eq_done done
    obtain ⟨_, set, -⟩ := Outcome.map_eq_done later
    exact grows_setBack (f := fun file => { file with path := file.path ++ path })
      (fun _ => List.prefix_append _ _) set
  · obtain ⟨_, set, -⟩ := Outcome.map_eq_done done
    exact setFile_grows set

theorem fileLoop_grows (done : fileLoop cursor tf = .done rest tf') : Grows tf tf' := by
  induction hn : cursor.length using Nat.strongRecOn generalizing cursor tf with
  | ind n ih =>
    match cursor with
    | [] =>
      rw [fileLoop_nil] at done
      cases done
      exact .of_files rfl
    | t :: cursor =>
      by_cases str : t.type = .str
      · match cursor with
        | [] =>
          rw [fileLoop_last str] at done
          obtain ⟨_, -, later⟩ := Outcome.ofExcept_bind_eq_done done
          cases later
        | v :: cursor =>
          rw [fileLoop_entry str] at done
          obtain ⟨key, -, later⟩ := Outcome.ofExcept_bind_eq_done done
          obtain ⟨behind, tf₁, stored, later⟩ := Outcome.bind_eq_done later
          have shorter := tail_lt_of_suffix (storeFile_suffix stored)
          rw [List.length_cons, List.length_cons] at hn
          exact (storeFile_grows stored).trans (ih behind.tail.length (by omega) later rfl)
      · rw [fileLoop_other str] at done
        cases done
        exact .of_files rfl

theorem filesLoop_grows {firstIter : Bool}
    (done : filesLoop firstIter cursor tf = .done rest tf') : Grows tf tf' := by
  induction hn : cursor.length using Nat.strongRecOn generalizing firstIter cursor tf with
  | ind n ih =>
    cases cursor with
    | nil =>
      rw [filesLoop_nil] at done
      cases done
      exact .of_files rfl
    | cons t cursor =>
      by_cases dict : t.type = .dictStart
      · rw [filesLoop_dict dict] at done
        obtain ⟨behind, tf₁, looped, later⟩ := Outcome.bind_eq_done done
        have shorter := (fileLoop_suffix looped).length_le
        rw [List.length_cons] at hn
        have first :
            Grows tf (if firstIter then tf else { tf with files := tf.files ++ [{}] }) := by
          split
          · exact .of_files rfl
          · exact grows_push {}
        exact (first.trans (fileLoop_grows looped)).trans (ih behind.length (by omega) later rfl)
      · rw [filesLoop_other dict] at done
        cases done
        exact .of_files rfl

theorem setInfo_grows {key : Bytes} {v : Lexeme} (done : tf.setInfo key v = .done () tf') :
    Grows tf tf' := by
  unfold setInfo at done
  split at done
  · obtain ⟨value, -, set⟩ := Outcome.ofExcept_bind_eq_done done
    cases set
    exact .of_files rfl
  split at done
  · obtain ⟨value, -, set⟩ := Outcome.ofExcept_bind_eq_done done
    cases set
    exact .of_files rfl
  split at done
  · obtain ⟨text, -, set⟩ := Outcome.ofExcept_bind_eq_done done
    cases set
    exact .of_files rfl
  split at done
  · obtain ⟨text, -, set⟩ := Outcome.ofExcept_bind_eq_done done
    exact grows_setFirst (f := fun file => { file with md5Sum := text })
      (fun _ => List.prefix_rfl) set
  split at done
  · obtain ⟨value, -, set⟩ := Outcome.ofExcept_bind_eq_done done
    exact grows_setFirst (f := fun file => { file with size := toUInt64 value })
      (fun _ => List.prefix_rfl) set
  · cases done
    exact .of_files rfl

theorem pushPieces_same {slices : List (Option Bytes)}
    (done : pushPieces slices tf = .done () tf') : tf'.files = tf.files := by
  induction slices generalizing tf with
  | nil =>
    cases done
    rfl
  | cons slice slices ih =>
    cases slice with
    | none => cases done
    | some slice =>
      rw [pushPieces] at done
      cases pushed : pushBack tf.pieces slice with
      | none =>
        rw [pushed] at done
        cases done
      | some pieces =>
        rw [pushed] at done
        have kept : tf'.files = ({ tf with pieces := pieces } : Metainfo).files := ih done
        exact kept

theorem storeInfo_grows [Heap Bytes] {key : Bytes} {v : Lexeme}
    (done : tf.storeInfo key v cursor = .done rest tf') : Grows tf tf' := by
  unfold storeInfo fillPieces at done
  split at done
  · split at done
    · cases done
    · obtain ⟨_, tf₁, reserved, later⟩ := Outcome.bind_eq_done done
      obtain ⟨_, pushed, -⟩ := Outcome.map_eq_done later
      have same : tf₁ = tf := by
        rw [← tf.reservePieces_state (v.size / sha1PieceLength), reserved]
        rfl
      exact .of_files (same ▸ pushPieces_same pushed)
  · split at done
    · exact filesLoop_grows done
    · obtain ⟨_, set, -⟩ := Outcome.map_eq_done done
      exact setInfo_grows set

theorem infoLoop_grows [Heap Bytes] (done : infoLoop cursor tf = .done rest tf') :
    Grows tf tf' := by
  induction hn : cursor.length using Nat.strongRecOn generalizing cursor tf with
  | ind n ih =>
    match cursor with
    | [] =>
      rw [infoLoop_nil] at done
      cases done
      exact .of_files rfl
    | t :: cursor =>
      by_cases str : t.type = .str
      · match cursor with
        | [] =>
          rw [infoLoop_last str] at done
          obtain ⟨_, -, later⟩ := Outcome.ofExcept_bind_eq_done done
          cases later
        | v :: cursor =>
          rw [infoLoop_entry str] at done
          obtain ⟨key, -, later⟩ := Outcome.ofExcept_bind_eq_done done
          obtain ⟨behind, tf₁, stored, later⟩ := Outcome.bind_eq_done later
          have shorter := tail_lt_of_suffix (storeInfo_suffix stored)
          rw [List.length_cons, List.length_cons] at hn
          exact (storeInfo_grows stored).trans (ih behind.tail.length (by omega) later rfl)
      · by_cases dictEnd : t.type = .dictEnd
        · rw [infoLoop_end dictEnd] at done
          cases done
          exact .of_files rfl
        · rw [infoLoop_other str dictEnd] at done
          cases done
          exact .of_files rfl

/-! ## The dictionary to its end -/

/-- The tokens behind the dictionary, which are read when the pieces are its last
key, say nothing that `fill_info` acts on. -/
def Quiet (d : InfoDict) (back : List (Bytes × Value)) : Prop :=
  d.pieces = none ∨ d.isPrivate ≠ none ∨ ∀ text ∈ entriesTexts back, text ∉ infoKeys

section
variable [Heap Bytes]

/-- What it takes to read the dictionary without its files. -/
structure RestRead (d : InfoDict) : Prop where
  pieceLength : ∀ z ∈ d.pieceLength, FitsLong z
  whole : ∀ pieces ∈ d.pieces, pieces.length % 20 = 0
  granted : ∀ pieces ∈ d.pieces, Heap.refuses Bytes (pieces.length / 20) = none
  isPrivate : d.pieces = none → ∀ z ∈ d.isPrivate, FitsLong z

omit [Heap Bytes] in
theorem back_lexemes {d : InfoDict} {pieces : Bytes} (some : d.pieces = some pieces) :
    entriesLexemes d.back ++ rest = .leaf .str (ascii "pieces") :: .leaf .str pieces ::
      (entriesLexemes (optionalEntry "private" (d.isPrivate.map .int)) ++ rest) := by
  rw [InfoDict.back, some, entriesLexemes_append]
  rfl

theorem infoLoop_back_files {d : InfoDict} {back : List (Bytes × Value)} (quiet : Quiet d back)
    (read : RestRead d) (ne : tf.files ≠ [])
    (room : ∀ pieces ∈ d.pieces, tf.pieces.val.length + pieces.length < 2 ^ 63) :
    ∃ rest tf', infoLoop (entriesLexemes d.back ++
        .mark .dictEnd :: (entriesLexemes back ++ [.mark .dictEnd])) tf = .done rest tf' ∧
      tf'.files = tf.files := by
  cases pieces : d.pieces with
  | none =>
    refine ⟨_, _, infoLoop_back_none d pieces (read.isPrivate pieces) ne, ?_⟩
    cases d.isPrivate <;> rfl
  | some text =>
    obtain ⟨tf₁, filled, same⟩ := @fillPieces_files tf
      (entriesLexemes (optionalEntry "private" (d.isPrivate.map .int)) ++
        .mark .dictEnd :: (entriesLexemes back ++ [.mark .dictEnd])) _ _
      (read.whole text pieces) (read.granted text pieces) (room text pieces)
    rw [back_lexemes pieces, infoLoop_pieces, filled, Outcome.bind_done]
    cases secret : d.isPrivate with
    | some z => exact ⟨[], tf₁, infoLoop_other nofun nofun, same⟩
    | none =>
      have free : ∀ text ∈ entriesTexts back, text ∉ infoKeys := by
        refine (quiet.resolve_left ?_).resolve_left (not_not.2 secret)
        rw [pieces]
        exact Option.some_ne_none _
      have unread : ∀ t ∈ entriesLexemes back, ∀ text, t.str = some text → text ∉ infoKeys := by
        intro t mem text str
        apply free
        rw [← entriesLexemes_texts]
        exact List.mem_filterMap.2 ⟨t, mem, str⟩
      obtain ⟨rest, tf', looped, same'⟩ := infoLoop_free (f := fun tf => tf.files)
        (by simp [infoKeys]) (fun _ _ _ => setInfo_free) tf₁ (entriesLexemes_leaf back) unread
      exact ⟨rest, tf', looped, same'.trans same⟩

/-- A dictionary that is read to its end could be. -/
theorem infoLoop_back_read {d : InfoDict} {behind : List Lexeme} (ne : tf.files ≠ [])
    (looped : infoLoop (entriesLexemes d.back ++ .mark .dictEnd :: behind) tf = .done rest tf') :
    (∀ pieces ∈ d.pieces, pieces.length % 20 = 0 ∧ Heap.refuses Bytes (pieces.length / 20) = none) ∧
      (d.pieces = none → ∀ z ∈ d.isPrivate, FitsLong z) := by
  cases pieces : d.pieces with
  | none =>
    refine ⟨nofun, fun _ => ?_⟩
    by_contra unfit
    obtain ⟨e, tf₁, thrown⟩ := @infoLoop_back_thrown _ behind _ d pieces unfit ne
    rw [thrown] at looped
    cases looped
  | some text =>
    refine ⟨?_, nofun⟩
    rintro _ ⟨⟩
    rw [back_lexemes pieces, infoLoop_pieces] at looped
    obtain ⟨_, _, filled, -⟩ := Outcome.bind_eq_done looped
    exact fillPieces_read filled

end

/-! ## The files -/

theorem setPaths_several (several : tf.files.length ≠ 1) : tf.setPaths.files =
    tf.files.map fun file => { file with dirName := ascii "/tmp/torrents/" ++ tf.dirName } := by
  rw [setPaths]
  dsimp only
  rw [if_neg several]
  split
  · rename_i file files
    rw [files] at several
    exact absurd rfl several
  · rfl

/-- The path of a single file is made one longer. -/
theorem setPaths_single {d : FileDict} {file : FileInfo} (at_first : tf.files[0]? = some file)
    (path : d.path <+: file.path) : ¬ List.Forall₂ FileInfo.Describes tf.setPaths.files [d] := by
  intro all
  have one : tf.setPaths.files.length = 1 := all.length_eq
  by_cases single : tf.files.length = 1
  · obtain ⟨file', files⟩ := List.length_eq_one_iff.1 single
    rw [files] at at_first
    cases at_first
    rw [setPaths, files] at all
    obtain ⟨⟨-, -, same⟩, -⟩ := List.forall₂_cons.1 all
    have longer := path.length_le
    have lengths : (file.path ++ [tf.dirName]).length = d.path.length := congrArg List.length same
    rw [List.length_append, List.length_singleton] at lengths
    omega
  · rw [setPaths_several single, List.length_map] at one
    exact single one

theorem describes_setPaths (several : dicts.length ≠ 1) (infos : tf.files = dicts.map (·.info)) :
    List.Forall₂ FileInfo.Describes tf.setPaths.files dicts ↔ ∀ d ∈ dicts, d.info.Describes d := by
  have length : tf.files.length ≠ 1 := by rwa [infos, List.length_map]
  rw [setPaths_several length, infos, List.map_map, List.forall₂_map_left_iff, List.forall₂_same]
  exact Iff.rfl

/-! ## The whole dictionary -/

variable {d : InfoDict}

theorem atPieces_files (multi : d.Multi dicts) :
    (atPieces d tf).files = dicts.map (·.info) ∧ (atPieces d tf).pieces = tf.pieces := by
  have files : filesOf d = dicts.map (·.info) := by
    rw [filesOf, multi.files]
    cases dicts with
    | nil => exact absurd rfl multi.nonempty
    | cons f dicts => rfl
  simp only [atPieces, middleOf, multi.length, multi.md5sum, Function.comp]
  cases d.pieceLength <;> cases d.name <;> exact ⟨files, rfl⟩

section
variable [Heap Bytes]

theorem fillInfo_multi (multi : d.Multi dicts) (walked : ∀ f ∈ dicts, f.Walked)
    (fits : ∀ z ∈ d.pieceLength, FitsLong z) (fresh : tf.files = []) :
    fillInfo.run (infoLexemes d behind) tf =
      (infoLoop (entriesLexemes d.back ++ .mark .dictEnd :: behind)
        (atPieces d { tf with files := [{}] })).bind fun rest tf => .done rest tf.setPaths := by
  have middle : MiddleFits d := by
    refine ⟨?_, fits⟩
    rw [multi.length]
    nofun
  rw [fillInfo_lexemes d behind fresh]
  exact congrArg (fun o => Outcome.bind o _) (infoLoop_front d (multi.walked walked) middle rfl).1

/-- `fill_info` ends with the files of the dictionaries, each as its own describes it. -/
def FilesTaken (d : InfoDict) (dicts : List FileDict) (behind : List Lexeme) (tf : Metainfo) :
    Prop :=
  ∃ rest tf', fillInfo.run (infoLexemes d behind) tf = .done rest tf' ∧
    List.Forall₂ FileInfo.Describes tf'.files dicts

/-- A dictionary whose files are taken in could be read, and has several files. -/
theorem FilesTaken.read (multi : d.Multi dicts) (walked : ∀ f ∈ dicts, f.Walked)
    (fresh : tf.files = []) (files : FilesTaken d dicts behind tf) :
    2 ≤ dicts.length ∧ RestRead d := by
  obtain ⟨rest, tf', run, described⟩ := files
  have fits : ∀ z ∈ d.pieceLength, FitsLong z := by
    by_contra unfit
    rw [fillInfo_lexemes d behind fresh, InfoDict.front, entriesLexemes_append,
      List.append_assoc, infoLoop_files d (multi.walked walked) rfl] at run
    obtain ⟨e, tf₁, thrown⟩ := (sets_middle d).throws
      { tf with files := filesOf d } (entriesLexemes d.back ++ .mark .dictEnd :: behind)
      (filesOf_ne d) fun middle => unfit middle.2
    rw [thrown] at run
    cases run
  rw [fillInfo_multi multi walked fits fresh] at run
  obtain ⟨behind', tf₁, looped, last⟩ := Outcome.bind_eq_done run
  cases last
  have infos := (@atPieces_files { tf with files := [{}] } _ _ multi).1
  have some : (atPieces d { tf with files := [{}] }).files ≠ [] := by
    rw [infos]
    exact mt List.map_eq_nil_iff.1 multi.nonempty
  obtain ⟨pieces, secret⟩ := infoLoop_back_read some looped
  refine ⟨?_, fits, fun text mem => (pieces text mem).1, fun text mem => (pieces text mem).2,
    secret⟩
  by_contra short
  have one : dicts.length = 1 := by
    have := List.length_pos_iff.2 multi.nonempty
    omega
  obtain ⟨f, rfl⟩ := List.length_eq_one_iff.1 one
  obtain ⟨file, at_first, path⟩ := infoLoop_grows looped 0 f.info (by rw [infos]; rfl)
  rw [f.info_path] at path
  exact setPaths_single at_first path described

/-- Where nothing that is read behind the dictionary gets in the way. -/
theorem filesTaken_iff (multi : d.Multi dicts) (walked : ∀ f ∈ dicts, f.Walked)
    (fresh : tf.files = []) {back : List (Bytes × Value)} (quiet : Quiet d back)
    (room : ∀ pieces ∈ d.pieces, tf.pieces.val.length + pieces.length < 2 ^ 63) :
    FilesTaken d dicts (entriesLexemes back ++ [.mark .dictEnd]) tf ↔
      (2 ≤ dicts.length ∧ RestRead d) ∧ ∀ f ∈ dicts, f.info.Describes f := by
  have infos := @atPieces_files { tf with files := [{}] } _ _ multi
  have some : (atPieces d { tf with files := [{}] }).files ≠ [] := by
    rw [infos.1]
    exact mt List.map_eq_nil_iff.1 multi.nonempty
  have ended (read : RestRead d) := infoLoop_back_files quiet read some (by rwa [infos.2])
  constructor
  · intro files
    obtain ⟨several, read⟩ := files.read multi walked fresh
    refine ⟨⟨several, read⟩, ?_⟩
    obtain ⟨rest, tf', run, described⟩ := files
    obtain ⟨rest', tf₁, looped, same⟩ := ended read
    rw [fillInfo_multi multi walked read.pieceLength fresh, looped] at run
    cases run
    exact (describes_setPaths (by omega) (same.trans infos.1)).1 described
  · rintro ⟨⟨several, read⟩, described⟩
    obtain ⟨rest, tf', looped, same⟩ := ended read
    refine ⟨rest, tf'.setPaths, ?_,
      (describes_setPaths (by omega) (same.trans infos.1)).2 described⟩
    rw [fillInfo_multi multi walked read.pieceLength fresh, looped]
    rfl

end

theorem bares_drop (n : Nat) (cursor : List Lexeme) :
    bares (cursor.drop n) = (bares cursor).drop n := List.map_drop

theorem str_le_encode {key body : Bytes} {entries : List (Bytes × Value)}
    (mem : (key, Value.str body) ∈ entries) : body.length ≤ (encodeEntries entries).length := by
  induction entries with
  | nil => cases mem
  | cons entry entries ih =>
    obtain ⟨key', v⟩ := entry
    simp only [encodeEntries, List.length_append]
    cases List.mem_cons.1 mem with
    | inl eq =>
      cases eq
      simp only [Value.encode, encodeString, List.length_append, List.length_cons]
      omega
    | inr mem =>
      have := ih mem
      omega

/-- The list of files is the first value of the dictionary. -/
theorem infoLexemes_drop (multi : d.Multi dicts) (behind : List Lexeme) :
    ∃ rest, (infoLexemes d behind).drop 4 = listTokens dicts rest := by
  obtain ⟨entries, eq⟩ : ∃ entries,
      d.entries = (ascii "files", Value.list (dicts.map (·.value))) :: entries := by
    rw [InfoDict.entries, InfoDict.front, multi.files]
    exact ⟨_, rfl⟩
  refine ⟨entriesLexemes entries ++ .mark .dictEnd :: behind, ?_⟩
  rw [infoLexemes, eq, listTokens]
  simp only [entriesLexemes, Value.lexemes, List.cons_append, List.nil_append, List.append_assoc,
    List.drop_succ_cons, List.drop_zero]

/-! ## In a torrent file -/

section
variable [SubStrings] {source : StringWrapper} {front back : List (Bytes × Value)}

/-- `fill_files` is left at the token that ends the list, behind the tokens of its
dictionaries, and `fill_info` ends with the files that they describe. -/
structure FilesRight [Heap Bytes] (dicts : List FileDict) (source : StringWrapper)
    (cursor : List BeToken) (tf : Metainfo) : Prop where
  closes : ∃ t rest tf',
    cursor.drop (4 + (valuesLexemes (dicts.map (·.value))).length) = t :: rest ∧
      t.type = .listEnd ∧
      fillFiles ((cursor.drop 4).map (·.on source)) { tf with files := [{}] } =
        .done ((t :: rest).map (·.on source)) tf'
  files : ∃ rest tf', fillInfo.run (cursor.map (·.on source)) tf = .done rest tf' ∧
    List.Forall₂ FileInfo.Describes tf'.files dicts

/-- The tokens behind the start of the list of files. -/
theorem fillFiles_closes (multi : d.Multi dicts)
    (text : source.bytes = (torrent front d.entries back).encode) {cursor : List BeToken}
    (parsed : BeParser.parse source = .ok (frontTokens front ++ cursor)) :
    (∃ t rest tf',
      cursor.drop (4 + (valuesLexemes (dicts.map (·.value))).length) = t :: rest ∧
        t.type = .listEnd ∧
        fillFiles ((cursor.drop 4).map (·.on source)) { tf with files := [{}] } =
          .done ((t :: rest).map (·.on source)) tf') ↔ ∀ f ∈ dicts, f.Walked := by
  obtain ⟨rest, list⟩ := infoLexemes_drop multi (entriesLexemes back ++ [.mark .dictEnd])
  rw [← bares_torrent d text parsed, ← bares_drop, ← List.map_drop] at list
  have closing : bares ((cursor.drop (4 + (valuesLexemes (dicts.map (·.value))).length)).map
      (·.on source)) = .mark .listEnd :: rest := by
    rw [← List.drop_drop, List.map_drop, bares_drop, list, listTokens, List.drop_left]
  rw [← @fillFiles_closes_iff { tf with files := [{}] } rest _ multi.nonempty rfl,
    ← list, ← closing]
  have suffix : (cursor.drop (4 + (valuesLexemes (dicts.map (·.value))).length)).map
      (·.on source) <:+ (cursor.drop 4).map (·.on source) := by
    rw [← List.drop_drop]
    exact (List.drop_suffix _ _).map _
  simp only [fillFiles_done_iff suffix]
  constructor
  · rintro ⟨t, behind, tf', same, -, run⟩
    rw [same]
    exact ⟨tf', run⟩
  · rintro ⟨tf', run⟩
    cases same : cursor.drop (4 + (valuesLexemes (dicts.map (·.value))).length) with
    | nil =>
      rw [same] at closing
      cases closing
    | cons t behind =>
      rw [same] at closing run
      obtain ⟨first, -⟩ := List.cons.inj closing
      have type := congrArg Lexeme.type first
      rw [Lexeme.bare_type] at type
      exact ⟨t, behind, tf', rfl, type, run⟩

/-- **When the list of files is taken in.** -/
theorem filesRight_iff [Heap Bytes] (multi : d.Multi dicts)
    (text : source.bytes = (torrent front d.entries back).encode) {cursor : List BeToken}
    (parsed : BeParser.parse source = .ok (frontTokens front ++ cursor))
    (fresh : tf.files = [] ∧ tf.pieces.val = []) :
    (FilesRight dicts source cursor tf →
      2 ≤ dicts.length ∧ (∀ f ∈ dicts, f.Walked) ∧ RestRead d) ∧
    (Quiet d back → (FilesRight dicts source cursor tf ↔
      2 ≤ dicts.length ∧ (∀ f ∈ dicts, f.Read) ∧ RestRead d)) := by
  have closes := @fillFiles_closes tf _ _ _ _ _ _ multi text _ parsed
  have files : (∃ rest tf', fillInfo.run (cursor.map (·.on source)) tf = .done rest tf' ∧
      List.Forall₂ FileInfo.Describes tf'.files dicts) ↔
        FilesTaken d dicts (entriesLexemes back ++ [.mark .dictEnd]) tf := by
    rw [FilesTaken, ← bares_torrent d text parsed, fillInfo_bare]
    constructor
    · rintro ⟨rest, tf', run, described⟩
      rw [run]
      exact ⟨_, tf', rfl, described⟩
    · rintro ⟨rest, tf', run, described⟩
      obtain ⟨rest', run', -⟩ := Outcome.map_eq_done run
      exact ⟨rest', tf', run', described⟩
  constructor
  · intro right
    have walked := closes.1 right.closes
    obtain ⟨several, read⟩ := (files.1 right.files).read multi walked fresh.1
    exact ⟨several, walked, read⟩
  · intro quiet
    have room : ∀ pieces ∈ d.pieces, tf.pieces.val.length + pieces.length < 2 ^ 63 := by
      intro pieces mem
      have le : pieces.length ≤ (encodeEntries d.entries).length := by
        apply @str_le_encode (ascii "pieces")
        rw [InfoDict.entries, InfoDict.back, Option.mem_def.1 mem]
        simp [optionalEntry]
      have small := source.small
      rw [← source.bytes_length, text] at small
      simp only [torrent, Value.encode, encodeEntries_append, encodeEntries, List.length_cons,
        List.length_append] at small
      rw [fresh.2, List.length_nil]
      omega
    have described (walked : ∀ f ∈ dicts, f.Walked) :=
      filesTaken_iff multi walked fresh.1 quiet room
    constructor
    · intro right
      have walked := closes.1 right.closes
      obtain ⟨⟨several, read⟩, each⟩ := (described walked).1 (files.1 right.files)
      refine ⟨several, fun f mem => ?_, read⟩
      obtain ⟨nonneg, md5sum⟩ := (f.describes_iff (walked f mem)).1 (each f mem)
      exact ⟨walked f mem, nonneg, md5sum⟩
    · rintro ⟨several, each, read⟩
      have walked : ∀ f ∈ dicts, f.Walked := fun f mem => (each f mem).walked
      refine ⟨closes.2 walked, files.2 ((described walked).2 ⟨⟨several, read⟩, ?_⟩)⟩
      intro f mem
      exact (f.describes_iff (walked f mem)).2 ⟨(each f mem).nonneg, (each f mem).md5sum⟩

end

/-- A file of seven bytes, with its path once more behind it or without. -/
def sevenBytes (again : Bool) : FileDict where
  front := [(ascii "length", .int 7)]
  path := [ascii "a"]
  back := if again then [(ascii "path.utf-8", .texts [ascii "a"])] else []
  length := 7
  md5sum := none
  sorted := by cases again <;> decide
  length_mem := List.mem_cons_self
  md5sum_mem v := by simp [ascii]

def twoFiles (again : Bool) : InfoDict where
  files := some [sevenBytes again, sevenBytes again]
  name := some (ascii "d")
  pieceLength := some 8
  pieces := some (List.replicate 20 7)
  isPrivate := some 1

set_option maxRecDepth 2000 in
def twoFilesSource (again : Bool) : StringWrapper :=
  .ofBytes (torrent [] (twoFiles again).entries []).encode (by cases again <;> decide)

theorem twoFiles_multi (again : Bool) :
    (twoFiles again).Multi [sevenBytes again, sevenBytes again] :=
  ⟨rfl, List.cons_ne_nil _ _, rfl, rfl⟩

theorem twoFiles_parsed (again : Bool) : BeParser.parse (twoFilesSource again) =
    .ok (frontTokens [] ++ keyTokens [] (twoFiles again).entries []) := by
  have text : (twoFilesSource again).bytes = (torrent [] (twoFiles again).entries []).encode :=
    StringWrapper.bytes_ofBytes _ _
  rw [BeParser.parse_value text, torrent_tokens]
  rfl

theorem filesRight_twoFiles :
    @FilesRight SubStrings.cut stringHeap [sevenBytes false, sevenBytes false]
      (twoFilesSource false) (keyTokens [] (twoFiles false).entries []) (opened []) := by
  have read : (sevenBytes false).Read := by
    refine ⟨⟨?_, nofun, by decide⟩, by decide, rfl⟩
    intro key bodies mem
    cases List.mem_singleton.1 mem
  refine ((@filesRight_iff _ _ (twoFiles false) SubStrings.cut _ _ _ stringHeap
    (twoFiles_multi false) (StringWrapper.bytes_ofBytes _ _) _ (twoFiles_parsed false)
    ⟨rfl, rfl⟩).2
      (Or.inr (Or.inl (Option.some_ne_none _)))).2 ⟨Nat.le_refl _, ?_, ?_⟩
  · simp [read]
  · refine @RestRead.mk stringHeap _ ?_ ?_ ?_ nofun
    · rintro _ ⟨⟩
      decide
    · rintro _ ⟨⟩
      decide
    · rintro _ ⟨⟩
      decide

/-- A list behind the path ends the reading. -/
theorem not_filesRight_again :
    ¬ @FilesRight SubStrings.cut stringHeap [sevenBytes true, sevenBytes true] (twoFilesSource true)
      (keyTokens [] (twoFiles true).entries []) (opened []) := by
  rintro ⟨closes, -⟩
  have walked := (@fillFiles_closes _ _ (twoFiles true) SubStrings.cut _ _ _ (twoFiles_multi true)
    (StringWrapper.bytes_ofBytes _ _) _ (twoFiles_parsed true)).1 closes
  obtain ⟨body, eq⟩ := (walked _ List.mem_cons_self).strings _ List.mem_cons_self
  cases eq

end Metainfo

end TorrentClient
