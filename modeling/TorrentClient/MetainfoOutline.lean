import TorrentClient.Base.Outline
import TorrentClient.MetainfoReader

/-!
# The outline of a torrent file

How far the fillers get depends on the tokens and on how much there is of the
object: whether there is a file, how many pieces, and the piece size.
-/

namespace TorrentClient.Metainfo

variable {tf : Metainfo} {key : Bytes} {t : Lexeme}

/-! ## How much there is of an object -/

structure Extent where
  pieces : Nat
  files : Nat
  pieceSize : Nat

def extent (tf : Metainfo) : Extent := ⟨tf.pieces.val.length, tf.files.length, tf.pieceSize⟩

theorem extent_files : tf.extent.files = 0 ↔ tf.files = [] := List.length_eq_zero_iff

theorem setBack_extent (f : FileInfo → FileInfo) (some : tf.files ≠ []) :
    ∃ tf', tf.setBack f = .done () tf' ∧ tf'.extent = tf.extent := by
  obtain ⟨front, last, eq⟩ := (List.eq_nil_or_concat' tf.files).resolve_left some
  refine ⟨{ tf with files := front ++ [f last] }, ?_, ?_⟩
  · rw [setBack, modifyBack, eq, List.getLast?_concat, Option.map_some, List.dropLast_concat]
  · rw [extent, extent, eq, List.length_append, List.length_append, List.length_singleton,
      List.length_singleton]

theorem setFirst_extent (f : FileInfo → FileInfo) (some : tf.files ≠ []) :
    ∃ tf', tf.setFirst f = .done () tf' ∧ tf'.extent = tf.extent := by
  refine ⟨_, setFirst_some f some, ?_⟩
  rw [extent, extent, List.length_modifyHead]

theorem setPaths_extent (tf : Metainfo) : tf.setPaths.extent = tf.extent := by
  have length : tf.setPaths.files.length = tf.files.length := by
    rw [setPaths, List.length_map]
    split
    · rename_i one
      rw [one]
      rfl
    · rfl
  rw [extent, extent, length]
  rfl

/-! ## Values that throw -/

theorem ofExcept_integer (bad : ∀ n, t.integer ≠ .ok n) {α : Type}
    (f : Int → Metainfo → Outcome Thrown Metainfo α) :
    ∃ e, (Outcome.ofExcept t.integer tf).bind f = .thrown e tf := by
  cases number : t.integer with
  | error e => exact ⟨e, rfl⟩
  | ok n => exact absurd number (bad n)

/-- The value of a key of a file that throws. -/
def FileThrows (key : Bytes) (t : Lexeme) : Prop :=
  key = ascii "md5sum" ∧ t.type = .str ∧ t.str = none ∨
    key = ascii "length" ∧ t.type = .int ∧ ∀ n, t.integer ≠ .ok n

theorem setFile_thrown (throws : FileThrows key t) : ∃ e, tf.setFile key t = .thrown e tf := by
  rcases throws with ⟨rfl, str, unread⟩ | ⟨rfl, int, bad⟩
  · rw [setFile, if_pos ⟨rfl, str⟩, ofExcept_text, unread]
    exact ⟨_, rfl⟩
  · rw [setFile, if_neg (by simp [ascii]), if_pos ⟨rfl, int⟩]
    exact ofExcept_integer bad _

theorem setFile_done (taken : ¬ FileThrows key t) (some : tf.files ≠ []) :
    ∃ tf', tf.setFile key t = .done () tf' ∧ tf'.extent = tf.extent := by
  rw [setFile]
  split
  · rename_i md5
    rw [ofExcept_text]
    cases text : t.str with
    | none => exact absurd (Or.inl ⟨md5.1, md5.2, text⟩) taken
    | some text => exact setBack_extent _ some
  · split
    · rename_i length
      cases number : t.integer with
      | error e =>
        refine absurd (Or.inr ⟨length.1, length.2, fun n h => ?_⟩) taken
        rw [number] at h
        cases h
      | ok n => exact setBack_extent _ some
    · exact ⟨tf, rfl, rfl⟩

theorem pushPieces_thrown {slices : List (Option Bytes)}
    (throws : none ∈ slices ∨ 2 ^ 63 ≤ tf.pieces.val.length + slices.length) :
    ∃ e tf', pushPieces slices tf = .thrown e tf' := by
  induction slices generalizing tf with
  | nil =>
    have small := tf.pieces.property
    simp only [List.not_mem_nil, List.length_nil, false_or] at throws
    omega
  | cons slice slices ih =>
    cases slice with
    | none => exact ⟨_, _, rfl⟩
    | some piece =>
      rw [pushPieces]
      by_cases fits : tf.pieces.val.length + 1 < 2 ^ 63
      · obtain ⟨pieces, pushed, eq⟩ := pushBack_some piece fits
        rw [pushed]
        apply ih
        rw [eq, List.length_append, List.length_singleton]
        rw [List.mem_cons, List.length_cons] at throws
        exact throws.imp (fun mem => mem.resolve_left nofun) fun full => by omega
      · have full : pushBack tf.pieces piece = none := dif_neg fits
        rw [full]
        exact ⟨_, _, rfl⟩

theorem pushPieces_done {slices : List (Option Bytes)} (readable : none ∉ slices)
    (room : tf.pieces.val.length + slices.length < 2 ^ 63) :
    ∃ tf', pushPieces slices tf = .done () tf' ∧ tf'.files = tf.files ∧
      tf'.extent = ⟨tf.pieces.val.length + slices.length, tf.files.length, tf.pieceSize⟩ := by
  induction slices generalizing tf with
  | nil => exact ⟨tf, rfl, rfl, rfl⟩
  | cons slice slices ih =>
    cases slice with
    | none => exact absurd List.mem_cons_self readable
    | some piece =>
      rw [List.length_cons] at room
      have fits : tf.pieces.val.length + 1 < 2 ^ 63 := by omega
      obtain ⟨pieces, pushed, eq⟩ := pushBack_some piece fits
      have length : pieces.val.length = tf.pieces.val.length + 1 := by
        rw [eq, List.length_append, List.length_singleton]
      obtain ⟨tf', done, files, same⟩ := @ih { tf with pieces := pieces }
        (fun mem => readable (List.mem_cons_of_mem _ mem)) (by dsimp only; omega)
      rw [pushPieces, pushed]
      refine ⟨tf', done, files, ?_⟩
      rw [same, length, List.length_cons, Nat.add_right_comm, Nat.add_assoc]

/-- Pieces that throw, where there are some already. -/
def PiecesThrow [Heap Bytes] (t : Lexeme) (pieces : Nat) : Prop :=
  t.size % sha1PieceLength ≠ 0 ∨ Heap.refuses Bytes (t.size / sha1PieceLength) ≠ none ∨
    none ∈ t.slices sha1PieceLength ∨ 2 ^ 63 ≤ pieces + (t.slices sha1PieceLength).length

theorem fillPieces_thrown [Heap Bytes] {cursor : List Lexeme}
    (throws : PiecesThrow t tf.pieces.val.length) :
    ∃ e tf', tf.fillPieces t cursor = .thrown e tf' := by
  rw [fillPieces]
  by_cases broken : t.size % sha1PieceLength ≠ 0
  · rw [if_pos broken]
    exact ⟨_, _, rfl⟩
  · rw [if_neg broken]
    cases room : Heap.refuses Bytes (t.size / sha1PieceLength) with
    | some e =>
      rw [reservePieces_refused room]
      exact ⟨e, tf, rfl⟩
    | none =>
      obtain ⟨e, tf', thrown⟩ :=
        pushPieces_thrown ((throws.resolve_left broken).resolve_left (not_not.2 room))
      rw [reservePieces_granted room, Outcome.bind_done, thrown]
      exact ⟨e, tf', rfl⟩

theorem fillPieces_done [Heap Bytes] {cursor : List Lexeme}
    (taken : ¬ PiecesThrow t tf.pieces.val.length) :
    ∃ tf', tf.fillPieces t cursor = .done cursor tf' ∧
      tf'.extent = ⟨tf.pieces.val.length + (t.slices sha1PieceLength).length, tf.files.length,
        tf.pieceSize⟩ := by
  obtain ⟨whole, taken⟩ := not_or.1 taken
  obtain ⟨granted, taken⟩ := not_or.1 taken
  obtain ⟨readable, room⟩ := not_or.1 taken
  obtain ⟨tf', done, -, same⟩ := pushPieces_done readable (Nat.not_le.1 room)
  rw [fillPieces, if_neg whole, reservePieces_granted (not_not.1 granted), Outcome.bind_done, done]
  exact ⟨tf', rfl, same⟩

/-- The value of a key of `info`, but for the pieces and the files, that throws. -/
def InfoThrows (key : Bytes) (t : Lexeme) : Prop :=
  t.type = .str ∧ t.str = none ∧ (key = ascii "name" ∨ key = ascii "md5sum") ∨
    t.type = .int ∧ (∀ n, t.integer ≠ .ok n) ∧
      (key = ascii "piece length" ∨ key = ascii "private" ∨ key = ascii "length")

theorem setInfo_thrown (throws : InfoThrows key t) : ∃ e, tf.setInfo key t = .thrown e tf := by
  rcases throws with ⟨str, unread, rfl | rfl⟩ | ⟨int, bad, rfl | rfl | rfl⟩
  · rw [setInfo, if_neg (by simp [ascii]), if_neg (by simp [ascii]), if_pos ⟨rfl, str⟩,
      ofExcept_text, unread]
    exact ⟨_, rfl⟩
  · rw [setInfo, if_neg (by simp [ascii]), if_neg (by simp [ascii]), if_neg (by simp [ascii]),
      if_pos ⟨rfl, str⟩, ofExcept_text, unread]
    exact ⟨_, rfl⟩
  · rw [setInfo, if_pos ⟨rfl, int⟩]
    exact ofExcept_integer bad _
  · rw [setInfo, if_neg (by simp [ascii]), if_pos ⟨rfl, int⟩]
    exact ofExcept_integer bad _
  · rw [setInfo, if_neg (by simp [ascii]), if_neg (by simp [ascii]), if_neg (by simp [ascii]),
      if_neg (by simp [ascii]), if_pos ⟨rfl, int⟩]
    exact ofExcept_integer bad _

/-- The piece size behind a value. -/
def pieceSizeOf (key : Bytes) (t : Lexeme) (n : Nat) : Nat :=
  if key = ascii "piece length" ∧ t.type = .int then
    match t.integer with
    | .ok value => toUInt64 value
    | .error _ => n
  else n

theorem setInfo_done (taken : ¬ InfoThrows key t) (some : tf.files ≠ []) :
    ∃ tf', tf.setInfo key t = .done () tf' ∧
      tf'.extent = ⟨tf.pieces.val.length, tf.files.length, pieceSizeOf key t tf.pieceSize⟩ := by
  obtain ⟨texts, numbers⟩ := not_or.1 taken
  have kept (other : ¬ (key = ascii "piece length" ∧ t.type = .int)) :
      (⟨tf.pieces.val.length, tf.files.length, pieceSizeOf key t tf.pieceSize⟩ : Extent) =
        tf.extent := by
    rw [pieceSizeOf, if_neg other]
    rfl
  have number (int : t.type = .int) (named : key = ascii "piece length" ∨ key = ascii "private" ∨
      key = ascii "length") : ∃ n, t.integer = .ok n := by
    by_contra bad
    exact numbers ⟨int, not_exists.1 bad, named⟩
  have text (str : t.type = .str) (named : key = ascii "name" ∨ key = ascii "md5sum") :
      ∃ text, t.str = .some text :=
    Option.ne_none_iff_exists'.1 fun unread => texts ⟨str, unread, named⟩
  rw [setInfo]
  by_cases pieceLength : key = ascii "piece length" ∧ t.type = .int
  · obtain ⟨n, eq⟩ := number pieceLength.2 (Or.inl pieceLength.1)
    rw [if_pos pieceLength, eq]
    refine ⟨_, rfl, ?_⟩
    rw [pieceSizeOf, if_pos pieceLength, eq]
    rfl
  rw [if_neg pieceLength, kept pieceLength]
  split
  · rename_i secret
    obtain ⟨n, eq⟩ := number secret.2 (Or.inr (Or.inl secret.1))
    rw [eq]
    exact ⟨_, rfl, rfl⟩
  split
  · rename_i name
    obtain ⟨text, eq⟩ := text name.2 (Or.inl name.1)
    rw [ofExcept_text, eq]
    exact ⟨_, rfl, rfl⟩
  split
  · rename_i md5
    obtain ⟨text, eq⟩ := text md5.2 (Or.inr md5.1)
    rw [ofExcept_text, eq]
    exact setFirst_extent _ some
  split
  · rename_i length
    obtain ⟨n, eq⟩ := number length.2 (Or.inr (Or.inr length.1))
    rw [eq]
    exact setFirst_extent _ some
  · exact ⟨tf, rfl, rfl⟩

/-! ## The place in the loops -/

variable [Heap Bytes]

/-- The mode behind a token. -/
def nextMode (mode : Option Mode) (t : Lexeme) : Option Mode :=
  match mode with
  | none =>
    if t.IsLeaf then t.str.bind fun text => metainfoReader.modes.lookup text else none
  | some (.value _) => none
  | some .announceStart => if t.type = .listStart then some (.announce 0 []) else none
  | some (.announce depth output) =>
    match t.type with
    | .listStart => some (.announce (depth + 1) output)
    | .listEnd =>
      match depth with
      | 0 => none
      | depth + 1 => some (.announce depth output)
    | .str | .int => t.str.map fun text => .announce depth (output ++ [text])
    | _ => none
  | some .infoStart => if t.type = .dictStart then some .info else some .ended
  | some .info =>
    match t.type with
    | .str => t.str.map .infoValue
    | .dictEnd => none
    | _ => some .ended
  | some (.infoValue key) =>
    if key = ascii "pieces" ∧ t.type = .str then some .infoSkip
    else if key = ascii "files" ∧ t.type = .listStart then some (.files true)
    else some .info
  | some .infoSkip => some .info
  | some (.files _) => if t.type = .dictStart then some .file else some .info
  | some .file =>
    match t.type with
    | .str => t.str.map .fileValue
    | .dictStart => some .file
    | _ => some .info
  | some (.fileValue key) =>
    if key = ascii "path" ∧ t.type = .listStart then some (.path 0 []) else some .file
  | some (.path depth output) =>
    match t.type with
    | .listStart => some (.path (depth + 1) output)
    | .listEnd =>
      match depth with
      | 0 => some .fileSkip
      | depth + 1 => some (.path depth output)
    | .str | .int => t.str.map fun text => .path depth (output ++ [text])
    | _ => some .file
  | some .fileSkip => some .file
  | some .ended => some .ended

/-- How much there is behind a token: a file more for a dictionary that starts
`info` or a file, the pieces, the last piece length. -/
def Extent.next (x : Extent) (mode : Option Mode) (t : Lexeme) : Extent :=
  match mode with
  | some .infoStart | some (.files false) | some .file =>
    if t.type = .dictStart then { x with files := x.files + 1 } else x
  | some (.infoValue key) =>
    if key = ascii "pieces" ∧ t.type = .str then
      { x with pieces := x.pieces + (t.slices sha1PieceLength).length }
    else { x with pieceSize := pieceSizeOf key t x.pieceSize }
  | _ => x

structure Place where
  mode : Option Mode
  extent : Extent

/-- The loop at the place looks at the next token without asking if there is one. -/
def Awaits : Option Mode → Prop
  | some (.value _) | some .announceStart | some .infoStart | some (.infoValue _)
  | some (.fileValue _) => True
  | _ => False

namespace Place

def next (p : Place) (t : Lexeme) : Place := ⟨nextMode p.mode t, p.extent.next p.mode t⟩

/-- The token throws: a text that cannot be read, a number that is none or does
not fit, pieces that cannot be cut or get no room. -/
def Throws (p : Place) (t : Lexeme) : Prop :=
  match p.mode with
  | none | some (.announce _ _) | some (.path _ _) => t.IsLeaf ∧ t.str = none
  | some (.value slot) => slot.Throws t
  | some .info | some .file => t.type = .str ∧ t.str = none
  | some (.infoValue key) =>
    if key = ascii "pieces" ∧ t.type = .str then PiecesThrow t p.extent.pieces
    else InfoThrows key t
  | some (.fileValue key) => FileThrows key t
  | _ => False

end Place

/-- The place of a reading whose object is known. -/
def placeOf (mode : Option Mode) (tf : Metainfo) : Place := ⟨mode, tf.extent⟩

/-- The place is in the dictionary `info`, where there is a file. -/
def InInfo : Option Mode → Prop
  | some .info | some (.infoValue _) | some .infoSkip | some (.files _) | some .file
  | some (.fileValue _) | some (.path _ _) | some .fileSkip => True
  | _ => False

/-- What is set in front of a value leaves the extent alone. -/
def Mode.KeepsExtent : Mode → Prop
  | .value slot => slot.Keeps extent
  | _ => True

/-- What holds wherever the reading is: there are pieces only where there is a file. -/
structure Kept (mode : Option Mode) (tf : Metainfo) : Prop where
  file : InInfo mode → tf.files ≠ []
  pieces : tf.files = [] → tf.pieces.val = []
  keeps : ∀ m ∈ mode, m.KeepsExtent

/-! ## One token -/

omit [Heap Bytes] in
theorem text_thrown {α : Type} (unread : t.str = none)
    (f : Bytes → Metainfo → Outcome Thrown Metainfo α) :
    ∃ e tf', (Outcome.ofExcept t.text tf).bind f = .thrown e tf' := by
  rw [ofExcept_text, unread]
  exact ⟨_, _, rfl⟩

theorem step_thrown {mode : Option Mode} (throws : (placeOf mode tf).Throws t) :
    ∃ e tf', metainfoReader.reader.step mode t tf = .thrown e tf' := by
  cases mode with
  | none =>
    obtain ⟨leaf, unread⟩ := throws
    show ∃ e tf', metainfoReader.scan t tf = _
    rw [FillerReader.scan, if_pos leaf]
    exact text_thrown unread _
  | some mode =>
    show ∃ e tf', stepMode mode t tf = .thrown e tf'
    cases mode with
    | value slot =>
      obtain ⟨e, thrown⟩ := slot.store_thrown throws tf
      exact ⟨e, tf, by rw [stepMode, thrown]; rfl⟩
    | announce depth output | path depth output =>
      obtain ⟨str | int, unread⟩ := throws
      · simp only [stepMode, str]
        exact text_thrown unread _
      · simp only [stepMode, int]
        exact text_thrown unread _
    | info | file =>
      obtain ⟨str, unread⟩ := throws
      simp only [stepMode, str]
      exact text_thrown unread _
    | infoValue key =>
      change if key = ascii "pieces" ∧ t.type = .str then PiecesThrow t tf.pieces.val.length
        else InfoThrows key t at throws
      rw [stepMode]
      by_cases pieces : key = ascii "pieces" ∧ t.type = .str
      · rw [if_pos pieces] at throws
        have cut : ∃ e tf', tf.fillPieces t [] = .thrown e tf' := fillPieces_thrown throws
        obtain ⟨e, tf', thrown⟩ := cut
        rw [if_pos pieces, thrown]
        exact ⟨e, tf', rfl⟩
      · rw [if_neg pieces] at throws
        have plain : ¬ (key = ascii "files" ∧ t.type = .listStart) := by
          rintro ⟨-, list⟩
          rcases throws with ⟨str, -⟩ | ⟨int, -⟩
          · rw [list] at str
            cases str
          · rw [list] at int
            cases int
        have set : ∃ e, tf.setInfo key t = .thrown e tf := setInfo_thrown throws
        obtain ⟨e, thrown⟩ := set
        rw [if_neg pieces, if_neg plain, thrown]
        exact ⟨e, tf, rfl⟩
    | fileValue key =>
      have throws' : FileThrows key t := throws
      have plain : ¬ (key = ascii "path" ∧ t.type = .listStart) := by
        rintro ⟨-, list⟩
        rcases throws' with ⟨-, str, -⟩ | ⟨-, int, -⟩
        · rw [list] at str
          cases str
        · rw [list] at int
          cases int
      have set : ∃ e, tf.setFile key t = .thrown e tf := setFile_thrown throws'
      obtain ⟨e, thrown⟩ := set
      rw [stepMode, if_neg plain, thrown]
      exact ⟨e, tf, rfl⟩
    | announceStart | infoStart | infoSkip | files | fileSkip | ended => exact throws.elim

omit [Heap Bytes] in
theorem text_done {α : Type} (read : t.str ≠ none)
    (f : Bytes → Metainfo → Outcome Thrown Metainfo α) :
    ∃ text, t.str = some text ∧ (Outcome.ofExcept t.text tf).bind f = f text tf := by
  obtain ⟨text, eq⟩ := Option.ne_none_iff_exists'.1 read
  refine ⟨text, eq, ?_⟩
  rw [ofExcept_text, eq]
  rfl

/-- The filler takes the token and comes to the next place. -/
def Steps (mode : Mode) (t : Lexeme) (tf : Metainfo) : Prop :=
  ∃ tf', stepMode mode t tf = .done (nextMode (some mode) t) tf' ∧
    tf'.extent = tf.extent.next (some mode) t

theorem steps_announce {depth : Nat} {output : List Bytes}
    (read : t.IsLeaf → t.str ≠ none) : Steps (.announce depth output) t tf := by
  unfold Steps
  cases type : t.type with
  | str | int =>
    obtain ⟨text, eq, done⟩ := text_done (read (by simp [Lexeme.IsLeaf, type])) fun text tf =>
      (.done (some (.announce depth (output ++ [text]))) tf : Outcome Thrown Metainfo (Option Mode))
    simp only [stepMode, nextMode, type, eq]
    exact ⟨tf, done, rfl⟩
  | listEnd =>
    cases depth <;> simp only [stepMode, nextMode, type] <;> exact ⟨_, rfl, rfl⟩
  | unknown | listStart | dictStart | dictEnd =>
    simp only [stepMode, nextMode, type]
    exact ⟨_, rfl, rfl⟩

theorem steps_infoStart : Steps .infoStart t tf := by
  simp only [Steps, stepMode, nextMode, Extent.next]
  split
  · refine ⟨tf.pushFile, rfl, ?_⟩
    rw [extent, pushFile, List.length_append]
    rfl
  · exact ⟨tf, rfl, rfl⟩

theorem steps_info (read : t.type = .str → t.str ≠ none) : Steps .info t tf := by
  unfold Steps
  cases type : t.type with
  | str =>
    obtain ⟨text, eq, done⟩ := text_done (read type) fun key tf =>
      (.done (some (.infoValue key)) tf : Outcome Thrown Metainfo (Option Mode))
    simp only [stepMode, nextMode, type, eq]
    exact ⟨tf, done, rfl⟩
  | unknown | int | listStart | listEnd | dictStart | dictEnd =>
    simp only [stepMode, nextMode, type]
    exact ⟨_, rfl, setPaths_extent tf⟩

theorem steps_infoValue (file : tf.files ≠ [])
    (taken : ¬ if key = ascii "pieces" ∧ t.type = .str then PiecesThrow t tf.pieces.val.length
      else InfoThrows key t) : Steps (.infoValue key) t tf := by
  simp only [Steps, stepMode, nextMode, Extent.next]
  by_cases pieces : key = ascii "pieces" ∧ t.type = .str
  · rw [if_pos pieces] at taken
    have cut : ∃ tf', tf.fillPieces t [] = .done [] tf' ∧ _ := fillPieces_done taken
    obtain ⟨tf', done, same⟩ := cut
    rw [if_pos pieces, if_pos pieces, if_pos pieces, done]
    exact ⟨tf', rfl, same⟩
  · rw [if_neg pieces] at taken
    rw [if_neg pieces, if_neg pieces, if_neg pieces]
    by_cases files : key = ascii "files" ∧ t.type = .listStart
    · rw [if_pos files, if_pos files]
      refine ⟨tf, rfl, ?_⟩
      rw [pieceSizeOf, if_neg (by simp [files.2])]
    · obtain ⟨tf', done, same⟩ := setInfo_done taken file
      rw [if_neg files, if_neg files, done]
      exact ⟨tf', rfl, same⟩

theorem steps_files {firstIter : Bool} : Steps (.files firstIter) t tf := by
  simp only [Steps, stepMode, nextMode]
  by_cases dict : t.type = .dictStart
  · rw [if_pos dict, if_pos dict]
    cases firstIter with
    | true => exact ⟨tf, rfl, rfl⟩
    | false =>
      refine ⟨tf.pushFile, rfl, ?_⟩
      simp only [extent, pushFile, Extent.next, if_pos dict, List.length_append,
        List.length_singleton]
  · rw [if_neg dict, if_neg dict]
    cases firstIter with
    | true => exact ⟨tf, rfl, rfl⟩
    | false => exact ⟨tf, rfl, by simp only [Extent.next, if_neg dict]⟩

theorem steps_file (read : t.type = .str → t.str ≠ none) : Steps .file t tf := by
  unfold Steps
  cases type : t.type with
  | str =>
    obtain ⟨text, eq, done⟩ := text_done (read type) fun key tf =>
      (.done (some (.fileValue key)) tf : Outcome Thrown Metainfo (Option Mode))
    simp only [stepMode, nextMode, Extent.next, type, eq]
    exact ⟨tf, done, rfl⟩
  | dictStart =>
    simp only [stepMode, nextMode, Extent.next, type]
    refine ⟨tf.pushFile, rfl, ?_⟩
    rw [extent, pushFile, List.length_append]
    rfl
  | unknown | int | listStart | listEnd | dictEnd =>
    simp only [stepMode, nextMode, Extent.next, type]
    exact ⟨tf, rfl, rfl⟩

theorem steps_fileValue (file : tf.files ≠ []) (taken : ¬ FileThrows key t) :
    Steps (.fileValue key) t tf := by
  simp only [Steps, stepMode, nextMode]
  by_cases path : key = ascii "path" ∧ t.type = .listStart
  · rw [if_pos path, if_pos path]
    exact ⟨tf, rfl, rfl⟩
  · have set : ∃ tf', tf.setFile key t = .done () tf' ∧ tf'.extent = tf.extent :=
      setFile_done taken file
    obtain ⟨tf', done, same⟩ := set
    rw [if_neg path, if_neg path, done]
    exact ⟨tf', rfl, same⟩

theorem steps_path {depth : Nat} {output : List Bytes} (file : tf.files ≠ [])
    (read : t.IsLeaf → t.str ≠ none) : Steps (.path depth output) t tf := by
  obtain ⟨added, done, same⟩ := setBack_extent
    (fun file => { file with path := file.path ++ output }) file
  have add : tf.addPath output = .done () added := done
  unfold Steps
  cases type : t.type with
  | str | int =>
    obtain ⟨text, eq, done⟩ := text_done (read (by simp [Lexeme.IsLeaf, type])) fun text tf =>
      (.done (some (.path depth (output ++ [text]))) tf : Outcome Thrown Metainfo (Option Mode))
    simp only [stepMode, nextMode, type, eq]
    exact ⟨tf, done, rfl⟩
  | listEnd =>
    cases depth with
    | zero =>
      simp only [stepMode, nextMode, type, add]
      exact ⟨added, rfl, same⟩
    | succ depth =>
      simp only [stepMode, nextMode, type]
      exact ⟨tf, rfl, rfl⟩
  | listStart =>
    simp only [stepMode, nextMode, type]
    exact ⟨tf, rfl, rfl⟩
  | unknown | dictStart | dictEnd =>
    simp only [stepMode, nextMode, type, add]
    exact ⟨added, rfl, same⟩

/-- A token that is taken moves the reading to the next place. -/
theorem step_done {mode : Option Mode} (kept : Kept mode tf)
    (taken : ¬ (placeOf mode tf).Throws t) :
    ∃ tf', metainfoReader.reader.step mode t tf = .done (nextMode mode t) tf' ∧
      tf'.extent = tf.extent.next mode t := by
  cases mode with
  | none =>
    show ∃ tf', metainfoReader.scan t tf = _ ∧ _
    rw [FillerReader.scan, nextMode]
    by_cases leaf : t.IsLeaf
    · obtain ⟨text, eq, read⟩ := text_done (fun unread => taken ⟨leaf, unread⟩) fun text tf =>
        (.done (metainfoReader.modes.lookup text) tf : Outcome Thrown Metainfo (Option Mode))
      rw [if_pos leaf, if_pos leaf, eq]
      exact ⟨tf, read, rfl⟩
    · rw [if_neg leaf, if_neg leaf]
      exact ⟨tf, rfl, rfl⟩
  | some mode =>
    show Steps mode t tf
    cases mode with
    | value slot =>
      obtain ⟨tf', done, same⟩ := slot.store_done (kept.keeps _ rfl) taken tf
      exact ⟨tf', by rw [stepMode, done]; rfl, same⟩
    | announceStart => exact ⟨_, rfl, rfl⟩
    | announce depth output => exact steps_announce fun leaf unread => taken ⟨leaf, unread⟩
    | infoStart => exact steps_infoStart
    | info => exact steps_info fun str unread => taken ⟨str, unread⟩
    | infoValue key => exact steps_infoValue (kept.file trivial) taken
    | infoSkip => exact ⟨tf, rfl, rfl⟩
    | files firstIter => exact steps_files
    | file => exact steps_file fun str unread => taken ⟨str, unread⟩
    | fileValue key => exact steps_fileValue (kept.file trivial) taken
    | path depth output =>
      exact steps_path (kept.file trivial) fun leaf unread => taken ⟨leaf, unread⟩
    | fileSkip => exact ⟨tf, rfl, rfl⟩
    | ended => exact ⟨tf, rfl, rfl⟩

/-! ## The outline of the reading -/

theorem registered_plain {text : Bytes} {mode : Mode}
    (registered : metainfoReader.modes.lookup text = some mode) :
    ¬ InInfo (some mode) ∧ mode.KeepsExtent := by
  have all : ∀ entry ∈ metainfoReader.modes, ¬ InInfo (some entry.2) ∧ entry.2.KeepsExtent := by
    simp only [metainfoReader, List.forall_mem_cons, Mode.KeepsExtent, Slot.Keeps, InInfo,
      not_false_eq_true, true_and, and_true]
    exact ⟨fun _ _ => rfl, fun _ _ => rfl, fun _ _ => rfl, fun _ _ => rfl, fun _ _ => rfl, nofun⟩
  obtain ⟨front, back, split, -⟩ := List.lookup_eq_some_iff.1 registered
  exact all (text, mode) (by simp [split])

theorem nextMode_announce {depth : Nat} {output : List Bytes} {m : Mode}
    (next : nextMode (some (.announce depth output)) t = some m) :
    ∃ depth' output', m = .announce depth' output' := by
  simp only [nextMode] at next
  split at next
  · cases next
    exact ⟨_, _, rfl⟩
  · cases depth with
    | zero => cases next
    | succ depth =>
      cases next
      exact ⟨_, _, rfl⟩
  · obtain ⟨text, -, rfl⟩ := Option.map_eq_some_iff.1 next
    exact ⟨_, _, rfl⟩
  · obtain ⟨text, -, rfl⟩ := Option.map_eq_some_iff.1 next
    exact ⟨_, _, rfl⟩
  · cases next

/-- The dictionary is read on, or nothing more is. -/
theorem nextMode_inInfo {mode m : Mode} (next : nextMode (some mode) t = some m)
    (inside : InInfo (some mode)) : InInfo (some m) ∨ m = .ended := by
  cases mode with
  | value | announceStart | announce | infoStart | ended => exact inside.elim
  | info =>
    simp only [nextMode] at next
    split at next
    · obtain ⟨key, -, rfl⟩ := Option.map_eq_some_iff.1 next
      exact Or.inl trivial
    · cases next
    · cases next
      exact Or.inr rfl
  | infoValue key =>
    simp only [nextMode] at next
    split at next
    · cases next
      exact Or.inl trivial
    · split at next <;> cases next <;> exact Or.inl trivial
  | files firstIter =>
    simp only [nextMode] at next
    split at next <;> cases next <;> exact Or.inl trivial
  | file =>
    simp only [nextMode] at next
    split at next
    · obtain ⟨key, -, rfl⟩ := Option.map_eq_some_iff.1 next
      exact Or.inl trivial
    · cases next
      exact Or.inl trivial
    · cases next
      exact Or.inl trivial
  | fileValue key =>
    simp only [nextMode] at next
    split at next <;> cases next <;> exact Or.inl trivial
  | path depth output =>
    simp only [nextMode] at next
    split at next
    · cases next
      exact Or.inl trivial
    · cases depth <;> cases next <;> exact Or.inl trivial
    · obtain ⟨text, -, rfl⟩ := Option.map_eq_some_iff.1 next
      exact Or.inl trivial
    · obtain ⟨text, -, rfl⟩ := Option.map_eq_some_iff.1 next
      exact Or.inl trivial
    · cases next
      exact Or.inl trivial
  | infoSkip | fileSkip =>
    cases next
    exact Or.inl trivial

omit [Heap Bytes] in
theorem InInfo.keepsExtent {m : Mode} (inside : InInfo (some m)) : m.KeepsExtent := by
  cases m with
  | value slot => exact inside.elim
  | _ => trivial

/-- Behind a token that is taken in, the mode is one of a filler that starts, or
in a dictionary the reading was in or enters. -/
theorem nextMode_cases {mode : Option Mode} {m : Mode} (next : nextMode mode t = some m) :
    (mode = none ∧ ∃ text, metainfoReader.modes.lookup text = some m) ∨
      (m.KeepsExtent ∧ (InInfo (some m) → InInfo mode ∨
        mode = some .infoStart ∧ t.type = .dictStart)) := by
  cases mode with
  | none =>
    left
    rw [nextMode] at next
    split at next
    · obtain ⟨text, -, registered⟩ := Option.bind_eq_some_iff.1 next
      exact ⟨rfl, text, registered⟩
    · cases next
  | some mode =>
    right
    cases mode with
    | value slot => cases next
    | announceStart =>
      rw [nextMode] at next
      split at next
      · cases next
        exact ⟨trivial, False.elim⟩
      · cases next
    | announce depth output =>
      obtain ⟨depth', output', rfl⟩ := nextMode_announce next
      exact ⟨trivial, False.elim⟩
    | infoStart =>
      simp only [nextMode] at next
      split at next
      · rename_i dict
        cases next
        exact ⟨trivial, fun _ => Or.inr ⟨rfl, dict⟩⟩
      · cases next
        exact ⟨trivial, False.elim⟩
    | ended =>
      cases next
      exact ⟨trivial, False.elim⟩
    | _ =>
      rcases nextMode_inInfo next trivial with inside | rfl
      · exact ⟨inside.keepsExtent, fun _ => Or.inl trivial⟩
      · exact ⟨trivial, False.elim⟩

omit [Heap Bytes] in
theorem Extent.next_files (x : Extent) (mode : Option Mode) (t : Lexeme) :
    x.files ≤ (x.next mode t).files := by
  unfold next
  split
  iterate 3
    split
    · exact Nat.le_succ _
    · exact Nat.le_refl _
  · split <;> exact Nat.le_refl _
  · exact Nat.le_refl _

omit [Heap Bytes] in
theorem Extent.next_pieces (x : Extent) {mode : Option Mode} (outside : ¬ InInfo mode)
    (t : Lexeme) : (x.next mode t).pieces = x.pieces := by
  unfold next
  split
  iterate 3
    split <;> rfl
  · exact absurd trivial outside
  · rfl

theorem kept_next {tf' : Metainfo} {mode : Option Mode} (kept : Kept mode tf)
    (next : tf'.extent = tf.extent.next mode t) : Kept (nextMode mode t) tf' := by
  have more : tf.extent.files ≤ tf'.extent.files := by
    rw [next]
    exact Extent.next_files _ _ _
  have still (some : tf.files ≠ []) : tf'.files ≠ [] := by
    intro none
    have := extent_files.2 none
    exact some (extent_files.1 (by omega))
  constructor
  · intro inside
    cases mode' : nextMode mode t with
    | none =>
      rw [mode'] at inside
      cases inside
    | some m =>
      rw [mode'] at inside
      rcases nextMode_cases mode' with ⟨-, text, registered⟩ | ⟨-, info⟩
      · exact absurd inside (registered_plain registered).1
      · rcases info inside with inside | ⟨rfl, dict⟩
        · exact still (kept.file inside)
        · intro none
          have := extent_files.2 none
          rw [next, Extent.next, if_pos dict] at this
          cases this
  · intro none
    have fresh : tf.files = [] := by
      by_contra some
      exact still some none
    have outside : ¬ InInfo mode := fun inside => kept.file inside fresh
    have same := congrArg Extent.pieces next
    rw [Extent.next_pieces _ outside] at same
    have length : tf'.pieces.val.length = tf.pieces.val.length := same
    rw [kept.pieces fresh] at length
    exact List.length_eq_zero_iff.1 length
  · intro m mem
    rcases nextMode_cases mem with ⟨-, text, registered⟩ | ⟨keeps, -⟩
    · exact (registered_plain registered).2
    · exact keeps

/-- What is left to do when there are no more tokens. -/
theorem finish_done {mode : Option Mode} (kept : Kept mode tf) (ends : ¬ Awaits mode) :
    ∃ tf', metainfoReader.reader.finish mode tf = .done () tf' ∧ tf'.extent = tf.extent := by
  cases mode with
  | none => exact ⟨tf, rfl, rfl⟩
  | some mode =>
    cases mode with
    | path depth output =>
      obtain ⟨tf', done, same⟩ := setBack_extent
        (fun file => { file with path := file.path ++ output }) (kept.file trivial)
      have add : tf.addPath output = .done () tf' := done
      refine ⟨tf'.setPaths, ?_, (setPaths_extent tf').trans same⟩
      show (tf.addPath output).bind _ = _
      rw [add]
      rfl
    | announce | ended => exact ⟨_, rfl, rfl⟩
    | info | infoSkip | files | file | fileSkip => exact ⟨_, rfl, setPaths_extent tf⟩
    | value | announceStart | infoStart | infoValue | fileValue => exact absurd trivial ends

theorem finish_fault {mode : Option Mode} (awaits : Awaits mode) :
    ¬ (metainfoReader.reader.finish mode tf).Safe := by
  cases mode with
  | none => cases awaits
  | some mode =>
    cases mode with
    | value | announceStart | infoStart | infoValue | fileValue => exact Outcome.not_safe_fault
    | announce | info | infoSkip | files | file | path | fileSkip | ended => cases awaits

def outline : Outline metainfoReader.reader Place where
  place := placeOf
  next := Place.next
  Throws := Place.Throws
  Faults _ _ := False
  Ends p := ¬ Awaits p.mode
  Kept := Kept
  fault _ faults := faults.elim
  thrown _ _ throws := step_thrown throws
  done {mode tf t} kept _ taken := by
    obtain ⟨tf', done, same⟩ := step_done kept taken
    refine ⟨_, tf', done, kept_next kept same, ?_⟩
    rw [placeOf, same]
    rfl
  ends {mode tf} kept := by
    constructor
    · exact fun safe awaits => finish_fault awaits safe
    · intro ends
      obtain ⟨tf', done, -⟩ := finish_done kept ends
      rw [done]
      exact Outcome.safe_done

omit [Heap Bytes] in
theorem kept_opened (path : Bytes) : Kept none (opened path) :=
  ⟨nofun, fun _ => rfl, nofun⟩

/-- The place in front of all the tokens. -/
def start : Place := ⟨none, ⟨0, 0, 0⟩⟩

/-- The object has no pieces without a file. -/
def Sound (x : Extent) : Prop := x.files = 0 → x.pieces = 0

omit [Heap Bytes] in
theorem Kept.sound {mode : Option Mode} (kept : Kept mode tf) : Sound tf.extent := by
  intro none
  exact List.length_eq_zero_iff.2 (kept.pieces (extent_files.1 none))

/-- What `process` makes of tokens that do not throw. -/
theorem processLoop_passes {cursor : List Lexeme} {path : Bytes}
    (passes : outline.Passes cursor start) (ends : ¬ Awaits (outline.after cursor start).mode) :
    ∃ tf, processLoop fillers cursor (opened path) = .done () tf ∧
      tf.extent = (outline.after cursor start).extent ∧ Sound tf.extent := by
  obtain ⟨mode, tf₁, run, kept, at_end⟩ :=
    outline.run_passes (fun _ _ => id) (kept_opened path) passes
  have mode_eq : mode = (outline.after cursor start).mode := congrArg Place.mode at_end
  have extent_eq : tf₁.extent = (outline.after cursor start).extent := congrArg Place.extent at_end
  rw [← mode_eq] at ends
  obtain ⟨tf, done, same⟩ := finish_done kept ends
  refine ⟨tf, ?_, same.trans extent_eq, by rw [same]; exact kept.sound⟩
  rw [processLoop_fillers, Reader.complete, run]
  exact done

theorem processLoop_safe_iff {cursor : List Lexeme} {path : Bytes} :
    (processLoop fillers cursor (opened path)).Safe ↔ outline.Calm cursor start := by
  have kept : outline.Kept none (opened path) := kept_opened path
  rw [processLoop_fillers]
  exact Outline.complete_safe_iff kept

/-- Tokens one of which throws are not gone through, and do not fault either. -/
theorem processLoop_thrown {cursor : List Lexeme} {path : Bytes}
    (throws : ¬ outline.Passes cursor start) :
    ∃ e tf, processLoop fillers cursor (opened path) = .thrown e tf := by
  have safe : (processLoop fillers cursor (opened path)).Safe :=
    processLoop_safe_iff.2 ⟨fun _ _ _ _ _ => id, fun passes => absurd passes throws⟩
  cases processed : processLoop fillers cursor (opened path) with
  | done _ tf =>
    rw [processLoop_fillers] at processed
    obtain ⟨mode, tf₁, run, -⟩ := Outcome.bind_eq_done processed
    exact absurd (outline.run_done (kept_opened path) run).1 throws
  | thrown e tf => exact ⟨e, tf, rfl⟩
  | fault r tf => exact absurd processed (safe r tf)

/-- Tokens that end where a value should follow are read behind. -/
theorem processLoop_awaits {cursor : List Lexeme} {path : Bytes}
    (passes : outline.Passes cursor start) (awaits : Awaits (outline.after cursor start).mode) :
    ¬ (processLoop fillers cursor (opened path)).Safe :=
  fun safe => (processLoop_safe_iff.1 safe).stops passes awaits

end TorrentClient.Metainfo
