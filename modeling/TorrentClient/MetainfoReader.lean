import TorrentClient.Metainfo
import TorrentClient.TokenReader

/-!
# The content of a torrent file, one token at a time
-/

namespace TorrentClient.Metainfo

/-- The places inside the fillers. -/
inductive Mode where
  /-- In front of the value of a key. -/
  | value (slot : Slot Metainfo)
  /-- In front of the list of trackers. -/
  | announceStart
  /-- In the list of trackers, in as many lists more. -/
  | announce (depth : Nat) (output : List Bytes)
  /-- In front of the dictionary `info`. -/
  | infoStart
  | info
  | infoValue (key : Bytes)
  /-- In front of a token that is skipped behind the pieces. -/
  | infoSkip
  /-- In the list of files, where a dictionary may start. -/
  | files (firstIter : Bool)
  | file
  | fileValue (key : Bytes)
  | path (depth : Nat) (output : List Bytes)
  /-- In front of a token that is skipped behind a path. -/
  | fileSkip
  /-- The cursor is set behind all the tokens. -/
  | ended

/-- `m_files.push_back(FileInfo())` -/
def pushFile (tf : Metainfo) : Metainfo := { tf with files := tf.files ++ [{}] }

def setAnnounceList (texts : List Bytes) (tf : Metainfo) : Metainfo :=
  { tf with announceList := texts }

def addPath (path : List Bytes) : Metainfo → Outcome Thrown Metainfo Unit :=
  setBack fun file => { file with path := file.path ++ path }

variable [Heap Bytes]

/-- A token inside a filler. -/
def stepMode (mode : Mode) (t : Lexeme) (tf : Metainfo) : Outcome Thrown Metainfo (Option Mode) :=
  match mode with
  | .value slot => (slot.store t tf).map fun _ => none
  | .announceStart =>
    .done (if t.type = .listStart then some (.announce 0 []) else none) (tf.setAnnounceList [])
  | .announce depth output =>
    match t.type with
    | .listStart => .done (some (.announce (depth + 1) output)) tf
    | .listEnd =>
      match depth with
      | 0 => .done none (tf.setAnnounceList output)
      | depth + 1 => .done (some (.announce depth output)) tf
    | .str | .int =>
      (Outcome.ofExcept t.text tf).map fun text => some (.announce depth (output ++ [text]))
    | _ => .done none (tf.setAnnounceList output)
  | .infoStart =>
    if t.type = .dictStart then .done (some .info) tf.pushFile else .done (some .ended) tf
  | .info =>
    match t.type with
    | .str => (Outcome.ofExcept t.text tf).map fun key => some (.infoValue key)
    | .dictEnd => .done none tf.setPaths
    | _ => .done (some .ended) tf.setPaths
  | .infoValue key =>
    if key = ascii "pieces" ∧ t.type = .str then
      (tf.fillPieces t []).map fun _ => some .infoSkip
    else if key = ascii "files" ∧ t.type = .listStart then .done (some (.files true)) tf
    else (tf.setInfo key t).map fun _ => some .info
  | .infoSkip => .done (some .info) tf
  | .files firstIter =>
    if t.type = .dictStart then .done (some .file) (if firstIter then tf else tf.pushFile)
    else .done (some .info) tf
  | .file =>
    match t.type with
    | .str => (Outcome.ofExcept t.text tf).map fun key => some (.fileValue key)
    | .dictStart => .done (some .file) tf.pushFile
    | _ => .done (some .info) tf
  | .fileValue key =>
    if key = ascii "path" ∧ t.type = .listStart then .done (some (.path 0 [])) tf
    else (tf.setFile key t).map fun _ => some .file
  | .path depth output =>
    match t.type with
    | .listStart => .done (some (.path (depth + 1) output)) tf
    | .listEnd =>
      match depth with
      | 0 => (tf.addPath output).map fun _ => some .fileSkip
      | depth + 1 => .done (some (.path depth output)) tf
    | .str | .int =>
      (Outcome.ofExcept t.text tf).map fun text => some (.path depth (output ++ [text]))
    | _ => (tf.addPath output).map fun _ => some .file
  | .fileSkip => .done (some .file) tf
  | .ended => .done (some .ended) tf

/-- What is left to do when there are no more tokens. -/
def finishMode (mode : Mode) (tf : Metainfo) : Outcome Thrown Metainfo Unit :=
  match mode with
  | .value _ | .infoStart | .infoValue _ | .fileValue _ => .fault .outOfBounds tf
  | .announceStart => .fault .outOfBounds (tf.setAnnounceList [])
  | .announce _ output => .done () (tf.setAnnounceList output)
  | .path _ output => (tf.addPath output).bind fun _ tf => .done () tf.setPaths
  | .info | .infoSkip | .files _ | .file | .fileSkip => .done () tf.setPaths
  | .ended => .done () tf

def metainfoReader : FillerReader Metainfo Mode where
  modes :=
    [(ascii "info", .infoStart),
      (ascii "comment", .value (.str fun value tf => { tf with comment := value })),
      (ascii "announce", .value (.str fun value tf => { tf with announce := value })),
      (ascii "encoding", .value (.str fun value tf => { tf with encoding := value })),
      (ascii "created by", .value (.str fun value tf => { tf with createdBy := value })),
      (ascii "announce-list", .announceStart),
      (ascii "creation date", .value (.int fun value tf => { tf with creationDate := value }))]
  step := stepMode
  finish := finishMode

/-! ## The loops -/

variable {t : Lexeme} {cursor : List Lexeme} {tf : Metainfo}

theorem complete_some (mode : Mode) :
    metainfoReader.reader.complete (t :: cursor) (some mode) tf =
      (stepMode mode t tf).bind (metainfoReader.reader.complete cursor) := Reader.complete_cons

/-- A token between two fillers that is no text. -/
theorem complete_mark (mark : ¬ t.IsLeaf) :
    metainfoReader.reader.complete (t :: cursor) none tf =
      metainfoReader.reader.complete cursor none tf := by
  rw [Reader.complete_cons]
  show (metainfoReader.scan t tf).bind _ = _
  rw [FillerReader.scan, if_neg mark, Outcome.bind_done]

theorem complete_ended (cursor : List Lexeme) (tf : Metainfo) :
    metainfoReader.reader.complete cursor (some .ended) tf = .done () tf := by
  induction cursor with
  | nil => rfl
  | cons t cursor ih =>
    rw [complete_some]
    exact ih

theorem complete_announce (depth : Nat) (output : List Bytes) :
    metainfoReader.reader.complete cursor (some (.announce depth output)) tf =
      (Outcome.ofExcept (readListsLoop (depth + 1) cursor output) tf).bind fun (texts, rest) tf =>
        metainfoReader.reader.complete rest none (tf.setAnnounceList texts) := by
  induction cursor generalizing depth output with
  | nil => rfl
  | cons t cursor ih =>
    rw [complete_some, readListsLoop]
    cases type : t.type with
    | listStart =>
      simp only [stepMode, type, Outcome.bind_done]
      exact ih (depth + 1) output
    | listEnd =>
      cases depth with
      | zero =>
        simp only [stepMode, type, Outcome.bind_done]
        cases cursor <;> rfl
      | succ depth =>
        simp only [stepMode, type, Outcome.bind_done]
        exact ih depth output
    | str | int =>
      simp only [stepMode, type, Outcome.bind_map]
      cases t.text with
      | error e => rfl
      | ok text => exact ih depth (output ++ [text])
    | unknown | dictStart | dictEnd =>
      simp only [stepMode, type, Outcome.bind_done]
      exact (complete_mark (by simp [Lexeme.IsLeaf, type])).symm

theorem matches_announceList : metainfoReader.Matches fillAnnounceList .announceStart := by
  intro t cursor tf
  match cursor with
  | [] => rfl
  | v :: cursor =>
    rw [complete_some]
    show _ = ((Outcome.ofExcept (readLists v cursor) (tf.setAnnounceList [])).bind _).bind _
    rw [Outcome.bind_assoc, readLists]
    by_cases list : v.type = .listStart
    · simp only [stepMode, if_pos list, Outcome.bind_done]
      rw [complete_announce]
      rfl
    · simp only [stepMode, if_neg list, Outcome.bind_done]
      have none : readListsLoop 0 cursor [] = .ok ([], cursor) := by cases cursor <;> rfl
      rw [none]
      rfl

/-- The path is read to its end, and one more token is skipped. -/
theorem complete_path (depth : Nat) (output : List Bytes) :
    metainfoReader.reader.complete cursor (some (.path depth output)) tf =
      (Outcome.ofExcept (readListsLoop (depth + 1) cursor output) tf).bind fun (texts, rest) tf =>
        (tf.addPath texts).bind fun _ tf =>
          metainfoReader.reader.complete rest.tail (some .file) tf := by
  induction cursor generalizing depth output with
  | nil => rfl
  | cons t cursor ih =>
    rw [complete_some, readListsLoop]
    cases type : t.type with
    | listStart =>
      simp only [stepMode, type, Outcome.bind_done]
      exact ih (depth + 1) output
    | listEnd =>
      cases depth with
      | zero =>
        simp only [stepMode, type, Outcome.bind_map]
        have done : readListsLoop 0 cursor output = .ok (output, cursor) := by cases cursor <;> rfl
        rw [done, Outcome.ofExcept_ok, Outcome.bind_done]
        congr 1
        funext _ tf
        cases cursor <;> rfl
      | succ depth =>
        simp only [stepMode, type, Outcome.bind_done]
        exact ih depth output
    | str | int =>
      simp only [stepMode, type, Outcome.bind_map]
      cases t.text with
      | error e => rfl
      | ok text => exact ih depth (output ++ [text])
    | unknown | dictStart | dictEnd =>
      simp only [stepMode, type, Outcome.bind_map]
      rfl

theorem complete_fileValue {key : Bytes} {v : Lexeme} :
    metainfoReader.reader.complete (v :: cursor) (some (.fileValue key)) tf =
      (tf.storeFile key v cursor).bind fun rest tf =>
        metainfoReader.reader.complete rest.tail (some .file) tf := by
  rw [complete_some, stepMode, storeFile]
  by_cases path : key = ascii "path" ∧ v.type = .listStart
  · rw [if_pos path, if_pos path, Outcome.bind_done, complete_path, readLists, if_pos path.2,
      Outcome.bind_assoc]
    congr 1
    funext r tf
    rw [Outcome.bind_map]
    rfl
  · rw [if_neg path, if_neg path, Outcome.bind_map, Outcome.bind_map]
    rfl

/-- The reader goes through a dictionary as the inner loop does. -/
theorem complete_file (cursor : List Lexeme) (tf : Metainfo) :
    metainfoReader.reader.complete cursor (some .file) tf =
      (fileLoop cursor tf).bind fun rest tf =>
        metainfoReader.reader.complete rest (some (.files false)) tf := by
  induction hn : cursor.length using Nat.strongRecOn generalizing cursor tf with
  | ind n ih =>
    match cursor with
    | [] =>
      rw [fileLoop_nil]
      rfl
    | t :: cursor =>
      rw [complete_some]
      by_cases str : t.type = .str
      · simp only [stepMode, str, Outcome.bind_map]
        match cursor with
        | [] =>
          rw [fileLoop_last str, Outcome.bind_assoc]
          rfl
        | v :: cursor =>
          rw [fileLoop_entry str, Outcome.bind_assoc]
          congr 1
          funext key tf
          rw [complete_fileValue, Outcome.bind_assoc]
          cases stored : tf.storeFile key v cursor with
          | thrown e tf => rfl
          | fault r tf => rfl
          | done behind tf =>
            have shorter := tail_lt_of_suffix (storeFile_suffix stored)
            rw [List.length_cons, List.length_cons] at hn
            exact ih _ (by omega) behind.tail tf rfl
      · rw [fileLoop_other str, Outcome.bind_done, complete_some]
        cases type : t.type with
        | str => exact absurd type str
        | dictStart => simp only [stepMode, type, if_true]; rfl
        | unknown | int | listStart | listEnd | dictEnd => simp [stepMode, type]

/-- The reader goes through the list of files as the outer loop does. -/
theorem complete_files (firstIter : Bool) (cursor : List Lexeme) (tf : Metainfo) :
    metainfoReader.reader.complete cursor (some (.files firstIter)) tf =
      (filesLoop firstIter cursor tf).bind fun rest tf =>
        metainfoReader.reader.complete rest.tail (some .info) tf := by
  induction hn : cursor.length using Nat.strongRecOn generalizing firstIter cursor tf with
  | ind n ih =>
    cases cursor with
    | nil =>
      rw [filesLoop_nil]
      rfl
    | cons t cursor =>
      rw [complete_some, stepMode]
      by_cases dict : t.type = .dictStart
      · rw [if_pos dict, Outcome.bind_done, complete_file, filesLoop_dict dict,
          Outcome.bind_assoc]
        show (fileLoop cursor (if firstIter then tf else tf.pushFile)).bind _ =
          (fileLoop cursor (if firstIter then tf else tf.pushFile)).bind _
        cases looped : fileLoop cursor (if firstIter then tf else tf.pushFile) with
        | thrown e tf => rfl
        | fault r tf => rfl
        | done behind tf =>
          have shorter := (fileLoop_suffix looped).length_le
          rw [List.length_cons] at hn
          exact ih behind.length (by omega) false behind tf rfl
      · rw [if_neg dict, filesLoop_other dict]
        rfl

theorem complete_infoValue {key : Bytes} {v : Lexeme} :
    metainfoReader.reader.complete (v :: cursor) (some (.infoValue key)) tf =
      (tf.storeInfo key v cursor).bind fun rest tf =>
        metainfoReader.reader.complete rest.tail (some .info) tf := by
  rw [complete_some, stepMode, storeInfo]
  split
  · rw [fillPieces, fillPieces]
    split
    · rfl
    · rw [Outcome.map_bind, Outcome.bind_assoc, Outcome.bind_assoc]
      congr 1
      funext _ tf
      rw [Outcome.map_map, Outcome.bind_map, Outcome.bind_map]
      congr 1
      funext _ tf
      cases cursor <;> rfl
  · split
    · rw [Outcome.bind_done, complete_files]
      rfl
    · rw [Outcome.bind_map, Outcome.bind_map]
      rfl

/-- The reader goes through the dictionary as the loop does. -/
theorem complete_info (cursor : List Lexeme) (tf : Metainfo) :
    metainfoReader.reader.complete cursor (some .info) tf =
      (infoLoop cursor tf).bind fun rest tf =>
        metainfoReader.reader.complete rest none tf.setPaths := by
  induction hn : cursor.length using Nat.strongRecOn generalizing cursor tf with
  | ind n ih =>
    match cursor with
    | [] =>
      rw [infoLoop_nil]
      rfl
    | t :: cursor =>
      rw [complete_some]
      by_cases str : t.type = .str
      · simp only [stepMode, str, Outcome.bind_map]
        match cursor with
        | [] =>
          rw [infoLoop_last str, Outcome.bind_assoc]
          rfl
        | v :: cursor =>
          rw [infoLoop_entry str, Outcome.bind_assoc]
          congr 1
          funext key tf
          rw [complete_infoValue, Outcome.bind_assoc]
          cases stored : tf.storeInfo key v cursor with
          | thrown e tf => rfl
          | fault r tf => rfl
          | done behind tf =>
            have shorter := tail_lt_of_suffix (storeInfo_suffix stored)
            rw [List.length_cons, List.length_cons] at hn
            exact ih _ (by omega) behind.tail tf rfl
      · by_cases dictEnd : t.type = .dictEnd
        · rw [infoLoop_end dictEnd]
          simp only [stepMode, dictEnd, Outcome.bind_done]
        · rw [infoLoop_other str dictEnd]
          cases type : t.type with
          | str => exact absurd type str
          | dictEnd => exact absurd type dictEnd
          | unknown | int | listStart | listEnd | dictStart =>
            simp only [stepMode, type, Outcome.bind_done]
            exact complete_ended _ _

theorem matches_info : metainfoReader.Matches fillInfo .infoStart := by
  intro t cursor tf
  match cursor with
  | [] => rfl
  | v :: cursor =>
    rw [complete_some, stepMode]
    show _ = (if v.type ≠ .dictStart then _ else _ : Outcome Thrown Metainfo (List Lexeme)).bind _
    by_cases dict : v.type = .dictStart
    · rw [if_pos dict, if_neg (not_not.2 dict), Outcome.bind_done, complete_info,
        Outcome.bind_assoc]
      rfl
    · rw [if_neg dict, if_pos dict]
      exact complete_ended _ _

theorem matches_value (slot : Slot Metainfo) :
    metainfoReader.Matches ⟨fillValue slot.store, fillValue_moves⟩ (.value slot) :=
  FillerReader.matches_value (fun _ _ => rfl) fun _ => rfl

theorem matches_fillers :
    List.Forall₂ (fun f m => f.1 = m.1 ∧ metainfoReader.Matches f.2 m.2) fillers
      metainfoReader.modes := by
  refine .cons ⟨rfl, matches_info⟩ ?_
  exact .cons ⟨rfl, matches_value (.str _)⟩ (.cons ⟨rfl, matches_value (.str _)⟩
    (.cons ⟨rfl, matches_value (.str _)⟩ (.cons ⟨rfl, matches_value (.str _)⟩
      (.cons ⟨rfl, matches_announceList⟩ (.cons ⟨rfl, matches_value (.int _)⟩ .nil)))))

/-- **`process`, one token at a time.** -/
theorem processLoop_fillers (cursor : List Lexeme) (tf : Metainfo) :
    processLoop fillers cursor tf = metainfoReader.reader.complete cursor none tf :=
  FillerReader.processLoop_eq matches_fillers cursor tf

end TorrentClient.Metainfo
