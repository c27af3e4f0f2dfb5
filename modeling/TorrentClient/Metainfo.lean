import TorrentClient.BeParser
import TorrentClient.TokenListProcessor
import TorrentClient.TorrentFile

/-!
# The content of a torrent file

`TorrentFile` fills its fields from the tokens of a torrent file, hashes the part
of it that belongs to the key `info`, and lays out the files.
-/

namespace TorrentClient

/-- What is called from OpenSSL and from `cmath`, and the room for the vector of hashes. -/
class Externals extends Heap Bytes where
  sha1 : Bytes → Bytes
  /-- `uint64_t(log10(n) + 1)` -/
  log10Plus : Nat → Nat

/-- All the fields of a `TorrentFile`. -/
structure Metainfo extends TorrentFile where
  announceList : List Bytes := []
  path : Bytes
  announce : Bytes := []
  comment : Bytes := []
  createdBy : Bytes := []
  encoding : Bytes := []
  dirName : Bytes := []
  infoSha1 : Bytes := []
  infoSha1String : Bytes := []
  creationDate : Nat := 0
  isPrivate : Nat := 0

/-- `SHA1_PIECE_LENGTH` -/
def sha1PieceLength : Nat := 20

/-! ## `read_lists` -/

/-- The loop of `read_lists`. -/
def readListsLoop : (depth : Nat) → List Lexeme → (output : List Bytes) →
    Except Thrown (List Bytes × List Lexeme)
  | 0, cursor, output => .ok (output, cursor)
  | _ + 1, [], output => .ok (output, [])
  | depth + 1, t :: cursor, output =>
    match t.type with
    | .listStart => readListsLoop (depth + 2) cursor output
    | .listEnd => readListsLoop depth cursor output
    | .str | .int => t.text.bind fun text => readListsLoop (depth + 1) cursor (output ++ [text])
    | _ => .ok (output, t :: cursor)

/-- `read_lists`, with the cursor at `t`. -/
def readLists (t : Lexeme) (cursor : List Lexeme) : Except Thrown (List Bytes × List Lexeme) :=
  readListsLoop (if t.type = .listStart then 1 else 0) cursor []

theorem readListsLoop_suffix {depth : Nat} {cursor rest : List Lexeme} {output texts : List Bytes}
    (h : readListsLoop depth cursor output = .ok (texts, rest)) : rest <:+ cursor := by
  induction cursor generalizing depth output with
  | nil =>
    cases depth <;> cases h <;> exact List.suffix_rfl
  | cons t cursor ih =>
    cases depth with
    | zero =>
      cases h
      exact List.suffix_rfl
    | succ depth =>
      rw [readListsLoop] at h
      cases type : t.type with
      | listStart | listEnd =>
        rw [type] at h
        exact (ih h).trans (List.suffix_cons _ _)
      | str | int =>
        rw [type] at h
        dsimp only at h
        cases text : t.text with
        | error e =>
          rw [text] at h
          cases h
        | ok value =>
          rw [text] at h
          exact (ih h).trans (List.suffix_cons _ _)
      | unknown | dictStart | dictEnd =>
        rw [type] at h
        cases h
        exact List.suffix_rfl

/-- What is left of the tokens is the end of them. -/
theorem readLists_suffix {t : Lexeme} {cursor rest : List Lexeme} {texts : List Bytes}
    (h : readLists t cursor = .ok (texts, rest)) : rest <:+ cursor :=
  readListsLoop_suffix h

namespace Metainfo

/-- The object at the start of the constructor. -/
def opened (path : Bytes) : Metainfo where
  pieces := ⟨[], by decide⟩
  files := []
  pieceSize := 0
  path := path

def fillAnnounce : Filler Metainfo := fillStr fun value tf => { tf with announce := value }

def fillCreationDate : Filler Metainfo := fillInt fun value tf => { tf with creationDate := value }

def fillComment : Filler Metainfo := fillStr fun value tf => { tf with comment := value }

def fillCreatedBy : Filler Metainfo := fillStr fun value tf => { tf with createdBy := value }

def fillEncoding : Filler Metainfo := fillStr fun value tf => { tf with encoding := value }

def fillAnnounceList : Filler Metainfo where
  run cursor tf :=
    match cursor.tail with
    | [] => .fault .outOfBounds { tf with announceList := [] }
    | t :: rest =>
      (Outcome.ofExcept (readLists t rest) { tf with announceList := [] }).bind
        fun (texts, rest) tf => .done rest { tf with announceList := texts }
  moves {t cursor s rest s'} h := by
    cases cursor with
    | nil => cases h
    | cons v cursor =>
      obtain ⟨⟨texts, rest'⟩, tf, called, later⟩ := Outcome.bind_eq_done h
      cases later
      cases read : readLists v cursor with
      | error e =>
        rw [read] at called
        cases called
      | ok result =>
        rw [read] at called
        cases called
        exact (readLists_suffix read).length_le.trans (Nat.le_succ _)

/-! ## `fill_files` -/

/-- `m_files.back()` -/
def setBack (f : FileInfo → FileInfo) (tf : Metainfo) : Outcome Thrown Metainfo Unit :=
  match modifyBack f tf.files with
  | none => .fault .outOfBounds tf
  | some files => .done () { tf with files := files }

/-- The branches of `fill_files` for the keys whose value is one token. -/
def setFile (key : Bytes) (v : Lexeme) (tf : Metainfo) : Outcome Thrown Metainfo Unit :=
  if key = ascii "md5sum" ∧ v.type = .str then
    (Outcome.ofExcept v.text tf).bind fun text tf =>
      tf.setBack fun file => { file with md5Sum := text }
  else if key = ascii "length" ∧ v.type = .int then
    (Outcome.ofExcept v.integer tf).bind fun value tf =>
      tf.setBack fun file => { file with size := toUInt64 value }
  else .done () tf

/-- What `fill_files` does with a key and its value `v`. The cursor is left in
front of the increment at the end of the loop. -/
def storeFile (key : Bytes) (v : Lexeme) (cursor : List Lexeme) (tf : Metainfo) :
    Outcome Thrown Metainfo (List Lexeme) :=
  if key = ascii "path" ∧ v.type = .listStart then
    (Outcome.ofExcept (readLists v cursor) tf).bind fun (path, cursor) tf =>
      (tf.setBack fun file => { file with path := file.path ++ path }).map fun _ => cursor
  else (tf.setFile key v).map fun _ => v :: cursor

theorem storeFile_suffix {key : Bytes} {v : Lexeme} {cursor rest : List Lexeme}
    {tf tf' : Metainfo} (h : tf.storeFile key v cursor = .done rest tf') :
    rest <:+ v :: cursor := by
  unfold storeFile at h
  split at h
  · obtain ⟨⟨path, rest'⟩, tf₁, called, later⟩ := Outcome.bind_eq_done h
    obtain ⟨_, tf₂, -, last⟩ := Outcome.bind_eq_done later
    cases last
    cases read : readLists v cursor with
    | error e =>
      rw [read] at called
      cases called
    | ok result =>
      rw [read] at called
      cases called
      exact (readLists_suffix read).trans (List.suffix_cons _ _)
  · obtain ⟨_, tf₁, -, last⟩ := Outcome.bind_eq_done h
    cases last
    exact List.suffix_rfl

theorem tail_lt_of_suffix {v : Lexeme} {cursor rest : List Lexeme} (h : rest <:+ v :: cursor) :
    rest.tail.length ≤ cursor.length := by
  have le := h.length_le
  rw [List.length_cons] at le
  rw [List.length_tail]
  omega

/-- The inner loop of `fill_files`. -/
def fileLoop : (cursor : List Lexeme) → Metainfo → Outcome Thrown Metainfo (List Lexeme)
  | [], tf => .done [] tf
  | t :: cursor, tf =>
    match t.type with
    | .listEnd => .done (t :: cursor) tf
    | .str =>
      (Outcome.ofExcept t.text tf).bind fun key tf =>
        match cursor with
        | [] => .fault .outOfBounds tf
        | v :: rest =>
          (tf.storeFile key v rest).bindWith fun cursor tf stored =>
            have _shorter := tail_lt_of_suffix (storeFile_suffix stored)
            fileLoop cursor.tail tf
    | _ => .done (t :: cursor) tf
  termination_by cursor => cursor.length
  decreasing_by
    rw [List.length_cons, List.length_cons]
    omega

section
variable {t v : Lexeme} {cursor rest : List Lexeme} {tf tf' : Metainfo}

@[simp] theorem fileLoop_nil : fileLoop [] tf = .done [] tf := by rw [fileLoop]

theorem fileLoop_other (other : t.type ≠ .str) :
    fileLoop (t :: cursor) tf = .done (t :: cursor) tf := by
  rw [fileLoop]
  cases type : t.type with
  | str => exact absurd type other
  | unknown | int | listStart | listEnd | dictStart | dictEnd => rfl

theorem fileLoop_last (str : t.type = .str) :
    fileLoop [t] tf = (Outcome.ofExcept t.text tf).bind fun _ tf => .fault .outOfBounds tf := by
  rw [fileLoop, str]

theorem fileLoop_entry (str : t.type = .str) :
    fileLoop (t :: v :: cursor) tf = (Outcome.ofExcept t.text tf).bind fun key tf =>
      (tf.storeFile key v cursor).bind fun rest tf => fileLoop rest.tail tf := by
  rw [fileLoop, str]
  show (Outcome.ofExcept t.text tf).bind _ = _
  congr 1
  funext key tf
  exact Outcome.bindWith_eq _ fun (rest : List Lexeme) tf => fileLoop rest.tail tf

theorem fileLoop_suffix (h : fileLoop cursor tf = .done rest tf') : rest <:+ cursor := by
  induction hn : cursor.length using Nat.strongRecOn generalizing cursor tf with
  | ind n ih =>
    match cursor with
    | [] =>
      rw [fileLoop_nil] at h
      cases h
      exact List.suffix_rfl
    | t :: cursor =>
      by_cases str : t.type = .str
      · match cursor with
        | [] =>
          rw [fileLoop_last str] at h
          obtain ⟨_, _, -, later⟩ := Outcome.bind_eq_done h
          cases later
        | v :: cursor =>
          rw [fileLoop_entry str] at h
          obtain ⟨key, tf₁, -, later⟩ := Outcome.bind_eq_done h
          obtain ⟨behind, tf₂, stored, later⟩ := Outcome.bind_eq_done later
          have suffix := storeFile_suffix stored
          have shorter := tail_lt_of_suffix suffix
          rw [List.length_cons, List.length_cons] at hn
          have looped := ih behind.tail.length (by omega) later rfl
          exact looped.trans ((List.tail_suffix _).trans (suffix.trans (List.suffix_cons _ _)))
      · rw [fileLoop_other str] at h
        cases h
        exact List.suffix_rfl

end

/-- The outer loop of `fill_files`. -/
def filesLoop (firstIter : Bool) : (cursor : List Lexeme) → Metainfo →
    Outcome Thrown Metainfo (List Lexeme)
  | [], tf => .done [] tf
  | t :: cursor, tf =>
    if t.type ≠ .dictStart then .done (t :: cursor) tf
    else
      (fileLoop cursor (if firstIter then tf else { tf with files := tf.files ++ [{}] })).bindWith
        fun rest tf looped =>
          have _shorter := (fileLoop_suffix looped).length_le
          filesLoop false rest tf
  termination_by cursor => cursor.length

section
variable {firstIter : Bool} {t : Lexeme} {cursor rest : List Lexeme} {tf tf' : Metainfo}

@[simp] theorem filesLoop_nil : filesLoop firstIter [] tf = .done [] tf := by rw [filesLoop]

theorem filesLoop_other (other : t.type ≠ .dictStart) :
    filesLoop firstIter (t :: cursor) tf = .done (t :: cursor) tf := by
  rw [filesLoop, if_pos other]

theorem filesLoop_dict (dict : t.type = .dictStart) :
    filesLoop firstIter (t :: cursor) tf =
      (fileLoop cursor (if firstIter then tf else { tf with files := tf.files ++ [{}] })).bind
        fun rest tf => filesLoop false rest tf := by
  rw [filesLoop, if_neg (not_not.2 dict)]
  exact Outcome.bindWith_eq _ fun rest tf => filesLoop false rest tf

theorem filesLoop_suffix (h : filesLoop firstIter cursor tf = .done rest tf') :
    rest <:+ cursor := by
  induction hn : cursor.length using Nat.strongRecOn generalizing firstIter cursor tf with
  | ind n ih =>
    cases cursor with
    | nil =>
      rw [filesLoop_nil] at h
      cases h
      exact List.suffix_rfl
    | cons t cursor =>
      by_cases dict : t.type = .dictStart
      · rw [filesLoop_dict dict] at h
        obtain ⟨behind, tf₁, looped, later⟩ := Outcome.bind_eq_done h
        have suffix := fileLoop_suffix looped
        have shorter := suffix.length_le
        rw [List.length_cons] at hn
        have rest := ih behind.length (by omega) later rfl
        exact rest.trans (suffix.trans (List.suffix_cons _ _))
      · rw [filesLoop_other dict] at h
        cases h
        exact List.suffix_rfl

end

/-- `fill_files`, with the tokens behind the start of the list. -/
def fillFiles (cursor : List Lexeme) (tf : Metainfo) : Outcome Thrown Metainfo (List Lexeme) :=
  filesLoop true cursor tf

/-! ## `fill_info` -/

/-- The loop of `fill_pieces`. -/
def pushPieces : List (Option Bytes) → Metainfo → Outcome Thrown Metainfo Unit
  | [], tf => .done () tf
  | none :: _, tf => .thrown .subString tf
  | some piece :: slices, tf =>
    match pushBack tf.pieces piece with
    | none => .thrown .lengthError tf
    | some pieces => pushPieces slices { tf with pieces := pieces }

/-- `m_pieces.reserve(count)` -/
def reservePieces [Heap Bytes] (count : Nat) (tf : Metainfo) : Outcome Thrown Metainfo Unit :=
  match Heap.refuses Bytes count with
  | none => .done () tf
  | some e => .thrown e tf

theorem reservePieces_granted [Heap Bytes] {count : Nat} (granted : Heap.refuses Bytes count = none)
    (tf : Metainfo) : tf.reservePieces count = .done () tf := by
  rw [reservePieces, granted]

theorem reservePieces_refused [Heap Bytes] {count : Nat} {e : Thrown}
    (refused : Heap.refuses Bytes count = some e) (tf : Metainfo) :
    tf.reservePieces count = .thrown e tf := by
  rw [reservePieces, refused]

theorem reservePieces_state [Heap Bytes] (count : Nat) (tf : Metainfo) :
    (tf.reservePieces count).state = tf := by
  unfold reservePieces
  split <;> rfl

/-- `fill_pieces`, at the string `v`. It leaves the cursor behind it. -/
def fillPieces [Heap Bytes] (v : Lexeme) (cursor : List Lexeme) (tf : Metainfo) :
    Outcome Thrown Metainfo (List Lexeme) :=
  if v.size % sha1PieceLength ≠ 0 then .thrown (.runtimeError "invalid pieces length") tf
  else (tf.reservePieces (v.size / sha1PieceLength)).bind fun _ tf =>
    (pushPieces (v.slices sha1PieceLength) tf).map fun _ => cursor

/-- `m_files[0]` -/
def setFirst (f : FileInfo → FileInfo) (tf : Metainfo) : Outcome Thrown Metainfo Unit :=
  match tf.files with
  | [] => .fault .outOfBounds tf
  | file :: files => .done () { tf with files := f file :: files }

theorem setFirst_some {tf : Metainfo} (f : FileInfo → FileInfo) (some : tf.files ≠ []) :
    tf.setFirst f = .done () { tf with files := tf.files.modifyHead f } := by
  rw [setFirst]
  cases files : tf.files with
  | nil => exact absurd files some
  | cons file files => rfl

/-- The branches of `fill_info` for the keys whose value is one token, which is
left to the increment at the end of the loop. -/
def setInfo (key : Bytes) (v : Lexeme) (tf : Metainfo) : Outcome Thrown Metainfo Unit :=
  if key = ascii "piece length" ∧ v.type = .int then
    (Outcome.ofExcept v.integer tf).bind fun value tf =>
      .done () { tf with pieceSize := toUInt64 value }
  else if key = ascii "private" ∧ v.type = .int then
    (Outcome.ofExcept v.integer tf).bind fun value tf =>
      .done () { tf with isPrivate := toUInt64 value }
  else if key = ascii "name" ∧ v.type = .str then
    (Outcome.ofExcept v.text tf).bind fun text tf => .done () { tf with dirName := text }
  else if key = ascii "md5sum" ∧ v.type = .str then
    (Outcome.ofExcept v.text tf).bind fun text tf =>
      tf.setFirst fun file => { file with md5Sum := text }
  else if key = ascii "length" ∧ v.type = .int then
    (Outcome.ofExcept v.integer tf).bind fun value tf =>
      tf.setFirst fun file => { file with size := toUInt64 value }
  else .done () tf

/-- What `fill_info` does with a key and its value `v`. The cursor is left in
front of the increment at the end of the loop. -/
def storeInfo [Heap Bytes] (key : Bytes) (v : Lexeme) (cursor : List Lexeme) (tf : Metainfo) :
    Outcome Thrown Metainfo (List Lexeme) :=
  if key = ascii "pieces" ∧ v.type = .str then tf.fillPieces v cursor
  else if key = ascii "files" ∧ v.type = .listStart then tf.fillFiles cursor
  else (tf.setInfo key v).map fun _ => v :: cursor

theorem storeInfo_suffix [Heap Bytes] {key : Bytes} {v : Lexeme} {cursor rest : List Lexeme}
    {tf tf' : Metainfo} (h : tf.storeInfo key v cursor = .done rest tf') :
    rest <:+ v :: cursor := by
  unfold storeInfo fillPieces at h
  split at h
  · split at h
    · cases h
    · obtain ⟨_, tf₁, -, pushed⟩ := Outcome.bind_eq_done h
      obtain ⟨_, tf₂, -, last⟩ := Outcome.bind_eq_done pushed
      cases last
      exact List.suffix_cons _ _
  · split at h
    · exact (filesLoop_suffix h).trans (List.suffix_cons _ _)
    · obtain ⟨_, tf₁, -, last⟩ := Outcome.bind_eq_done h
      cases last
      exact List.suffix_rfl

/-- The loop of `fill_info`. -/
def infoLoop [Heap Bytes] :
    (cursor : List Lexeme) → Metainfo → Outcome Thrown Metainfo (List Lexeme)
  | [], tf => .done [] tf
  | t :: cursor, tf =>
    match t.type with
    | .str =>
      (Outcome.ofExcept t.text tf).bind fun key tf =>
        match cursor with
        | [] => .fault .outOfBounds tf
        | v :: rest =>
          (tf.storeInfo key v rest).bindWith fun cursor tf stored =>
            have _shorter := tail_lt_of_suffix (storeInfo_suffix stored)
            infoLoop cursor.tail tf
    | .dictEnd => .done cursor tf
    -- The cursor is set behind all the tokens.
    | _ => .done [] tf
  termination_by cursor => cursor.length
  decreasing_by
    rw [List.length_cons, List.length_cons]
    omega

section
variable [Heap Bytes] {t v : Lexeme} {cursor rest : List Lexeme} {tf tf' : Metainfo}

@[simp] theorem infoLoop_nil : infoLoop [] tf = .done [] tf := by rw [infoLoop]

theorem infoLoop_end (dictEnd : t.type = .dictEnd) :
    infoLoop (t :: cursor) tf = .done cursor tf := by
  rw [infoLoop, dictEnd]

theorem infoLoop_other (notStr : t.type ≠ .str) (notEnd : t.type ≠ .dictEnd) :
    infoLoop (t :: cursor) tf = .done [] tf := by
  rw [infoLoop]
  cases type : t.type with
  | str => exact absurd type notStr
  | dictEnd => exact absurd type notEnd
  | unknown | int | listStart | listEnd | dictStart => rfl

theorem infoLoop_last (str : t.type = .str) :
    infoLoop [t] tf = (Outcome.ofExcept t.text tf).bind fun _ tf => .fault .outOfBounds tf := by
  rw [infoLoop, str]

theorem infoLoop_entry (str : t.type = .str) :
    infoLoop (t :: v :: cursor) tf = (Outcome.ofExcept t.text tf).bind fun key tf =>
      (tf.storeInfo key v cursor).bind fun rest tf => infoLoop rest.tail tf := by
  rw [infoLoop, str]
  show (Outcome.ofExcept t.text tf).bind _ = _
  congr 1
  funext key tf
  exact Outcome.bindWith_eq _ fun (rest : List Lexeme) tf => infoLoop rest.tail tf

theorem infoLoop_suffix (h : infoLoop cursor tf = .done rest tf') : rest <:+ cursor := by
  induction hn : cursor.length using Nat.strongRecOn generalizing cursor tf with
  | ind n ih =>
    match cursor with
    | [] =>
      rw [infoLoop_nil] at h
      cases h
      exact List.suffix_rfl
    | t :: cursor =>
      by_cases str : t.type = .str
      · match cursor with
        | [] =>
          rw [infoLoop_last str] at h
          obtain ⟨_, _, -, later⟩ := Outcome.bind_eq_done h
          cases later
        | v :: cursor =>
          rw [infoLoop_entry str] at h
          obtain ⟨key, tf₁, -, later⟩ := Outcome.bind_eq_done h
          obtain ⟨behind, tf₂, stored, later⟩ := Outcome.bind_eq_done later
          have suffix := storeInfo_suffix stored
          have shorter := tail_lt_of_suffix suffix
          rw [List.length_cons, List.length_cons] at hn
          have looped := ih behind.tail.length (by omega) later rfl
          exact looped.trans ((List.tail_suffix _).trans (suffix.trans (List.suffix_cons _ _)))
      · by_cases dictEnd : t.type = .dictEnd
        · rw [infoLoop_end dictEnd] at h
          cases h
          exact List.suffix_cons _ _
        · rw [infoLoop_other str dictEnd] at h
          cases h
          exact List.nil_suffix

end

/-- The end of `fill_info`. -/
def setPaths (tf : Metainfo) : Metainfo :=
  let files :=
    match tf.files with
    | [file] => [{ file with path := file.path ++ [tf.dirName] }]
    | files => files
  let dirPath :=
    if tf.files.length = 1 then ascii "/tmp/torrents/" else ascii "/tmp/torrents/" ++ tf.dirName
  { tf with files := files.map fun file => { file with dirName := dirPath } }

def fillInfo [Heap Bytes] : Filler Metainfo where
  run cursor tf :=
    match cursor.tail with
    | [] => .fault .outOfBounds tf
    | t :: cursor =>
      if t.type ≠ .dictStart then .done [] tf
      else
        (infoLoop cursor { tf with files := tf.files ++ [{}] }).bind fun rest tf =>
          .done rest tf.setPaths
  moves {t cursor s rest s'} h := by
    cases cursor with
    | nil => cases h
    | cons v cursor =>
      dsimp only [List.tail_cons] at h
      split at h
      · cases h
        exact Nat.zero_le _
      · obtain ⟨rest', tf, looped, last⟩ := Outcome.bind_eq_done h
        cases last
        exact (infoLoop_suffix looped).length_le.trans (Nat.le_succ _)

def fillers [Heap Bytes] : List (Bytes × Filler Metainfo) :=
  [(ascii "info", fillInfo), (ascii "comment", fillComment), (ascii "announce", fillAnnounce),
    (ascii "encoding", fillEncoding), (ascii "created by", fillCreatedBy),
    (ascii "announce-list", fillAnnounceList), (ascii "creation date", fillCreationDate)]

/-! ## `calculate_info_sha1` -/

/-- A character that is left as it is. -/
def isPlain (c : UInt8) : Bool :=
  isDigit c ∨ 97 ≤ c ∧ c ≤ 122 ∨ 65 ≤ c ∧ c ≤ 90 ∨ c = 44 ∨ c = 45 ∨ c = 95 ∨ c = 126

/-- The digit of a number below 16. -/
def hexDigit (n : UInt8) : UInt8 := if n < 10 then 48 + n else 55 + n

def hexer (source : Bytes) : Bytes :=
  source.flatMap fun c => if isPlain c then [c] else [37, hexDigit (c >>> 4), hexDigit (c &&& 15)]

section
variable [SubStrings]

/-- The tokens behind the first one whose text is `info`. -/
def findInfo (source : StringWrapper) : List BeToken → Except Thrown (Option (List BeToken))
  | [] => .ok none
  | t :: tokens => (t.on source).text.bind fun text =>
    if text = ascii "info" then .ok (some tokens) else findInfo source tokens

/-- The loop that looks for the end of the dictionary, and the tokens behind it.
A token is looked at before the depth is. -/
def skipDict (depth : Nat) : List BeToken → List BeToken
  | [] => []
  | t :: tokens =>
    let depth :=
      match t.type with
      | .dictStart => add64 depth 1
      | .dictEnd => sub64 depth 1
      | _ => depth
    if depth = 0 then tokens else skipDict depth tokens

variable [Externals]

/-- `length_modifier` -/
def lengthModifier (t : BeToken) : Nat :=
  match t.type with
  | .int => 1
  | .str => add64 (Externals.log10Plus (SubStrings.size t.data)) 1
  | _ => 0

/-- Where the hashed part of the source starts and how long it is, `none` where
`calculate_info_sha1` returns without a hash. -/
def infoRange (tokens : List BeToken) (source : StringWrapper) (tf : Metainfo) :
    Outcome Thrown Metainfo (Option (Nat × Nat)) :=
  (Outcome.ofExcept (findInfo source tokens) tf).bind fun found tf =>
    match found with
    | none => .done none tf
    | some [] => .fault .outOfBounds tf
    | some (value :: tokens) =>
      let start := value.data.start
      match skipDict 0 (value :: tokens) with
      | [] => .done none tf
      | t :: _ => .done (some (start, sub64 (sub64 t.data.start start) (lengthModifier t))) tf

def calculateInfoSha1 (tokens : List BeToken) (source : StringWrapper) (tf : Metainfo) :
    Outcome Thrown Metainfo Unit :=
  (infoRange tokens source tf).bind fun range tf =>
    match range with
    | none => .done () tf
    | some (start, length) =>
      -- `std::string::substr`
      if source.size < start then .thrown .outOfRange tf
      else
        let sha := Externals.sha1 ((source.bytes.drop start).take length)
        .done () { tf with infoSha1String := hexer sha, infoSha1 := sha }

/-- The constructor, with the content of the file. -/
def new (path : Bytes) (source : StringWrapper) : Outcome Thrown Metainfo Unit :=
  (Outcome.ofExcept (BeParser.parse source) (opened path)).bind fun tokens tf =>
    (processLoop fillers (tokens.map (·.on source)) tf).bind fun _ tf =>
      (tf.calculateInfoSha1 tokens source).bind fun _ tf =>
        tf.toTorrentFile.fillPieceOffsets.lift fun layout => { tf with toTorrentFile := layout }

end

end Metainfo

end TorrentClient
