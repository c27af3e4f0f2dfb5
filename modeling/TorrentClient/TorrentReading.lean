import TorrentClient.PieceSizes
import TorrentClient.Unregistered

/-!
# Reading a torrent file

A torrent file describes one file or a directory of them. The encoding of a description is
read back, field by field, with the hash of what stands under `info` and with the files laid
out. Only the flag `private` is lost: `fill_pieces` moves the cursor over its key.
-/

namespace TorrentClient

/-! ## What a torrent file describes -/

/-- A number that a `long long` holds. -/
abbrev Count := { n : Nat // n < 2 ^ 63 }

/-- The hash of a piece. -/
abbrev PieceHash := { hash : Bytes // hash.length = sha1PieceLength }

/-- A file of a directory. -/
structure FileEntry where
  length : Count
  md5sum : Option Bytes
  path : List Bytes

inductive Content where
  | file (length : Count) (md5sum : Option Bytes)
  | directory (first : FileEntry) (files : List FileEntry)

def Content.sizes : Content → List Nat
  | .file length _ => [length.val]
  | .directory first files => (first :: files).map (·.length.val)

structure Description where
  announce : Option Bytes := none
  trackers : Option (List (List Bytes)) := none
  comment : Option Bytes := none
  createdBy : Option Bytes := none
  creationDate : Option Count := none
  encoding : Option Bytes := none
  content : Content
  name : Bytes
  pieceLength : Count
  hashes : List PieceHash
  isPrivate : Option Count := none
  pieceLength_pos : 0 < pieceLength.val
  hashes_ne : hashes ≠ []
  hashes_lt : hashes.length < 2 ^ 63
  sizes_lt : content.sizes.sum < 2 ^ 64

namespace FileEntry

def front (f : FileEntry) : List (Bytes × FileValue) :=
  (ascii "length", .int f.length.val) ::
    (f.md5sum.map fun text => (ascii "md5sum", FileValue.str text)).toList

/-- The dictionary of the file. -/
def dict (f : FileEntry) : FileDict where
  front := f.front
  path := f.path
  back := []
  length := f.length.val
  md5sum := f.md5sum
  sorted := by
    have keys : ascii "length" < ascii "md5sum" ∧ ascii "md5sum" < ascii "path" ∧
        ascii "length" < ascii "path" := by decide
    cases md5 : f.md5sum <;> simp [front, md5, keys]
  length_mem := List.mem_cons_self
  md5sum_mem := by
    have other : ascii "md5sum" ≠ ascii "length" := by decide
    intro v
    cases md5 : f.md5sum with
    | none => simp [front, md5, other]
    | some text => simp [front, md5, other, eq_comm]

/-- What is known of the file. -/
def info (f : FileEntry) : FileInfo where
  path := f.path
  md5Sum := f.md5sum.getD []
  size := f.length.val

end FileEntry

namespace Description

variable (d : Description)

/-- The dictionary under `info`. -/
def infoDict : InfoDict where
  files :=
    match d.content with
    | .file _ _ => none
    | .directory first files => some ((first :: files).map (·.dict))
  length :=
    match d.content with
    | .file length _ => some length.val
    | .directory _ _ => none
  md5sum :=
    match d.content with
    | .file _ md5sum => md5sum
    | .directory _ _ => none
  name := some d.name
  pieceLength := some d.pieceLength.val
  pieces := some (d.hashes.flatMap (·.val))
  isPrivate := d.isPrivate.map fun n => (n.val : Int)

/-- The entries in front of `info`. -/
def header : List (Bytes × Value) :=
  optionalEntry "announce" (d.announce.map .str) ++
    (optionalEntry "announce-list"
      (d.trackers.map fun tiers => .list (tiers.map fun tier => .list (tier.map .str))) ++
      (optionalEntry "comment" (d.comment.map .str) ++
        (optionalEntry "created by" (d.createdBy.map .str) ++
          (optionalEntry "creation date" (d.creationDate.map fun n => .int n.val) ++
            optionalEntry "encoding" (d.encoding.map .str)))))

/-- The files, before they get their places. -/
def infos : List FileInfo :=
  match d.content with
  | .file length md5sum => [{ size := length.val, md5Sum := md5sum.getD [] }]
  | .directory first files => (first :: files).map (·.info)

/-- The only file has the name of the torrent behind its path; several are in a directory of
that name. -/
def named (file : FileInfo) : FileInfo :=
  if d.infos.length = 1 then
    { file with path := file.path ++ [d.name], dirName := ascii "/tmp/torrents/" }
  else { file with dirName := ascii "/tmp/torrents/" ++ d.name }

/-- What a torrent file with this description is read as. -/
def read [Externals] (path : Bytes) : Metainfo :=
  let sha1 := Externals.sha1 (Value.dict d.infoDict.entries).encode
  { pieces := ⟨d.hashes.map (·.val), by rw [List.length_map]; exact d.hashes_lt⟩
    files := layFiles d.pieceLength.val 0 0 (d.infos.map d.named)
    pieceSize := d.pieceLength.val
    lastPieceSize := d.content.sizes.sum % d.pieceLength.val
    fullSize := d.content.sizes.sum
    announceList := (d.trackers.getD []).flatten
    path := path
    announce := d.announce.getD []
    comment := d.comment.getD []
    createdBy := d.createdBy.getD []
    encoding := d.encoding.getD []
    dirName := d.name
    infoSha1 := sha1
    infoSha1String := Metainfo.hexer sha1
    creationDate := d.creationDate.elim 0 (·.val)
    isPrivate := 0 }

end Description

namespace Metainfo

variable {tf : Metainfo} {rest : List Lexeme}

/-! ## One field in front of `info` -/

section
variable [Heap Bytes]

theorem processLoop_mark (type : TokenType) (mark : ¬ (Lexeme.mark type).IsLeaf) :
    processLoop fillers (.mark type :: rest) tf = processLoop fillers rest tf := by
  rw [processLoop, if_neg mark]

theorem processLoop_key {key : Bytes} {filler : Filler Metainfo}
    (named : fillers.lookup key = some filler) {cursor behind : List Lexeme} {tf' : Metainfo}
    (called : filler.run (.leaf .str key :: cursor) tf = .done behind tf') :
    processLoop fillers (.leaf .str key :: cursor) tf = processLoop fillers behind tf' := by
  have leaf : (Lexeme.leaf .str key).IsLeaf := Or.inr rfl
  have text : (Lexeme.leaf .str key).text = .ok key := rfl
  rw [processLoop, if_pos leaf, text]
  dsimp only
  rw [named]
  dsimp only
  split
  · rename_i called'
    rw [called] at called'
    cases called'
    rfl
  · rename_i called'
    rw [called] at called'
    cases called'
  · rename_i called'
    rw [called] at called'
    cases called'

/-- An entry of the dictionary, and what is set when it is read. -/
structure Field where
  entry : Bytes × Value
  set : Metainfo → Metainfo
  named : registered fillers entry.1 = true
  read : ∀ rest tf, processLoop fillers (entryLexemes entry ++ rest) tf =
    processLoop fillers rest (set tf)

/-- A key with a string, if it is there. -/
def strField (key : String) (set : Bytes → Metainfo → Metainfo)
    (named : fillers.lookup (ascii key) = some (fillStr set)) (value : Option Bytes) : List Field :=
  (value.map fun text =>
    { entry := (ascii key, .str text)
      set := set text
      named := by rw [registered, named]; rfl
      read := fun _ _ => processLoop_key named rfl }).toList

omit [Heap Bytes] in
theorem integer_count (n : Count) :
    (Lexeme.leaf .int (decimalInt n.val)).integer = .ok (n.val : Int) := by
  have small := n.property
  show stoll (decimalInt n.val) = _
  rw [stoll_decimalInt, if_pos ⟨by omega, by omega⟩]

omit [Heap Bytes] in
theorem toUInt64_count (n : Count) : toUInt64 (n.val : Int) = n.val := by
  have small := n.property
  rw [toUInt64_of_nonneg (Int.natCast_nonneg _) (by omega)]
  rfl

/-- A key with a number, if it is there. -/
def intField (key : String) (set : Nat → Metainfo → Metainfo)
    (named : fillers.lookup (ascii key) = some (fillInt set)) (value : Option Count) : List Field :=
  (value.map fun n =>
    { entry := (ascii key, .int n.val)
      set := set n.val
      named := by rw [registered, named]; rfl
      read := fun rest tf => by
        apply processLoop_key named
        show (storeInt set (.leaf .int (decimalInt n.val)) tf).map _ = _
        rw [storeInt, if_pos (show (Lexeme.leaf .int _).type = .int from rfl), integer_count,
          Outcome.ofExcept_ok, Outcome.bind_done, toUInt64_count]
        rfl }).toList

omit [Heap Bytes] in
theorem tiers_free (tiers : List (List Bytes)) :
    valuesDictFree (tiers.map fun tier => .list (tier.map .str)) ∧
      valuesTexts (tiers.map fun tier => .list (tier.map .str)) = tiers.flatten := by
  induction tiers with
  | nil => exact ⟨trivial, rfl⟩
  | cons tier tiers ih =>
    refine ⟨⟨valuesDictFree_strings tier, ih.1⟩, ?_⟩
    rw [List.map_cons, valuesTexts, ih.2, Value.texts, valuesTexts_strings, List.flatten_cons]

/-- The lists of trackers, if they are there. -/
def trackersField (value : Option (List (List Bytes))) : List Field :=
  (value.map fun tiers =>
    { entry := (ascii "announce-list", .list (tiers.map fun tier => .list (tier.map .str)))
      set := fun tf => { tf with announceList := tiers.flatten }
      named := rfl
      read := fun rest tf => by
        obtain ⟨free, texts⟩ := tiers_free tiers
        have lexemes : entryLexemes (ascii "announce-list",
            .list (tiers.map fun tier => .list (tier.map .str))) ++ rest =
              .leaf .str (ascii "announce-list") :: .mark .listStart ::
                (valuesLexemes (tiers.map fun tier => .list (tier.map .str)) ++
                  .mark .listEnd :: rest) := by
          simp [entryLexemes, Value.lexemes]
        rw [lexemes]
        apply processLoop_key rfl
        show (Outcome.ofExcept (readLists _ _) _).bind _ = _
        rw [readLists_lexemes free, texts]
        rfl }).toList

end

/-! ## The dictionary under `info` -/

theorem dict_info (f : FileEntry) : f.dict.info = f.info := by
  have length : noteEntry {} (ascii "length", .int f.length.val) = { size := f.length.val } := by
    rw [noteEntry, if_pos rfl, toUInt64_count]
  have md5 (file : FileInfo) (text : Bytes) :
      noteEntry file (ascii "md5sum", .str text) = { file with md5Sum := text } := by
    rw [noteEntry, noteText, if_pos rfl]
  show ({ f.front.foldl noteEntry {} with path := f.path } : FileInfo) = f.info
  rw [FileEntry.front, List.foldl_cons, length, FileEntry.info]
  cases text : f.md5sum with
  | none => rfl
  | some text =>
    rw [Option.map_some, Option.toList_some, List.foldl_cons, md5]
    rfl

theorem pushPieces_all (slices : List Bytes) : ∀ (tf : Metainfo)
    (room : tf.pieces.val.length + slices.length < 2 ^ 63),
    pushPieces (slices.map some) tf = .done ()
      { tf with pieces := ⟨tf.pieces.val ++ slices, by rwa [List.length_append]⟩ } := by
  induction slices with
  | nil =>
    intro tf room
    simp [pushPieces]
  | cons slice slices ih =>
    intro tf room
    rw [List.length_cons] at room
    have fits : tf.pieces.val.length + 1 < 2 ^ 63 := by omega
    obtain ⟨pieces, pushed, eq⟩ := pushBack_some slice fits
    rw [List.map_cons, pushPieces, pushed]
    dsimp only
    rw [ih _ (by rw [eq, List.length_append, List.length_singleton]; omega)]
    simp [eq]

/-- Hashes behind each other are cut apart again. -/
theorem slices20_flatMap (hashes : List PieceHash) :
    slices20 (hashes.flatMap (·.val)) = hashes.map (·.val) := by
  induction hashes with
  | nil => rfl
  | cons hash hashes ih =>
    have length : hash.val.length = 20 := hash.property
    rw [List.flatMap_cons, List.map_cons, ← ih, slices20, slices20, List.length_append, length,
      Nat.add_div_left _ (by decide), List.range_succ_eq_map, List.map_cons, List.map_map]
    congr 1
    · rw [Nat.zero_mul, List.drop_zero, List.take_left' length]
    · apply List.map_congr_left
      intro i _
      show List.take 20 (List.drop ((i + 1) * 20) _) = _
      rw [Nat.add_one_mul, Nat.add_comm, ← List.drop_drop, List.drop_left' length]

theorem flatMap_length (hashes : List PieceHash) :
    (hashes.flatMap (·.val)).length = hashes.length * 20 := by
  induction hashes with
  | nil => rfl
  | cons hash hashes ih =>
    have length : hash.val.length = 20 := hash.property
    rw [List.flatMap_cons, List.length_append, ih, length, List.length_cons, Nat.add_one_mul,
      Nat.add_comm]

theorem fillPieces_hashes [Heap Bytes] (hashes : List PieceHash) (none : tf.pieces.val = [])
    (granted : Heap.refuses Bytes hashes.length = Option.none) (room : hashes.length < 2 ^ 63) :
    tf.fillPieces (.leaf .str (hashes.flatMap (·.val))) rest = .done rest
      { tf with pieces := ⟨hashes.map (·.val), by rwa [List.length_map]⟩ } := by
  have slices : (Lexeme.leaf .str (hashes.flatMap (·.val))).slices sha1PieceLength =
      (slices20 (hashes.flatMap (·.val))).map some := by
    rw [slices20, List.map_map]
    rfl
  have whole : (Lexeme.leaf .str (hashes.flatMap (·.val))).size % sha1PieceLength = 0 := by
    show (hashes.flatMap (·.val)).length % 20 = 0
    rw [flatMap_length, Nat.mul_mod_left]
  have count : (Lexeme.leaf .str (hashes.flatMap (·.val))).size / sha1PieceLength =
      hashes.length := by
    show (hashes.flatMap (·.val)).length / 20 = _
    rw [flatMap_length, Nat.mul_div_cancel _ (by decide)]
  rw [fillPieces, if_neg (not_not.2 whole), reservePieces_granted (by rwa [count]),
    Outcome.bind_done, slices, slices20_flatMap,
    pushPieces_all _ _ (by rw [none, List.length_map, List.length_nil]; omega)]
  simp [none]

variable (d : Description)

theorem infoDict_walked : ∀ dicts ∈ d.infoDict.files, ∀ f ∈ dicts, f.Walked := by
  intro dicts mem f there
  rw [Description.infoDict] at mem
  cases content : d.content with
  | file length md5sum =>
    rw [content] at mem
    cases mem
  | directory first files =>
    rw [content] at mem
    cases mem
    obtain ⟨entry, -, rfl⟩ := List.mem_map.1 there
    have small := entry.length.property
    have specified : entry.dict.Specified := ⟨rfl, rfl⟩
    exact specified.walked ⟨by show (-2 ^ 63 : Int) ≤ (entry.length.val : Int); omega,
      by show (entry.length.val : Int) < 2 ^ 63; omega⟩

theorem infoDict_fits : MiddleFits d.infoDict := by
  constructor
  · intro z mem
    rw [Description.infoDict] at mem
    cases content : d.content with
    | file length md5sum =>
      rw [content] at mem
      cases mem
      have small := length.property
      exact ⟨by omega, by omega⟩
    | directory first files =>
      rw [content] at mem
      cases mem
  · rintro _ ⟨⟩
    have small := d.pieceLength.property
    exact ⟨by omega, by omega⟩

/-- What the keys in front of the pieces leave. -/
theorem atPieces_infoDict (tf : Metainfo) : atPieces d.infoDict tf =
    { tf with pieceSize := d.pieceLength.val, dirName := d.name, files := d.infos } := by
  have size := toUInt64_count d.pieceLength
  rw [atPieces, middleOf, filesOf, Description.infos, Description.infoDict]
  cases d.content with
  | file length md5sum =>
    have fits := toUInt64_count length
    cases md5sum <;> simp [setInt, setStr, setLength, setMd5, size, fits]
  | directory first files => simp [setInt, setStr, size, dict_info, Function.comp_def]

/-- What the dictionary sets. -/
def withInfo (tf : Metainfo) : Metainfo :=
  { tf with
    pieces := ⟨d.hashes.map (·.val), by rw [List.length_map]; exact d.hashes_lt⟩
    pieceSize := d.pieceLength.val
    dirName := d.name
    files := d.infos.map d.named }

theorem setPaths_infos (tf : Metainfo) (files : tf.files = d.infos) (name : tf.dirName = d.name) :
    tf.setPaths = { tf with files := d.infos.map d.named } := by
  rw [setPaths, files, name]
  unfold Description.named
  generalize d.infos = infos
  rcases infos with _ | ⟨file, _ | ⟨other, infos⟩⟩
  · simp
  · simp
  · simp

/-- All of the rest is read with `info`, when it is the last key. -/
theorem fillInfo_description [Heap Bytes] (fresh : tf.files = []) (none : tf.pieces.val = [])
    (granted : Heap.refuses Bytes d.hashes.length = Option.none) :
    fillInfo.run (infoLexemes d.infoDict [.mark .dictEnd]) tf = .done [] (withInfo d tf) := by
  rw [fillInfo_lexemes _ _ fresh,
    (infoLoop_front d.infoDict (infoDict_walked d) (infoDict_fits d) rfl).1, atPieces_infoDict]
  have back : entriesLexemes d.infoDict.back ++ [.mark .dictEnd, .mark .dictEnd] =
      .leaf .str (ascii "pieces") :: .leaf .str (d.hashes.flatMap (·.val)) ::
        (entriesLexemes (optionalEntry "private" (d.infoDict.isPrivate.map .int)) ++
          [.mark .dictEnd, .mark .dictEnd]) := by
    rw [InfoDict.back, entriesLexemes_append]
    rfl
  rw [back, infoLoop_pieces, fillPieces_hashes d.hashes (by exact none) granted d.hashes_lt,
    Outcome.bind_done]
  -- the token behind the pieces is skipped
  have skipped : infoLoop (entriesLexemes (optionalEntry "private"
      (d.infoDict.isPrivate.map .int)) ++ [Lexeme.mark .dictEnd, .mark .dictEnd]).tail =
        fun tf => .done [] tf := by
    funext tf
    show infoLoop (entriesLexemes (optionalEntry "private"
      ((d.isPrivate.map fun n => (n.val : Int)).map .int)) ++ _).tail tf = _
    cases d.isPrivate with
    | none => exact infoLoop_end rfl
    | some n =>
      exact infoLoop_other (show TokenType.int ≠ .str by decide)
        (show TokenType.int ≠ .dictEnd by decide)
  rw [skipped, Outcome.bind_done, setPaths_infos d _ rfl rfl]
  rfl

/-! ## The entries in front -/

section
variable [Heap Bytes]

theorem processLoop_free {ts : List Lexeme} (read : ∀ t ∈ ts, t.IsLeaf → t.str ≠ none)
    (free : ∀ t ∈ ts, ∀ text, t.str = some text → registered fillers text = false) :
    processLoop fillers (ts ++ rest) tf = processLoop fillers rest tf := by
  rw [processLoop_fillers, processLoop_fillers, Reader.complete_append,
    FillerReader.run_scan read fun t mem text str =>
      FillerReader.lookup_unregistered matches_fillers (free t mem text str)]
  rfl

/-- The entries in front of `info`, where those without a filler name none. -/
theorem processLoop_front {front : List (Bytes × Value)}
    (foreign : ∀ entry ∈ front, registered fillers entry.1 = false →
      ∀ text ∈ entry.2.texts, registered fillers text = false) (rest : List Lexeme) :
    ∀ (fields : List Field) (tf : Metainfo),
      front.filter (registered fillers ·.1) = fields.map (·.entry) →
      processLoop fillers (entriesLexemes front ++ rest) tf =
        processLoop fillers rest (fields.foldl (fun tf field => field.set tf) tf) := by
  induction front with
  | nil =>
    intro fields tf same
    have none : fields = [] := List.map_eq_nil_iff.1 same.symm
    rw [none]
    rfl
  | cons entry front ih =>
    intro fields tf same
    obtain ⟨first, foreign'⟩ := List.forall_mem_cons.1 foreign
    rw [entriesLexemes_flatMap, List.flatMap_cons, List.append_assoc, ← entriesLexemes_flatMap]
    by_cases named : registered fillers entry.1 = true
    · rw [List.filter_cons, if_pos named] at same
      cases fields with
      | nil => cases same
      | cons field fields =>
        obtain ⟨rfl, later⟩ := List.cons.inj same
        rw [field.read, List.foldl_cons]
        exact ih foreign' fields _ later
    · rw [List.filter_cons, if_neg named] at same
      rw [Bool.not_eq_true] at named
      rw [processLoop_free (fun t mem => (entryLexemes_texts mem).1)]
      · exact ih foreign' fields tf same
      · intro t mem text str
        rcases List.mem_cons.1 ((entryLexemes_texts mem).2 text str) with rfl | inside
        · exact named
        · exact first named text inside

def fieldsOf (d : Description) : List Field :=
  strField "announce" (fun value tf => { tf with announce := value }) rfl d.announce ++
    (trackersField d.trackers ++
      (strField "comment" (fun value tf => { tf with comment := value }) rfl d.comment ++
        (strField "created by" (fun value tf => { tf with createdBy := value }) rfl d.createdBy ++
          (intField "creation date" (fun value tf => { tf with creationDate := value }) rfl
              d.creationDate ++
            strField "encoding" (fun value tf => { tf with encoding := value }) rfl d.encoding))))

theorem fieldsOf_entries : (fieldsOf d).map (·.entry) = d.header := by
  rw [fieldsOf, Description.header]
  simp only [List.map_append, strField, intField, trackersField, optionalEntry]
  congr 1
  · cases d.announce <;> rfl
  congr 1
  · cases d.trackers <;> rfl
  congr 1
  · cases d.comment <;> rfl
  congr 1
  · cases d.createdBy <;> rfl
  congr 1
  · cases d.creationDate <;> rfl
  · cases d.encoding <;> rfl

/-- What the header sets in an object that is new. -/
def withHeader (path : Bytes) : Metainfo :=
  { opened path with
    announceList := (d.trackers.getD []).flatten
    announce := d.announce.getD []
    comment := d.comment.getD []
    createdBy := d.createdBy.getD []
    encoding := d.encoding.getD []
    creationDate := d.creationDate.elim 0 (·.val) }

theorem fieldsOf_set (path : Bytes) :
    (fieldsOf d).foldl (fun tf field => field.set tf) (opened path) = withHeader d path := by
  rw [fieldsOf, withHeader]
  simp only [List.foldl_append]
  cases d.announce <;> cases d.trackers <;> cases d.comment <;> cases d.createdBy <;>
    cases d.creationDate <;> cases d.encoding <;> rfl

end

/-! ## The layout -/

theorem named_sizes (infos : List FileInfo) :
    total (infos.map d.named) = total infos := by
  have size (file : FileInfo) : (d.named file).size = file.size := by
    rw [Description.named]
    split <;> rfl
  simp only [total, List.map_map, Function.comp_def, size]

theorem infos_total : total d.infos = d.content.sizes.sum := by
  rw [total, Description.infos]
  cases d.content with
  | file length md5sum => rfl
  | directory first files =>
    simp only [Content.sizes, List.map_map]
    rfl

theorem fillPieceOffsets_description {tf : TorrentFile} (unset : tf.fullSize = 0)
    (pieces : tf.pieces.val = d.hashes.map (·.val)) (size : tf.pieceSize = d.pieceLength.val)
    (files : tf.files = d.infos.map d.named) :
    tf.fillPieceOffsets = .done () { tf with
      files := layFiles d.pieceLength.val 0 0 (d.infos.map d.named)
      fullSize := d.content.sizes.sum
      lastPieceSize := d.content.sizes.sum % d.pieceLength.val } := by
  have pos : tf.pieceSize ≠ 0 := by
    rw [size]
    exact Nat.ne_of_gt d.pieceLength_pos
  have some : tf.pieces.val ≠ [] := by
    rw [pieces]
    exact fun none => d.hashes_ne (List.map_eq_nil_iff.1 none)
  have same : total tf.files = d.content.sizes.sum := by
    rw [files, named_sizes, infos_total]
  have full : tf.files.foldl (fun n file => add64 n file.size) tf.fullSize =
      d.content.sizes.sum := by
    have bound := d.sizes_lt
    rw [unset, foldl_add64 _ _ (by omega), Nat.zero_add, same]
  rw [TorrentFile.fillPieceOffsets, if_neg fun zero => pos zero.2]
  dsimp only
  rw [if_neg some, if_neg pos, full, size, files]

/-! ## The torrent file -/

section
variable [SubStrings] [Heap Bytes] {d : Description} {front : List (Bytes × Value)}

/-- What a torrent file with the description has in front of `info`: the header, and entries
that no filler is for. -/
structure Heads (d : Description) (front : List (Bytes × Value)) : Prop where
  header : front.filter (registered fillers ·.1) = d.header
  foreign : ∀ entry ∈ front, registered fillers entry.1 = false →
    ∀ text ∈ entry.2.texts, registered fillers text = false
  sorted : (front ++ [(ascii "info", Value.dict d.infoDict.entries)]).Pairwise (·.1 < ·.1)
  unnamed : ascii "info" ∉ entriesTexts front

/-- The tokens of the source read what the values say. -/
theorem processLoop_lexemes {entries : List (Bytes × Value)} (s : DictSource entries)
    (path : Bytes) : processLoop fillers s.lexemes (opened path) =
      processLoop fillers (entriesLexemes entries ++ [.mark .dictEnd]) (opened path) := by
  have kept : outline.Kept none (opened path) := kept_opened path
  have bare : metainfoReader.reader.complete (s.lexemes.map Lexeme.bare) none (opened path) =
      metainfoReader.reader.complete s.lexemes none (opened path) :=
    outline.complete_map (fun _ _ => True) (fun m t s _ => step_bare m t s) kept
      fun _ _ _ _ => trivial
  rw [processLoop_fillers, ← bare, ← processLoop_fillers, s.bare]
  exact processLoop_mark .dictStart (by simp [Lexeme.IsLeaf, Lexeme.mark])

theorem processLoop_description (heads : Heads d front)
    (granted : Heap.refuses Bytes d.hashes.length = none)
    (s : DictSource (front ++ [(ascii "info", .dict d.infoDict.entries)])) (path : Bytes) :
    processLoop fillers s.lexemes (opened path) = .done () (withInfo d (withHeader d path)) := by
  have behind : entriesLexemes (front ++ [(ascii "info", .dict d.infoDict.entries)]) ++
      [.mark .dictEnd] = entriesLexemes front ++ infoLexemes d.infoDict [.mark .dictEnd] := by
    simp [entriesLexemes_append, entriesLexemes, Value.lexemes, infoLexemes]
  rw [processLoop_lexemes, behind, processLoop_front heads.foreign _ (fieldsOf d) _
    (heads.header.trans (fieldsOf_entries d).symm), fieldsOf_set]
  have read : fillInfo.run (infoLexemes d.infoDict [.mark .dictEnd]) (withHeader d path) =
      .done [] (withInfo d (withHeader d path)) := fillInfo_description d rfl rfl granted
  rw [infoLexemes] at read ⊢
  rw [processLoop_key rfl read, processLoop]

end

section
variable [SubStrings] [Externals] {d : Description} {front : List (Bytes × Value)}

/-- **A torrent file is read back.** The constructor makes of the encoding of a description the
object with all of its fields, except for `private`, with the hash of the value of `info`, and
with the files laid out. -/
theorem new_reads (heads : Heads d front)
    (granted : Heap.refuses Bytes d.hashes.length = none) (source : StringWrapper)
    (text : source.bytes = (torrent front d.infoDict.entries []).encode)
    (marks : ∀ offset, ∃ text, SubStrings.str ⟨offset, 0⟩ source = some text ∧ text ≠ ascii "info")
    (exact_log10 : ExactLog10) (path : Bytes) :
    new path source = .done () (d.read path) := by
  have parsed := BeParser.parse_value text
  let s : DictSource (front ++ [(ascii "info", .dict d.infoDict.entries)]) :=
    ⟨source, _, text, parsed⟩
  have processed : processLoop fillers (List.map (·.on source)
      (valuesTokens [torrent front d.infoDict.entries []] 0)) (opened path) =
        .done () (withInfo d (withHeader d path)) := processLoop_description heads granted s path
  have range := @infoRange_key _ _ _ _ _ _ (withInfo d (withHeader d path)) marks text exact_log10
    heads.sorted heads.unnamed
  have inside : ¬ source.size < infoAt front := by
    obtain ⟨rest, split⟩ := torrent_split text
    have length := congrArg List.length split
    simp only [StringWrapper.bytes_length, List.length_append, List.length_cons] at length
    rw [infoAt]
    omega
  rw [new, parsed, Outcome.ofExcept_ok, Outcome.bind_done, processed, Outcome.bind_done,
    calculateInfoSha1, range, Outcome.bind_done]
  dsimp only
  rw [if_neg inside, infoAt_bytes text, Outcome.bind_done,
    fillPieceOffsets_description d rfl rfl rfl rfl]
  rfl

end

/-- A file of five bytes in one piece, with the flag `private`. -/
def smallDescription : Description where
  announce := some (ascii "udp")
  content := .file ⟨5, by decide⟩ none
  name := ascii "f"
  pieceLength := ⟨8, by decide⟩
  hashes := [⟨List.replicate 20 7, rfl⟩]
  isPrivate := some ⟨1, by decide⟩
  pieceLength_pos := by decide
  hashes_ne := by decide
  hashes_lt := by decide
  sizes_lt := by decide

/-- The entries in front of `info`, with one that no filler is for. -/
def smallFront : List (Bytes × Value) :=
  [(ascii "announce", .str (ascii "udp")), (ascii "cookie", .list [.int 3])]

def describedFile : StringWrapper :=
  .ofBytes (torrent smallFront smallDescription.infoDict.entries []).encode (by decide +kernel)

theorem new_reads_small :
    @new SubStrings.cut (exactExternals id) [] describedFile =
      .done () (@Description.read smallDescription (exactExternals id) []) := by
  let _ := SubStrings.cut
  let _ := exactExternals id
  have heads : Heads smallDescription smallFront := by
    refine ⟨rfl, ?_, by decide, by decide⟩
    intro entry mem free
    rcases List.mem_cons.1 mem with rfl | mem
    · exact absurd free (by decide)
    · rw [List.mem_singleton.1 mem]
      decide
  exact new_reads heads rfl describedFile (StringWrapper.bytes_ofBytes _ _) (cut_marks _)
    (fun _ _ _ => rfl) []

end Metainfo

end TorrentClient
