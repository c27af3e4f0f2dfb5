import TorrentClient.FileDicts
import TorrentClient.InfoRange

/-!
# The dictionary `info`

The loop of `fill_info` goes through the keys of the specification. `fill_pieces`
moves the cursor once more than the others do, so what stands behind the pieces
is skipped, be it a key or the end of the dictionary.
-/

namespace TorrentClient

/-- The keys of the specification, each of them there or not. -/
structure InfoDict where
  files : Option (List FileDict) := none
  length : Option Int := none
  md5sum : Option Bytes := none
  name : Option Bytes := none
  pieceLength : Option Int := none
  pieces : Option Bytes := none
  isPrivate : Option Int := none

namespace InfoDict

/-- The entries in front of the pieces. -/
def front (d : InfoDict) : List (Bytes × Value) :=
  optionalEntry "files" (d.files.map fun dicts => .list (dicts.map (·.value))) ++
    (optionalEntry "length" (d.length.map .int) ++
      (optionalEntry "md5sum" (d.md5sum.map .str) ++
        (optionalEntry "name" (d.name.map .str) ++
          optionalEntry "piece length" (d.pieceLength.map .int))))

/-- The pieces and what stands behind them. -/
def back (d : InfoDict) : List (Bytes × Value) :=
  optionalEntry "pieces" (d.pieces.map .str) ++ optionalEntry "private" (d.isPrivate.map .int)

def entries (d : InfoDict) : List (Bytes × Value) := d.front ++ d.back

end InfoDict

/-- A dictionary with the keys of the specification. -/
structure FileDict.Specified (d : FileDict) : Prop where
  front : d.front = (ascii "length", .int d.length) ::
    (d.md5sum.map fun text => (ascii "md5sum", FileValue.str text)).toList
  back : d.back = []

theorem FileDict.Specified.walked {d : FileDict} (specified : d.Specified)
    (fits : FitsLong d.length) : d.Walked where
  odd key bodies mem := by
    rw [specified.front] at mem
    cases md5sum : d.md5sum <;> simp [md5sum] at mem
  strings entry mem := by
    rw [specified.back] at mem
    cases mem
  fits := fits

namespace Metainfo

variable {tf tf' : Metainfo} {t : Lexeme} {cursor rest behind : List Lexeme}

/-! ## One key -/

section
variable [Heap Bytes]

theorem infoLoop_leaf (key text : Bytes) (type : TokenType)
    (other : (key = ascii "pieces" → type ≠ .str) ∧ type ≠ .listStart) :
    infoLoop (.leaf .str key :: .leaf type text :: rest) tf =
      (tf.setInfo key (.leaf type text)).bind fun _ tf => infoLoop rest tf := by
  rw [infoLoop_entry rfl]
  show (tf.storeInfo key (.leaf type text) rest).bind _ = _
  rw [storeInfo, if_neg fun h => other.1 h.1 h.2, if_neg fun h => other.2 h.2, Outcome.bind_map]
  rfl

/-- The tokens are taken in as `f` when `ok` holds, and throw otherwise. -/
structure Sets (ts : List Lexeme) (ok : Prop) (f : Metainfo → Metainfo) : Prop where
  sets : ∀ tf rest, tf.files ≠ [] → ok →
    infoLoop (ts ++ rest) tf = infoLoop rest (f tf) ∧ (f tf).files ≠ []
  throws : ∀ tf rest, tf.files ≠ [] → ¬ ok → ∃ e tf', infoLoop (ts ++ rest) tf = .thrown e tf'

theorem Sets.append {xs ys : List Lexeme} {p q : Prop} {f g : Metainfo → Metainfo}
    (first : Sets xs p f) (second : Sets ys q g) : Sets (xs ++ ys) (p ∧ q) (g ∘ f) where
  sets tf rest some ok := by
    obtain ⟨taken, some'⟩ := first.sets tf (ys ++ rest) some ok.1
    rw [List.append_assoc, taken]
    exact second.sets (f tf) rest some' ok.2
  throws tf rest some bad := by
    rw [List.append_assoc]
    by_cases ok : p
    · obtain ⟨taken, some'⟩ := first.sets tf (ys ++ rest) some ok
      rw [taken]
      exact second.throws (f tf) rest some' fun hq => bad ⟨ok, hq⟩
    · exact first.throws tf (ys ++ rest) some ok

/-- The value of an integer key, where a missing one sets nothing. -/
def setInt (set : Nat → Metainfo → Metainfo) (value : Option Int) (tf : Metainfo) : Metainfo :=
  value.elim tf fun z => set (toUInt64 z) tf

def setStr (set : Bytes → Metainfo → Metainfo) (value : Option Bytes) (tf : Metainfo) : Metainfo :=
  value.elim tf fun text => set text tf

theorem sets_int (key : String) {set : Nat → Metainfo → Metainfo}
    (stores : ∀ (z : Int) (tf : Metainfo), tf.files ≠ [] →
      tf.setInfo (ascii key) (.leaf .int (decimalInt z)) =
      (Outcome.ofExcept (stoll (decimalInt z)) tf).bind fun value tf =>
        .done () (set (toUInt64 value) tf))
    (keeps : ∀ n tf, tf.files ≠ [] → (set n tf).files ≠ []) (value : Option Int) :
    Sets (entriesLexemes (optionalEntry key (value.map .int))) (∀ z ∈ value, FitsLong z)
      (setInt set value) := by
  cases value with
  | none => exact ⟨fun tf rest some _ => ⟨rfl, some⟩, fun tf rest _ bad => absurd nofun bad⟩
  | some z =>
    have fits : (∀ z' ∈ some z, FitsLong z') ↔ FitsLong z := by
      constructor
      · exact fun h => h z rfl
      · rintro h _ ⟨⟩
        exact h
    have run (tf : Metainfo) (rest : List Lexeme) (some : tf.files ≠ []) :
        infoLoop (entriesLexemes (optionalEntry key (Option.some (Value.int z))) ++ rest) tf =
          ((Outcome.ofExcept (stoll (decimalInt z)) tf).bind fun value tf =>
            .done () (set (toUInt64 value) tf)).bind fun _ tf => infoLoop rest tf := by
      have looped := @infoLoop_leaf tf rest _ (ascii key) (decimalInt z) .int
        ⟨nofun, nofun⟩
      rw [stores z tf some] at looped
      exact looped
    rw [Option.map_some, fits]
    constructor
    · intro tf rest some ok
      rw [run tf rest some, stoll_decimalInt,
        if_pos (show -2 ^ 63 ≤ z ∧ z < 2 ^ 63 from ok)]
      exact ⟨rfl, keeps _ tf some⟩
    · intro tf rest some bad
      rw [run tf rest some, stoll_decimalInt,
        if_neg (show ¬ (-2 ^ 63 ≤ z ∧ z < 2 ^ 63) from bad)]
      exact ⟨_, _, rfl⟩

theorem sets_str (key : String) {set : Bytes → Metainfo → Metainfo}
    (other : ascii key ≠ ascii "pieces")
    (stores : ∀ (text : Bytes) (tf : Metainfo), tf.files ≠ [] →
      tf.setInfo (ascii key) (.leaf .str text) = .done () (set text tf))
    (keeps : ∀ text tf, tf.files ≠ [] → (set text tf).files ≠ []) (value : Option Bytes) :
    Sets (entriesLexemes (optionalEntry key (value.map .str))) True (setStr set value) := by
  refine ⟨fun tf rest some _ => ?_, fun _ _ _ bad => absurd trivial bad⟩
  cases value with
  | none => exact ⟨rfl, some⟩
  | some text =>
    have looped := @infoLoop_leaf tf rest _ (ascii key) text .str
      ⟨fun h => absurd h other, nofun⟩
    rw [stores text tf some] at looped
    exact ⟨looped, keeps text tf some⟩

def setLength (n : Nat) (tf : Metainfo) : Metainfo :=
  { tf with files := tf.files.modifyHead fun file => { file with size := n } }

def setMd5 (text : Bytes) (tf : Metainfo) : Metainfo :=
  { tf with files := tf.files.modifyHead fun file => { file with md5Sum := text } }

theorem sets_length (value : Option Int) :
    Sets (entriesLexemes (optionalEntry "length" (value.map .int))) (∀ z ∈ value, FitsLong z)
      (setInt setLength value) := by
  apply sets_int
  · intro z tf some
    have integer : (Lexeme.leaf .int (decimalInt z)).integer = stoll (decimalInt z) := rfl
    rw [setInfo, if_neg (by simp [ascii]), if_neg (by simp [ascii]), if_neg (by simp [ascii]),
      if_neg (by simp [ascii]), if_pos ⟨rfl, rfl⟩, integer]
    cases stoll (decimalInt z) with
    | error e => rfl
    | ok value => exact setFirst_some _ some
  · intro n tf some
    simp [setLength, some]

theorem sets_md5 (value : Option Bytes) :
    Sets (entriesLexemes (optionalEntry "md5sum" (value.map .str))) True
      (setStr setMd5 value) := by
  apply sets_str _ (by decide)
  · intro text tf some
    rw [setInfo, if_neg (by simp [ascii]), if_neg (by simp [ascii]), if_neg (by simp [ascii]),
      if_pos ⟨rfl, rfl⟩]
    exact setFirst_some _ some
  · intro text tf some
    simp [setMd5, some]

theorem sets_name (value : Option Bytes) :
    Sets (entriesLexemes (optionalEntry "name" (value.map .str))) True
      (setStr (fun text tf => { tf with dirName := text }) value) := by
  apply sets_str _ (by decide)
  · intro text tf some
    rw [setInfo, if_neg (by simp [ascii]), if_neg (by simp [ascii]), if_pos ⟨rfl, rfl⟩]
    rfl
  · exact fun _ _ some => some

theorem sets_pieceLength (value : Option Int) :
    Sets (entriesLexemes (optionalEntry "piece length" (value.map .int)))
      (∀ z ∈ value, FitsLong z)
      (setInt (fun n tf => { tf with pieceSize := n }) value) := by
  apply sets_int
  · intro z tf some
    rw [setInfo, if_pos ⟨rfl, rfl⟩]
    rfl
  · exact fun _ _ some => some

theorem sets_private (value : Option Int) :
    Sets (entriesLexemes (optionalEntry "private" (value.map .int))) (∀ z ∈ value, FitsLong z)
      (setInt (fun n tf => { tf with isPrivate := n }) value) := by
  apply sets_int
  · intro z tf some
    rw [setInfo, if_neg (by simp [ascii]), if_pos ⟨rfl, rfl⟩]
    rfl
  · exact fun _ _ some => some

/-! ## The keys in front of the pieces -/

/-- The keys but for the list of files, and what they are taken in as. -/
def middleOf (d : InfoDict) : Metainfo → Metainfo :=
  ((setInt (fun n tf => { tf with pieceSize := n }) d.pieceLength ∘
    setStr (fun text tf => { tf with dirName := text }) d.name) ∘
      setStr setMd5 d.md5sum) ∘ setInt setLength d.length

/-- The integers of these keys fit. -/
def MiddleFits (d : InfoDict) : Prop :=
  (∀ z ∈ d.length, FitsLong z) ∧ ∀ z ∈ d.pieceLength, FitsLong z

theorem sets_middle (d : InfoDict) :
    Sets (entriesLexemes (optionalEntry "length" (d.length.map .int) ++
      (optionalEntry "md5sum" (d.md5sum.map .str) ++ (optionalEntry "name" (d.name.map .str) ++
        optionalEntry "piece length" (d.pieceLength.map .int))))) (MiddleFits d) (middleOf d) := by
  have all := (sets_length d.length).append ((sets_md5 d.md5sum).append
    ((sets_name d.name).append (sets_pieceLength d.pieceLength)))
  rw [true_and, true_and] at all
  simp only [entriesLexemes_append]
  exact all

/-- The files behind the list of them. -/
def filesOf (d : InfoDict) : List FileInfo :=
  match d.files with
  | none => [{}]
  | some [] => [{}]
  | some dicts => dicts.map (·.info)

omit [Heap Bytes] in
theorem filesOf_ne (d : InfoDict) : filesOf d ≠ [] := by
  unfold filesOf
  split
  · exact List.cons_ne_nil _ _
  · exact List.cons_ne_nil _ _
  · rename_i dicts some _
    intro none
    rw [List.map_eq_nil_iff] at none
    subst none
    simp_all

/-- The key `files` and its list, which `fill_files` takes. -/
theorem infoLoop_filesEntry (dicts : List FileDict) :
    infoLoop (entriesLexemes (optionalEntry "files"
        (some (.list (dicts.map (·.value))))) ++ rest) tf =
      (tf.fillFiles (listTokens dicts rest)).bind fun rest tf => infoLoop rest.tail tf := by
  have lexemes : entriesLexemes (optionalEntry "files" (some (Value.list
      (dicts.map (·.value))))) ++ rest =
        .leaf .str (ascii "files") :: .mark .listStart :: listTokens dicts rest := by
    simp [optionalEntry, entriesLexemes, Value.lexemes, listTokens]
  rw [lexemes, infoLoop_entry rfl]
  show (tf.storeInfo (ascii "files") (.mark .listStart) (listTokens dicts rest)).bind _ = _
  rw [storeInfo, if_neg (by simp [ascii]), if_pos ⟨rfl, rfl⟩]

/-- The list of files, where the object has one file. -/
theorem infoLoop_files (d : InfoDict) (walked : ∀ dicts ∈ d.files, ∀ f ∈ dicts, f.Walked)
    (one : tf.files = [{}]) :
    infoLoop (entriesLexemes (optionalEntry "files"
        (d.files.map fun dicts => .list (dicts.map (·.value)))) ++ rest) tf =
      infoLoop rest { tf with files := filesOf d } := by
  cases files : d.files with
  | none =>
    rw [filesOf, files, ← one]
    rfl
  | some dicts =>
    have taken : tf.fillFiles (listTokens dicts rest) =
        .done (.mark .listEnd :: rest) { tf with files := filesOf d } := by
      by_cases none : dicts = []
      · subst none
        have kept : ({ tf with files := filesOf d } : Metainfo) = tf := by
          rw [filesOf, files, ← one]
        rw [kept]
        exact filesLoop_other (by rintro ⟨⟩)
      · rw [fillFiles_eq none one, filesLoop_walked (walked dicts files)]
        have some : filesOf d = dicts.map (·.info) := by
          rw [filesOf, files]
          cases dicts with
          | nil => exact absurd rfl none
          | cons f dicts => rfl
        rw [some]
        rfl
    rw [Option.map_some, infoLoop_filesEntry, taken]
    rfl

/-- The object in front of the pieces. -/
def atPieces (d : InfoDict) (tf : Metainfo) : Metainfo :=
  middleOf d { tf with files := filesOf d }

theorem infoLoop_front (d : InfoDict) (walked : ∀ dicts ∈ d.files, ∀ f ∈ dicts, f.Walked)
    (fits : MiddleFits d) (one : tf.files = [{}]) :
    infoLoop (entriesLexemes d.front ++ rest) tf = infoLoop rest (atPieces d tf) ∧
      (atPieces d tf).files ≠ [] := by
  rw [InfoDict.front, entriesLexemes_append, List.append_assoc, infoLoop_files d walked one]
  exact (sets_middle d).sets { tf with files := filesOf d } rest (filesOf_ne d) fits

/-- The key, its dictionary and what stands behind it. -/
def infoLexemes (d : InfoDict) (rest : List Lexeme) : List Lexeme :=
  .leaf .str (ascii "info") :: .mark .dictStart ::
    (entriesLexemes d.entries ++ .mark .dictEnd :: rest)

theorem fillInfo_lexemes (d : InfoDict) (rest : List Lexeme) (fresh : tf.files = []) :
    fillInfo.run (infoLexemes d rest) tf =
      (infoLoop (entriesLexemes d.front ++ (entriesLexemes d.back ++ .mark .dictEnd :: rest))
        { tf with files := [{}] }).bind fun rest tf => .done rest tf.setPaths := by
  rw [← List.append_assoc, ← entriesLexemes_append]
  show (infoLoop _ { tf with files := tf.files ++ [{}] }).bind _ = _
  rw [fresh]
  rfl

/-! ## The pieces and the keys behind them -/

/-- Without pieces the dictionary is read to its end. -/
theorem infoLoop_back_none (d : InfoDict) (none : d.pieces = none)
    (fits : ∀ z ∈ d.isPrivate, FitsLong z) (some : tf.files ≠ []) :
    infoLoop (entriesLexemes d.back ++ .mark .dictEnd :: rest) tf =
      .done rest (setInt (fun n tf => { tf with isPrivate := n }) d.isPrivate tf) := by
  rw [InfoDict.back, none]
  show infoLoop (entriesLexemes (optionalEntry "private" (d.isPrivate.map .int)) ++ _) tf = _
  rw [((sets_private d.isPrivate).sets tf _ some fits).1, infoLoop_end rfl]

theorem infoLoop_back_thrown (d : InfoDict) (none : d.pieces = none)
    (unfit : ¬ ∀ z ∈ d.isPrivate, FitsLong z) (some : tf.files ≠ []) :
    ∃ e tf', infoLoop (entriesLexemes d.back ++ .mark .dictEnd :: rest) tf = .thrown e tf' := by
  rw [InfoDict.back, none]
  exact (sets_private d.isPrivate).throws tf _ some unfit

/-- The pieces, where the token behind them is skipped. -/
theorem infoLoop_pieces (pieces : Bytes) :
    infoLoop (.leaf .str (ascii "pieces") :: .leaf .str pieces :: rest) tf =
      (tf.fillPieces (.leaf .str pieces) rest).bind fun rest tf => infoLoop rest.tail tf := by
  rw [infoLoop_entry rfl]
  show (tf.storeInfo (ascii "pieces") (.leaf .str pieces) rest).bind _ = _
  rw [storeInfo, if_pos ⟨rfl, rfl⟩]

theorem fillPieces_rest {v : Lexeme} (h : tf.fillPieces v cursor = .done rest tf') :
    rest = cursor := by
  unfold fillPieces at h
  split at h
  · cases h
  · obtain ⟨_, _, -, pushed⟩ := Outcome.bind_eq_done h
    obtain ⟨_, _, -, last⟩ := Outcome.bind_eq_done pushed
    cases last
    rfl

/-- Some token is taken. -/
theorem infoLoop_advances (h : infoLoop (t :: cursor) tf = .done rest tf') :
    rest.length ≤ cursor.length := by
  by_cases str : t.type = .str
  · match cursor with
    | [] =>
      rw [infoLoop_last str] at h
      obtain ⟨_, _, -, later⟩ := Outcome.bind_eq_done h
      cases later
    | v :: cursor =>
      rw [infoLoop_entry str] at h
      obtain ⟨key, tf₁, -, later⟩ := Outcome.bind_eq_done h
      obtain ⟨behind, tf₂, stored, later⟩ := Outcome.bind_eq_done later
      have shorter := tail_lt_of_suffix (storeInfo_suffix stored)
      exact ((infoLoop_suffix later).length_le.trans shorter).trans (Nat.le_succ _)
  · by_cases dictEnd : t.type = .dictEnd
    · rw [infoLoop_end dictEnd] at h
      cases h
      exact Nat.le_refl _
    · rw [infoLoop_other str dictEnd] at h
      cases h
      exact Nat.zero_le _

/-- With pieces, the loop never stops behind the end of the dictionary. -/
theorem infoLoop_overshoots (d : InfoDict) (pieces : d.pieces ≠ none) (ne : behind ≠ [])
    (h : infoLoop (entriesLexemes d.back ++ .mark .dictEnd :: behind) tf = .done rest tf') :
    rest.length < behind.length := by
  obtain ⟨p, some⟩ := Option.ne_none_iff_exists'.1 pieces
  have lexemes : entriesLexemes d.back ++ .mark .dictEnd :: behind =
      .leaf .str (ascii "pieces") :: .leaf .str p ::
        (entriesLexemes (optionalEntry "private" (d.isPrivate.map .int)) ++
          .mark .dictEnd :: behind) := by
    rw [InfoDict.back, some, entriesLexemes_append]
    rfl
  rw [lexemes, infoLoop_pieces] at h
  obtain ⟨left, tf₁, filled, later⟩ := Outcome.bind_eq_done h
  cases fillPieces_rest filled
  cases secret : d.isPrivate with
  | some z =>
    rw [secret] at later
    have stops : infoLoop (.leaf .int (decimalInt z) :: .mark .dictEnd :: behind) tf₁ =
        .done [] tf₁ := infoLoop_other nofun nofun
    have same : (.done [] tf₁ : Outcome Thrown Metainfo (List Lexeme)) = .done rest tf' :=
      stops.symm.trans later
    cases same
    exact List.length_pos_iff.2 ne
  | none =>
    rw [secret] at later
    obtain ⟨t, behind, rfl⟩ := List.exists_cons_of_ne_nil ne
    exact Nat.lt_succ_of_le (infoLoop_advances later)

end

/-! ## The fields of the keys -/

/-- The consecutive slices of twenty bytes. -/
def slices20 (pieces : Bytes) : List Bytes :=
  (List.range (pieces.length / 20)).map fun i => (pieces.drop (i * 20)).take 20

/-- The fields have the values of the keys, and those of missing keys are as
they were. Without a list of files the length and the checksum are of the only file. -/
structure Holds (d : InfoDict) (tf tf' : Metainfo) : Prop where
  pieceSize : tf'.pieceSize = d.pieceLength.getD tf.pieceSize
  isPrivate : tf'.isPrivate = d.isPrivate.getD tf.isPrivate
  dirName : tf'.dirName = d.name.getD tf.dirName
  pieces : tf'.pieces.val = (d.pieces.map slices20).getD tf.pieces.val
  single : d.files = none → ∃ file, tf'.files = [file] ∧ file.size = d.length.getD 0 ∧
    file.md5Sum = d.md5sum.getD []

theorem toUInt64_eq_iff {z : Int} (fits : FitsLong z) : (toUInt64 z : Int) = z ↔ 0 ≤ z := by
  rw [FitsLong] at fits
  constructor
  · omega
  · intro nonneg
    rw [toUInt64_of_nonneg nonneg (by omega)]
    omega

theorem setInt_getD_iff {value : Option Int} (fits : ∀ z ∈ value, FitsLong z) (n : Nat) :
    ((value.elim n toUInt64 : Nat) : Int) = value.getD n ↔ ∀ z ∈ value, 0 ≤ z := by
  cases value with
  | none => exact iff_of_true rfl nofun
  | some z =>
    refine (toUInt64_eq_iff (fits z rfl)).trans ⟨?_, fun h => h z rfl⟩
    rintro h _ ⟨⟩
    exact h

/-- What a dictionary without pieces is taken in as. -/
def taken (d : InfoDict) (tf : Metainfo) : Metainfo :=
  (setInt (fun n tf => { tf with isPrivate := n }) d.isPrivate (atPieces d tf)).setPaths

theorem taken_pieceSize (d : InfoDict) (tf : Metainfo) :
    (taken d tf).pieceSize = d.pieceLength.elim tf.pieceSize toUInt64 := by
  simp only [taken, setPaths, atPieces, middleOf, Function.comp]
  cases d.isPrivate <;> cases d.pieceLength <;> cases d.name <;> cases d.md5sum <;>
    cases d.length <;> rfl

theorem taken_isPrivate (d : InfoDict) (tf : Metainfo) :
    (taken d tf).isPrivate = d.isPrivate.elim tf.isPrivate toUInt64 := by
  simp only [taken, setPaths, atPieces, middleOf, Function.comp]
  cases d.isPrivate <;> cases d.pieceLength <;> cases d.name <;> cases d.md5sum <;>
    cases d.length <;> rfl

theorem taken_dirName (d : InfoDict) (tf : Metainfo) :
    (taken d tf).dirName = d.name.getD tf.dirName := by
  simp only [taken, setPaths, atPieces, middleOf, Function.comp]
  cases d.isPrivate <;> cases d.pieceLength <;> cases d.name <;> cases d.md5sum <;>
    cases d.length <;> rfl

theorem taken_pieces (d : InfoDict) (tf : Metainfo) : (taken d tf).pieces = tf.pieces := by
  simp only [taken, setPaths, atPieces, middleOf, Function.comp]
  cases d.isPrivate <;> cases d.pieceLength <;> cases d.name <;> cases d.md5sum <;>
    cases d.length <;> rfl

theorem taken_single (d : InfoDict) (tf : Metainfo) (none : d.files = none) :
    ∃ file, (taken d tf).files = [file] ∧ file.size = d.length.elim 0 toUInt64 ∧
      file.md5Sum = d.md5sum.getD [] := by
  simp only [taken, setPaths, atPieces, middleOf, filesOf, none, Function.comp]
  cases d.isPrivate <;> cases d.pieceLength <;> cases d.name <;> cases d.md5sum <;>
    cases d.length <;> exact ⟨_, rfl, rfl, rfl⟩

/-- The integers fit, and those a field is set to are not negative. -/
structure InRange (d : InfoDict) : Prop where
  pieceLength : ∀ z ∈ d.pieceLength, FitsLong z ∧ 0 ≤ z
  isPrivate : ∀ z ∈ d.isPrivate, FitsLong z ∧ 0 ≤ z
  length : ∀ z ∈ d.length, FitsLong z ∧ (d.files = none → 0 ≤ z)
  files : ∀ dicts ∈ d.files, ∀ f ∈ dicts, FitsLong f.length

theorem taken_holds_iff (d : InfoDict) (none : d.pieces = none) (fits : MiddleFits d)
    (secret : ∀ z ∈ d.isPrivate, FitsLong z) : Holds d tf (taken d tf) ↔
      (∀ z ∈ d.pieceLength, 0 ≤ z) ∧ (∀ z ∈ d.isPrivate, 0 ≤ z) ∧
        (d.files = Option.none → ∀ z ∈ d.length, 0 ≤ z) := by
  rw [← setInt_getD_iff fits.2 tf.pieceSize, ← setInt_getD_iff secret tf.isPrivate]
  constructor
  · intro holds
    refine ⟨?_, ?_, fun single => ?_⟩
    · rw [← taken_pieceSize]
      exact holds.pieceSize
    · rw [← taken_isPrivate]
      exact holds.isPrivate
    · obtain ⟨file, one, size, -⟩ := holds.single single
      obtain ⟨file', one', size', -⟩ := taken_single d tf single
      rw [one] at one'
      cases one'
      rw [size'] at size
      exact (setInt_getD_iff fits.1 0).1 size
  · rintro ⟨pieceSize, isPrivate, length⟩
    refine ⟨?_, ?_, taken_dirName d tf, ?_, fun single => ?_⟩
    · rw [taken_pieceSize]
      exact pieceSize
    · rw [taken_isPrivate]
      exact isPrivate
    · rw [taken_pieces, none]
      rfl
    · obtain ⟨file, one, size, md5⟩ := taken_single d tf single
      refine ⟨file, one, ?_, md5⟩
      rw [size]
      exact (setInt_getD_iff fits.1 0).2 (length single)

theorem inRange_iff (d : InfoDict) : InRange d ↔
    (∀ dicts ∈ d.files, ∀ f ∈ dicts, FitsLong f.length) ∧ MiddleFits d ∧
      (∀ z ∈ d.isPrivate, FitsLong z) ∧ (∀ z ∈ d.pieceLength, 0 ≤ z) ∧
        (∀ z ∈ d.isPrivate, 0 ≤ z) ∧ (d.files = none → ∀ z ∈ d.length, 0 ≤ z) := by
  constructor
  · intro h
    exact ⟨h.files, ⟨fun z mem => (h.length z mem).1, fun z mem => (h.pieceLength z mem).1⟩,
      fun z mem => (h.isPrivate z mem).1, fun z mem => (h.pieceLength z mem).2,
      fun z mem => (h.isPrivate z mem).2, fun none z mem => (h.length z mem).2 none⟩
  · rintro ⟨files, ⟨length, pieceLength⟩, secret, nonneg, secretNonneg, lengthNonneg⟩
    exact ⟨fun z mem => ⟨pieceLength z mem, nonneg z mem⟩,
      fun z mem => ⟨secret z mem, secretNonneg z mem⟩,
      fun z mem => ⟨length z mem, fun none => lengthNonneg none z mem⟩, files⟩

/-! ## Dictionaries of the specification -/

theorem filesLoop_unfit {dicts : List FileDict} (specified : ∀ d ∈ dicts, d.Specified)
    (unfit : ¬ ∀ d ∈ dicts, FitsLong d.length) :
    ∃ e tf', filesLoop false (listTokens dicts rest) tf = .thrown e tf' := by
  induction dicts generalizing tf with
  | nil => exact absurd nofun unfit
  | cons d dicts ih =>
    obtain ⟨first, later⟩ := List.forall_mem_cons.1 specified
    rw [listTokens_cons, filesLoop_dict rfl]
    show ∃ e tf', (fileLoop _ (tf.withLast tf.files {})).bind _ = .thrown e tf'
    by_cases fits : FitsLong d.length
    · rw [fileLoop_dict (first.walked fits), fileLoop_listTokens, Outcome.bind_done]
      exact ih later fun all => unfit (List.forall_mem_cons.2 ⟨fits, all⟩)
    · rw [dictTokens, first.front, fileEntries_cons, fileLoop_entry_front _ _ (by decide)]
      dsimp only
      rw [if_pos ⟨rfl, fits⟩]
      exact ⟨_, _, rfl⟩

section
variable [Heap Bytes]

theorem infoLoop_files_unfit (d : InfoDict)
    (specified : ∀ dicts ∈ d.files, ∀ f ∈ dicts, f.Specified)
    (unfit : ¬ ∀ dicts ∈ d.files, ∀ f ∈ dicts, FitsLong f.length) (one : tf.files = [{}]) :
    ∃ e tf', infoLoop (entriesLexemes (optionalEntry "files"
      (d.files.map fun dicts => .list (dicts.map (·.value)))) ++ rest) tf = .thrown e tf' := by
  cases files : d.files with
  | none =>
    rw [files] at unfit
    exact absurd nofun unfit
  | some dicts =>
    have unfit' : ¬ ∀ f ∈ dicts, FitsLong f.length := by
      intro all
      apply unfit
      rw [files]
      rintro _ ⟨⟩
      exact all
    have ne : dicts ≠ [] := by
      rintro rfl
      exact unfit' nofun
    obtain ⟨e, tf', thrown⟩ := @filesLoop_unfit { tf with files := [] } rest _
      (specified dicts files) unfit'
    refine ⟨e, tf', ?_⟩
    rw [Option.map_some, infoLoop_filesEntry, fillFiles_eq ne one, thrown]
    rfl

/-- An integer in front of the pieces that does not fit ends the reading. -/
theorem infoLoop_front_thrown (d : InfoDict)
    (specified : ∀ dicts ∈ d.files, ∀ f ∈ dicts, f.Specified)
    (unfit : ¬ ((∀ dicts ∈ d.files, ∀ f ∈ dicts, FitsLong f.length) ∧ MiddleFits d))
    (one : tf.files = [{}]) :
    ∃ e tf', infoLoop (entriesLexemes d.front ++ rest) tf = .thrown e tf' := by
  rw [InfoDict.front, entriesLexemes_append, List.append_assoc]
  by_cases fits : ∀ dicts ∈ d.files, ∀ f ∈ dicts, FitsLong f.length
  · rw [infoLoop_files d (fun dicts mem f mem' => (specified dicts mem f mem').walked
      (fits dicts mem f mem')) one]
    exact (sets_middle d).throws _ rest (filesOf_ne d) fun middle => unfit ⟨fits, middle⟩
  · exact infoLoop_files_unfit d specified fits one

/-- The key and its dictionary, in front of other tokens. -/
theorem fillInfo_lexemes_iff (d : InfoDict)
    (specified : ∀ dicts ∈ d.files, ∀ f ∈ dicts, f.Specified) (ne : behind ≠ [])
    (fresh : tf.files = []) :
    (∃ tf', fillInfo.run (infoLexemes d behind) tf = .done behind tf' ∧ Holds d tf tf') ↔
      d.pieces = none ∧ InRange d := by
  have one : ({ tf with files := [{}] } : Metainfo).files = [{}] := rfl
  rw [fillInfo_lexemes d behind fresh, inRange_iff]
  by_cases front : (∀ dicts ∈ d.files, ∀ f ∈ dicts, FitsLong f.length) ∧ MiddleFits d
  · obtain ⟨taken, some⟩ := @infoLoop_front _
      (entriesLexemes d.back ++ .mark .dictEnd :: behind) _ d
      (fun dicts mem f mem' => (specified dicts mem f mem').walked (front.1 dicts mem f mem'))
      front.2 one
    rw [taken]
    by_cases none : d.pieces = none
    · by_cases secret : ∀ z ∈ d.isPrivate, FitsLong z
      · have holds := @taken_holds_iff tf d none front.2 secret
        rw [infoLoop_back_none d none secret some, Outcome.bind_done]
        constructor
        · rintro ⟨tf', eq, h⟩
          cases eq
          exact ⟨none, front.1, front.2, secret, holds.1 h⟩
        · rintro ⟨-, -, -, -, nonneg⟩
          exact ⟨_, rfl, holds.2 nonneg⟩
      · obtain ⟨e, tf', thrown⟩ := @infoLoop_back_thrown _ behind _ d none secret some
        rw [thrown]
        refine iff_of_false ?_ fun h => secret h.2.2.2.1
        rintro ⟨_, eq, -⟩
        cases eq
    · refine iff_of_false ?_ fun h => none h.1
      rintro ⟨tf', eq, -⟩
      obtain ⟨rest, tf₁, looped, last⟩ := Outcome.bind_eq_done eq
      cases last
      exact Nat.lt_irrefl _ (infoLoop_overshoots d none ne looped)
  · obtain ⟨e, tf', thrown⟩ := @infoLoop_front_thrown _
      (entriesLexemes d.back ++ .mark .dictEnd :: behind) _ d specified front one
    rw [thrown]
    refine iff_of_false ?_ fun h => front ⟨h.2.1, h.2.2.1⟩
    rintro ⟨_, eq, -⟩
    cases eq

end

/-! ## In a torrent file -/

section
variable [SubStrings] {source : StringWrapper} {front back info : List (Bytes × Value)}

/-- The tokens from the key `info` on. -/
def keyTokens (front info back : List (Bytes × Value)) : List BeToken :=
  stringToken (ascii "info") (1 + (encodeEntries front).length) ::
    ((Value.dict info).tokens (infoAt front) ++ behindTokens front info back)

omit [SubStrings] in
theorem parsed_torrent (text : source.bytes = (torrent front info back).encode)
    {cursor : List BeToken} (parsed : BeParser.parse source = .ok (frontTokens front ++ cursor)) :
    cursor = keyTokens front info back := by
  rw [BeParser.parse_value text, torrent_tokens] at parsed
  exact (List.append_cancel_left (Except.ok.inj parsed)).symm

theorem bares_on (tokens : List BeToken) :
    bares (tokens.map (·.on source)) = tokens.map (BeToken.bareOn source) := List.map_map

theorem bares_behind (text : source.bytes = (torrent front info back).encode) :
    bares ((behindTokens front info back).map (·.on source)) =
      entriesLexemes back ++ [.mark .dictEnd] := by
  have split : source.bytes =
      (100 :: encodeEntries front ++ encodeString (ascii "info") ++ (Value.dict info).encode) ++
        encodeEntries back ++ [101] := by
    rw [text]
    simp only [torrent, Value.encode, encodeEntries_append, encodeEntries, List.cons_append,
      List.append_assoc]
  have on := entriesTokens_on back split
  have stop : (100 :: encodeEntries front ++ encodeString (ascii "info") ++
      (Value.dict info).encode).length = infoAt front + (Value.dict info).encode.length := by
    simp only [infoAt, List.length_append, List.length_cons]
    omega
  rw [stop] at on
  rw [bares_on, behindTokens, List.map_append, on, List.map_singleton,
    BeToken.bareOn_mark .dictEnd (by decide)]

theorem bares_key (text : source.bytes = (torrent front info back).encode) :
    bares ((keyTokens front info back).map (·.on source)) =
      .leaf .str (ascii "info") :: ((Value.dict info).lexemes ++
        (entriesLexemes back ++ [.mark .dictEnd])) := by
  obtain ⟨rest, split⟩ := torrent_split text
  have key := BeToken.bareOn_string split
  have split' : source.bytes = (100 :: encodeEntries front ++ encodeString (ascii "info")) ++
      (Value.dict info).encode ++ (encodeEntries back ++ rest) := by
    rw [split, List.append_assoc _ (Value.dict info).encode]
  have value := (Value.dict info).tokens_on split'
  have at_info : (100 :: encodeEntries front ++ encodeString (ascii "info")).length =
      infoAt front := by
    simp only [infoAt, List.length_append, List.length_cons]
    omega
  have behind := bares_behind text
  rw [List.length_cons, Nat.add_comm] at key
  rw [at_info] at value
  rw [bares_on] at behind
  rw [bares_on, keyTokens, List.map_cons, List.map_append, key, value, behind]

/-- The tokens of the file and those of the value are read alike. -/
theorem bares_torrent (d : InfoDict)
    (text : source.bytes = (torrent front d.entries back).encode) {cursor : List BeToken}
    (parsed : BeParser.parse source = .ok (frontTokens front ++ cursor)) :
    bares (cursor.map (·.on source)) = infoLexemes d (entriesLexemes back ++ [.mark .dictEnd]) := by
  rw [parsed_torrent text parsed, bares_key text, infoLexemes, Value.lexemes]
  simp only [List.cons_append, List.nil_append, List.append_assoc]

variable [Heap Bytes]

theorem fillInfo_on (d : InfoDict)
    (text : source.bytes = (torrent front d.entries back).encode) {cursor : List BeToken}
    (parsed : BeParser.parse source = .ok (frontTokens front ++ cursor)) :
    fillInfo.run (cursor.map (·.on source)) tf =
        .done ((behindTokens front d.entries back).map (·.on source)) tf' ↔
      fillInfo.run (infoLexemes d (entriesLexemes back ++ [.mark .dictEnd])) tf =
        .done (entriesLexemes back ++ [.mark .dictEnd]) tf' := by
  have suffix : behindTokens front d.entries back <:+ cursor := by
    rw [parsed_torrent text parsed]
    exact (List.suffix_append _ _).trans (List.suffix_cons _ _)
  rw [← bares_torrent d text parsed, ← bares_behind text]
  exact (fillInfo_done_iff (suffix.map _)).symm

/-- **When `fill_info` takes in the keys of the specification.** -/
theorem fillInfo_iff (d : InfoDict) (specified : ∀ dicts ∈ d.files, ∀ f ∈ dicts, f.Specified)
    (text : source.bytes = (torrent front d.entries back).encode) {cursor : List BeToken}
    (parsed : BeParser.parse source = .ok (frontTokens front ++ cursor))
    (fresh : tf.files = []) :
    (∃ tf', fillInfo.run (cursor.map (·.on source)) tf =
        .done ((behindTokens front d.entries back).map (·.on source)) tf' ∧ Holds d tf tf') ↔
      d.pieces = none ∧ InRange d := by
  simp only [fillInfo_on d text parsed]
  exact fillInfo_lexemes_iff d specified (by simp) fresh

end

/-- A file of five bytes in pieces of eight, with the hash or without. -/
def smallInfo (pieces : Option Bytes) : InfoDict where
  length := some 5
  name := some (ascii "f")
  pieceLength := some 8
  pieces := pieces
  isPrivate := some 1

def smallTorrent (pieces : Option Bytes) : Value :=
  torrent [(ascii "announce", .str (ascii "udp"))] (smallInfo pieces).entries []

theorem smallTorrent_parsed (pieces : Option Bytes) {source : StringWrapper}
    (text : source.bytes = (smallTorrent pieces).encode) :
    BeParser.parse source = .ok (frontTokens [(ascii "announce", .str (ascii "udp"))] ++
      keyTokens [(ascii "announce", .str (ascii "udp"))] (smallInfo pieces).entries []) := by
  rw [BeParser.parse_value text, smallTorrent, torrent_tokens]
  rfl

def unhashed : StringWrapper := .ofBytes (smallTorrent none).encode (by decide)

theorem fillInfo_unhashed :
    ∃ tf', (@fillInfo stringHeap).run ((keyTokens [(ascii "announce", .str (ascii "udp"))]
        (smallInfo none).entries []).map (@BeToken.on SubStrings.cut unhashed)) (opened []) =
      .done ((behindTokens [(ascii "announce", .str (ascii "udp"))]
        (smallInfo none).entries []).map (@BeToken.on SubStrings.cut unhashed)) tf' ∧
      Holds (smallInfo none) (opened []) tf' := by
  have text : unhashed.bytes = (smallTorrent none).encode := StringWrapper.bytes_ofBytes _ _
  have inRange : InRange (smallInfo none) := by
    constructor
    · rintro _ ⟨⟩
      decide
    · rintro _ ⟨⟩
      decide
    · rintro _ ⟨⟩
      decide
    · nofun
  exact (@fillInfo_iff _ SubStrings.cut _ _ _ stringHeap (smallInfo none) nofun text _
    (smallTorrent_parsed none text) rfl).2 ⟨rfl, inRange⟩

def hashed : StringWrapper :=
  .ofBytes (smallTorrent (some (List.replicate 20 7))).encode (by decide)

/-- With the pieces the key behind them is skipped. -/
theorem fillInfo_hashed :
    ¬ ∃ tf', (@fillInfo stringHeap).run ((keyTokens [(ascii "announce", .str (ascii "udp"))]
        (smallInfo (some (List.replicate 20 7))).entries []).map
          (@BeToken.on SubStrings.cut hashed)) (opened []) =
      .done ((behindTokens [(ascii "announce", .str (ascii "udp"))]
        (smallInfo (some (List.replicate 20 7))).entries []).map
          (@BeToken.on SubStrings.cut hashed)) tf' ∧
      Holds (smallInfo (some (List.replicate 20 7))) (opened []) tf' := by
  have text : hashed.bytes = (smallTorrent (some (List.replicate 20 7))).encode :=
    StringWrapper.bytes_ofBytes _ _
  rintro ⟨tf', run, holds⟩
  rw [@fillInfo_on _ _ SubStrings.cut _ _ _ stringHeap _ text _
    (smallTorrent_parsed _ text)] at run
  have pieces := ((@fillInfo_lexemes_iff _ _ stringHeap
    (smallInfo (some (List.replicate 20 7))) nofun (by simp) rfl).1 ⟨tf', run, holds⟩).1
  cases pieces

end Metainfo

end TorrentClient
