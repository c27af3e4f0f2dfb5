import TorrentClient.NestedLists

/-!
# The dictionaries of the files

The loops of `fill_files` do not look at where a dictionary ends: the increment
behind `path` is what passes over it. A dictionary is read as it should be when
nothing else gets in the way.
-/

namespace TorrentClient

/-- The values in the dictionary of a file. -/
inductive FileValue where
  | str (body : Bytes)
  | int (value : Int)
  | texts (bodies : List Bytes)
  deriving DecidableEq, Repr

def FileValue.value : FileValue → Value
  | .str body => .str body
  | .int value => .int value
  | .texts bodies => .list (bodies.map .str)

/-- A dictionary in the list of files, with the entries in front of `path` and
behind it. -/
structure FileDict where
  front : List (Bytes × FileValue)
  path : List Bytes
  back : List (Bytes × FileValue)
  length : Int
  md5sum : Option Bytes
  sorted : (front ++ (ascii "path", .texts path) :: back).Pairwise (·.1 < ·.1)
  length_mem : (ascii "length", .int length) ∈ front
  md5sum_mem : ∀ v, (ascii "md5sum", v) ∈ front ↔ v ∈ md5sum.map FileValue.str

/-- The entries as they stand in a dictionary. -/
def fileEntries (entries : List (Bytes × FileValue)) : List (Bytes × Value) :=
  entries.map fun entry => (entry.1, entry.2.value)

def FileDict.entries (d : FileDict) : List (Bytes × FileValue) :=
  d.front ++ (ascii "path", .texts d.path) :: d.back

def FileDict.value (d : FileDict) : Value := .dict (fileEntries d.entries)

/-- A `long long` holds the integer. -/
def FitsLong (z : Int) : Prop := -2 ^ 63 ≤ z ∧ z < 2 ^ 63

instance (z : Int) : Decidable (FitsLong z) := inferInstanceAs (Decidable (_ ∧ _))

/-! ## What is read -/

/-- The texts by twos. -/
def pairsOf : List Bytes → List (Bytes × Bytes)
  | a :: b :: texts => (a, b) :: pairsOf texts
  | _ => []

/-- The strings that are read as a key and its value, in front of `path`. -/
def frontPairs : List (Bytes × FileValue) → List (Bytes × Bytes)
  | [] => []
  | (key, .str body) :: entries => (key, body) :: frontPairs entries
  | (_, .int _) :: entries => frontPairs entries
  | (_, .texts bodies) :: entries => pairsOf bodies ++ frontPairs entries

/-- Behind `path`, where a key is skipped: a value and the key behind it. -/
def backPairs : List (Bytes × FileValue) → List (Bytes × Bytes)
  | (_, .str body) :: (key, v) :: entries => (body, key) :: backPairs ((key, v) :: entries)
  | _ => []

/-- The last value that is read behind `md5sum`. -/
def lastMd5 (pairs : List (Bytes × Bytes)) (text : Bytes) : Bytes :=
  pairs.foldl (fun text pair => if pair.1 = ascii "md5sum" then pair.2 else text) text

def FileDict.pairs (d : FileDict) : List (Bytes × Bytes) :=
  frontPairs d.front ++ backPairs d.back

/-- The loop gets to the end of the dictionary: lists in front of `path` have an
odd number of texts, the values behind it are strings, the length fits. -/
structure FileDict.Walked (d : FileDict) : Prop where
  odd : ∀ key bodies, (key, .texts bodies) ∈ d.front → bodies.length % 2 = 1
  strings : ∀ entry ∈ d.back, ∃ body, entry.2 = .str body
  fits : FitsLong d.length

/-- A file that the dictionary is taken in as. -/
def FileInfo.Describes (file : FileInfo) (d : FileDict) : Prop :=
  file.size = d.length ∧ file.md5Sum = d.md5sum.getD [] ∧ file.path = d.path

namespace Metainfo

variable {tf : Metainfo} {files : List FileInfo} {file : FileInfo} {rest : List Lexeme}

/-- The object with a last file. -/
def withLast (tf : Metainfo) (files : List FileInfo) (file : FileInfo) : Metainfo :=
  { tf with files := files ++ [file] }

@[simp] theorem setBack_withLast (f : FileInfo → FileInfo) :
    (tf.withLast files file).setBack f = .done () (tf.withLast files (f file)) := by
  simp [setBack, withLast, modifyBack]

/-- What two strings say about a file. -/
def noteText (file : FileInfo) (pair : Bytes × Bytes) : FileInfo :=
  if pair.1 = ascii "md5sum" then { file with md5Sum := pair.2 } else file

/-- What an entry in front of `path` says about a file. -/
def noteEntry (file : FileInfo) : Bytes × FileValue → FileInfo
  | (key, .str body) => noteText file (key, body)
  | (key, .int value) =>
    if key = ascii "length" then { file with size := toUInt64 value } else file
  | (_, .texts bodies) => (pairsOf bodies).foldl noteText file

theorem setFile_str (key body : Bytes) :
    (tf.withLast files file).setFile key (.leaf .str body) =
      .done () (tf.withLast files (noteText file (key, body))) := by
  rw [setFile]
  by_cases md5 : key = ascii "md5sum"
  · rw [if_pos ⟨md5, rfl⟩, noteText, if_pos md5]
    exact setBack_withLast _
  · rw [if_neg fun h => md5 h.1, if_neg (by simp [Lexeme.leaf]), noteText, if_neg md5]

theorem setFile_int (key : Bytes) (value : Int) :
    (tf.withLast files file).setFile key (.leaf .int (decimalInt value)) =
      if key = ascii "length" ∧ ¬ FitsLong value then .thrown .outOfRange (tf.withLast files file)
      else .done () (tf.withLast files (noteEntry file (key, .int value))) := by
  have integer : (Lexeme.leaf .int (decimalInt value)).integer = stoll (decimalInt value) := rfl
  rw [setFile, if_neg (by simp [Lexeme.leaf]), noteEntry]
  by_cases length : key = ascii "length"
  · rw [if_pos ⟨length, rfl⟩, integer, stoll_decimalInt, if_pos length]
    by_cases fits : FitsLong value
    · rw [if_pos (show -2 ^ 63 ≤ value ∧ value < 2 ^ 63 from fits), if_neg fun h => h.2 fits]
      exact setBack_withLast _
    · rw [if_neg (show ¬ (-2 ^ 63 ≤ value ∧ value < 2 ^ 63) from fits), if_pos ⟨length, fits⟩]
      rfl
  · rw [if_neg fun h => length h.1, if_neg fun h => length h.1, if_neg length]

theorem setFile_mark (key : Bytes) (type : TokenType) (other : type ≠ .int ∧ type ≠ .str) :
    tf.setFile key (.mark type) = .done () tf := by
  rw [setFile, if_neg fun h => other.2 h.2, if_neg fun h => other.1 h.2]

/-! ## One dictionary -/

theorem fileLoop_leaf (key text : Bytes) (type : TokenType) (other : type ≠ .listStart) :
    fileLoop (.leaf .str key :: .leaf type text :: rest) tf =
      (tf.setFile key (.leaf type text)).bind fun _ tf => fileLoop rest tf := by
  rw [fileLoop_entry rfl]
  show (tf.storeFile key (.leaf type text) rest).bind _ = _
  rw [storeFile, if_neg fun h => other h.2, Outcome.bind_map]
  rfl

/-- A list that is not the path is entered, as if its start were the value. -/
theorem fileLoop_list (key : Bytes) (other : key ≠ ascii "path") :
    fileLoop (.leaf .str key :: .mark .listStart :: rest) tf = fileLoop rest tf := by
  rw [fileLoop_entry rfl]
  show (tf.storeFile key (.mark .listStart) rest).bind _ = _
  rw [storeFile, if_neg fun h => other h.1, setFile_mark _ _ (by decide)]
  rfl

/-- A string in front of the end of a list or dictionary takes the end as its value. -/
theorem fileLoop_close (key : Bytes) (type : TokenType)
    (close : type = .listEnd ∨ type = .dictEnd) :
    fileLoop (.leaf .str key :: .mark type :: rest) tf = fileLoop rest tf := by
  rw [fileLoop_entry rfl]
  show (tf.storeFile key (.mark type) rest).bind _ = _
  rcases close with rfl | rfl
  · rw [storeFile, if_neg (by rintro ⟨-, ⟨⟩⟩), setFile_mark _ _ (by decide)]
    rfl
  · rw [storeFile, if_neg (by rintro ⟨-, ⟨⟩⟩), setFile_mark _ _ (by decide)]
    rfl

theorem fileLoop_texts (texts : List Bytes) :
    fileLoop (valuesLexemes (texts.map .str) ++ .mark .listEnd :: rest) (tf.withLast files file) =
      if texts.length % 2 = 1 then
        fileLoop rest (tf.withLast files ((pairsOf texts).foldl noteText file))
      else .done (.mark .listEnd :: rest)
        (tf.withLast files ((pairsOf texts).foldl noteText file)) := by
  induction texts using pairsOf.induct generalizing file with
  | case1 a b texts ih =>
    have parity : (a :: b :: texts).length % 2 = texts.length % 2 := by
      simp only [List.length_cons]
      omega
    have lexemes : valuesLexemes ((a :: b :: texts).map Value.str) =
        .leaf .str a :: .leaf .str b :: valuesLexemes (texts.map .str) := rfl
    rw [lexemes, List.cons_append, List.cons_append, fileLoop_leaf _ _ _ (by decide), setFile_str,
      Outcome.bind_done, ih, parity]
    rfl
  | case2 texts other =>
    match texts with
    | [] =>
      rw [if_neg (by decide)]
      exact fileLoop_other (by decide)
    | [a] =>
      rw [if_pos (show [a].length % 2 = 1 from rfl)]
      exact fileLoop_close a .listEnd (Or.inl rfl)
    | a :: b :: texts => exact absurd rfl (other a b texts)

/-- The loop throws, or stops in front of some more tokens than `rest`, at one
that starts no dictionary. -/
def Astray (rest : List Lexeme) (o : Outcome Thrown Metainfo (List Lexeme)) : Prop :=
  (∃ e tf, o = .thrown e tf) ∨
    ∃ t cursor tf, o = .done (t :: cursor) tf ∧ t.type ≠ .dictStart ∧
      rest.length ≤ cursor.length

/-- The entries in front of `path` are gone through. -/
structure Passable (front : List (Bytes × FileValue)) : Prop where
  odd : ∀ key bodies, (key, .texts bodies) ∈ front → bodies.length % 2 = 1
  fits : ∀ z, (ascii "length", .int z) ∈ front → FitsLong z

theorem passable_nil : Passable [] := ⟨nofun, nofun⟩

theorem passable_cons {key : Bytes} {v : FileValue} {front : List (Bytes × FileValue)} :
    Passable ((key, v) :: front) ↔
      (∀ bodies, v = .texts bodies → bodies.length % 2 = 1) ∧
        (∀ z, key = ascii "length" → v = .int z → FitsLong z) ∧ Passable front := by
  constructor
  · intro h
    refine ⟨?_, ?_, fun k b mem => h.odd k b (List.mem_cons_of_mem _ mem), fun z mem =>
      h.fits z (List.mem_cons_of_mem _ mem)⟩
    · rintro bodies rfl
      exact h.odd key bodies List.mem_cons_self
    · rintro z rfl rfl
      exact h.fits z List.mem_cons_self
  · rintro ⟨odd, fits, later⟩
    constructor
    · intro k bodies mem
      cases List.mem_cons.1 mem with
      | inl eq =>
        cases eq
        exact odd bodies rfl
      | inr mem => exact later.odd k bodies mem
    · intro z mem
      cases List.mem_cons.1 mem with
      | inl eq =>
        cases eq
        exact fits z rfl rfl
      | inr mem => exact later.fits z mem

/-- An entry in front of `path`. -/
theorem fileLoop_entry_front (key : Bytes) (v : FileValue) (other : key ≠ ascii "path") :
    fileLoop (.leaf .str key :: (v.value.lexemes ++ rest)) (tf.withLast files file) =
      match v with
      | .texts bodies =>
        if bodies.length % 2 = 1 then
          fileLoop rest (tf.withLast files (noteEntry file (key, v)))
        else .done (.mark .listEnd :: rest) (tf.withLast files (noteEntry file (key, v)))
      | .int z =>
        if key = ascii "length" ∧ ¬ FitsLong z then
          .thrown .outOfRange (tf.withLast files file)
        else fileLoop rest (tf.withLast files (noteEntry file (key, v)))
      | .str _ => fileLoop rest (tf.withLast files (noteEntry file (key, v))) := by
  cases v with
  | str body =>
    show fileLoop (.leaf .str key :: .leaf .str body :: rest) _ = _
    rw [fileLoop_leaf _ _ _ (by decide), setFile_str, Outcome.bind_done]
    rfl
  | int z =>
    show fileLoop (.leaf .str key :: .leaf .int (decimalInt z) :: rest) _ = _
    rw [fileLoop_leaf _ _ _ (by decide), setFile_int]
    dsimp only
    split <;> rfl
  | texts bodies =>
    have lexemes : (FileValue.texts bodies).value.lexemes ++ rest =
        .mark .listStart :: (valuesLexemes (bodies.map .str) ++ .mark .listEnd :: rest) := by
      simp [FileValue.value, Value.lexemes]
    rw [lexemes, fileLoop_list _ other, fileLoop_texts]
    rfl

theorem fileEntries_cons (key : Bytes) (v : FileValue) (entries : List (Bytes × FileValue)) :
    entriesLexemes (fileEntries ((key, v) :: entries)) ++ rest =
      .leaf .str key :: (v.value.lexemes ++ (entriesLexemes (fileEntries entries) ++ rest)) := by
  simp only [fileEntries, List.map_cons, entriesLexemes, List.cons_append, List.append_assoc]

theorem fileLoop_front {front : List (Bytes × FileValue)} (passable : Passable front)
    (unpathed : ∀ entry ∈ front, entry.1 ≠ ascii "path") :
    fileLoop (entriesLexemes (fileEntries front) ++ rest) (tf.withLast files file) =
      fileLoop rest (tf.withLast files (front.foldl noteEntry file)) := by
  induction front generalizing file with
  | nil => rfl
  | cons entry front ih =>
    obtain ⟨key, v⟩ := entry
    obtain ⟨odd, fits, later⟩ := passable_cons.1 passable
    obtain ⟨other, unpathed'⟩ := List.forall_mem_cons.1 unpathed
    rw [fileEntries_cons, fileLoop_entry_front key v other, List.foldl_cons]
    cases v with
    | str body => exact ih later unpathed'
    | int z =>
      dsimp only
      rw [if_neg fun h => h.2 (fits z h.1 rfl)]
      exact ih later unpathed'
    | texts bodies =>
      dsimp only
      rw [if_pos (odd bodies rfl)]
      exact ih later unpathed'

theorem fileLoop_front_astray {front : List (Bytes × FileValue)} (stuck : ¬ Passable front)
    (unpathed : ∀ entry ∈ front, entry.1 ≠ ascii "path") :
    Astray rest
      (fileLoop (entriesLexemes (fileEntries front) ++ rest) (tf.withLast files file)) := by
  induction front generalizing file with
  | nil => exact absurd passable_nil stuck
  | cons entry front ih =>
    obtain ⟨key, v⟩ := entry
    obtain ⟨other, unpathed'⟩ := List.forall_mem_cons.1 unpathed
    rw [fileEntries_cons, fileLoop_entry_front key v other]
    cases v with
    | str body => exact ih (fun later => stuck (passable_cons.2 ⟨nofun, nofun, later⟩)) unpathed'
    | int z =>
      dsimp only
      split
      · exact Or.inl ⟨_, _, rfl⟩
      · rename_i taken
        refine ih (fun later => stuck (passable_cons.2 ⟨nofun, ?_, later⟩)) unpathed'
        rintro _ length ⟨⟩
        by_contra unfit
        exact taken ⟨length, unfit⟩
    | texts bodies =>
      dsimp only
      split
      · rename_i odd
        refine ih (fun later => stuck (passable_cons.2 ⟨?_, nofun, later⟩)) unpathed'
        rintro _ ⟨⟩
        exact odd
      · refine Or.inr ⟨_, _, _, rfl, by decide, ?_⟩
        rw [List.length_append]
        exact Nat.le_add_left _ _

/-- The path is read to its end, and the token behind it is skipped. -/
theorem fileLoop_path (path : List Bytes) :
    fileLoop (.leaf .str (ascii "path") :: ((Value.list (path.map .str)).lexemes ++ rest))
        (tf.withLast files file) =
      fileLoop rest.tail (tf.withLast files { file with path := file.path ++ path }) := by
  have lexemes : (Value.list (path.map .str)).lexemes ++ rest =
      .mark .listStart :: (valuesLexemes (path.map .str) ++ .mark .listEnd :: rest) := by
    simp [Value.lexemes]
  have read : readLists (.mark .listStart) (valuesLexemes (path.map .str) ++
      .mark .listEnd :: rest) = .ok (path, rest) := by
    rw [readLists_lexemes (valuesDictFree_strings path), valuesTexts_strings]
  rw [lexemes, fileLoop_entry rfl]
  show ((tf.withLast files file).storeFile (ascii "path") (.mark .listStart) _).bind _ = _
  rw [storeFile, if_pos ⟨rfl, rfl⟩, read, Outcome.ofExcept_ok, Outcome.bind_done]
  dsimp only
  rw [setBack_withLast]
  rfl

/-- A value that is read as a key takes the next key as its value. -/
theorem fileLoop_shifted (body key : Bytes) :
    fileLoop ((FileValue.str body).value.lexemes ++ .leaf .str key :: rest)
        (tf.withLast files file) =
      fileLoop rest (tf.withLast files (noteText file (body, key))) := by
  show fileLoop (.leaf .str body :: .leaf .str key :: rest) _ = _
  rw [fileLoop_leaf _ _ _ (by decide), setFile_str, Outcome.bind_done]

/-- Behind `path` a key is skipped, and values are read as keys. -/
theorem fileLoop_back {back : List (Bytes × FileValue)}
    (strings : ∀ entry ∈ back, ∃ body, entry.2 = .str body) :
    fileLoop (entriesLexemes (fileEntries back) ++ .mark .dictEnd :: rest).tail
        (tf.withLast files file) =
      fileLoop rest (tf.withLast files ((backPairs back).foldl noteText file)) := by
  induction back generalizing file with
  | nil => rfl
  | cons entry back ih =>
    obtain ⟨key, v⟩ := entry
    obtain ⟨first, later⟩ := List.forall_mem_cons.1 strings
    obtain ⟨body, eq⟩ := first
    cases eq
    rw [fileEntries_cons, List.tail_cons]
    cases back with
    | nil => exact fileLoop_close body .dictEnd (Or.inr rfl)
    | cons next back =>
      obtain ⟨key', v'⟩ := next
      have moved := @ih (noteText file (body, key')) later
      rw [fileEntries_cons, List.tail_cons] at moved
      rw [fileEntries_cons, fileLoop_shifted, moved]
      rfl

theorem fileLoop_back_astray {back : List (Bytes × FileValue)}
    (other : ¬ ∀ entry ∈ back, ∃ body, entry.2 = .str body) :
    Astray rest (fileLoop (entriesLexemes (fileEntries back) ++ .mark .dictEnd :: rest).tail
      (tf.withLast files file)) := by
  induction back generalizing file with
  | nil => exact absurd nofun other
  | cons entry back ih =>
    obtain ⟨key, v⟩ := entry
    rw [fileEntries_cons, List.tail_cons]
    have behind (front : List Lexeme) : rest.length ≤
        (front ++ (entriesLexemes (fileEntries back) ++ .mark .dictEnd :: rest)).length := by
      simp only [List.length_append, List.length_cons]
      omega
    cases v with
    | int z =>
      exact Or.inr ⟨_, _, _, fileLoop_other nofun, nofun, behind []⟩
    | texts bodies =>
      have lexemes : (FileValue.texts bodies).value.lexemes ++
          (entriesLexemes (fileEntries back) ++ .mark .dictEnd :: rest) =
            .mark .listStart :: ((valuesLexemes (bodies.map .str) ++ [.mark .listEnd]) ++
              (entriesLexemes (fileEntries back) ++ .mark .dictEnd :: rest)) := by
        simp [FileValue.value, Value.lexemes]
      rw [lexemes]
      exact Or.inr ⟨_, _, _, fileLoop_other (by decide), by decide, behind _⟩
    | str body =>
      have later : ¬ ∀ entry ∈ back, ∃ body, entry.2 = .str body := by
        intro later
        exact other (List.forall_mem_cons.2 ⟨⟨body, rfl⟩, later⟩)
      cases back with
      | nil => exact absurd nofun later
      | cons next back =>
        obtain ⟨key', v'⟩ := next
        have moved := @ih (noteText file (body, key')) later
        rw [fileEntries_cons, List.tail_cons] at moved
        rw [fileEntries_cons, fileLoop_shifted]
        exact moved

/-! ## The list of dictionaries -/

theorem noteText_path (file : FileInfo) (pair : Bytes × Bytes) :
    (noteText file pair).path = file.path ∧ (noteText file pair).size = file.size := by
  unfold noteText
  split <;> exact ⟨rfl, rfl⟩

theorem noteTexts_path (pairs : List (Bytes × Bytes)) (file : FileInfo) :
    (pairs.foldl noteText file).path = file.path ∧
      (pairs.foldl noteText file).size = file.size := by
  induction pairs generalizing file with
  | nil => exact ⟨rfl, rfl⟩
  | cons pair pairs ih =>
    have first := noteText_path file pair
    rw [List.foldl_cons, (ih _).1, (ih _).2]
    exact first

theorem noteTexts_md5 (pairs : List (Bytes × Bytes)) (file : FileInfo) :
    (pairs.foldl noteText file).md5Sum = lastMd5 pairs file.md5Sum := by
  induction pairs generalizing file with
  | nil => rfl
  | cons pair pairs ih =>
    rw [List.foldl_cons, ih, lastMd5, lastMd5, List.foldl_cons, noteText]
    congr 1
    split <;> rfl

theorem noteEntry_path (file : FileInfo) (entry : Bytes × FileValue) :
    (noteEntry file entry).path = file.path := by
  obtain ⟨key, v⟩ := entry
  cases v with
  | str body => exact (noteText_path _ _).1
  | int z =>
    show (if key = ascii "length" then _ else _ : FileInfo).path = _
    split <;> rfl
  | texts bodies => exact (noteTexts_path _ _).1

theorem noteEntries_path (front : List (Bytes × FileValue)) (file : FileInfo) :
    (front.foldl noteEntry file).path = file.path := by
  induction front generalizing file with
  | nil => rfl
  | cons entry front ih => rw [List.foldl_cons, ih, noteEntry_path]

theorem lastMd5_append (xs ys : List (Bytes × Bytes)) (text : Bytes) :
    lastMd5 (xs ++ ys) text = lastMd5 ys (lastMd5 xs text) := List.foldl_append

theorem noteEntries_md5 (front : List (Bytes × FileValue)) (file : FileInfo) :
    (front.foldl noteEntry file).md5Sum = lastMd5 (frontPairs front) file.md5Sum := by
  induction front generalizing file with
  | nil => rfl
  | cons entry front ih =>
    obtain ⟨key, v⟩ := entry
    rw [List.foldl_cons, ih]
    cases v with
    | str body => exact congrArg _ (noteTexts_md5 [(key, body)] file)
    | int z =>
      have same : (noteEntry file (key, .int z)).md5Sum = file.md5Sum := by
        show (if key = ascii "length" then _ else _ : FileInfo).md5Sum = _
        split <;> rfl
      rw [same]
      rfl
    | texts bodies =>
      rw [frontPairs, lastMd5_append]
      exact congrArg _ (noteTexts_md5 (pairsOf bodies) file)

/-- The size is the last length that is read. -/
theorem noteEntries_size {front : List (Bytes × FileValue)} {z : Int}
    (unique : ∀ v, (ascii "length", v) ∈ front → v = .int z)
    (mem : (ascii "length", .int z) ∈ front ∨ file.size = toUInt64 z) :
    (front.foldl noteEntry file).size = toUInt64 z := by
  induction front generalizing file with
  | nil => exact mem.resolve_left nofun
  | cons entry front ih =>
    obtain ⟨key, v⟩ := entry
    rw [List.foldl_cons]
    apply ih fun v mem => unique v (List.mem_cons_of_mem _ mem)
    by_cases length : key = ascii "length"
    · subst length
      have eq := unique v List.mem_cons_self
      subst eq
      right
      exact congrArg FileInfo.size (if_pos rfl)
    · have kept : (noteEntry file (key, v)).size = file.size := by
        cases v with
        | str body => exact (noteText_path _ _).2
        | int z =>
          show (if key = ascii "length" then _ else _ : FileInfo).size = _
          rw [if_neg length]
        | texts bodies => exact (noteTexts_path _ _).2
      rw [kept]
      cases mem with
      | inl mem =>
        cases List.mem_cons.1 mem with
        | inl eq => exact absurd (congrArg Prod.fst eq).symm length
        | inr mem => exact Or.inl mem
      | inr size => exact Or.inr size

end Metainfo

/-! ### What a dictionary is taken in as -/

namespace FileDict

variable (d : FileDict)

/-- What the loop makes of the dictionary. -/
def info : FileInfo :=
  (backPairs d.back).foldl Metainfo.noteText
    { d.front.foldl Metainfo.noteEntry {} with path := d.path }

theorem info_path : d.info.path = d.path := (Metainfo.noteTexts_path _ _).1

theorem info_md5 : d.info.md5Sum = lastMd5 d.pairs [] := by
  rw [info, Metainfo.noteTexts_md5, pairs, Metainfo.lastMd5_append]
  exact congrArg _ (Metainfo.noteEntries_md5 d.front {})

theorem front_sorted : d.front.Pairwise (·.1 < ·.1) := (List.pairwise_append.1 d.sorted).1

theorem unpathed : ∀ entry ∈ d.front, entry.1 ≠ ascii "path" := by
  intro entry mem eq
  have lt := (List.pairwise_append.1 d.sorted).2.2 entry mem _ List.mem_cons_self
  rw [eq] at lt
  exact List.lt_irrefl _ lt

theorem length_unique : ∀ v, (ascii "length", v) ∈ d.front → v = .int d.length := by
  intro v mem
  by_contra ne
  have sorted := d.front_sorted
  rw [List.pairwise_iff_getElem] at sorted
  obtain ⟨i, hi, at_i⟩ := List.getElem_of_mem mem
  obtain ⟨j, hj, at_j⟩ := List.getElem_of_mem d.length_mem
  have key_i : (d.front[i]).1 = ascii "length" := by rw [at_i]
  have key_j : (d.front[j]).1 = ascii "length" := by rw [at_j]
  rcases Nat.lt_trichotomy i j with lt | eq | lt
  · have lt := sorted i j hi hj lt
    rw [key_i, key_j] at lt
    exact List.lt_irrefl _ lt
  · subst eq
    rw [at_i] at at_j
    exact ne (congrArg Prod.snd at_j)
  · have lt := sorted j i hj hi lt
    rw [key_i, key_j] at lt
    exact List.lt_irrefl _ lt

theorem info_size : d.info.size = toUInt64 d.length := by
  rw [info, (Metainfo.noteTexts_path _ _).2]
  exact Metainfo.noteEntries_size d.length_unique (Or.inl d.length_mem)

theorem walked_iff : d.Walked ↔ Metainfo.Passable d.front ∧
    ∀ entry ∈ d.back, ∃ body, entry.2 = .str body := by
  constructor
  · intro walked
    refine ⟨⟨walked.odd, fun z mem => ?_⟩, walked.strings⟩
    cases d.length_unique _ mem
    exact walked.fits
  · rintro ⟨passable, strings⟩
    exact ⟨passable.odd, strings, passable.fits _ d.length_mem⟩

/-- The dictionary is taken in as it should be when it is walked through, its
length is not negative and the last text behind `md5sum` is its own. -/
theorem describes_iff (walked : d.Walked) : d.info.Describes d ↔
    0 ≤ d.length ∧ lastMd5 d.pairs [] = d.md5sum.getD [] := by
  have fits := walked.fits
  rw [FitsLong] at fits
  rw [FileInfo.Describes, d.info_size, d.info_md5, d.info_path]
  constructor
  · rintro ⟨size, md5, -⟩
    exact ⟨by omega, md5⟩
  · rintro ⟨nonneg, md5⟩
    refine ⟨?_, md5, rfl⟩
    rw [toUInt64_of_nonneg nonneg (by omega)]
    omega

end FileDict

namespace Metainfo

variable {tf : Metainfo} {files : List FileInfo} {rest : List Lexeme} {d : FileDict}

/-- The tokens of a dictionary behind its start, and those behind it. -/
theorem dict_lexemes (d : FileDict) (rest : List Lexeme) :
    d.value.lexemes ++ rest =
      .mark .dictStart :: (entriesLexemes (fileEntries d.front) ++
        .leaf .str (ascii "path") :: ((Value.list (d.path.map .str)).lexemes ++
          (entriesLexemes (fileEntries d.back) ++ .mark .dictEnd :: rest))) := by
  simp [FileDict.value, FileDict.entries, Value.lexemes, fileEntries, FileValue.value,
    entriesLexemes_append, entriesLexemes]

/-- The tokens behind the start of the dictionary. -/
def dictTokens (d : FileDict) (rest : List Lexeme) : List Lexeme :=
  entriesLexemes (fileEntries d.front) ++
    .leaf .str (ascii "path") :: ((Value.list (d.path.map .str)).lexemes ++
      (entriesLexemes (fileEntries d.back) ++ .mark .dictEnd :: rest))

theorem fileLoop_dict (walked : d.Walked) :
    fileLoop (dictTokens d rest) (tf.withLast files {}) =
      fileLoop rest (tf.withLast files d.info) := by
  obtain ⟨passable, strings⟩ := d.walked_iff.1 walked
  rw [dictTokens, fileLoop_front passable d.unpathed, fileLoop_path, fileLoop_back strings,
    noteEntries_path]
  rfl

theorem fileLoop_dict_astray (stuck : ¬ d.Walked) :
    Astray rest (fileLoop (dictTokens d rest) (tf.withLast files {})) := by
  rw [d.walked_iff, not_and_or] at stuck
  by_cases passable : Passable d.front
  · rw [dictTokens, fileLoop_front passable d.unpathed, fileLoop_path]
    exact fileLoop_back_astray (stuck.resolve_left (not_not.2 passable))
  · have astray := @fileLoop_front_astray tf files {}
      (.leaf .str (ascii "path") :: ((Value.list (d.path.map .str)).lexemes ++
        (entriesLexemes (fileEntries d.back) ++ .mark .dictEnd :: rest))) _ passable d.unpathed
    refine astray.imp id ?_
    rintro ⟨t, cursor, tf', stopped, other, longer⟩
    refine ⟨t, cursor, tf', stopped, other, longer.trans' ?_⟩
    simp only [List.length_cons, List.length_append]
    omega

/-- The tokens of the dictionaries behind each other, and the end of the list. -/
def listTokens (dicts : List FileDict) (rest : List Lexeme) : List Lexeme :=
  valuesLexemes (dicts.map (·.value)) ++ .mark .listEnd :: rest

theorem listTokens_cons (dicts : List FileDict) :
    listTokens (d :: dicts) rest = .mark .dictStart :: dictTokens d (listTokens dicts rest) := by
  rw [listTokens, List.map_cons, valuesLexemes, List.append_assoc, dict_lexemes]
  rfl

/-- A dictionary is left at the start of the next one or at the end of the list. -/
theorem fileLoop_listTokens (dicts : List FileDict) :
    fileLoop (listTokens dicts rest) tf = .done (listTokens dicts rest) tf := by
  cases dicts with
  | nil => exact fileLoop_other nofun
  | cons d dicts =>
    rw [listTokens_cons]
    exact fileLoop_other nofun

theorem filesLoop_walked {dicts : List FileDict} (walked : ∀ d ∈ dicts, d.Walked) :
    filesLoop false (listTokens dicts rest) tf =
      .done (.mark .listEnd :: rest) { tf with files := tf.files ++ dicts.map (·.info) } := by
  induction dicts generalizing tf with
  | nil =>
    rw [List.map_nil, List.append_nil]
    exact filesLoop_other nofun
  | cons d dicts ih =>
    obtain ⟨first, later⟩ := List.forall_mem_cons.1 walked
    rw [listTokens_cons, filesLoop_dict rfl]
    show (fileLoop _ (tf.withLast tf.files {})).bind _ = _
    rw [fileLoop_dict first, fileLoop_listTokens, Outcome.bind_done, ih later, withLast,
      List.append_assoc]
    rfl

theorem filesLoop_astray {dicts : List FileDict} (stuck : ¬ ∀ d ∈ dicts, d.Walked) :
    Astray (.mark .listEnd :: rest) (filesLoop false (listTokens dicts rest) tf) := by
  induction dicts generalizing tf with
  | nil => exact absurd nofun stuck
  | cons d dicts ih =>
    rw [listTokens_cons, filesLoop_dict rfl]
    show Astray (.mark .listEnd :: rest) ((fileLoop _ (tf.withLast tf.files {})).bind _)
    by_cases first : d.Walked
    · rw [fileLoop_dict first, fileLoop_listTokens, Outcome.bind_done]
      exact ih fun later => stuck (List.forall_mem_cons.2 ⟨first, later⟩)
    · rcases @fileLoop_dict_astray _ _ (listTokens dicts rest) _ first with thrown | stopped
      · obtain ⟨e, tf', thrown⟩ := thrown
        rw [thrown]
        exact Or.inl ⟨e, tf', rfl⟩
      · obtain ⟨t, cursor, tf', stopped, other, longer⟩ := stopped
        rw [stopped, Outcome.bind_done, filesLoop_other other]
        refine Or.inr ⟨t, cursor, tf', rfl, other, longer.trans' ?_⟩
        rw [listTokens, List.length_append]
        exact Nat.le_add_left _ _

/-- The first dictionary is taken in as the file that is there. -/
theorem fillFiles_eq {dicts : List FileDict} (ne : dicts ≠ []) (one : tf.files = [{}]) :
    tf.fillFiles (listTokens dicts rest) =
      filesLoop false (listTokens dicts rest) { tf with files := [] } := by
  cases dicts with
  | nil => exact absurd rfl ne
  | cons d dicts =>
    have same : tf = ({ tf with files := [] } : Metainfo).withLast [] {} := by
      rw [withLast, List.nil_append, ← one]
    rw [fillFiles, listTokens_cons, filesLoop_dict rfl, filesLoop_dict rfl]
    show (fileLoop _ tf).bind _ =
      (fileLoop _ (({ tf with files := [] } : Metainfo).withLast [] {})).bind _
    rw [← same]

end Metainfo

end TorrentClient
