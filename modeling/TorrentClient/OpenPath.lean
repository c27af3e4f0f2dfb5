import TorrentClient.Accepted
import TorrentClient.Base.LexicalPath
import TorrentClient.FileSearch

/-!
# Where the files are opened

`Files::Files` opens the files of a torrent below `/tmp/torrents/`, at paths that are
put together from the name and the path lists of the torrent as they are.
-/

namespace TorrentClient

/-- What is called from the operating system. -/
class FileSystem (φ : Type) where
  /-- `stat`, whether the mode has `S_IFDIR`; `none` where it fails. -/
  stat : φ → Bytes → Option Bool
  mkdir : φ → Bytes → φ
  /-- `open` for writing. An error has the text of `strerror`. -/
  openFile : φ → Bytes → Except String Nat × φ

/-- The file system, with the paths `open` was called on so far. -/
structure Opening (φ : Type) where
  system : φ
  opened : List Bytes

/-- What a `std::string` is to a function that takes its `c_str()`. -/
def cString (text : Bytes) : Bytes := text.takeWhile (· ≠ 0)

/-- The bytes of a text in a message. -/
def shown (text : Bytes) : String := String.ofList (text.map fun c => Char.ofNat c.toNat)

/-- `'/'` -/
def slash : UInt8 := 47

/-! ## What a call opens -/

section
variable {φ : Type}

/-- The call returns or throws. It opens the paths one after another, and all of them if it
returns. -/
structure Opens {α : Type} (paths : List Bytes) (o : Opening φ)
    (r : Outcome Thrown (Opening φ) α) : Prop where
  safe : r.Safe
  opened : ∃ front, front <+: paths ∧ r.state.opened = o.opened ++ front
  all : ∀ a o', r = .done a o' → o'.opened = o.opened ++ paths

variable {α γ : Type} {paths more : List Bytes} {o : Opening φ} {r : Outcome Thrown (Opening φ) α}

theorem opens_done (a : α) (system : φ) :
    Opens paths o (.done a ⟨system, o.opened ++ paths⟩ : Outcome Thrown (Opening φ) α) where
  safe := Outcome.safe_done
  opened := ⟨paths, List.prefix_rfl, rfl⟩
  all := by
    rintro _ _ ⟨⟩
    rfl

theorem opens_nothing (a : α) (system : φ) :
    Opens [] o (.done a ⟨system, o.opened⟩ : Outcome Thrown (Opening φ) α) where
  safe := Outcome.safe_done
  opened := ⟨[], List.prefix_rfl, (List.append_nil _).symm⟩
  all := by
    rintro _ _ ⟨⟩
    exact (List.append_nil _).symm

theorem opens_thrown {front : List Bytes} (le : front <+: paths) (e : Thrown) {o' : Opening φ}
    (opened : o'.opened = o.opened ++ front) :
    Opens paths o (.thrown e o' : Outcome Thrown (Opening φ) α) where
  safe := Outcome.safe_thrown
  opened := ⟨front, le, opened⟩
  all := by
    rintro _ _ ⟨⟩

theorem opens_refused (e : Thrown) : Opens paths o (.thrown e o : Outcome Thrown (Opening φ) α) :=
  opens_thrown List.nil_prefix e (List.append_nil _).symm

theorem Opens.bind {f : α → Opening φ → Outcome Thrown (Opening φ) γ} (h : Opens paths o r)
    (later : ∀ a o', r = .done a o' → Opens more o' (f a o')) :
    Opens (paths ++ more) o (r.bind f) := by
  cases r with
  | fault reason o' => exact absurd rfl (h.safe reason o')
  | thrown e o' =>
    obtain ⟨front, le, opened⟩ := h.opened
    exact opens_thrown (le.trans (List.prefix_append _ _)) e opened
  | done a o' =>
    have first := h.all a o' rfl
    have rest := later a o' rfl
    obtain ⟨front, le, opened⟩ := rest.opened
    refine ⟨rest.safe, ⟨paths ++ front, (List.prefix_append_right_inj paths).2 le, ?_⟩, ?_⟩
    · rw [Outcome.bind_done, opened, first, List.append_assoc]
    · intro b o'' returned
      rw [rest.all b o'' returned, first, List.append_assoc]

theorem Opens.map (h : Opens paths o r) (f : α → γ) : Opens paths o (r.map f) := by
  have mapped := h.bind fun a o' _ => opens_nothing (f a) o'.system
  rwa [List.append_nil] at mapped

end

/-! ## How the files are opened -/

section
variable {φ : Type} [FileSystem φ]

/-- A directory is made where nothing is. -/
def makeDir (path : Bytes) (o : Opening φ) : Outcome Thrown (Opening φ) Unit :=
  match FileSystem.stat o.system (cString path) with
  | none => .done () { o with system := FileSystem.mkdir o.system (cString path) }
  | some true => .done () o
  | some false => .thrown (.runtimeError ("not a dir: " ++ shown path)) o

/-- The loop of `create_absolute_path`. The delimiter is a NUL while the directory in
front of it is made. -/
def createLoop (absolutePath : Bytes) (delimiterOffset : Nat) (o : Opening φ) :
    Outcome Thrown (Opening φ) Unit :=
  if delimiterOffset < absolutePath.length then
    match (absolutePath.drop delimiterOffset).idxOf? slash with
    | none => makeDir absolutePath o
    | some i => (makeDir (absolutePath.set (delimiterOffset + i) 0) o).bind fun _ o =>
      createLoop absolutePath (delimiterOffset + i + 1) o
  else .done () o
  termination_by absolutePath.length - delimiterOffset

def createAbsolutePath (absolutePath : Bytes) (o : Opening φ) :
    Outcome Thrown (Opening φ) Unit :=
  createLoop absolutePath 0 o

/-- The start of `open_file`. -/
def openDir (absolutePath : Bytes) (o : Opening φ) : Outcome Thrown (Opening φ) Unit :=
  match FileSystem.stat o.system (cString absolutePath) with
  | none => createAbsolutePath absolutePath o
  | some true => .done () o
  | some false => .thrown (.runtimeError ("invalid absolute_path: " ++ shown absolutePath)) o

/-- `relative_path.size() - 1` -/
def relativePathSize (relativePath : List Bytes) : Nat :=
  if relativePath = [] then 2 ^ 64 - 1 else relativePath.length - 1

/-- The loop of `open_file`, from the element `i` on. -/
def dirLoop (relativePath : List Bytes) (i : Nat) (fullPath : Bytes) (o : Opening φ) :
    Outcome Thrown (Opening φ) Bytes :=
  if i < relativePathSize relativePath then
    match relativePath[i]? with
    | none => .fault .outOfBounds o
    | some name =>
      (makeDir (fullPath ++ name ++ [slash]) o).bind fun _ o =>
        dirLoop relativePath (i + 1) (fullPath ++ name ++ [slash]) o
  else .done fullPath o
  termination_by relativePathSize relativePath - i

/-- `open_file` up to the end of its loop. -/
def openWay (absolutePath : Bytes) (relativePath : List Bytes) (o : Opening φ) :
    Outcome Thrown (Opening φ) Bytes :=
  (openDir absolutePath o).bind fun _ o => dirLoop relativePath 0 (absolutePath ++ [slash]) o

/-- `open_file` behind its loop. -/
def openLast (fullPath : Bytes) (relativePath : List Bytes) (o : Opening φ) :
    Outcome Thrown (Opening φ) Nat :=
  match relativePath.getLast? with
  | none => .fault .outOfBounds o
  | some name =>
    let path := cString (fullPath ++ name)
    let (result, system) := FileSystem.openFile o.system path
    let o := { system := system, opened := o.opened ++ [path] }
    match result with
    | .ok fd => .done fd o
    | .error reason => .thrown (.runtimeError
        ("unable to open file: " ++ shown (fullPath ++ name) ++ ". reason: " ++ reason)) o

def openFile (absolutePath : Bytes) (relativePath : List Bytes) (o : Opening φ) :
    Outcome Thrown (Opening φ) Nat :=
  (openWay absolutePath relativePath o).bind fun fullPath o => openLast fullPath relativePath o

/-- The members that `File::File` sets in front of the call of `open_file`. -/
def File.new {β : Type} [BitSet β] (fi : FileInfo) (pieceSize : Nat) : Option (File β) :=
  (BitSet.bind BitSet.unbound
      (mul64 (add64 (sub64 fi.lastPiece.index fi.firstPiece.index) 1) 8)).map
    fun bitset => ⟨bitset, fi, pieceSize, [], []⟩

theorem File.new_fi {β : Type} [BitSet β] {fi : FileInfo} {pieceSize : Nat} {file : File β}
    (made : File.new fi pieceSize = some file) : file.fi = fi := by
  obtain ⟨bitset, -, rfl⟩ := Option.map_eq_some_iff.1 made
  rfl

/-- `File::File` -/
def File.construct {β : Type} [BitSet β] (fi : FileInfo) (pieceSize : Nat) (o : Opening φ) :
    Outcome Thrown (Opening φ) (File β) :=
  match File.new fi pieceSize with
  | none => .thrown .bitSet o
  | some file => (openFile fi.dirName fi.path o).map fun _ => file

/-- The loop of `Files::Files`. -/
def constructLoop {β : Type} [BitSet β] (pieceSize : Nat) :
    List FileInfo → Opening φ → Outcome Thrown (Opening φ) (List (File β))
  | [], o => .done [] o
  | fi :: files, o =>
    (File.construct fi pieceSize o).bind fun file o =>
      (constructLoop pieceSize files o).map fun data => file :: data

def Files.construct (β : Type) [BitSet β] (tf : TorrentFile) (o : Opening φ) :
    Outcome Thrown (Opening φ) (List (File β)) :=
  constructLoop tf.pieceSize tf.files o

/-- The files that are constructed, one of each descriptor. -/
theorem Files.construct_done {β : Type} [BitSet β] {tf : TorrentFile} {o o' : Opening φ}
    {data : List (File β)} (constructed : Files.construct β tf o = .done data o') :
    List.Forall₂ (fun fi file => File.new fi tf.pieceSize = some file) tf.files data := by
  rw [Files.construct] at constructed
  generalize tf.files = files at *
  induction files generalizing o data with
  | nil =>
    cases constructed
    exact .nil
  | cons fi files ih =>
    obtain ⟨file, mid, first, later⟩ := Outcome.bind_eq_done constructed
    obtain ⟨rest, others, rfl⟩ := Outcome.map_eq_done later
    refine .cons ?_ (ih others)
    rw [File.construct] at first
    cases made : File.new fi tf.pieceSize (β := β) with
    | none =>
      rw [made] at first
      cases first
    | some file' =>
      rw [made] at first
      obtain ⟨_, -, rfl⟩ := Outcome.map_eq_done first
      rfl

/-- The files are some that the constructor returned with, whatever there was on the disk. -/
def Files.Constructed {β : Type} [BitSet β] (tf : TorrentFile) (data : List (File β)) : Prop :=
  ∃ (φ : Type) (_ : FileSystem φ) (o o' : Opening φ), Files.construct β tf o = .done data o'

section
variable {β : Type} [BitSet β] {tf : TorrentFile} {data : List (File β)}

theorem Files.Constructed.made (constructed : Files.Constructed tf data) :
    List.Forall₂ (fun fi file => File.new fi tf.pieceSize = some file) tf.files data := by
  obtain ⟨φ, _, o, o', done⟩ := constructed
  exact construct_done done

theorem Files.Constructed.infos (constructed : Files.Constructed tf data) :
    OpenFiles.infos data = tf.files := by
  have made := constructed.made
  clear constructed
  generalize tf.files = files at *
  induction made with
  | nil => rfl
  | cons first _ ih =>
    rw [OpenFiles.infos, List.map_cons, File.new_fi first]
    exact congrArg _ ih

theorem Files.Constructed.new (constructed : Files.Constructed tf data) {file : File β}
    (mem : file ∈ data) : File.new file.fi tf.pieceSize = some file := by
  have made := constructed.made
  clear constructed
  generalize tf.files = files at *
  induction made with
  | nil => cases mem
  | cons first _ ih =>
    rcases List.mem_cons.1 mem with rfl | later
    · rwa [File.new_fi first]
    · exact ih later

end

/-! ## The path of a file -/

/-- The path that is put together for a file. -/
def fullPath (absolutePath : Bytes) (relativePath : List Bytes) : Bytes :=
  absolutePath ++ slash :: [slash].intercalate relativePath

theorem makeDir_opens (path : Bytes) (o : Opening φ) : Opens [] o (makeDir path o) := by
  unfold makeDir
  split
  · exact opens_nothing () _
  · exact opens_nothing () o.system
  · exact opens_refused _

theorem createLoop_opens (path : Bytes) (offset : Nat) (o : Opening φ) :
    Opens [] o (createLoop path offset o) := by
  fun_induction createLoop path offset o with
  | case1 offset o _ _ => exact makeDir_opens path o
  | case2 offset o _ i _ ih => exact (makeDir_opens _ o).bind fun _ o' _ => ih o'
  | case3 offset o _ => exact opens_nothing () o.system

section
variable (front rest : List Bytes) (name last : Bytes)

theorem relativePathSize_concat (names : List Bytes) :
    relativePathSize (names ++ [last]) = names.length := by
  rw [relativePathSize, if_neg (List.append_ne_nil_of_right_ne_nil _ (List.cons_ne_nil _ _)),
    List.length_append]
  rfl

theorem dirLoop_end (path : Bytes) (o : Opening φ) :
    dirLoop (front ++ [] ++ [last]) front.length path o = .done path o := by
  rw [dirLoop, if_neg (by rw [relativePathSize_concat, List.append_nil]; exact Nat.lt_irrefl _)]

theorem dirLoop_cons (path : Bytes) (o : Opening φ) :
    dirLoop (front ++ name :: rest ++ [last]) front.length path o =
      (makeDir (path ++ name ++ [slash]) o).bind fun _ o =>
        dirLoop ((front ++ [name]) ++ rest ++ [last]) (front ++ [name]).length
          (path ++ name ++ [slash]) o := by
  have here : (front ++ name :: rest ++ [last])[front.length]? = some name := by
    rw [List.append_assoc, List.getElem?_append_right (Nat.le_refl _), Nat.sub_self]
    rfl
  have next : front ++ name :: rest ++ [last] = (front ++ [name]) ++ rest ++ [last] := by
    simp only [List.append_assoc, List.cons_append, List.nil_append]
  have inside : front.length < relativePathSize (front ++ name :: rest ++ [last]) := by
    rw [relativePathSize_concat, List.length_append, List.length_cons]
    omega
  have length : front.length + 1 = (front ++ [name]).length := by
    rw [List.length_append]
    rfl
  rw [dirLoop, if_pos inside, here]
  dsimp only
  rw [next, length]

end

/-- The directories on the way are made one after another. -/
theorem dirLoop_opens (last : Bytes) (rest : List Bytes) : ∀ (front : List Bytes) (path : Bytes)
    (o : Opening φ), Opens [] o (dirLoop (front ++ rest ++ [last]) front.length path o) ∧
      ∀ path' o', dirLoop (front ++ rest ++ [last]) front.length path o = .done path' o' →
        path' = path ++ rest.flatMap (· ++ [slash]) := by
  induction rest with
  | nil =>
    intro front path o
    rw [dirLoop_end]
    refine ⟨opens_nothing path o.system, ?_⟩
    rintro path' o' ⟨⟩
    exact (List.append_nil _).symm
  | cons name rest ih =>
    intro front path o
    rw [dirLoop_cons]
    constructor
    · exact (makeDir_opens _ o).bind fun _ o' _ => (ih (front ++ [name]) _ o').1
    · intro path' o' returned
      obtain ⟨_, mid, -, later⟩ := Outcome.bind_eq_done returned
      rw [(ih (front ++ [name]) _ mid).2 path' o' later, List.flatMap_cons, List.append_assoc,
        List.append_assoc, List.append_assoc]

theorem fullPath_append (absolutePath : Bytes) (init : List Bytes) (last : Bytes) :
    fullPath absolutePath (init ++ [last]) =
      absolutePath ++ [slash] ++ init.flatMap (· ++ [slash]) ++ last := by
  have joined : [slash].intercalate (init ++ [last]) = init.flatMap (· ++ [slash]) ++ last := by
    induction init with
    | nil => exact List.intercalate_singleton
    | cons name init ih =>
      rw [List.cons_append, List.intercalate_cons_of_ne_nil (List.append_ne_nil_of_right_ne_nil _
        (List.cons_ne_nil _ _)), ih, List.flatMap_cons, ← List.append_assoc]
  rw [fullPath, joined, List.append_assoc, List.append_assoc]
  rfl

theorem openDir_opens (absolutePath : Bytes) (o : Opening φ) :
    Opens [] o (openDir absolutePath o) := by
  unfold openDir
  split
  · exact createLoop_opens absolutePath 0 o
  · exact opens_nothing () o.system
  · exact opens_refused _

theorem openWay_opens (absolutePath : Bytes) (init : List Bytes) (last : Bytes)
    (o : Opening φ) : Opens [] o (openWay absolutePath (init ++ [last]) o) ∧
      ∀ path o', openWay absolutePath (init ++ [last]) o = .done path o' →
        path ++ last = fullPath absolutePath (init ++ [last]) := by
  constructor
  · exact (openDir_opens absolutePath o).bind fun _ o' _ => (dirLoop_opens last init [] _ o').1
  · intro path o' returned
    obtain ⟨_, mid, -, made⟩ := Outcome.bind_eq_done returned
    rw [(dirLoop_opens last init [] _ mid).2 path o' made, fullPath_append]

theorem openLast_opens (path : Bytes) (init : List Bytes) (last : Bytes) (o : Opening φ) :
    Opens [cString (path ++ last)] o (openLast path (init ++ [last]) o) := by
  unfold openLast
  rw [List.getLast?_concat]
  dsimp only
  split
  · exact opens_done _ _
  · exact opens_thrown List.prefix_rfl _ rfl

/-- **`open_file` opens the path it puts together.** -/
theorem openFile_opens (absolutePath : Bytes) {relativePath : List Bytes}
    (some : relativePath ≠ []) (o : Opening φ) :
    Opens [cString (fullPath absolutePath relativePath)] o
      (openFile absolutePath relativePath o) := by
  obtain ⟨init, last, rfl⟩ : ∃ init last, relativePath = init ++ [last] :=
    ⟨_, _, (List.dropLast_append_getLast some).symm⟩
  obtain ⟨way, path⟩ := openWay_opens absolutePath init last o
  apply way.bind
  intro path' o' returned
  rw [← path path' o' returned]
  exact openLast_opens path' init last o'

/-- **`Files::Files` opens the paths of its files.** -/
theorem constructLoop_opens {β : Type} [BitSet β] (pieceSize : Nat) (files : List FileInfo)
    (some : ∀ fi ∈ files, fi.path ≠ []) : ∀ o : Opening φ,
      Opens (files.map fun fi => cString (fullPath fi.dirName fi.path)) o
        (constructLoop pieceSize files o : Outcome Thrown (Opening φ) (List (File β))) := by
  induction files with
  | nil => exact fun o => opens_nothing [] o.system
  | cons fi files ih =>
    intro o
    obtain ⟨here, rest⟩ := List.forall_mem_cons.1 some
    have first : Opens [cString (fullPath fi.dirName fi.path)] o
        (File.construct fi pieceSize o : Outcome Thrown (Opening φ) (File β)) := by
      unfold File.construct
      split
      · exact opens_refused _
      · exact (openFile_opens fi.dirName here o).map _
    exact first.bind fun _ o' _ => (ih rest o').map _

end

/-! ## A file system where everything is there -/

instance : FileSystem Unit where
  stat _ _ := some true
  mkdir _ _ := ()
  openFile _ _ := (.ok 3, ())

theorem dirLoop_unit (last : Bytes) (rest : List Bytes) : ∀ (front : List Bytes) (path : Bytes)
    (o : Opening Unit), ∃ path', dirLoop (front ++ rest ++ [last]) front.length path o =
      .done path' o := by
  induction rest with
  | nil => exact fun front path o => ⟨path, dirLoop_end front last path o⟩
  | cons name rest ih =>
    intro front path o
    rw [dirLoop_cons]
    exact ih (front ++ [name]) _ o

theorem openFile_unit (absolutePath : Bytes) {relativePath : List Bytes}
    (some : relativePath ≠ []) (o : Opening Unit) :
    openFile absolutePath relativePath o =
      .done 3 ⟨(), o.opened ++ [cString (fullPath absolutePath relativePath)]⟩ := by
  obtain ⟨init, last, rfl⟩ : ∃ init last, relativePath = init ++ [last] :=
    ⟨_, _, (List.dropLast_append_getLast some).symm⟩
  obtain ⟨path, way⟩ : ∃ path, openWay absolutePath (init ++ [last]) o = .done path o :=
    dirLoop_unit last init [] _ o
  have full := (openWay_opens absolutePath init last o).2 path o way
  rw [openFile, way, Outcome.bind_done, openLast, List.getLast?_concat, ← full]
  rfl

/-- The size of an empty path wraps. -/
theorem openFile_nil (absolutePath : Bytes) (o : Opening Unit) :
    openFile absolutePath [] o = .fault .outOfBounds o := by
  have way : dirLoop [] 0 (absolutePath ++ [slash]) o = .fault .outOfBounds o := by
    rw [dirLoop, if_pos (by decide)]
    rfl
  show ((dirLoop [] 0 (absolutePath ++ [slash]) o).bind _) = _
  rw [way]
  rfl

/-- Every file is opened, unless its path is an empty list. -/
theorem constructLoop_unit (pieceSize : Nat) (files : List FileInfo) : ∀ o : Opening Unit,
    (constructLoop pieceSize files o :
        Outcome Thrown (Opening Unit) (List (File (List Bool)))).Safe →
      (∀ fi ∈ files, fi.path ≠ []) ∧ (constructLoop pieceSize files o :
        Outcome Thrown (Opening Unit) (List (File (List Bool)))).state.opened =
          o.opened ++ files.map fun fi => cString (fullPath fi.dirName fi.path) := by
  induction files with
  | nil => exact fun o _ => ⟨fun fi mem => absurd mem List.not_mem_nil, (List.append_nil _).symm⟩
  | cons fi files ih =>
    intro o safe
    obtain ⟨file, made⟩ : ∃ file : File (List Bool), File.new fi pieceSize = some file :=
      ⟨_, rfl⟩
    rw [constructLoop, File.construct, made] at safe ⊢
    dsimp only at safe ⊢
    by_cases none : fi.path = []
    · have refused : openFile fi.dirName fi.path o = .fault .outOfBounds o := by
        rw [none]
        exact openFile_nil fi.dirName o
      rw [refused] at safe
      exact absurd safe Outcome.not_safe_fault
    · rw [openFile_unit fi.dirName none o, Outcome.map_done, Outcome.bind_done] at safe ⊢
      obtain ⟨some, opened⟩ := ih _ (Outcome.map_safe.1 safe)
      refine ⟨List.forall_mem_cons.2 ⟨none, some⟩, ?_⟩
      rw [Outcome.map_state, opened, List.map_cons, List.append_assoc]
      rfl

theorem constructLoop_made {β : Type} [BitSet β] {pieceSize : Nat} {files : List FileInfo}
    {data : List (File β)}
    (made : List.Forall₂ (fun fi file => File.new fi pieceSize = some file) files data)
    (paths : ∀ fi ∈ files, fi.path ≠ []) (o : Opening Unit) :
    ∃ o', constructLoop pieceSize files o = .done data o' := by
  induction made generalizing o with
  | nil => exact ⟨o, rfl⟩
  | cons first _ ih =>
    obtain ⟨here, rest⟩ := List.forall_mem_cons.1 paths
    obtain ⟨o', later⟩ := ih rest ⟨(), o.opened ++ [cString (fullPath _ _)]⟩
    refine ⟨o', ?_⟩
    rw [constructLoop, File.construct, first]
    dsimp only
    rw [openFile_unit _ here, Outcome.map_done, Outcome.bind_done, later]
    rfl

/-- Files with a path are constructed where everything is there. -/
theorem Files.constructed_iff {β : Type} [BitSet β] {tf : TorrentFile} {data : List (File β)}
    (paths : ∀ fi ∈ tf.files, fi.path ≠ []) : Files.Constructed tf data ↔
      List.Forall₂ (fun fi file => File.new fi tf.pieceSize = some file) tf.files data := by
  refine ⟨Files.Constructed.made, fun made => ?_⟩
  obtain ⟨o', done⟩ := constructLoop_made made paths ⟨(), []⟩
  exact ⟨Unit, inferInstance, _, o', done⟩

end TorrentClient
