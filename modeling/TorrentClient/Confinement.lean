import TorrentClient.OpenPath

/-!
# Which torrents stay in their directory

The constructor puts `/tmp/torrents/` in front of every file of a torrent. Where a
path leads from there is decided by the name and the path lists of the torrent alone.
-/

namespace TorrentClient

/-! ## Where a path leads -/

/-- A component of a path. -/
def component (name : Bytes) : Segment Bytes :=
  if name = [] ∨ name = ascii "." then .stay
  else if name = ascii ".." then .up
  else .down name

def components (path : Bytes) : List (Segment Bytes) := (path.splitOn slash).map component

/-- Where an absolute path leads. -/
def resolve (path : Bytes) : List Bytes := (components path).foldl Segment.walk []

/-- `/tmp/torrents` -/
def torrents : List Bytes := [ascii "torrents", ascii "tmp"]

theorem components_append (front back : Bytes) :
    components (front ++ slash :: back) = components front ++ components back := by
  rw [components, List.splitOn_append_cons_self, List.map_append]
  rfl

theorem cString_append {front : Bytes} (plain : 0 ∉ front) (back : Bytes) :
    cString (front ++ back) = front ++ cString back := by
  apply List.takeWhile_append_of_pos
  intro c mem
  rw [decide_eq_true_eq]
  rintro rfl
  exact plain mem

theorem resolve_torrents (path : Bytes) :
    resolve (ascii "/tmp/torrents/" ++ path) = (Route.of (components path)).follow torrents := by
  have split : ascii "/tmp/torrents/" ++ path = ascii "/tmp/torrents" ++ slash :: path := rfl
  have base : (components (ascii "/tmp/torrents")).foldl Segment.walk [] = torrents := by
    decide +kernel
  rw [split, resolve, components_append, List.foldl_append, base, Route.walk_eq]

example : ¬ Below torrents (resolve (ascii "/tmp/torrents//../x")) := by decide +kernel

namespace Metainfo

/-- The directory of the files of a torrent, in `/tmp/torrents/`. -/
def ownDir (tf : Metainfo) : Bytes := if tf.files.length = 1 then [] else tf.dirName

/-- The directory is in front of every file. -/
def Directed (tf : Metainfo) : Prop :=
  ∀ fi ∈ tf.files, fi.dirName = ascii "/tmp/torrents/" ++ tf.ownDir

theorem layFiles_dirs (pieceSize : Nat) (files : List FileInfo) : ∀ pieceIndex offset,
    (layFiles pieceSize pieceIndex offset files).map (·.dirName) = files.map (·.dirName) := by
  induction files with
  | nil => exact fun _ _ => rfl
  | cons file files ih =>
    intro pieceIndex offset
    rw [layFiles, List.map_cons, ih]
    rfl

theorem setPaths_directed (tf : Metainfo) : tf.setPaths.Directed := by
  have dir (files : List FileInfo) (length : files.length = tf.files.length) (dirPath : Bytes)
      (path : dirPath = ascii "/tmp/torrents/" ++ tf.ownDir) :
      Directed { tf with files := files.map fun file => { file with dirName := dirPath } } := by
    intro fi mem
    obtain ⟨file, -, rfl⟩ := List.mem_map.1 mem
    show dirPath = _
    rw [path, ownDir, ownDir, List.length_map, length]
  have path : (if tf.files.length = 1 then ascii "/tmp/torrents/"
      else ascii "/tmp/torrents/" ++ tf.dirName) = ascii "/tmp/torrents/" ++ tf.ownDir := by
    rw [ownDir]
    split
    · exact (List.append_nil _).symm
    · rfl
  unfold setPaths
  apply dir _ _ _ path
  split
  · rename_i files
    rw [files]
    rfl
  · rfl

/-! ## What the fillers keep -/

section
variable {σ : Type} {P : σ → Prop}

theorem processLoop_keeps {fillers : List (Bytes × Filler σ)}
    (kept : ∀ text filler, (text, filler) ∈ fillers → ∀ cursor s rest s', P s →
      filler.run cursor s = .done rest s' → P s') (cursor : List Lexeme) (s : σ) :
    P s → ∀ s', processLoop fillers cursor s = .done () s' → P s' := by
  fun_induction processLoop fillers cursor s with
  | case1 s =>
    rintro h s' ⟨⟩
    exact h
  | case3 t cursor s _ text _ filler found rest next called _ ih =>
    intro h
    obtain ⟨front, back, eq, -⟩ := List.lookup_eq_some_iff.1 found
    apply ih
    apply kept text filler ?_ (t :: cursor) s rest next h called
    rw [eq]
    exact List.mem_append_right _ List.mem_cons_self
  | case2 | case4 | case5 =>
    rintro _ s' ⟨⟩
  | case6 t cursor s _ text _ none ih => exact ih
  | case7 t cursor s other ih => exact ih

theorem fillValue_keeps {store : Lexeme → σ → Outcome Thrown σ Unit}
    (kept : ∀ t s s', P s → store t s = .done () s' → P s') {cursor rest : List Lexeme}
    {s s' : σ} (h : P s) (done : fillValue store cursor s = .done rest s') : P s' := by
  unfold fillValue at done
  split at done
  · cases done
  · rename_i t _ _
    obtain ⟨_, stored, -⟩ := Outcome.map_eq_done done
    exact kept t s s' h stored

theorem storeInt_keeps {set : Nat → σ → σ} (kept : ∀ n s, P s → P (set n s)) (t : Lexeme)
    (s s' : σ) (h : P s) (done : storeInt set t s = .done () s') : P s' := by
  unfold storeInt at done
  split at done
  · obtain ⟨n, -, last⟩ := Outcome.ofExcept_bind_eq_done done
    cases last
    exact kept _ s h
  · cases done
    exact h

theorem storeStr_keeps {set : Bytes → σ → σ} (kept : ∀ text s, P s → P (set text s)) (t : Lexeme)
    (s s' : σ) (h : P s) (done : storeStr set t s = .done () s') : P s' := by
  unfold storeStr at done
  split at done
  · obtain ⟨text, -, last⟩ := Outcome.ofExcept_bind_eq_done done
    cases last
    exact kept _ s h
  · cases done
    exact h

end

variable {tf tf' : Metainfo}

theorem fillAnnounceList_directed {cursor rest : List Lexeme} (h : tf.Directed)
    (done : fillAnnounceList.run cursor tf = .done rest tf') : tf'.Directed := by
  simp only [fillAnnounceList] at done
  split at done
  · cases done
  · obtain ⟨⟨texts, behind⟩, -, last⟩ := Outcome.ofExcept_bind_eq_done done
    cases last
    exact h

theorem fillInfo_directed [Heap Bytes] {cursor rest : List Lexeme} (h : tf.Directed)
    (done : fillInfo.run cursor tf = .done rest tf') : tf'.Directed := by
  simp only [fillInfo] at done
  split at done
  · cases done
  · split at done
    · cases done
      exact h
    · obtain ⟨behind, read, -, last⟩ := Outcome.bind_eq_done done
      cases last
      exact setPaths_directed read

theorem fillers_directed [Heap Bytes] {text : Bytes} {filler : Filler Metainfo}
    (mem : (text, filler) ∈ fillers) {cursor rest : List Lexeme} (h : tf.Directed)
    (done : filler.run cursor tf = .done rest tf') : tf'.Directed := by
  have str {set : Bytes → Metainfo → Metainfo} (run : (fillStr set).run cursor tf = .done rest tf')
      (kept : ∀ text s, s.Directed → (set text s).Directed) : tf'.Directed :=
    fillValue_keeps (storeStr_keeps kept) h run
  have int {set : Nat → Metainfo → Metainfo} (run : (fillInt set).run cursor tf = .done rest tf')
      (kept : ∀ n s, s.Directed → (set n s).Directed) : tf'.Directed :=
    fillValue_keeps (storeInt_keeps kept) h run
  simp only [fillers, List.mem_cons, List.not_mem_nil, or_false, Prod.mk.injEq] at mem
  rcases mem with ⟨-, rfl⟩ | ⟨-, rfl⟩ | ⟨-, rfl⟩ | ⟨-, rfl⟩ | ⟨-, rfl⟩ | ⟨-, rfl⟩ | ⟨-, rfl⟩
  · exact fillInfo_directed h done
  · exact str done fun _ _ => id
  · exact str done fun _ _ => id
  · exact str done fun _ _ => id
  · exact str done fun _ _ => id
  · exact fillAnnounceList_directed h done
  · exact int done fun _ _ => id

theorem infoRange_done [SubStrings] [Externals] {tokens : List BeToken} {source : StringWrapper}
    {range : Option (Nat × Nat)} (done : tf.infoRange tokens source = .done range tf') :
    tf' = tf := by
  obtain ⟨found, -, later⟩ := Outcome.ofExcept_bind_eq_done done
  split at later
  · cases later
    rfl
  · cases later
  · dsimp only at later
    split at later
    · cases later
      rfl
    · cases later
      rfl

theorem calculateInfoSha1_directed [SubStrings] [Externals] {tokens : List BeToken}
    {source : StringWrapper} (h : tf.Directed)
    (done : tf.calculateInfoSha1 tokens source = .done () tf') : tf'.Directed := by
  obtain ⟨range, read, ranged, last⟩ := Outcome.bind_eq_done done
  cases infoRange_done ranged
  split at last
  · cases last
    exact h
  · split at last
    · cases last
    · cases last
      exact h

/-- Every file of a torrent that is accepted is in the directory of the torrent. -/
theorem new_directed [SubStrings] [Externals] {path : Bytes} {source : StringWrapper}
    (accepted : new path source = .done () tf) : tf.Directed := by
  obtain ⟨tokens, -, later⟩ := Outcome.ofExcept_bind_eq_done accepted
  obtain ⟨_, read, processed, later⟩ := Outcome.bind_eq_done later
  obtain ⟨_, hashed, calculated, later⟩ := Outcome.bind_eq_done later
  have opened : (Metainfo.opened path).Directed := fun fi mem => absurd mem List.not_mem_nil
  have filled : read.Directed := by
    apply processLoop_keeps ?_ _ _ opened read processed
    exact fun text filler mem cursor s rest s' h done => fillers_directed mem h done
  have before := calculateInfoSha1_directed filled calculated
  obtain ⟨laid, layout, rfl⟩ := Outcome.lift_eq_done later
  obtain ⟨-, -, -, files⟩ := fillPieceOffsets_done layout
  have dirs := layFiles_dirs laid.pieceSize hashed.files 0 0
  rw [← files] at dirs
  have length := congrArg List.length dirs
  rw [List.length_map, List.length_map] at length
  have own : ownDir { hashed with toTorrentFile := laid } = hashed.ownDir := by
    rw [ownDir, ownDir, length]
  intro fi mem
  have named : fi.dirName ∈ laid.files.map (·.dirName) := List.mem_map_of_mem mem
  rw [dirs] at named
  obtain ⟨file, old, same⟩ := List.mem_map.1 named
  rw [← same, before file old, own]

/-! ## Where the files are -/

/-- The path of a file in `/tmp/torrents/`. -/
def ownPath (tf : Metainfo) (fi : FileInfo) : Bytes := cString (fullPath tf.ownDir fi.path)

/-- Every file has a path, and the path enters again what its parent references leave. -/
def Inward (tf : Metainfo) : Prop :=
  ∀ fi ∈ tf.files, fi.path ≠ [] ∧ (Route.of (components (tf.ownPath fi))).Returns torrents

theorem Directed.below_iff (h : tf.Directed) {fi : FileInfo} (mem : fi ∈ tf.files) :
    Below torrents (resolve (cString (fullPath fi.dirName fi.path))) ↔
      (Route.of (components (tf.ownPath fi))).Returns torrents := by
  have path : cString (fullPath fi.dirName fi.path) =
      ascii "/tmp/torrents/" ++ tf.ownPath fi := by
    rw [h fi mem, fullPath, List.append_assoc, cString_append (by decide)]
    rfl
  rw [path, resolve_torrents, Route.below_follow_iff]

end Metainfo

/-- Nothing is read out of bounds, every path is below `/tmp/torrents`, and a constructor that
returns opened one for every file. -/
structure Confined {φ α : Type} (files : List FileInfo) (r : Outcome Thrown (Opening φ) α) :
    Prop where
  safe : r.Safe
  below : ∀ path ∈ r.state.opened, Below torrents (resolve path)
  every : ∀ a o, r = .done a o → o.opened.length = files.length

/-- The files of the torrent are opened in their directory, whatever is there. -/
def Contained (tf : TorrentFile) : Prop :=
  ∀ (β φ : Type) [BitSet β] [FileSystem φ] (system : φ),
    Confined tf.files (Files.construct β tf ⟨system, []⟩)

section
variable [SubStrings] [Externals] {path : Bytes} {source : StringWrapper} {tf : Metainfo}

theorem Contained.inward (accepted : Metainfo.new path source = .done () tf)
    (h : Contained tf.toTorrentFile) : tf.Inward := by
  intro fi mem
  obtain ⟨safe, below, -⟩ := h (List Bool) Unit ()
  obtain ⟨some, opened⟩ := constructLoop_unit tf.pieceSize tf.files ⟨(), []⟩ safe
  refine ⟨some fi mem, ((Metainfo.new_directed accepted).below_iff mem).1 (below _ ?_)⟩
  rw [Files.construct, opened]
  exact List.mem_map_of_mem mem

/-- **The files of a torrent stay below `/tmp/torrents`** if and only if every one has a
path, and none of the paths leaves the directory for good. -/
theorem contained_iff (accepted : Metainfo.new path source = .done () tf) :
    Contained tf.toTorrentFile ↔ tf.Inward := by
  have directed := Metainfo.new_directed accepted
  constructor
  · exact Contained.inward accepted
  · intro h β φ _ _ system
    have opens := constructLoop_opens (β := β) tf.pieceSize tf.files
      (fun fi mem => (h fi mem).1) ⟨system, []⟩
    refine ⟨opens.safe, ?_, ?_⟩
    · intro path mem
      obtain ⟨front, le, opened⟩ := opens.opened
      rw [Files.construct, opened] at mem
      obtain ⟨fi, file, rfl⟩ := List.mem_map.1 (le.subset mem)
      exact (directed.below_iff file).2 (h fi file).2
    · intro data o returned
      rw [opens.all data o returned]
      exact List.length_map _

end

/-! ## Three torrents -/

/-- A torrent file for five bytes, with a name. -/
def fiveNamed (name : Bytes) : Value :=
  .dict [(ascii "info", .dict [(ascii "length", .int 5), (ascii "name", .str name),
    (ascii "piece length", .int 4), (ascii "pieces", .str (List.replicate 40 7))])]

/-- A torrent file for two files of two bytes, whose paths are empty lists. -/
def twoPathless : Value :=
  .dict [(ascii "info", .dict [(ascii "files", .list (List.replicate 2
    (.dict [(ascii "length", .int 2), (ascii "path", .list [])]))),
    (ascii "piece length", .int 4), (ascii "pieces", .str (List.replicate 20 7))])]

/-- A name that leaves the directory it has entered, and no other. -/
def cancelledName : StringWrapper := .ofBytes (fiveNamed (ascii "a/../b")).encode (by decide)

def parentName : StringWrapper := .ofBytes (fiveNamed (ascii "../x")).encode (by decide)

def noPaths : StringWrapper := .ofBytes twoPathless.encode (by decide)

theorem Metainfo.inward_single {tf : Metainfo} {path : List Bytes}
    (files : tf.files.map (·.path) = [path]) : tf.Inward ↔
      path ≠ [] ∧ (Route.of (components (cString (fullPath [] path)))).Returns torrents := by
  obtain ⟨fi, one, rfl⟩ := List.map_eq_singleton_iff.1 files
  rw [Inward, one, List.forall_mem_singleton, ownPath, ownDir, one]
  rfl

theorem contained_cancelled :
    ∃ tf, @Metainfo.new SubStrings.cut (Metainfo.exactExternals id) [] cancelledName =
        .done () tf ∧ Contained tf.toTorrentFile := by
  have text : cancelledName.bytes = (fiveNamed (ascii "a/../b")).encode :=
    StringWrapper.bytes_ofBytes _ _
  have ⟨tf, accepted, files⟩ : ∃ tf,
      @Metainfo.new SubStrings.cut (Metainfo.exactExternals id) [] cancelledName = .done () tf ∧
      tf.files.map (·.path) = [[ascii "a/../b"]] := by
    rw [@Metainfo.new_value SubStrings.cut (Metainfo.exactExternals id) _ _ text]
    exact ⟨_, rfl, rfl⟩
  refine ⟨tf, accepted, ?_⟩
  apply (@contained_iff SubStrings.cut (Metainfo.exactExternals id) _ _ _ accepted).2
  exact (Metainfo.inward_single files).2 (by decide +kernel)

/-- The name leads to `/tmp/x`; the files have no path. -/
theorem not_contained_parent : [parentName, noPaths].Forall fun source =>
    ∃ tf, @Metainfo.new SubStrings.cut (Metainfo.exactExternals id) [] source = .done () tf ∧
      ¬ Contained tf.toTorrentFile := by
  constructor
  · have text : parentName.bytes = (fiveNamed (ascii "../x")).encode :=
      StringWrapper.bytes_ofBytes _ _
    have ⟨tf, accepted, files⟩ : ∃ tf,
        @Metainfo.new SubStrings.cut (Metainfo.exactExternals id) [] parentName = .done () tf ∧
        tf.files.map (·.path) = [[ascii "../x"]] := by
      rw [@Metainfo.new_value SubStrings.cut (Metainfo.exactExternals id) _ _ text]
      exact ⟨_, rfl, rfl⟩
    refine ⟨tf, accepted, fun contained => ?_⟩
    have inward := @contained.inward SubStrings.cut (Metainfo.exactExternals id) _ _ _ accepted
    exact absurd ((Metainfo.inward_single files).1 inward) (by decide +kernel)
  · have text : noPaths.bytes = twoPathless.encode := StringWrapper.bytes_ofBytes _ _
    have ⟨tf, accepted, files⟩ : ∃ tf,
        @Metainfo.new SubStrings.cut (Metainfo.exactExternals id) [] noPaths = .done () tf ∧
        tf.files.map (·.path) = [[], []] := by
      rw [@Metainfo.new_value SubStrings.cut (Metainfo.exactExternals id) _ _ text]
      exact ⟨_, rfl, rfl⟩
    refine ⟨tf, accepted, fun contained => ?_⟩
    have inward := @contained.inward SubStrings.cut (Metainfo.exactExternals id) _ _ _ accepted
    have empty : [] ∈ tf.files.map (·.path) := by
      rw [files]
      exact List.mem_cons_self
    obtain ⟨fi, mem, nothing⟩ := List.mem_map.1 empty
    exact (inward fi mem).1 nothing

end TorrentClient
