import TorrentClient.MetainfoOutline
import TorrentClient.MultiFile
import TorrentClient.TrackerSafety

/-!
# Entries that no filler is registered for

`process` does not know where a value ends, so an entry it should pass over can
say a registered text, or stand where a filler still reads. Where neither is so,
the entry makes no difference.
-/

namespace TorrentClient

/-- A source that is the encoding of a dictionary, and its tokens. -/
structure DictSource (entries : List (Bytes × Value)) where
  source : StringWrapper
  tokens : List BeToken
  text : source.bytes = (Value.dict entries).encode
  parsed : BeParser.parse source = .ok tokens

def DictSource.ofEntries (entries : List (Bytes × Value))
    (small : (Value.dict entries).encode.length < 2 ^ 63) : DictSource entries where
  source := .ofBytes (Value.dict entries).encode small
  tokens := valuesTokens [.dict entries] 0
  text := StringWrapper.bytes_ofBytes _ _
  parsed := BeParser.parse_value (StringWrapper.bytes_ofBytes _ _)

/-- What the tokens read. -/
def DictSource.lexemes [SubStrings] {entries : List (Bytes × Value)} (d : DictSource entries) :
    List Lexeme :=
  d.tokens.map (·.on d.source)

theorem DictSource.bare [SubStrings] {entries : List (Bytes × Value)} (d : DictSource entries) :
    d.lexemes.map Lexeme.bare =
      .mark .dictStart :: (entriesLexemes entries ++ [.mark .dictEnd]) := by
  have whole : d.source.bytes = [] ++ encodeValues [.dict entries] ++ [] := by
    simp [d.text, encodeValues]
  have read := valuesTokens_on [.dict entries] whole
  have tokens := Except.ok.inj (d.parsed.symm.trans (BeParser.parse_value d.text))
  rw [lexemes, tokens, List.map_map]
  refine Eq.trans read ?_
  simp [valuesLexemes, Value.lexemes]

def Value.IsLeaf : Value → Prop
  | .str _ | .int _ => True
  | _ => False

theorem Value.lexemes_of_leaf {v : Value} (leaf : v.IsLeaf) :
    ∃ type text, v.lexemes = [.leaf type text] ∧ (type = .int ∨ type = .str) := by
  cases v with
  | str body => exact ⟨_, _, rfl, Or.inr rfl⟩
  | int value => exact ⟨_, _, rfl, Or.inl rfl⟩
  | list values => cases leaf
  | dict entries => cases leaf

/-- The texts that the tokens of an entry read. -/
theorem entryLexemes_texts {entry : Bytes × Value} {t : Lexeme} (mem : t ∈ entryLexemes entry) :
    (t.IsLeaf → t.str ≠ none) ∧ ∀ text, t.str = some text → text ∈ entry.1 :: entry.2.texts := by
  obtain ⟨key, v⟩ := entry
  cases List.mem_cons.1 mem with
  | inl eq =>
    subst eq
    refine ⟨fun _ => Option.some_ne_none _, ?_⟩
    rintro _ ⟨⟩
    exact List.mem_cons_self
  | inr mem =>
    refine ⟨v.lexemes_leaf t mem, fun text str => List.mem_cons_of_mem _ ?_⟩
    rw [← v.lexemes_texts]
    exact List.mem_filterMap.2 ⟨t, mem, str⟩

theorem entriesLexemes_texts_mem {entries : List (Bytes × Value)} {t : Lexeme} {text : Bytes}
    (mem : t ∈ entriesLexemes entries) (str : t.str = some text) : text ∈ entriesTexts entries := by
  rw [← entriesLexemes_texts]
  exact List.mem_filterMap.2 ⟨t, mem, str⟩

theorem key_mem_texts {entries : List (Bytes × Value)} {entry : Bytes × Value}
    (mem : entry ∈ entries) : entry.1 ∈ entriesTexts entries := by
  induction entries with
  | nil => cases mem
  | cons first entries ih =>
    obtain ⟨key, v⟩ := first
    rw [entriesTexts]
    cases List.mem_cons.1 mem with
    | inl eq =>
      subst eq
      exact List.mem_cons_self
    | inr mem => exact List.mem_cons_of_mem _ (List.mem_append_right _ (ih mem))

/-- Between two fillers, an entry without a registered text is passed over. -/
theorem run_unregistered {σ μ : Type} {F : FillerReader σ μ} {fillers : List (Bytes × Filler σ)}
    (matched : List.Forall₂ (fun f m => f.1 = m.1 ∧ F.Matches f.2 m.2) fillers F.modes)
    {key : Bytes} {v : Value} (free : ∀ text ∈ key :: v.texts, registered fillers text = false)
    (s : σ) : F.reader.run (entryLexemes (key, v)) none s = .done none s := by
  apply FillerReader.run_scan
  · exact fun t mem => (entryLexemes_texts mem).1
  · intro t mem text str
    exact FillerReader.lookup_unregistered matched (free text ((entryLexemes_texts mem).2 text str))

namespace Metainfo

/-! ## Torrent files -/

/-- The keys `fill_info` acts on. -/
def infoNames : List Bytes := ascii "name" :: infoKeys

variable [Heap Bytes]

/-- An entry that the reader passes over where it is. -/
def PassedOver (mode : Option Mode) (key : Bytes) (v : Value) : Prop :=
  match mode with
  | none => ∀ text ∈ key :: v.texts, registered fillers text = false
  | some .info => key ∉ infoNames ∧ v.IsLeaf
  | some .ended => True
  | _ => False

/-- The entries without a filler are passed over where the reader gets to them; or
it is still in `info` and none of what is left says a text that matters. -/
def Clear : Option Mode → List (Bytes × Value) → Prop
  | _, [] => True
  | mode, (key, v) :: entries =>
    ((registered fillers key = true ∨ PassedOver mode key v) ∧
        Clear ((entryLexemes (key, v)).foldl nextMode mode) entries) ∨
      (mode = some .info ∧ ∀ text ∈ entriesTexts ((key, v) :: entries),
        registered fillers text = false ∧ text ∉ infoNames)

variable {tf : Metainfo} {key : Bytes} {v : Lexeme}

theorem outline_after_mode (ts : List Lexeme) (p : Place) :
    (outline.after ts p).mode = ts.foldl nextMode p.mode := by
  induction ts generalizing p with
  | nil => rfl
  | cons t ts ih => exact ih (p.next t)

omit [Heap Bytes] in
theorem setInfo_unnamed (free : key ∉ infoNames) : tf.setInfo key v = .done () tf := by
  simp only [infoNames, infoKeys, List.mem_cons, List.not_mem_nil, or_false, not_or] at free
  obtain ⟨name, -, length, md5, pieceLength, -, secret⟩ := free
  rw [setInfo, if_neg fun h => pieceLength h.1, if_neg fun h => secret h.1,
    if_neg fun h => name h.1, if_neg fun h => md5 h.1, if_neg fun h => length h.1]

omit [Heap Bytes] in
theorem infoNames_listed : ascii "pieces" ∈ infoNames ∧ ascii "files" ∈ infoNames := by
  simp [infoNames, infoKeys]

theorem run_info_entry (free : key ∉ infoNames) {value : Value} (leaf : value.IsLeaf)
    (tf : Metainfo) :
    metainfoReader.reader.run (entryLexemes (key, value)) (some .info) tf =
      .done (some .info) tf := by
  obtain ⟨type, text, lexemes, types⟩ := Value.lexemes_of_leaf leaf
  have noPieces : ¬ (key = ascii "pieces" ∧ type = .str) :=
    fun h => free (h.1 ▸ infoNames_listed.1)
  have noFiles : ¬ (key = ascii "files" ∧ type = .listStart) :=
    fun h => free (h.1 ▸ infoNames_listed.2)
  have valued : stepMode (.infoValue key) (.leaf type text) tf = .done (some .info) tf := by
    rw [stepMode]
    show (if key = ascii "pieces" ∧ type = .str then _
      else if key = ascii "files" ∧ type = .listStart then _ else _) = _
    rw [if_neg noPieces, if_neg noFiles, setInfo_unnamed free]
    rfl
  rw [entryLexemes, lexemes]
  show (stepMode (.infoValue key) (.leaf type text) tf).bind _ = _
  rw [valued]
  rfl

theorem idle_passedOver {p : Place} {value : Value} (passed : PassedOver p.mode key value) :
    outline.Idle p (entryLexemes (key, value)) := by
  rintro mode tf - rfl
  change PassedOver mode key value at passed
  unfold PassedOver at passed
  split at passed
  · exact run_unregistered matches_fillers passed tf
  · exact run_info_entry passed.1 passed.2 tf
  · generalize entryLexemes (key, value) = ts
    induction ts with
    | nil => rfl
    | cons t ts ih => exact ih
  · cases passed

/-- In `info`, tokens that say nothing do not matter up to the end of the dictionary. -/
theorem silent_info {p : Place} (info : p.mode = some .info) {entries : List (Bytes × Value)}
    (free : ∀ text ∈ entriesTexts entries,
      registered fillers text = false ∧ text ∉ infoNames) :
    outline.Silent p (entriesLexemes entries) [.mark .dictEnd] := by
  rintro mode tf - rfl
  cases info
  obtain ⟨rest, tf', looped, same⟩ := infoLoop_free (f := fun tf => tf) infoNames_listed
    (fun key v tf free _ => ⟨tf, setInfo_unnamed free, rfl⟩) tf (entriesLexemes_leaf entries)
    fun t mem text str => (free text (entriesLexemes_texts_mem mem str)).2
  subst same
  have suffix := infoLoop_suffix looped
  have inside : ∀ t ∈ rest, t ∈ entriesLexemes entries ∨ t = .mark .dictEnd := by
    intro t mem
    exact (List.mem_append.1 (suffix.subset mem)).imp_right List.mem_singleton.1
  have scanned : metainfoReader.reader.run rest none tf'.setPaths = .done none tf'.setPaths := by
    apply FillerReader.run_scan
    · intro t mem leaf
      rcases inside t mem with mem | rfl
      · exact entriesLexemes_leaf entries t mem leaf
      · exact absurd leaf (by simp [Lexeme.IsLeaf, Lexeme.mark])
    · intro t mem text str
      rcases inside t mem with mem | rfl
      · exact FillerReader.lookup_unregistered matches_fillers
          (free text (entriesLexemes_texts_mem mem str)).1
      · cases str
  rw [complete_info, looped, Outcome.bind_done, Reader.complete, scanned]
  rfl

theorem Clear.spares {entries : List (Bytes × Value)} {p : Place} (clear : Clear p.mode entries) :
    outline.Spares entryLexemes (fun entry => registered fillers entry.1) [.mark .dictEnd] p
      entries := by
  induction entries generalizing p with
  | nil => trivial
  | cons entry entries ih =>
    obtain ⟨key, value⟩ := entry
    rcases clear with ⟨first, later⟩ | ⟨info, free⟩
    · rw [← outline_after_mode] at later
      exact Or.inl ⟨first.imp_right idle_passedOver, ih later⟩
    · refine Or.inr ⟨fun entry mem => (free entry.1 (key_mem_texts mem)).1, ?_⟩
      · rw [← entriesLexemes_flatMap]
        exact silent_info info free

theorem step_bare (mode : Option Mode) (t : Lexeme) (tf : Metainfo) :
    metainfoReader.reader.step mode t.bare tf = metainfoReader.reader.step mode t tf := by
  by_cases leaf : t.IsLeaf
  · rw [Lexeme.bare_leaf leaf]
  · have types := not_or.1 leaf
    cases mode with
    | none => exact metainfoReader.scan_bare t tf
    | some mode =>
      show stepMode mode t.bare tf = stepMode mode t tf
      cases mode with
      | value slot => simp only [stepMode, slot.store_bare]
      | announceStart | infoStart | files | infoSkip | fileSkip | ended =>
        simp only [stepMode, Lexeme.bare_type]
      | announce | path | info | file =>
        simp only [stepMode, Lexeme.bare_type]
        split <;> simp_all
      | infoValue key =>
        simp only [stepMode, Lexeme.bare_type, setInfo_bare, types.2, and_false, if_false]
      | fileValue key => simp only [stepMode, Lexeme.bare_type, setFile_bare]

variable [SubStrings] {entries : List (Bytes × Value)}

/-- Only the entries that a filler is registered for are read. -/
theorem processLoop_clear (d : DictSource entries) (clear : Clear none entries) (path : Bytes) :
    processLoop fillers d.lexemes (opened path) =
      metainfoReader.reader.complete
        ((entries.filter fun entry => registered fillers entry.1).flatMap entryLexemes ++
          [.mark .dictEnd]) none (opened path) := by
  have kept : outline.Kept none (opened path) := kept_opened path
  have bare : metainfoReader.reader.complete (d.lexemes.map Lexeme.bare) none (opened path) =
      metainfoReader.reader.complete d.lexemes none (opened path) :=
    outline.complete_map (fun _ _ => True) (fun m t s _ => step_bare m t s) kept
      fun _ _ _ _ => trivial
  have spared := Outline.complete_filter kept (Clear.spares (p := start) clear)
  rw [processLoop_fillers, ← bare, d.bare, complete_mark (by simp [Lexeme.IsLeaf, Lexeme.mark]),
    entriesLexemes_flatMap]
  exact spared

end Metainfo

namespace TrackerResponse

/-! ## Answers of a tracker -/

variable [Network]

/-- The keys of a peer. -/
def peerNames : List Bytes := [ascii "peer id", ascii "ip", ascii "port"]

/-- An entry that the reader passes over where it is. -/
def PassedOver (mode : Option Mode) (key : Bytes) (v : Value) : Prop :=
  match mode with
  | none => ∀ text ∈ key :: v.texts, registered fillers text = false
  | some .detail => key ∉ peerNames ∧ v.IsLeaf
  | _ => False

/-- The entries without a filler are passed over where the reader gets to them. -/
def Clear : Place → List (Bytes × Value) → Prop
  | _, [] => True
  | p, (key, v) :: entries =>
    (registered fillers key = true ∨ PassedOver p.mode key v) ∧
      Clear (outline.after (entryLexemes (key, v)) p) entries

/-- No list or dictionary is read as the value of a key of a peer. -/
def Legible (entries : List (Bytes × Value)) : Prop :=
  ∀ front t back, (Value.dict entries).lexemes = front ++ t :: back →
    ∀ key, (outline.after front ⟨none, none⟩).mode = some (.detailValue key) → t.IsLeaf

theorem run_detail_passed {key : Bytes} (free : key ∉ peerNames) {value : Value}
    (leaf : value.IsLeaf) (tr : TrackerResponse) :
    trackerReader.reader.run (entryLexemes (key, value)) (some .detail) tr =
      .done (some .detail) tr := by
  obtain ⟨type, text, lexemes, -⟩ := Value.lexemes_of_leaf leaf
  simp only [peerNames, List.mem_cons, List.not_mem_nil, or_false, not_or] at free
  have stored : tr.storeDetail key text = .done () tr := by
    rw [storeDetail, if_neg free.1, if_neg free.2.1, if_neg free.2.2]
  rw [entryLexemes, lexemes, run_detail_entry, stored]
  rfl

theorem idle_passedOver {p : Place} {key : Bytes} {value : Value}
    (passed : PassedOver p.mode key value) : outline.Idle p (entryLexemes (key, value)) := by
  rintro mode tr - rfl
  change PassedOver mode key value at passed
  unfold PassedOver at passed
  split at passed
  · exact run_unregistered matches_fillers passed tr
  · exact run_detail_passed passed.1 passed.2 tr
  · cases passed

theorem Clear.spares {entries : List (Bytes × Value)} {p : Place} (clear : Clear p entries) :
    outline.Spares entryLexemes (fun entry => registered fillers entry.1) [.mark .dictEnd] p
      entries := by
  induction entries generalizing p with
  | nil => trivial
  | cons entry entries ih => exact Or.inl ⟨clear.1.imp_right idle_passedOver, ih clear.2⟩

/-- The reader is not in the peers. -/
def Outside : Option Mode → Prop
  | none | some (.value _) => True
  | _ => False

theorem outside_after {ts : List Lexeme} (free : ∀ t ∈ ts, t.str ≠ some (ascii "peers"))
    {p : Place} (outside : Outside p.mode) : Outside (outline.after ts p).mode := by
  induction ts generalizing p with
  | nil => exact outside
  | cons t ts ih =>
    obtain ⟨first, free'⟩ := List.forall_mem_cons.1 free
    refine ih free' (p := p.next t) ?_
    obtain ⟨mode, last⟩ := p
    match mode with
    | some (.value slot) => trivial
    | none =>
      have all : ∀ entry ∈ trackerReader.modes,
          Outside (some entry.2) ∨ entry.1 = ascii "peers" := by
        simp [trackerReader, Outside]
      simp only [Place.next]
      split
      · cases registered : t.str.bind fun text => trackerReader.modes.lookup text with
        | none => trivial
        | some mode =>
          obtain ⟨text, str, found⟩ := Option.bind_eq_some_iff.1 registered
          obtain ⟨front, back, split, -⟩ := List.lookup_eq_some_iff.1 found
          refine (all (text, mode) (by simp [split])).resolve_right fun peers => first ?_
          rw [str, ← peers]
      · trivial

/-- An answer that does not say `peers` has no peers to read. -/
theorem legible_of_no_peers {entries : List (Bytes × Value)}
    (free : ascii "peers" ∉ entriesTexts entries) : Legible entries := by
  intro front t back split key mode
  have texts : ∀ t ∈ front, t.str ≠ some (ascii "peers") := by
    intro t mem str
    apply free
    have said : ascii "peers" ∈ (Value.dict entries).texts := by
      rw [← Value.lexemes_texts, split]
      exact List.mem_filterMap.2 ⟨t, List.mem_append_left _ mem, str⟩
    exact said
  have outside := outside_after texts (p := ⟨none, none⟩) trivial
  rw [mode] at outside
  cases outside

variable [SubStrings] {entries : List (Bytes × Value)}

/-- Only the entries that a filler is registered for are read. -/
theorem processLoop_clear (d : DictSource entries) (clear : Clear ⟨none, none⟩ entries)
    (legible : Legible entries) :
    processLoop fillers d.lexemes {} =
      trackerReader.reader.complete
        ((entries.filter fun entry => registered fillers entry.1).flatMap entryLexemes ++
          [.mark .dictEnd]) none {} := by
  have kept : outline.Kept none ({} : TrackerResponse) := fun m mem => nomatch mem
  have bare : trackerReader.reader.complete (d.lexemes.map Lexeme.bare) none {} =
      trackerReader.reader.complete d.lexemes none {} := by
    apply outline.complete_map (fun p t => ∀ key, p.mode = some (.detailValue key) → t.IsLeaf)
    · intro mode t tr leaf
      cases mode with
      | none => exact trackerReader.scan_bare t tr
      | some mode =>
        refine stepMode_bare_eq (fun key eq => ?_) tr
        have bare_leaf := leaf key (congrArg some eq)
        rwa [Lexeme.IsLeaf, Lexeme.bare_type] at bare_leaf
    · exact kept
    · intro front t back split
      apply legible front t back
      rw [← split, d.bare]
      simp [Value.lexemes]
  have spared := Outline.complete_filter kept clear.spares
  have started : trackerReader.reader.complete (.mark .dictStart ::
      (entriesLexemes entries ++ [.mark .dictEnd])) none ({} : TrackerResponse) =
        trackerReader.reader.complete (entriesLexemes entries ++ [.mark .dictEnd]) none {} := rfl
  rw [FillerReader.processLoop_eq matches_fillers, ← bare, d.bare, started,
    entriesLexemes_flatMap]
  exact spared

end TrackerResponse

/-- **What an entry without a filler cannot do.** Two dictionaries whose entries
without a filler are passed over, and whose other entries are the same, fill the
same fields. -/
theorem process_unregistered [SubStrings] [Heap Bytes] [Network]
    {entries₁ entries₂ : List (Bytes × Value)} (d₁ : DictSource entries₁)
    (d₂ : DictSource entries₂) :
    (∀ path, Metainfo.Clear none entries₁ → Metainfo.Clear none entries₂ →
      entries₁.filter (fun entry => registered Metainfo.fillers entry.1) =
        entries₂.filter (fun entry => registered Metainfo.fillers entry.1) →
      processLoop Metainfo.fillers d₁.lexemes (.opened path) =
        processLoop Metainfo.fillers d₂.lexemes (.opened path)) ∧
    (TrackerResponse.Clear ⟨none, none⟩ entries₁ → TrackerResponse.Clear ⟨none, none⟩ entries₂ →
      TrackerResponse.Legible entries₁ → TrackerResponse.Legible entries₂ →
      entries₁.filter (fun entry => registered TrackerResponse.fillers entry.1) =
        entries₂.filter (fun entry => registered TrackerResponse.fillers entry.1) →
      processLoop TrackerResponse.fillers d₁.lexemes {} =
        processLoop TrackerResponse.fillers d₂.lexemes {}) := by
  constructor
  · intro path clear₁ clear₂ agree
    rw [Metainfo.processLoop_clear d₁ clear₁, Metainfo.processLoop_clear d₂ clear₂, agree]
  · intro clear₁ clear₂ legible₁ legible₂ agree
    rw [TrackerResponse.processLoop_clear d₁ clear₁ legible₁,
      TrackerResponse.processLoop_clear d₂ clear₂ legible₂, agree]

/-- A tracker and an interval, in front of other entries. -/
def withOthers (others : List (Bytes × Value)) : List (Bytes × Value) :=
  (ascii "announce", .str (ascii "udp")) :: (ascii "interval", .int 5) :: others

def plainSource : DictSource (withOthers []) := .ofEntries _ (by decide)

def numberSource : DictSource (withOthers [(ascii "x", .list [.int 7])]) := .ofEntries _ (by decide)

theorem process_number :
    processLoop (@Metainfo.fillers Metainfo.stringHeap)
          (@DictSource.lexemes SubStrings.cut _ plainSource) (.opened []) =
        processLoop (@Metainfo.fillers Metainfo.stringHeap)
          (@DictSource.lexemes SubStrings.cut _ numberSource) (.opened []) ∧
      processLoop (@TrackerResponse.fillers Network.ipv4)
          (@DictSource.lexemes SubStrings.cut _ plainSource) {} =
        processLoop (@TrackerResponse.fillers Network.ipv4)
          (@DictSource.lexemes SubStrings.cut _ numberSource) {} := by
  let _ := Metainfo.stringHeap
  let _ := Network.ipv4
  let _ := SubStrings.cut
  have laws := process_unregistered plainSource numberSource
  have interval : Metainfo.PassedOver none (ascii "interval") (.int 5) := by
    simp only [Metainfo.PassedOver, Value.texts, List.forall_mem_cons]
    exact ⟨rfl, rfl, nofun⟩
  have number : Metainfo.PassedOver none (ascii "x") (.list [.int 7]) := by
    simp only [Metainfo.PassedOver, Value.texts, valuesTexts, List.forall_mem_cons,
      List.append_nil]
    exact ⟨rfl, rfl, nofun⟩
  have announce : TrackerResponse.PassedOver none (ascii "announce") (.str (ascii "udp")) := by
    simp only [TrackerResponse.PassedOver, Value.texts, List.forall_mem_cons]
    exact ⟨rfl, rfl, nofun⟩
  have number' : TrackerResponse.PassedOver none (ascii "x") (.list [.int 7]) := by
    simp only [TrackerResponse.PassedOver, Value.texts, valuesTexts, List.forall_mem_cons,
      List.append_nil]
    exact ⟨rfl, rfl, nofun⟩
  constructor
  · exact laws.1 [] (Or.inl ⟨Or.inl rfl, Or.inl ⟨Or.inr interval, trivial⟩⟩)
      (Or.inl ⟨Or.inl rfl, Or.inl ⟨Or.inr interval, Or.inl ⟨Or.inr number, trivial⟩⟩⟩) rfl
  · exact laws.2 ⟨Or.inr announce, Or.inl rfl, trivial⟩
      ⟨Or.inr announce, Or.inl rfl, Or.inr number', trivial⟩
      (TrackerResponse.legible_of_no_peers (by decide))
      (TrackerResponse.legible_of_no_peers (by decide)) rfl

/-- Entries whose values say registered texts. -/
def naming : List (Bytes × Value) :=
  [(ascii "x", .list [.str (ascii "interval"), .int 7]), (ascii "y", .str (ascii "announce")),
    (ascii "z", .str [])]

def namingSource : DictSource (withOthers naming) := .ofEntries _ (by decide)

/-- Texts in the values of other entries are taken for keys. -/
theorem process_naming :
    ((withOthers naming).Pairwise (·.1 < ·.1) ∧
      (withOthers []).filter
          (fun entry => registered (@Metainfo.fillers Metainfo.stringHeap) entry.1) =
        (withOthers naming).filter
          (fun entry => registered (@Metainfo.fillers Metainfo.stringHeap) entry.1) ∧
      (withOthers []).filter
          (fun entry => registered (@TrackerResponse.fillers Network.ipv4) entry.1) =
        (withOthers naming).filter
          (fun entry => registered (@TrackerResponse.fillers Network.ipv4) entry.1)) ∧
    (processLoop (@Metainfo.fillers Metainfo.stringHeap)
        (@DictSource.lexemes SubStrings.cut _ plainSource) (.opened [])).state.announce ≠
      (processLoop (@Metainfo.fillers Metainfo.stringHeap)
        (@DictSource.lexemes SubStrings.cut _ namingSource) (.opened [])).state.announce ∧
    (processLoop (@TrackerResponse.fillers Network.ipv4)
        (@DictSource.lexemes SubStrings.cut _ plainSource) {}).state.interval ≠
      (processLoop (@TrackerResponse.fillers Network.ipv4)
        (@DictSource.lexemes SubStrings.cut _ namingSource) {}).state.interval := by
  let _ := Metainfo.stringHeap
  let _ := Network.ipv4
  refine ⟨⟨by decide, rfl, rfl⟩, ?_⟩
  rw [Metainfo.processLoop_fillers, Metainfo.processLoop_fillers,
    FillerReader.processLoop_eq TrackerResponse.matches_fillers,
    FillerReader.processLoop_eq TrackerResponse.matches_fillers]
  decide

end TorrentClient
