import TorrentClient.TrackerResponse
import TorrentClient.TokenReader

/-!
# The answer of a tracker, one token at a time
-/

namespace TorrentClient.TrackerResponse

variable [Network]

/-- The places inside the fillers. -/
inductive Mode where
  /-- In front of the value of a key. -/
  | value (slot : Slot TrackerResponse)
  /-- In front of the peers. -/
  | peers
  /-- In the list of peers. -/
  | detail
  /-- In the list of peers, behind a string. -/
  | detailValue (key : Bytes)

/-- A token inside a filler. -/
def stepMode (mode : Mode) (t : Lexeme) (tr : TrackerResponse) :
    Outcome Thrown TrackerResponse (Option Mode) :=
  match mode with
  | .value slot => (slot.store t tr).map fun _ => none
  | .peers =>
    if t.type = .str then (tr.storeCompact t).map fun _ => none
    else if t.type = .listStart then .done (some .detail) tr
    else .thrown (.runtimeError "invalid betype. expected list_start") tr
  | .detail =>
    match t.type with
    | .dictStart => .done (some .detail) { tr with peers := tr.peers ++ [{}] }
    | .dictEnd => tr.closePeer.map fun _ => some .detail
    | .str => (Outcome.ofExcept t.text tr).map fun key => some (.detailValue key)
    | _ => .done (some .detail) tr
  | .detailValue key =>
    (Outcome.ofExcept t.text tr).bind fun value tr =>
      (tr.storeDetail key value).map fun _ => some .detail

def trackerReader : FillerReader TrackerResponse Mode where
  modes :=
    [(ascii "peers", .peers),
      (ascii "interval", .value (.int fun value tr => { tr with interval := value })),
      (ascii "complete", .value (.int fun value tr => { tr with complete := value })),
      (ascii "incomplete", .value (.int fun value tr => { tr with incomplete := value })),
      (ascii "tracker id", .value (.str fun value tr => { tr with trackerId := value })),
      (ascii "min interval", .value (.int fun value tr => { tr with minInterval := value })),
      (ascii "failure reason",
        .value (.str fun value tr => { tr with failureReason := value })),
      (ascii "warning message", .value (.str fun value tr => { tr with warning := value }))]
  step := stepMode
  finish mode tr :=
    match mode with
    | .detail => .done () tr
    | _ => .fault .outOfBounds tr

theorem matches_value (slot : Slot TrackerResponse) :
    trackerReader.Matches ⟨fillValue slot.store, fillValue_moves⟩ (.value slot) :=
  FillerReader.matches_value (fun _ _ => rfl) fun _ => rfl

theorem complete_detailValue (key : Bytes) (v : Lexeme) (rest : List Lexeme)
    (tr : TrackerResponse) :
    trackerReader.reader.complete (v :: rest) (some (.detailValue key)) tr =
      (Outcome.ofExcept v.text tr).bind fun value tr =>
        (tr.storeDetail key value).bind fun _ tr =>
          trackerReader.reader.complete rest (some .detail) tr := by
  rw [Reader.complete_cons]
  show ((Outcome.ofExcept v.text tr).bind _).bind _ = _
  rw [Outcome.bind_assoc]
  congr 1
  funext value tr
  rw [Outcome.bind_map]

/-- The reader goes through the list of peers as the loop does. -/
theorem complete_detail (cursor : List Lexeme) (tr : TrackerResponse) :
    trackerReader.reader.complete cursor (some .detail) tr = detailLoop cursor tr := by
  induction hn : cursor.length using Nat.strongRecOn generalizing cursor tr with
  | ind n ih =>
    cases cursor with
    | nil => rfl
    | cons t cursor =>
      rw [List.length_cons] at hn
      have later := fun tr => ih cursor.length (by omega) cursor tr rfl
      rw [Reader.complete_cons, detailLoop]
      show (stepMode .detail t tr).bind _ = _
      cases type : t.type with
      | dictStart =>
        simp only [stepMode, type, Outcome.bind_done]
        exact later _
      | dictEnd =>
        simp only [stepMode, type, Outcome.bind_map]
        congr 1
        funext _ tr
        exact later tr
      | str =>
        simp only [stepMode, type, Outcome.bind_map]
        congr 1
        funext key tr
        cases cursor with
        | nil => rfl
        | cons v rest =>
          rw [complete_detailValue]
          rw [List.length_cons] at hn
          simp only [ih rest.length (by omega) rest _ rfl]
      | unknown | int | listStart | listEnd =>
        simp only [stepMode, type, Outcome.bind_done]
        exact later tr

theorem matches_peers : trackerReader.Matches fillPeers .peers := by
  intro t cursor tr
  cases cursor with
  | nil => rfl
  | cons v cursor =>
    rw [Reader.complete_cons]
    show (stepMode .peers v tr).bind _ = _
    simp only [fillPeers, List.tail_cons, stepMode, fillPeersDetail]
    split
    · rw [Outcome.bind_map, Outcome.bind_map]
    · split
      · rw [Outcome.bind_done, Outcome.bind_map, complete_detail]
        cases detailLoop cursor tr <;> rfl
      · rfl

theorem matches_fillers :
    List.Forall₂ (fun f m => f.1 = m.1 ∧ trackerReader.Matches f.2 m.2) fillers
      trackerReader.modes := by
  refine .cons ⟨rfl, matches_peers⟩ ?_
  exact .cons ⟨rfl, matches_value (.int _)⟩ (.cons ⟨rfl, matches_value (.int _)⟩
    (.cons ⟨rfl, matches_value (.int _)⟩ (.cons ⟨rfl, matches_value (.str _)⟩
      (.cons ⟨rfl, matches_value (.int _)⟩ (.cons ⟨rfl, matches_value (.str _)⟩
        (.cons ⟨rfl, matches_value (.str _)⟩ .nil))))))

/-- **The constructor, one token at a time.** -/
theorem new_cons (t : Lexeme) (tokens : List Lexeme) (dict : t.type = .dictStart) :
    new (t :: tokens) =
      (trackerReader.reader.complete tokens none {}).bind fun _ tr => .done () tr.validate := by
  have scanned : trackerReader.scan t {} = .done none {} := by
    rw [FillerReader.scan, if_neg (by simp [Lexeme.IsLeaf, dict])]
  rw [new, if_pos dict, FillerReader.processLoop_eq matches_fillers, Reader.complete_cons]
  show ((trackerReader.scan t {}).bind _).bind _ = _
  rw [scanned, Outcome.bind_done]

/-- Only the value of a key of a peer is read without a look at its type. -/
theorem stepMode_bare_eq {mode : Mode} {t : Lexeme}
    (leaf : ∀ key, mode = .detailValue key → t.IsLeaf) (tr : TrackerResponse) :
    stepMode mode t.bare tr = stepMode mode t tr := by
  by_cases texts : t.IsLeaf
  · rw [Lexeme.bare_leaf texts]
  · have types := not_or.1 texts
    cases mode with
    | value slot => simp only [stepMode, slot.store_bare]
    | peers => simp only [stepMode, Lexeme.bare_type, if_neg types.2]
    | detail =>
      simp only [stepMode, Lexeme.bare_type]
      split <;> simp_all
    | detailValue key => exact absurd (leaf key rfl) texts

theorem stepMode_bare (mode : Mode) (t : Lexeme) (tr : TrackerResponse) :
    stepMode mode t.bare tr = stepMode mode t tr ∨
      ∃ tr', stepMode mode t.bare tr = .thrown .subString tr' := by
  by_cases leaf : ∀ key, mode = .detailValue key → t.IsLeaf
  · exact Or.inl (stepMode_bare_eq leaf tr)
  · simp only [not_forall] at leaf
    obtain ⟨key, rfl, mark⟩ := leaf
    right
    rw [Lexeme.bare_mark mark]
    exact ⟨tr, rfl⟩

/-- What the tokens of lists and dictionaries read matters to no answer that is
taken in without it. -/
theorem new_bare (tokens : List Lexeme) :
    new (tokens.map Lexeme.bare) = new tokens ∨
      ∃ tr, new (tokens.map Lexeme.bare) = .thrown .subString tr := by
  cases tokens with
  | nil => exact Or.inl rfl
  | cons t tokens =>
    by_cases dict : t.type = .dictStart
    · have bare_dict : t.bare.type = .dictStart := by rw [Lexeme.bare_type, dict]
      rw [List.map_cons, new_cons _ _ dict, new_cons _ _ bare_dict]
      have same (m : Option Mode) (t : Lexeme) (tr : TrackerResponse) :
          trackerReader.reader.step m t.bare tr = trackerReader.reader.step m t tr ∨
            ∃ tr', trackerReader.reader.step m t.bare tr = .thrown .subString tr' := by
        cases m with
        | none => exact Or.inl (FillerReader.scan_bare _ t tr)
        | some m => exact stepMode_bare m t tr
      rcases Reader.complete_map same tokens none {} with eq | ⟨tr, eq⟩
      · exact Or.inl (by rw [eq])
      · exact Or.inr ⟨tr, by rw [eq]; rfl⟩
    · left
      rw [List.map_cons, new, new, if_neg dict, if_neg (by rwa [Lexeme.bare_type])]

/-- The answer that is the encoding of a value. -/
theorem receive_value [SubStrings] {source : StringWrapper} {v : Value}
    (text : source.bytes = v.encode) :
    receive source = new v.lexemes ∨ ∃ tr, new v.lexemes = .thrown .subString tr := by
  have parsed := BeParser.parse_value text
  have lexemes : ((valuesTokens [v] 0).map (·.on source)).map Lexeme.bare = v.lexemes := by
    have whole : source.bytes = [] ++ encodeValues [v] ++ [] := by simp [text, encodeValues]
    have bare := valuesTokens_on [v] whole
    simp only [valuesLexemes, List.append_nil, List.length_nil] at bare
    rw [List.map_map, ← bare]
    rfl
  have received : receive source = new ((valuesTokens [v] 0).map (·.on source)) := by
    rw [receive, parsed]
    rfl
  rw [received, ← lexemes]
  rcases new_bare ((valuesTokens [v] 0).map (·.on source)) with eq | thrown
  · exact Or.inl eq.symm
  · exact Or.inr thrown

end TorrentClient.TrackerResponse
