import TorrentClient.PeerForms
import TorrentClient.TrackerEvents

/-!
# Reading the answers of a tracker

The fields of an answer are read back, and what a connection has received of its tracker is
only added to.
-/

namespace TorrentClient

/-- How an answer gives its peers. -/
inductive PeersForm where
  | string
  | list
  deriving DecidableEq, Repr

/-- The peers can be read in the form: there is room for those of a string, and the list
is not empty. -/
def PeersForm.Takes [Network] (peers : List KnownPeer) : PeersForm → Prop
  | .string => Heap.refuses TrackerResponse.Peer peers.length = none
  | .list => peers ≠ []

namespace TrackerAnswer

def body (a : TrackerAnswer) (peers : List KnownPeer) : PeersForm → Value
  | .string => a.compact peers
  | .list => a.detailed peers

/-- The fields of an answer, as they are read. -/
def response (a : TrackerAnswer) (peers : List TrackerResponse.Peer) :
    TrackerResponse where
  peers := peers
  failureReason := a.failureReason.getD []
  warning := a.warning.getD []
  trackerId := a.trackerId.getD []
  interval := (a.interval.map toUInt64).getD 0
  minInterval := (a.minInterval.map toUInt64).getD 0
  complete := (a.complete.map toUInt64).getD 0
  incomplete := (a.incomplete.map toUInt64).getD 0
  valid := a.failureReason.getD [] = [] ∧ a.warning.getD [] = [] ∧ peers ≠ []

/-- What an answer is read as. The list of peers takes what is behind it for parts of a peer. -/
def reads (a : TrackerAnswer) (peers : List KnownPeer) : PeersForm → TrackerResponse
  | .string => a.response (peers.map fun p => p.peer [])
  | .list => ({ a with trackerId := none, warning := none } : TrackerAnswer).response
      (peers.map fun p => p.peer p.id)

end TrackerAnswer

/-- More bytes behind a blank line do not change where it is. -/
theorem blankLine_append {text : Bytes} {i : Nat} (found : blankLine text = some (i, 4))
    (more : Bytes) : blankLine (text ++ more) = some (i, 4) := by
  have inside := blankLine_length found
  obtain ⟨-, first⟩ | ⟨four, -⟩ := blankLine_cases found
  · obtain ⟨starts, absent⟩ := (find_eq_some_iff (by decide)).1 first
    have here : find 0 crlf2 (text ++ more) = some i := by
      refine (find_eq_some_iff (by decide)).2 ⟨?_, fun j before => ⟨fun early => ?_, ?_⟩⟩
      · rw [List.drop_append_of_le_length (by omega)]
        exact starts.trans (List.prefix_append _ _)
      · apply (absent j before).1
        rw [List.drop_append_of_le_length (by omega)] at early
        refine List.prefix_of_prefix_length_le early (List.prefix_append _ _) ?_
        rw [List.length_drop]
        have four : crlf2.length = 4 := rfl
        omega
      · rw [List.getElem?_append_left (by omega)]
        exact (absent j before).2
    rw [blankLine, here]
    rfl
  · cases four

namespace TrackerResponse

variable [Network]

theorem run_fitting {key : String} (get : TrackerResponse → Nat)
    {set : Nat → TrackerResponse → TrackerResponse} (own : ∀ tr, set (get tr) tr = tr)
    (registered : trackerReader.modes.lookup (ascii key) = some (.value (.int set)))
    {value : Option Int} (fits : TrackerAnswer.Fits value) (tr : TrackerResponse) :
    trackerReader.reader.run (entriesLexemes (optionalEntry key (value.map .int))) none tr =
      .done none (set ((value.map toUInt64).getD (get tr)) tr) := by
  cases value with
  | none =>
    rw [Option.map_none, Option.map_none, Option.getD_none, own]
    rfl
  | some z =>
    have read : stoll (decimalInt z) = .ok z := by rw [stoll_decimalInt, if_pos (fits z rfl)]
    refine (run_entry registered _ tr).trans ?_
    show ((Outcome.ofExcept (stoll (decimalInt z)) tr).bind _).map _ = _
    rw [read]
    rfl

/-- The entries in front of the peers, read with no field set. -/
theorem run_front {a : TrackerAnswer} (inRange : a.InRange) :
    trackerReader.reader.run (entriesLexemes a.front) none {} =
      .done none
        { ({ a with trackerId := none, warning := none } : TrackerAnswer).response [] with
          valid := false } := by
  obtain ⟨complete, incomplete, interval, minInterval⟩ := inRange
  have failure (tr : TrackerResponse) : trackerReader.reader.run
      (entriesLexemes (optionalEntry "failure reason" (a.failureReason.map .str))) none tr =
        .done none { tr with failureReason := a.failureReason.getD tr.failureReason } := by
    refine (run_str "failure reason" rfl a.failureReason tr).trans ?_
    cases a.failureReason <;> rfl
  rw [TrackerAnswer.front]
  simp only [entriesLexemes_append]
  rw [Reader.run_append, run_fitting (·.complete) (fun _ => rfl) rfl complete, Outcome.bind_done,
    Reader.run_append, failure, Outcome.bind_done,
    Reader.run_append, run_fitting (·.incomplete) (fun _ => rfl) rfl incomplete, Outcome.bind_done,
    Reader.run_append, run_fitting (·.interval) (fun _ => rfl) rfl interval, Outcome.bind_done,
    run_fitting (·.minInterval) (fun _ => rfl) rfl minInterval]
  rfl

omit [Network] in
theorem validate_eq (tr : TrackerResponse) (fresh : tr.valid = false) :
    tr.validate = { tr with
      valid := tr.failureReason = [] ∧ tr.warning = [] ∧ tr.peers ≠ [] } := by
  unfold validate
  split
  · rename_i good
    rw [decide_eq_true good]
  · rename_i bad
    rw [decide_eq_false bad, ← fresh]

variable [LawfulNetwork] [SubStrings] {a : TrackerAnswer} {peers : List KnownPeer}
  {source : StringWrapper}

/-- **An answer is read back**, up to the fields behind a list of peers. -/
theorem receive_body (inRange : a.InRange) {form : PeersForm} (takes : form.Takes peers)
    (text : source.bytes = (a.body peers form).encode) :
    receive source = .done () (a.reads peers form) := by
  cases form with
  | string =>
    rw [receive_compact (run_front inRange) ⟨rfl, rfl, rfl⟩ text takes, validate_eq _ ?_]
    · cases warning : a.warning <;> cases id : a.trackerId <;>
        simp only [setBackFields, TrackerAnswer.reads, TrackerAnswer.response, warning, id] <;> rfl
    · cases warning : a.warning <;> cases id : a.trackerId <;>
        simp only [setBackFields, warning, id] <;> rfl
  | list =>
    rw [receive_detailed (run_front inRange) ⟨rfl, rfl, rfl⟩ takes text, validate_eq _ rfl]
    rfl

end TrackerResponse

/-! ## What the tracker is heard to say -/

namespace TrackerConnection

variable {c c' : TrackerConnection}

/-- Answers are only added, and the state stays. -/
structure Hears (c c' : TrackerConnection) : Prop where
  state : c'.state = c.state
  received : c.received <+: c'.received

theorem Hears.trans {c₁ c₂ c₃ : TrackerConnection} (h : c₁.Hears c₂) (h' : c₂.Hears c₃) :
    c₁.Hears c₃ :=
  ⟨h'.state.trans h.state, h.received.trans h'.received⟩

theorem readLoop_hears (results : List ReadResult) :
    ∀ c : TrackerConnection, c.Hears (c.readLoop results).state := by
  induction results with
  | nil => exact fun c => ⟨rfl, List.prefix_refl _⟩
  | cons result results ih =>
    intro c
    rw [readLoop]
    split
    · exact ⟨rfl, List.prefix_refl _⟩
    · split
      · exact ⟨rfl, List.prefix_refl _⟩
      · rename_i c' filled
        have same : c.Hears c' := by
          cases result with
          | bytes data =>
            obtain ⟨buffer, -, rfl⟩ := Option.map_eq_some_iff.1 filled
            exact ⟨rfl, List.prefix_refl _⟩
          | failed n =>
            cases filled
            exact ⟨rfl, List.prefix_refl _⟩
        exact same.trans (ih c')

variable [SubStrings] [Network]

theorem construct_hears (c : TrackerConnection) (source : StringWrapper) :
    c.Hears (c.construct source).state := by
  unfold construct
  split
  · exact ⟨rfl, List.prefix_append _ _⟩
  · exact ⟨rfl, List.prefix_refl _⟩
  · exact ⟨rfl, List.prefix_refl _⟩

theorem respond_hears (c : TrackerConnection) : c.Hears c.respond.state := by
  by_cases inside : c.offset < trackerCapacity
  · obtain ⟨c', state, received, ⟨-, silent⟩ | ⟨_, _, source, -, -, -, made⟩⟩ :=
      respond_cases c inside
    · rw [silent]
      exact ⟨state, received ▸ List.prefix_refl _⟩
    · rw [made]
      exact Hears.trans ⟨state, received ▸ List.prefix_refl _⟩ (construct_hears c' source)
  · rw [respond, dif_neg inside]
    exact ⟨rfl, List.prefix_refl _⟩

theorem onRead_hears (c : TrackerConnection) (results : List ReadResult) :
    c.Hears (c.onRead results).state := by
  unfold onRead
  split
  · exact ⟨rfl, List.prefix_refl _⟩
  · have looped := readLoop_hears results { c with offset := 0, buffer := .zeroed }
    apply Outcome.bind_keeps (P := c.Hears) ⟨looped.state, looped.received⟩
    intro _ c' returned
    rw [returned] at looped
    exact Hears.trans ⟨looped.state, looped.received⟩ (respond_hears c')

end TrackerConnection

end TorrentClient
