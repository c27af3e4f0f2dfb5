import TorrentClient.TrackerReader

/-!
# The two forms of the peers

A tracker answers with the peers as one string or as a list of dictionaries.
-/

namespace TorrentClient

/-- A peer as a tracker knows it. -/
structure KnownPeer where
  a : UInt8
  b : UInt8
  c : UInt8
  d : UInt8
  port : Nat
  port_lt : port < 2 ^ 16
  id : Bytes

namespace KnownPeer

def addr (p : KnownPeer) : Bytes := [p.a, p.b, p.c, p.d]

def portBytes (p : KnownPeer) : Bytes := [UInt8.ofNat (p.port / 256), UInt8.ofNat p.port]

/-- The dotted decimal form of the address. -/
def dotted (p : KnownPeer) : Bytes :=
  decimal p.a.toNat ++ 46 :: decimal p.b.toNat ++ 46 :: decimal p.c.toNat ++ 46 ::
    decimal p.d.toNat

def saddr (p : KnownPeer) : SockaddrIn := ⟨afInet, p.addr, p.portBytes⟩

/-- The six bytes of the string of peers. -/
def compact (p : KnownPeer) : Bytes := p.addr ++ p.portBytes

/-- The dictionary of the list of peers. -/
def dict (p : KnownPeer) : Value :=
  .dict [(ascii "ip", .str p.dotted), (ascii "peer id", .str p.id), (ascii "port", .int p.port)]

/-- What the peer is taken in as, with the id that is given. -/
def peer (p : KnownPeer) (id : Bytes) : TrackerResponse.Peer := ⟨id, p.dotted, p.port, p.saddr⟩

theorem ntohs_portBytes (p : KnownPeer) : ntohs p.portBytes = p.port := by
  have := p.port_lt
  simp only [ntohs, portBytes, List.foldl_cons, List.foldl_nil, UInt8.toNat_ofNat']
  omega

end KnownPeer

theorem flatMap_compact_length (peers : List KnownPeer) :
    (peers.flatMap (·.compact)).length = 6 * peers.length := by
  induction peers with
  | nil => rfl
  | cons p peers ih =>
    rw [List.flatMap_cons, List.length_append, ih, List.length_cons]
    simp only [KnownPeer.compact, KnownPeer.addr, KnownPeer.portBytes, List.length_append,
      List.length_cons, List.length_nil]
    omega

/-- `inet_ntop` prints the dotted decimal form, and `get_sockaddr_in` is its inverse. -/
class LawfulNetwork [Network] : Prop where
  inetNtop_addr : ∀ p : KnownPeer, Network.inetNtop p.addr = some p.dotted
  getSockaddrIn_dotted : ∀ p : KnownPeer, Network.getSockaddrIn p.dotted p.port = some p.saddr

namespace TrackerResponse

variable {tr : TrackerResponse}

@[simp] theorem setBack_append (f : Peer → Peer) (front : List Peer) (last : Peer) :
    ({ tr with peers := front ++ [last] } : TrackerResponse).setBack f =
      .done () { tr with peers := front ++ [f last] } := by
  simp [setBack, modifyBack]

theorem storeDetail_ip (front : List Peer) (last : Peer) (value : Bytes) :
    ({ tr with peers := front ++ [last] } : TrackerResponse).storeDetail (ascii "ip") value =
      .done () { tr with peers := front ++ [{ last with ip := value }] } := by
  rw [storeDetail, if_neg (by decide), if_pos rfl, setBack_append]

theorem storeDetail_id (front : List Peer) (last : Peer) (value : Bytes) :
    ({ tr with peers := front ++ [last] } : TrackerResponse).storeDetail (ascii "peer id") value =
      .done () { tr with peers := front ++ [{ last with id := value }] } := by
  rw [storeDetail, if_pos rfl, setBack_append]

theorem storeDetail_port (front : List Peer) (last : Peer) (p : KnownPeer) :
    ({ tr with peers := front ++ [last] } : TrackerResponse).storeDetail (ascii "port")
        (decimalInt p.port) =
      .done () { tr with peers := front ++ [{ last with port := p.port }] } := by
  have lt := p.port_lt
  have fits : -2 ^ 63 ≤ (p.port : Int) ∧ (p.port : Int) < 2 ^ 63 := by omega
  have port : toUInt64 p.port % 2 ^ 16 = p.port := by
    rw [toUInt64_of_nonneg (by omega) (by omega)]
    omega
  rw [storeDetail, if_neg (by decide), if_neg (by decide), if_pos rfl, stoll_decimalInt,
    if_pos fits, Outcome.ofExcept_ok, Outcome.bind_done, setBack_append, port]

variable [Network]

@[simp] theorem run_some (m : Mode) (t : Lexeme) (ts : List Lexeme) (tr : TrackerResponse) :
    trackerReader.reader.run (t :: ts) (some m) tr =
      (stepMode m t tr).bind (trackerReader.reader.run ts) := rfl

/-- A key and its value in the dictionary of the last peer. -/
theorem run_detail_entry (key text : Bytes) (type : TokenType) (ts : List Lexeme)
    (tr : TrackerResponse) :
    trackerReader.reader.run (.leaf .str key :: .leaf type text :: ts) (some .detail) tr =
      (tr.storeDetail key text).bind fun _ tr =>
        trackerReader.reader.run ts (some .detail) tr := by
  rw [run_some]
  show trackerReader.reader.run (.leaf type text :: ts) (some (.detailValue key)) tr = _
  rw [run_some]
  show ((tr.storeDetail key text).map _).bind _ = _
  rw [Outcome.bind_map]

variable [LawfulNetwork] {peers : List KnownPeer}

theorem compactLoop_peers (peers : List KnownPeer) :
    compactLoop (List.replicate peers.length {}) (peers.flatMap (·.compact)) =
      .done () (peers.map fun p => p.peer []) := by
  induction peers with
  | nil => rfl
  | cons p peers ih =>
    have addr (behind : Bytes) : (p.compact ++ behind).take 4 = p.addr := rfl
    have port (behind : Bytes) : ((p.compact ++ behind).drop 4).take 2 = p.portBytes := rfl
    have rest (behind : Bytes) : (p.compact ++ behind).drop 6 = behind := rfl
    have long (behind : Bytes) : ¬ (p.compact ++ behind).length < 4 := by
      simp [KnownPeer.compact, KnownPeer.addr]
    have whole : ¬ p.portBytes.length < 2 := by simp [KnownPeer.portBytes]
    rw [List.length_cons, List.replicate_succ, List.flatMap_cons, compactLoop, if_neg (long _)]
    simp only [addr, port, rest, LawfulNetwork.inetNtop_addr, if_neg whole, ih,
      p.ntohs_portBytes, Outcome.lift_done, List.map_cons]
    rfl

omit [LawfulNetwork] [Network] in
theorem compact_count (peers : List KnownPeer) :
    (Lexeme.leaf .str (peers.flatMap (·.compact))).size / 6 = peers.length := by
  show (peers.flatMap (·.compact)).length / 6 = _
  rw [flatMap_compact_length]
  omega

/-- The string of peers, when none have been taken in. -/
theorem storeCompact_peers (none : tr.peers = [])
    (granted : Heap.refuses Peer peers.length = Option.none) :
    tr.storeCompact (.leaf .str (peers.flatMap (·.compact))) =
      .done () { tr with peers := peers.map fun p => p.peer [] } := by
  have count := compact_count peers
  have fresh : resize ([] : List Peer) peers.length {} = List.replicate peers.length {} := by
    simp [resize]
  have taken : compactLoop (List.replicate peers.length {})
      (Lexeme.leaf .str (peers.flatMap (·.compact))).window =
        .done () (peers.map fun p => p.peer []) := compactLoop_peers peers
  rw [storeCompact_granted (by rwa [count]), count, none, fresh, taken, Outcome.lift_done]

theorem closePeer_append (front : List Peer) (p : KnownPeer) (last : Peer)
    (ip : last.ip = p.dotted) (port : last.port = p.port) :
    ({ tr with peers := front ++ [last] } : TrackerResponse).closePeer =
      .done () { tr with peers := front ++ [{ last with saddr := p.saddr }] } := by
  simp only [closePeer, List.getLast?_concat, ip, port, LawfulNetwork.getSockaddrIn_dotted,
    List.dropLast_concat]

/-- One dictionary of the list of peers. -/
theorem run_dict (p : KnownPeer) (tr : TrackerResponse) :
    trackerReader.reader.run p.dict.lexemes (some .detail) tr =
      .done (some .detail) { tr with peers := tr.peers ++ [p.peer p.id] } := by
  have started : stepMode .detail (.mark .dictStart) tr =
      .done (some .detail) { tr with peers := tr.peers ++ [{}] } := rfl
  have ended (tr : TrackerResponse) : stepMode .detail (.mark .dictEnd) tr =
      tr.closePeer.map fun _ => some .detail := rfl
  simp only [KnownPeer.dict, Value.lexemes, entriesLexemes, List.cons_append,
    List.nil_append]
  rw [run_some, started, Outcome.bind_done, run_detail_entry, storeDetail_ip, Outcome.bind_done,
    run_detail_entry, storeDetail_id, Outcome.bind_done, run_detail_entry, storeDetail_port,
    Outcome.bind_done, run_some, ended, closePeer_append _ p _ rfl rfl]
  rfl

theorem run_dicts (peers : List KnownPeer) (tr : TrackerResponse) :
    trackerReader.reader.run (valuesLexemes (peers.map (·.dict))) (some .detail) tr =
      .done (some .detail) { tr with peers := tr.peers ++ peers.map fun p => p.peer p.id } := by
  induction peers generalizing tr with
  | nil =>
    rw [List.map_nil, List.map_nil, List.append_nil]
    rfl
  | cons p peers ih =>
    rw [List.map_cons, valuesLexemes, Reader.run_append, run_dict, Outcome.bind_done, ih]
    simp

end TrackerResponse

/-! ## An answer in either form -/

/-- The fields of an answer but the peers. -/
structure TrackerAnswer where
  complete : Option Int := none
  failureReason : Option Bytes := none
  incomplete : Option Int := none
  interval : Option Int := none
  minInterval : Option Int := none
  trackerId : Option Bytes := none
  warning : Option Bytes := none

namespace TrackerAnswer

/-- The entries in front of the peers. -/
def front (a : TrackerAnswer) : List (Bytes × Value) :=
  optionalEntry "complete" (a.complete.map .int) ++
    (optionalEntry "failure reason" (a.failureReason.map .str) ++
      (optionalEntry "incomplete" (a.incomplete.map .int) ++
        (optionalEntry "interval" (a.interval.map .int) ++
          optionalEntry "min interval" (a.minInterval.map .int))))

/-- The entries behind the peers. -/
def back (a : TrackerAnswer) : List (Bytes × Value) :=
  optionalEntry "tracker id" (a.trackerId.map .str) ++
    optionalEntry "warning message" (a.warning.map .str)

def dict (a : TrackerAnswer) (peers : Value) : Value :=
  .dict (a.front ++ (ascii "peers", peers) :: a.back)

def compact (a : TrackerAnswer) (peers : List KnownPeer) : Value :=
  a.dict (.str (peers.flatMap (·.compact)))

def detailed (a : TrackerAnswer) (peers : List KnownPeer) : Value :=
  a.dict (.list (peers.map (·.dict)))

/-- A `long long` holds the integer, if there is one. -/
def Fits (value : Option Int) : Prop := ∀ z ∈ value, -2 ^ 63 ≤ z ∧ z < 2 ^ 63

/-- Every integer of the answer fits. -/
def InRange (a : TrackerAnswer) : Prop :=
  Fits a.complete ∧ Fits a.incomplete ∧ Fits a.interval ∧ Fits a.minInterval

end TrackerAnswer

namespace TrackerResponse

variable {tr tr' : TrackerResponse}

/-- The answer without the ids of its peers, which the string does not have. -/
def anonymous (tr : TrackerResponse) : TrackerResponse :=
  { tr with peers := tr.peers.map fun peer => { peer with id := [] } }

/-- Both are taken in with the same fields, or neither is. -/
def Same : Outcome Thrown TrackerResponse Unit → Outcome Thrown TrackerResponse Unit → Prop
  | .done _ tr, .done _ tr' => tr.anonymous = tr'.anonymous
  | .thrown e _, .thrown e' _ => e = e'
  | _, _ => False

theorem validate_anonymous (tr : TrackerResponse) :
    tr.validate.anonymous = tr.anonymous.validate := by
  have peers : (tr.peers.map fun peer => ({ peer with id := [] } : Peer)) = [] ↔ tr.peers = [] :=
    List.map_eq_nil_iff
  unfold validate anonymous
  by_cases valid : tr.failureReason = [] ∧ tr.warning = [] ∧ tr.peers ≠ []
  · rw [if_pos valid, if_pos ⟨valid.1, valid.2.1, peers.not.2 valid.2.2⟩]
  · rw [if_neg valid, if_neg fun h => valid ⟨h.1, h.2.1, peers.not.1 h.2.2⟩]

/-- The strings behind the peers, where they are read as keys of the answer. -/
def setBackFields (a : TrackerAnswer) (tr : TrackerResponse) : TrackerResponse :=
  a.warning.elim (a.trackerId.elim tr fun text => { tr with trackerId := text }) fun text =>
    { a.trackerId.elim tr fun text => { tr with trackerId := text } with warning := text }

@[simp] theorem validate_trackerId (tr : TrackerResponse) :
    tr.validate.trackerId = tr.trackerId := by
  unfold validate
  split <;> rfl

@[simp] theorem validate_warning (tr : TrackerResponse) : tr.validate.warning = tr.warning := by
  unfold validate
  split <;> rfl

theorem setBackFields_trackerId (a : TrackerAnswer) (tr : TrackerResponse) :
    (setBackFields a tr).trackerId = a.trackerId.getD tr.trackerId := by
  unfold setBackFields
  cases a.warning <;> cases a.trackerId <;> rfl

theorem setBackFields_warning (a : TrackerAnswer) (tr : TrackerResponse) :
    (setBackFields a tr).warning = a.warning.getD tr.warning := by
  unfold setBackFields
  cases a.warning <;> cases a.trackerId <;> rfl

/-- Strings that are not there, or empty, set nothing. -/
theorem setBackFields_eq {a : TrackerAnswer} (trackerId : a.trackerId.getD [] = [])
    (warning : a.warning.getD [] = []) (blank : tr.trackerId = [] ∧ tr.warning = []) :
    setBackFields a tr = tr := by
  obtain ⟨peers, failureReason, w, t, _, _, _, _, _⟩ := tr
  obtain ⟨rfl, rfl⟩ := blank
  unfold setBackFields
  cases hw : a.warning <;> cases ht : a.trackerId <;> simp_all

theorem setBackFields_anonymous (a : TrackerAnswer) (tr : TrackerResponse) :
    (setBackFields a tr).anonymous = setBackFields a tr.anonymous := by
  unfold setBackFields
  cases a.warning <;> cases a.trackerId <;> rfl

variable [Network]

/-- The fields behind the peers are as they were, and so are the peers. -/
structure SameBack (tr tr' : TrackerResponse) : Prop where
  peers : tr'.peers = tr.peers
  trackerId : tr'.trackerId = tr.trackerId
  warning : tr'.warning = tr.warning

/-- The tokens set other fields than those when `ok` holds, and throw otherwise. -/
structure SetsFront (ts : List Lexeme) (ok : Prop) : Prop where
  sets : ∀ tr, ok → ∃ tr', trackerReader.reader.run ts none tr = .done none tr' ∧ SameBack tr tr'
  throws : ∀ tr, ¬ ok → ∃ tr', trackerReader.reader.run ts none tr = .thrown .outOfRange tr'

theorem SetsFront.append {xs ys : List Lexeme} {p q : Prop} (first : SetsFront xs p)
    (second : SetsFront ys q) : SetsFront (xs ++ ys) (p ∧ q) where
  sets tr ok := by
    obtain ⟨tr₁, run₁, same₁⟩ := first.sets tr ok.1
    obtain ⟨tr₂, run₂, same₂⟩ := second.sets tr₁ ok.2
    refine ⟨tr₂, ?_, same₂.peers.trans same₁.peers, same₂.trackerId.trans same₁.trackerId,
      same₂.warning.trans same₁.warning⟩
    rw [Reader.run_append, run₁, Outcome.bind_done, run₂]
  throws tr bad := by
    rw [Reader.run_append]
    by_cases ok : p
    · obtain ⟨tr₁, run₁, -⟩ := first.sets tr ok
      obtain ⟨tr₂, run₂⟩ := second.throws tr₁ fun hq => bad ⟨ok, hq⟩
      exact ⟨tr₂, by rw [run₁, Outcome.bind_done, run₂]⟩
    · obtain ⟨tr₁, run₁⟩ := first.throws tr ok
      exact ⟨tr₁, by rw [run₁, Outcome.bind_thrown]⟩

/-- A registered key and its value. -/
theorem run_entry {key : Bytes} {slot : Slot TrackerResponse}
    (registered : trackerReader.modes.lookup key = some (.value slot)) (v : Lexeme)
    (tr : TrackerResponse) :
    trackerReader.reader.run [.leaf .str key, v] none tr =
      (slot.store v tr).map fun _ => none := by
  have scanned : trackerReader.scan (.leaf .str key) tr = .done (some (.value slot)) tr := by
    have leaf : (Lexeme.leaf .str key).IsLeaf := Or.inr rfl
    rw [FillerReader.scan, if_pos leaf]
    show Outcome.done (trackerReader.modes.lookup key) tr = _
    rw [registered]
  rw [Reader.run_cons]
  show (trackerReader.scan (.leaf .str key) tr).bind _ = _
  rw [scanned, Outcome.bind_done, run_some]
  show ((slot.store v tr).map _).bind _ = _
  cases slot.store v tr <;> rfl

theorem setsFront_int (key : String) {set : Nat → TrackerResponse → TrackerResponse}
    (registered : trackerReader.modes.lookup (ascii key) = some (.value (.int set)))
    (same : ∀ n tr, SameBack tr (set n tr)) (value : Option Int) :
    SetsFront (entriesLexemes (optionalEntry key (value.map .int))) (TrackerAnswer.Fits value) := by
  cases value with
  | none =>
    refine ⟨fun tr _ => ⟨tr, rfl, rfl, rfl, rfl⟩, fun tr bad => absurd ?_ bad⟩
    intro z hz
    cases hz
  | some z =>
    have fits : TrackerAnswer.Fits (some z) ↔ -2 ^ 63 ≤ z ∧ z < 2 ^ 63 := by
      constructor
      · exact fun h => h z rfl
      · rintro h _ ⟨⟩
        exact h
    have run (tr : TrackerResponse) :
        trackerReader.reader.run (entriesLexemes (optionalEntry key (some (Value.int z)))) none tr =
          ((Outcome.ofExcept (stoll (decimalInt z)) tr).bind fun value tr =>
            .done () (set (toUInt64 value) tr)).map fun _ => none := run_entry registered _ tr
    rw [Option.map_some, fits]
    constructor
    · intro tr ok
      refine ⟨set (toUInt64 z) tr, ?_, same _ tr⟩
      rw [run, stoll_decimalInt, if_pos ok]
      rfl
    · intro tr bad
      refine ⟨tr, ?_⟩
      rw [run, stoll_decimalInt, if_neg bad]
      rfl

theorem run_str (key : String) {set : Bytes → TrackerResponse → TrackerResponse}
    (registered : trackerReader.modes.lookup (ascii key) = some (.value (.str set)))
    (value : Option Bytes) (tr : TrackerResponse) :
    trackerReader.reader.run (entriesLexemes (optionalEntry key (value.map .str))) none tr =
      .done none (value.elim tr fun text => set text tr) := by
  cases value with
  | none => rfl
  | some text => exact run_entry registered _ tr

theorem setsFront_str (key : String) {set : Bytes → TrackerResponse → TrackerResponse}
    (registered : trackerReader.modes.lookup (ascii key) = some (.value (.str set)))
    (same : ∀ text tr, SameBack tr (set text tr)) (value : Option Bytes) :
    SetsFront (entriesLexemes (optionalEntry key (value.map .str))) True where
  sets tr _ := by
    refine ⟨_, run_str key registered value tr, ?_⟩
    cases value with
    | none => exact ⟨rfl, rfl, rfl⟩
    | some text => exact same text tr
  throws tr bad := absurd trivial bad

/-- The entries in front of the peers. -/
theorem setsFront_answer (a : TrackerAnswer) : SetsFront (entriesLexemes a.front) a.InRange := by
  have complete := setsFront_int "complete" rfl (fun _ _ => ⟨rfl, rfl, rfl⟩) a.complete
  have failure := setsFront_str "failure reason" rfl (fun _ _ => ⟨rfl, rfl, rfl⟩) a.failureReason
  have incomplete := setsFront_int "incomplete" rfl (fun _ _ => ⟨rfl, rfl, rfl⟩) a.incomplete
  have interval := setsFront_int "interval" rfl (fun _ _ => ⟨rfl, rfl, rfl⟩) a.interval
  have minInterval := setsFront_int "min interval" rfl (fun _ _ => ⟨rfl, rfl, rfl⟩) a.minInterval
  have all := complete.append (failure.append (incomplete.append (interval.append minInterval)))
  rw [true_and] at all
  simp only [TrackerAnswer.front, entriesLexemes_append]
  exact all

theorem run_back (a : TrackerAnswer) (tr : TrackerResponse) :
    trackerReader.reader.run (entriesLexemes a.back) none tr = .done none (setBackFields a tr) := by
  rw [TrackerAnswer.back, entriesLexemes_append, Reader.run_append, run_str "tracker id" rfl,
    Outcome.bind_done, run_str "warning message" rfl]
  rfl

/-- The strings behind the peers, where they are read as the list goes on. -/
theorem run_back_detail (a : TrackerAnswer) (tr : TrackerResponse) :
    trackerReader.reader.run (entriesLexemes a.back) (some .detail) tr =
      .done (some .detail) tr := by
  have other (key : String) (value : Option Bytes)
      (unknown : ∀ text, tr.storeDetail (ascii key) text = .done () tr) :
      trackerReader.reader.run (entriesLexemes (optionalEntry key (value.map .str)))
        (some .detail) tr = .done (some .detail) tr := by
    cases value with
    | none => rfl
    | some text =>
      exact (run_detail_entry (ascii key) text .str [] tr).trans (by rw [unknown]; rfl)
  have unknown (key : String) (ne : ascii key ≠ ascii "peer id" ∧ ascii key ≠ ascii "ip" ∧
      ascii key ≠ ascii "port") (text : Bytes) : tr.storeDetail (ascii key) text = .done () tr := by
    rw [storeDetail, if_neg ne.1, if_neg ne.2.1, if_neg ne.2.2]
  rw [TrackerAnswer.back, entriesLexemes_append, Reader.run_append,
    other _ _ (unknown "tracker id" (by decide)), Outcome.bind_done,
    other _ _ (unknown "warning message" (by decide))]

/-- The tokens from the peers on. -/
def peersOn (a : TrackerAnswer) (peers : Value) : List Lexeme :=
  .leaf .str (ascii "peers") :: (peers.lexemes ++ (entriesLexemes a.back ++ [.mark .dictEnd]))

theorem new_dict (a : TrackerAnswer) (peers : Value) :
    new (a.dict peers).lexemes =
      ((trackerReader.reader.run (entriesLexemes a.front) none {}).bind
        (trackerReader.reader.complete (peersOn a peers))).bind
          fun _ tr => .done () tr.validate := by
  have tokens : (a.dict peers).lexemes =
      .mark .dictStart :: (entriesLexemes a.front ++ peersOn a peers) := by
    simp [TrackerAnswer.dict, Value.lexemes, entriesLexemes_append, entriesLexemes, peersOn]
  rw [tokens, new_cons _ _ rfl, Reader.complete_append]

theorem complete_peers (ts : List Lexeme) (tr : TrackerResponse) :
    trackerReader.reader.complete (.leaf .str (ascii "peers") :: ts) none tr =
      trackerReader.reader.complete ts (some .peers) tr := rfl

theorem closePeer_none (none : tr.peers = []) : tr.closePeer = .fault .outOfBounds tr := by
  rw [closePeer, none]
  rfl

section
variable [SubStrings] {source : StringWrapper}

theorem receive_of_new {v : Value} {o : Outcome Thrown TrackerResponse Unit}
    (text : source.bytes = v.encode) (taken : new v.lexemes = o)
    (other : ∀ tr, o ≠ .thrown .subString tr) : receive source = o := by
  rcases receive_value text with eq | ⟨tr, thrown⟩
  · rw [eq, taken]
  · exact absurd (taken.symm.trans thrown) (other tr)

end

/-- There is no room for the peers. -/
theorem complete_refused (a : TrackerAnswer) (peers : List KnownPeer) {e : Thrown}
    (refused : Heap.refuses Peer peers.length = some e) :
    trackerReader.reader.complete (peersOn a (.str (peers.flatMap (·.compact)))) none tr =
      .thrown e tr := by
  have stopped : trackerReader.reader.run (Value.str (peers.flatMap (·.compact))).lexemes
      (some .peers) tr = .thrown e tr := by
    rw [Value.lexemes, run_some]
    show ((tr.storeCompact (.leaf .str (peers.flatMap (·.compact)))).map _).bind _ = _
    rw [storeCompact_refused (by rwa [compact_count])]
    rfl
  rw [peersOn, complete_peers, Reader.complete_append, stopped]
  rfl

variable [LawfulNetwork]

theorem complete_compact (a : TrackerAnswer) (peers : List KnownPeer) (none : tr.peers = [])
    (granted : Heap.refuses Peer peers.length = Option.none) :
    trackerReader.reader.complete (peersOn a (.str (peers.flatMap (·.compact)))) Option.none tr =
      .done () (setBackFields a { tr with peers := peers.map fun p => p.peer [] }) := by
  have taken : trackerReader.reader.run (Value.str (peers.flatMap (·.compact))).lexemes
      (some .peers) tr = .done Option.none { tr with peers := peers.map fun p => p.peer [] } := by
    rw [Value.lexemes, run_some]
    show ((tr.storeCompact (.leaf .str (peers.flatMap (·.compact)))).map _).bind _ = _
    rw [storeCompact_peers none granted]
    rfl
  rw [peersOn, complete_peers, Reader.complete_append, taken, Outcome.bind_done,
    Reader.complete_append, run_back, Outcome.bind_done]
  rfl

theorem complete_detailed (a : TrackerAnswer) (peers : List KnownPeer) (tr : TrackerResponse) :
    trackerReader.reader.complete (peersOn a (.list (peers.map (·.dict)))) Option.none tr =
      ({ tr with peers := tr.peers ++ peers.map fun p => p.peer p.id } :
        TrackerResponse).closePeer := by
  have taken : trackerReader.reader.run (Value.list (peers.map (·.dict))).lexemes
      (some .peers) tr =
        .done (some .detail) { tr with peers := tr.peers ++ peers.map fun p => p.peer p.id } := by
    rw [Value.lexemes, List.append_assoc, List.singleton_append, run_some]
    show trackerReader.reader.run (valuesLexemes (peers.map (·.dict)) ++ [.mark .listEnd])
      (some .detail) tr = _
    rw [Reader.run_append, run_dicts, Outcome.bind_done]
    rfl
  rw [peersOn, complete_peers, Reader.complete_append, taken, Outcome.bind_done,
    Reader.complete_append, run_back_detail, Outcome.bind_done, Reader.complete_cons]
  show ((closePeer _).map _).bind _ = _
  rw [Outcome.bind_map]
  cases closePeer _ <;> rfl

/-- The end of the answer sets the address of the last peer once more. -/
theorem closePeer_known (peers : List KnownPeer) (ne : peers ≠ [])
    (all : tr.peers = peers.map fun p => p.peer p.id) : tr.closePeer = .done () tr := by
  obtain ⟨front, p, rfl⟩ := List.eq_nil_or_concat' peers |>.resolve_left ne
  have split : tr = { tr with peers := (front.map fun p => p.peer p.id) ++ [p.peer p.id] } := by
    rw [List.map_append, List.map_singleton] at all
    rw [← all]
  rw [split, closePeer_append _ p _ rfl rfl]
  rfl

variable [SubStrings]

section
variable {a : TrackerAnswer} {peers : List KnownPeer}
  (run : trackerReader.reader.run (entriesLexemes a.front) none {} = .done none tr)
  (kept : SameBack {} tr)
include run kept

omit [LawfulNetwork] kept in
theorem receive_refused {source : StringWrapper} {e : Thrown}
    (text : source.bytes = (a.compact peers).encode)
    (refused : Heap.refuses Peer peers.length = some e) : receive source = .thrown e tr := by
  apply receive_of_new text
  · rw [TrackerAnswer.compact, new_dict, run, Outcome.bind_done, complete_refused a peers refused]
    rfl
  · rintro tr' ⟨⟩
    rcases Heap.refuses_with refused with h | h <;> cases h

theorem receive_compact {source : StringWrapper} (text : source.bytes = (a.compact peers).encode)
    (granted : Heap.refuses Peer peers.length = none) : receive source =
      .done () (setBackFields a { tr with peers := peers.map fun p => p.peer [] }).validate := by
  apply receive_of_new text
  · rw [TrackerAnswer.compact, new_dict, run, Outcome.bind_done,
      complete_compact a peers kept.peers granted, Outcome.bind_done]
  · intro tr' h
    cases h

theorem receive_detailed {source : StringWrapper} (ne : peers ≠ [])
    (text : source.bytes = (a.detailed peers).encode) :
    receive source =
      .done () ({ tr with peers := peers.map fun p => p.peer p.id } :
        TrackerResponse).validate := by
  apply receive_of_new text
  · rw [TrackerAnswer.detailed, new_dict, run, Outcome.bind_done, complete_detailed, kept.peers,
      List.nil_append, closePeer_known peers ne rfl]
    rfl
  · intro tr' h
    cases h

/-- The end of the answer is taken for the end of a peer, and there is none. -/
theorem receive_detailed_nil {source : StringWrapper}
    (text : source.bytes = (a.detailed []).encode) :
    receive source = .fault .outOfBounds tr := by
  apply receive_of_new text
  · rw [TrackerAnswer.detailed, new_dict, run, Outcome.bind_done, complete_detailed, List.map_nil,
      List.append_nil, closePeer_none kept.peers]
    rfl
  · intro tr' h
    cases h

theorem same_forms_iff (ne : peers ≠ []) (granted : Heap.refuses Peer peers.length = none)
    {compact detailed : StringWrapper}
    (hc : compact.bytes = (a.compact peers).encode)
    (hd : detailed.bytes = (a.detailed peers).encode) :
    Same (receive compact) (receive detailed) ↔
      a.trackerId.getD [] = [] ∧ a.warning.getD [] = [] := by
  have known : ({ tr with peers := peers.map fun p => p.peer p.id } :
      TrackerResponse).anonymous = { tr with peers := peers.map fun p => p.peer [] } := by
    simp [anonymous, KnownPeer.peer]
  have nameless : ({ tr with peers := peers.map fun p => p.peer [] } :
      TrackerResponse).anonymous = { tr with peers := peers.map fun p => p.peer [] } := by
    simp [anonymous, KnownPeer.peer]
  rw [receive_compact run kept hc granted, receive_detailed run kept ne hd, Same,
    validate_anonymous,
    validate_anonymous, setBackFields_anonymous, known, nameless]
  constructor
  · intro same
    have ids := congrArg (·.trackerId) same
    have warnings := congrArg (·.warning) same
    simp only [validate_trackerId, validate_warning, setBackFields_trackerId,
      setBackFields_warning, kept.trackerId, kept.warning] at ids warnings
    exact ⟨ids, warnings⟩
  · rintro ⟨trackerId, warning⟩
    exact congrArg validate (setBackFields_eq trackerId warning ⟨kept.trackerId, kept.warning⟩)

end

/-- **When the two forms of the peers agree.** -/
theorem forms_agree_iff (a : TrackerAnswer) (peers : List KnownPeer)
    {compact detailed : StringWrapper} (hc : compact.bytes = (a.compact peers).encode)
    (hd : detailed.bytes = (a.detailed peers).encode) :
    Same (receive compact) (receive detailed) ↔
      ¬ a.InRange ∨ (peers ≠ [] ∧ Heap.refuses Peer peers.length = none) ∧
        a.trackerId.getD [] = [] ∧ a.warning.getD [] = [] := by
  by_cases fits : a.InRange
  · obtain ⟨tr, run, kept⟩ := (setsFront_answer a).sets {} fits
    by_cases none : peers = []
    · subst none
      rw [receive_detailed_nil run kept hd]
      refine iff_of_false ?_ fun h => h.elim (fun h => h fits) fun h => h.1.1 rfl
      cases receive compact <;> exact id
    · cases room : Heap.refuses Peer peers.length with
      | some e =>
        rw [receive_refused run hc room, receive_detailed run kept none hd]
        refine iff_of_false id fun h => h.elim (fun h => h fits) fun h => ?_
        cases h.1.2
      | none =>
        rw [same_forms_iff run kept none room hc hd]
        constructor
        · exact fun h => Or.inr ⟨⟨none, rfl⟩, h⟩
        · exact fun h => (h.resolve_left fun unfit => unfit fits).2
  · obtain ⟨tr, run⟩ := (setsFront_answer a).throws {} fits
    have thrown (form : Value) : new (a.dict form).lexemes = .thrown .outOfRange tr := by
      rw [new_dict, run]
      rfl
    have other (tr' : TrackerResponse) :
        (.thrown .outOfRange tr : Outcome Thrown TrackerResponse Unit) ≠
          .thrown .subString tr' := by
      intro h
      cases h
    rw [receive_of_new hc (thrown _) other, receive_of_new hd (thrown _) other]
    exact iff_of_true rfl (Or.inl fits)

end TrackerResponse

/-! ## A network -/

/-- The numbers of a dotted text. -/
def numbersOf : Nat → Bytes → Option Bytes
  | 0, _ => some []
  | n + 1, text =>
    (readInteger text).bind fun number =>
      (numbersOf n (text.drop (number.2 + 1))).map (UInt8.ofNat number.1.toNat :: ·)

/-- Four bytes as an address, and the texts of addresses. -/
@[reducible] def Network.ipv4 : Network where
  toHeap := .upTo _ ((2 ^ 63 - 1) / 88)
  inetNtop addr :=
    match addr with
    | [a, b, c, d] => some (KnownPeer.dotted ⟨a, b, c, d, 0, by decide, []⟩)
    | _ => none
  getSockaddrIn text port :=
    (numbersOf 4 text).map fun addr =>
      ⟨afInet, addr, [UInt8.ofNat (port / 256), UInt8.ofNat port]⟩

theorem readInteger_decimal (n : Nat) {rest : Bytes} (stops : StopsDigits rest) :
    readInteger (decimal n ++ rest) = some ((n : Int), (decimal n).length) := by
  have text : (decimalNumeral n).text = decimal n := by
    simp [decimalInt, Int.not_lt.2 (Int.natCast_nonneg n)]
  have read := readInteger_text (decimalNumeral n) stops
  rwa [text, decimalNumeral_value] at read

theorem numbersOf_cons (n : Nat) (b : UInt8) (rest : Bytes) :
    numbersOf (n + 1) (decimal b.toNat ++ 46 :: rest) = (numbersOf n rest).map (b :: ·) := by
  have stops : StopsDigits (46 :: rest) := stopsDigits_cons (by decide)
  have behind : (decimal b.toNat ++ 46 :: rest).drop ((decimal b.toNat).length + 1) = rest := by
    rw [← List.drop_drop, List.drop_left]
    rfl
  rw [numbersOf, readInteger_decimal _ stops, Option.bind_some]
  dsimp only
  rw [behind, Int.toNat_natCast, UInt8.ofNat_toNat]

theorem numbersOf_dotted (p : KnownPeer) : numbersOf 4 p.dotted = some p.addr := by
  have last : numbersOf 1 (decimal p.d.toNat) = some [p.d] := by
    have read := readInteger_decimal p.d.toNat (show StopsDigits [] by simp [StopsDigits])
    rw [List.append_nil] at read
    rw [numbersOf, read, Option.bind_some, numbersOf, Option.map_some, Int.toNat_natCast,
      UInt8.ofNat_toNat]
  simp only [KnownPeer.dotted, List.append_assoc, List.cons_append]
  rw [numbersOf_cons, numbersOf_cons, numbersOf_cons, last]
  rfl

theorem Network.ipv4_lawful : @LawfulNetwork Network.ipv4 := by
  apply @LawfulNetwork.mk Network.ipv4
  · exact fun _ => rfl
  · intro p
    show (numbersOf 4 p.dotted).map _ = _
    rw [numbersOf_dotted]
    rfl

namespace TrackerResponse

/-- The peer 1.2.3.4:80. -/
def somePeer : KnownPeer := ⟨1, 2, 3, 4, 80, by decide, ascii "id"⟩

/-- An answer with an interval, in both forms. -/
def compactInterval : StringWrapper :=
  .ofBytes (TrackerAnswer.compact { interval := some 1800 } [somePeer]).encode (by decide)

def detailedInterval : StringWrapper :=
  .ofBytes (TrackerAnswer.detailed { interval := some 1800 } [somePeer]).encode (by decide)

theorem forms_agree_interval :
    Same (@receive Network.ipv4 SubStrings.cut compactInterval)
      (@receive Network.ipv4 SubStrings.cut detailedInterval) :=
  (@forms_agree_iff Network.ipv4 Network.ipv4_lawful SubStrings.cut { interval := some 1800 }
    [somePeer] compactInterval detailedInterval (StringWrapper.bytes_ofBytes _ _)
    (StringWrapper.bytes_ofBytes _ _)).2 (Or.inr ⟨⟨by simp, rfl⟩, rfl, rfl⟩)

/-- An answer with a tracker id behind its peers, in both forms. -/
def compactId : StringWrapper :=
  .ofBytes (TrackerAnswer.compact { trackerId := some [97] } [somePeer]).encode (by decide)

def detailedId : StringWrapper :=
  .ofBytes (TrackerAnswer.detailed { trackerId := some [97] } [somePeer]).encode (by decide)

/-- An answer without peers, in both forms. -/
def compactNone : StringWrapper := .ofBytes (TrackerAnswer.compact {} []).encode (by decide)

def detailedNone : StringWrapper := .ofBytes (TrackerAnswer.detailed {} []).encode (by decide)

theorem forms_differ :
    ¬ Same (@receive Network.ipv4 SubStrings.cut compactId)
        (@receive Network.ipv4 SubStrings.cut detailedId) ∧
      ¬ Same (@receive Network.ipv4 SubStrings.cut compactNone)
        (@receive Network.ipv4 SubStrings.cut detailedNone) := by
  let _ := Network.ipv4
  let _ := SubStrings.cut
  have _ := Network.ipv4_lawful
  have kept : SameBack {} {} := ⟨rfl, rfl, rfl⟩
  constructor
  · have compact : compactId.bytes =
        (TrackerAnswer.compact { trackerId := some [97] } [somePeer]).encode :=
      StringWrapper.bytes_ofBytes _ _
    have detailed : detailedId.bytes =
        (TrackerAnswer.detailed { trackerId := some [97] } [somePeer]).encode :=
      StringWrapper.bytes_ofBytes _ _
    intro same
    have blank := ((same_forms_iff rfl kept (by simp) rfl compact detailed).1 same).1
    cases blank
  · have compact : compactNone.bytes = (TrackerAnswer.compact {} []).encode :=
      StringWrapper.bytes_ofBytes _ _
    have detailed : detailedNone.bytes = (TrackerAnswer.detailed {} []).encode :=
      StringWrapper.bytes_ofBytes _ _
    rw [receive_compact rfl kept compact rfl, receive_detailed_nil rfl kept detailed]
    exact id

end TrackerResponse

end TorrentClient
