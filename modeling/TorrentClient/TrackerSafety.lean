import TorrentClient.Base.Outline
import TorrentClient.PeerForms

/-!
# Answers that end in an exception or in an object

The constructor never looks at how many tokens there are, and takes the last
peer for granted.
-/

namespace TorrentClient.TrackerResponse

/-! ## The last peer -/

variable {tr : TrackerResponse} {key value : Bytes}

def Peer.address (peer : Peer) : Bytes × Nat := (peer.ip, peer.port)

def lastAddress (tr : TrackerResponse) : Option (Bytes × Nat) :=
  tr.peers.getLast?.map Peer.address

theorem lastAddress_none : tr.lastAddress = none ↔ tr.peers = [] := by
  rw [lastAddress, Option.map_eq_none_iff, List.getLast?_eq_none_iff]

theorem setBack_none (f : Peer → Peer) (none : tr.lastAddress = none) :
    tr.setBack f = .fault .outOfBounds tr := by
  rw [setBack, lastAddress_none.1 none]
  rfl

theorem setBack_done (f : Peer → Peer) (g : Bytes × Nat → Bytes × Nat)
    (same : ∀ peer, (f peer).address = g peer.address) (some : tr.lastAddress ≠ none) :
    ∃ tr', tr.setBack f = .done () tr' ∧ tr'.lastAddress = tr.lastAddress.map g := by
  obtain ⟨front, last, eq⟩ :=
    (List.eq_nil_or_concat' tr.peers).resolve_left (lastAddress_none.not.1 some)
  refine ⟨{ tr with peers := front ++ [f last] }, ?_, ?_⟩
  · rw [setBack, modifyBack, eq, List.getLast?_concat, Option.map_some, List.dropLast_concat]
  · simp only [lastAddress, eq, List.getLast?_concat, Option.map_some, same]

/-- A value that is stored in the last peer. -/
def Stores (key value : Bytes) : Prop :=
  key = ascii "peer id" ∨ key = ascii "ip" ∨ key = ascii "port" ∧ ∃ n, stoll value = .ok n

/-- What a key and its value set in the address of a peer. -/
def setAddress (key value : Bytes) (address : Bytes × Nat) : Bytes × Nat :=
  if key = ascii "ip" then (value, address.2)
  else if key = ascii "port" then
    match stoll value with
    | .ok port => (address.1, toUInt64 port % 2 ^ 16)
    | .error _ => address
  else address

theorem storeDetail_fault (none : tr.lastAddress = none) (stores : Stores key value) :
    tr.storeDetail key value = .fault .outOfBounds tr := by
  rw [storeDetail]
  rcases stores with rfl | rfl | ⟨rfl, n, number⟩
  · rw [if_pos rfl, setBack_none _ none]
  · rw [if_neg (by decide), if_pos rfl, setBack_none _ none]
  · rw [if_neg (by decide), if_neg (by decide), if_pos rfl, number, Outcome.ofExcept_ok,
      Outcome.bind_done, setBack_none _ none]

theorem storeDetail_thrown (port : key = ascii "port") (bad : ∀ n, stoll value ≠ .ok n) :
    ∃ e, tr.storeDetail key value = .thrown e tr := by
  subst port
  rw [storeDetail, if_neg (by decide), if_neg (by decide), if_pos rfl]
  cases number : stoll value with
  | error e => exact ⟨e, rfl⟩
  | ok n => exact absurd number (bad n)

theorem storeDetail_done (some : Stores key value → tr.lastAddress ≠ none)
    (good : key = ascii "port" → ∃ n, stoll value = .ok n) :
    ∃ tr', tr.storeDetail key value = .done () tr' ∧
      tr'.lastAddress = tr.lastAddress.map (setAddress key value) := by
  rw [storeDetail]
  by_cases id : key = ascii "peer id"
  · subst id
    rw [if_pos rfl]
    exact setBack_done _ _ (fun peer => rfl) (some (Or.inl rfl))
  · rw [if_neg id]
    by_cases ip : key = ascii "ip"
    · subst ip
      rw [if_pos rfl]
      exact setBack_done _ _ (fun peer => rfl) (some (Or.inr (Or.inl rfl)))
    · rw [if_neg ip]
      by_cases port : key = ascii "port"
      · obtain ⟨n, number⟩ := good port
        rw [if_pos port, number, Outcome.ofExcept_ok, Outcome.bind_done]
        apply setBack_done _ _ _ (some (Or.inr (Or.inr ⟨port, n, number⟩)))
        intro peer
        rw [setAddress, if_neg ip, if_pos port, number]
        rfl
      · rw [if_neg port]
        refine ⟨tr, rfl, ?_⟩
        cases tr.lastAddress with
        | none => rfl
        | some address => rw [Option.map_some, setAddress, if_neg ip, if_neg port]

/-! ## The string of peers -/

section
variable [Network]

/-- The records of a string of peers, up to the first that is refused, are
inside the memory. -/
def Covered : Nat → Bytes → Prop
  | 0, _ => True
  | n + 1, curr =>
    4 ≤ curr.length ∧
      (Network.inetNtop (curr.take 4) ≠ none → 6 ≤ curr.length ∧ Covered n (curr.drop 6))

/-- `inet_ntop` fails at one of the records. -/
def Refused : Nat → Bytes → Prop
  | 0, _ => False
  | n + 1, curr => Network.inetNtop (curr.take 4) = none ∨ Refused n (curr.drop 6)

/-- The addresses and ports of the records. -/
def addresses : Nat → Bytes → List (Bytes × Nat)
  | 0, _ => []
  | n + 1, curr =>
    ((Network.inetNtop (curr.take 4)).getD [], ntohs ((curr.drop 4).take 2)) ::
      addresses n (curr.drop 6)

theorem compactLoop_fault (peers : List Peer) {curr : Bytes}
    (out : ¬ Covered peers.length curr) : ¬ (compactLoop peers curr).Safe := by
  induction peers generalizing curr with
  | nil => exact absurd trivial out
  | cons peer peers ih =>
    rw [compactLoop]
    split
    · exact Outcome.not_safe_fault
    · rename_i long
      cases name : Network.inetNtop (curr.take 4) with
      | none => exact absurd ⟨Nat.not_lt.1 long, fun named => absurd name named⟩ out
      | some ip =>
        dsimp only
        split
        · exact Outcome.not_safe_fault
        · rename_i whole
          rw [List.length_take, List.length_drop] at whole
          have rest : ¬ Covered peers.length (curr.drop 6) := by
            intro rest
            exact out ⟨by omega, fun _ => ⟨by omega, rest⟩⟩
          rw [Outcome.lift_safe]
          exact ih rest

theorem compactLoop_thrown (peers : List Peer) {curr : Bytes}
    (covered : Covered peers.length curr) (refused : Refused peers.length curr) :
    ∃ e peers', compactLoop peers curr = .thrown e peers' := by
  induction peers generalizing curr with
  | nil => exact absurd refused id
  | cons peer peers ih =>
    rw [compactLoop, if_neg (Nat.not_lt.2 covered.1)]
    cases name : Network.inetNtop (curr.take 4) with
    | none => exact ⟨_, _, rfl⟩
    | some ip =>
      obtain ⟨long, rest⟩ := covered.2 (by simp [name])
      have whole : ¬ ((curr.drop 4).take 2).length < 2 := by
        rw [List.length_take, List.length_drop]
        omega
      dsimp only
      rw [if_neg whole]
      obtain ⟨e, peers', thrown⟩ := ih rest (refused.resolve_left (by simp [name]))
      rw [thrown]
      exact ⟨_, _, rfl⟩

theorem compactLoop_done (peers : List Peer) {curr : Bytes}
    (covered : Covered peers.length curr) (accepted : ¬ Refused peers.length curr) :
    ∃ peers', compactLoop peers curr = .done () peers' ∧
      peers'.map Peer.address = addresses peers.length curr := by
  induction peers generalizing curr with
  | nil => exact ⟨[], rfl, rfl⟩
  | cons peer peers ih =>
    obtain ⟨first, later⟩ := not_or.1 accepted
    rw [compactLoop, if_neg (Nat.not_lt.2 covered.1)]
    cases name : Network.inetNtop (curr.take 4) with
    | none => exact absurd name first
    | some ip =>
      obtain ⟨long, rest⟩ := covered.2 first
      have whole : ¬ ((curr.drop 4).take 2).length < 2 := by
        rw [List.length_take, List.length_drop]
        omega
      dsimp only
      rw [if_neg whole]
      obtain ⟨peers', done, eq⟩ := ih rest later
      rw [done]
      refine ⟨_, rfl, ?_⟩
      rw [List.map_cons, eq, List.length_cons, addresses, name]
      rfl

/-! ## The place in the loops -/

/-- Where the reading is, and the address and port of the last peer. -/
structure Place where
  mode : Option Mode
  last : Option (Bytes × Nat)

/-- The loop at the place looks at the next token without asking if there is one. -/
def Awaits : Option Mode → Prop
  | none => False
  | some .detail => False
  | some _ => True

namespace Place

def next (p : Place) (t : Lexeme) : Place :=
  match p.mode with
  | none =>
    if t.IsLeaf then { p with mode := t.str.bind fun text => trackerReader.modes.lookup text }
    else p
  | some (.value _) => { p with mode := none }
  | some .peers =>
    if t.type = .str then ⟨none, (addresses (t.size / 6) t.window).getLast?⟩
    else { p with mode := some .detail }
  | some .detail =>
    match t.type with
    | .dictStart => { p with last := some ([], 0) }
    | .str => { p with mode := t.str.map .detailValue }
    | _ => p
  | some (.detailValue key) => ⟨some .detail, p.last.map (setAddress key (t.str.getD []))⟩

/-- The token throws: a text that cannot be read, a number that is none or does
not fit, an address that is refused, peers that are neither of the two forms. -/
def Throws (p : Place) (t : Lexeme) : Prop :=
  match p.mode with
  | none => t.IsLeaf ∧ t.str = none
  | some (.value (.int _)) => t.type = .int ∧ ∀ n, t.integer ≠ .ok n
  | some (.value (.str _)) => t.type = .str ∧ t.str = none
  | some .peers =>
    if t.type = .str then Heap.refuses Peer (t.size / 6) ≠ none ∨ Refused (t.size / 6) t.window
    else t.type ≠ .listStart
  | some .detail =>
    match t.type with
    | .dictEnd => ∃ ip port, p.last = some (ip, port) ∧ Network.getSockaddrIn ip port = none
    | .str => t.str = none
    | _ => False
  | some (.detailValue key) => ∀ value, t.str = some value → key = ascii "port" ∧
      ∀ n, stoll value ≠ .ok n

/-- A string of peers whose records leave the memory; the end of a peer, or an
entry of one, where there is no peer. -/
def Faults (p : Place) (t : Lexeme) : Prop :=
  match p.mode with
  | some .peers =>
    t.type = .str ∧ Heap.refuses Peer (t.size / 6) = none ∧ ¬ Covered (t.size / 6) t.window
  | some .detail => t.type = .dictEnd ∧ p.last = none
  | some (.detailValue key) => p.last = none ∧ ∃ value, t.str = some value ∧ Stores key value
  | _ => False

end Place

/-! ## The outline of the reading -/

/-- The place of a reading whose object is known. -/
def placeOf (mode : Option Mode) (tr : TrackerResponse) : Place := ⟨mode, tr.lastAddress⟩

theorem closePeer_some {ip : Bytes} {port : Nat} (last : tr.lastAddress = some (ip, port)) :
    tr.closePeer =
      match Network.getSockaddrIn ip port with
      | none => .thrown .ipAddr tr
      | some saddr => (tr.setBack fun peer => { peer with saddr := saddr }) := by
  have nonempty : tr.peers ≠ [] := by
    intro none
    rw [lastAddress_none.2 none] at last
    cases last
  obtain ⟨front, peer, eq⟩ := (List.eq_nil_or_concat' tr.peers).resolve_left nonempty
  simp only [lastAddress, eq, List.getLast?_concat, Option.map_some, Option.some.injEq] at last
  cases last
  simp only [closePeer, setBack, modifyBack, eq, List.getLast?_concat, List.dropLast_concat]
  rfl

theorem step_fault {mode : Option Mode} {t : Lexeme} (faults : (placeOf mode tr).Faults t) :
    ¬ (trackerReader.reader.step mode t tr).Safe := by
  cases mode with
  | none => exact faults.elim
  | some mode =>
    show ¬ (stepMode mode t tr).Safe
    cases mode with
    | value slot => exact faults.elim
    | peers =>
      obtain ⟨str, granted, out⟩ := faults
      rw [stepMode, if_pos str, Outcome.map_safe, storeCompact_granted granted, Outcome.lift_safe]
      apply compactLoop_fault
      rwa [resize_length]
    | detail =>
      obtain ⟨closes, none⟩ := faults
      have fault : tr.closePeer = .fault .outOfBounds tr := by
        rw [closePeer, lastAddress_none.1 none]
        rfl
      simp only [stepMode, closes, fault, Outcome.map_fault]
      exact Outcome.not_safe_fault
    | detailValue key =>
      obtain ⟨none, value, text, stores⟩ := faults
      simp only [stepMode, ofExcept_text, text, Outcome.bind_done,
        storeDetail_fault none stores, Outcome.map_fault]
      exact Outcome.not_safe_fault

theorem step_thrown {mode : Option Mode} {t : Lexeme} (sound : ¬ (placeOf mode tr).Faults t)
    (throws : (placeOf mode tr).Throws t) :
    ∃ e tr', trackerReader.reader.step mode t tr = .thrown e tr' := by
  cases mode with
  | none =>
    obtain ⟨leaf, none⟩ := throws
    refine ⟨.subString, tr, ?_⟩
    show trackerReader.scan t tr = _
    rw [FillerReader.scan, if_pos leaf, ofExcept_text, none]
    rfl
  | some mode =>
    show ∃ e tr', stepMode mode t tr = .thrown e tr'
    cases mode with
    | value slot =>
      obtain ⟨e, thrown⟩ := slot.store_thrown (t := t) (by cases slot <;> exact throws) tr
      exact ⟨e, tr, by rw [stepMode, thrown]; rfl⟩
    | peers =>
      by_cases str : t.type = .str
      · rw [stepMode, if_pos str]
        cases room : Heap.refuses Peer (t.size / 6) with
        | some e =>
          rw [storeCompact_refused room]
          exact ⟨_, _, rfl⟩
        | none =>
          have refused : Refused (t.size / 6) t.window := by
            simpa [Place.Throws, placeOf, str, room] using throws
          have covered : Covered (t.size / 6) t.window := by
            by_contra out
            exact sound ⟨str, room, out⟩
          obtain ⟨e, peers, thrown⟩ := compactLoop_thrown (resize tr.peers (t.size / 6) {})
            (by rwa [resize_length]) (by rwa [resize_length])
          rw [storeCompact_granted room, thrown]
          exact ⟨_, _, rfl⟩
      · have other : t.type ≠ .listStart := by simpa [Place.Throws, placeOf, str] using throws
        rw [stepMode, if_neg str, if_neg other]
        exact ⟨_, _, rfl⟩
    | detail =>
      simp only [Place.Throws, placeOf] at throws
      simp only [stepMode]
      cases type : t.type with
      | dictEnd =>
        rw [type] at throws
        obtain ⟨ip, port, last, refused⟩ := throws
        rw [closePeer_some last, refused]
        exact ⟨_, _, rfl⟩
      | str =>
        rw [type] at throws
        have unread : t.str = none := throws
        simp only [ofExcept_text, unread]
        exact ⟨_, _, rfl⟩
      | unknown | int | listStart | listEnd | dictStart =>
        rw [type] at throws
        exact absurd throws id
    | detailValue key =>
      have bad : ∀ value, t.str = some value →
        key = ascii "port" ∧ ∀ n, stoll value ≠ .ok n := throws
      rw [stepMode, ofExcept_text]
      cases text : t.str with
      | none => exact ⟨_, _, rfl⟩
      | some value =>
        obtain ⟨port, number⟩ := bad value text
        obtain ⟨e, thrown⟩ := @storeDetail_thrown tr _ _ port number
        simp only [Outcome.bind_done, thrown]
        exact ⟨_, _, rfl⟩

/-- What is set in front of a value leaves the peers alone. -/
def Mode.KeepsPeers : Mode → Prop
  | .value (.int set) => ∀ n tr, (set n tr).peers = tr.peers
  | .value (.str set) => ∀ text tr, (set text tr).peers = tr.peers
  | _ => True

theorem registered_keepsPeers {text : Bytes} {mode : Mode}
    (registered : trackerReader.modes.lookup text = some mode) : mode.KeepsPeers := by
  have all : ∀ entry ∈ trackerReader.modes, entry.2.KeepsPeers := by
    simp only [trackerReader, List.forall_mem_cons, Mode.KeepsPeers]
    simp
  obtain ⟨front, back, split, -⟩ := List.lookup_eq_some_iff.1 registered
  exact all (text, mode) (by simp [split])

/-- The filler takes the token and comes to the next place. -/
def Steps (mode : Mode) (t : Lexeme) (tr : TrackerResponse) : Prop :=
  ∃ mode' tr', stepMode mode t tr = .done mode' tr' ∧ (∀ m ∈ mode', m.KeepsPeers) ∧
    placeOf mode' tr' = (placeOf (some mode) tr).next t

omit [Network] in
theorem keepsPeers_none : ∀ m ∈ (none : Option Mode), m.KeepsPeers := by
  intro _ h
  cases h

omit [Network] in
theorem keepsPeers_detail : ∀ m ∈ some Mode.detail, m.KeepsPeers := by
  rintro _ ⟨⟩
  trivial

theorem steps_peers {t : Lexeme} (sound : ¬ (placeOf (some .peers) tr).Faults t)
    (taken : ¬ (placeOf (some .peers) tr).Throws t) : Steps .peers t tr := by
  unfold Steps
  rw [stepMode]
  by_cases str : t.type = .str
  · have accepted : ¬ (Heap.refuses Peer (t.size / 6) ≠ none ∨ Refused (t.size / 6) t.window) := by
      rwa [Place.Throws, placeOf, if_pos str] at taken
    obtain ⟨granted, accepted⟩ := not_or.1 accepted
    have room := not_not.1 granted
    have covered : Covered (t.size / 6) t.window := by
      by_contra out
      exact sound ⟨str, room, out⟩
    obtain ⟨peers, done, eq⟩ := compactLoop_done (resize tr.peers (t.size / 6) {})
      (by rwa [resize_length]) (by rwa [resize_length])
    rw [resize_length] at eq
    refine ⟨none, { tr with peers := peers }, ?_, keepsPeers_none, ?_⟩
    · rw [if_pos str, storeCompact_granted room, done]
      rfl
    · simp only [placeOf, Place.next, if_pos str, lastAddress, ← eq, List.getLast?_map]
  · have list : t.type = .listStart := by
      simpa [Place.Throws, placeOf, str] using taken
    rw [if_neg str, if_pos list]
    refine ⟨some .detail, tr, rfl, keepsPeers_detail, ?_⟩
    simp only [placeOf, Place.next, if_neg str]

/-- The end of a peer whose address is known. -/
theorem closePeer_done (nonempty : tr.lastAddress ≠ none)
    (known : ¬ ∃ ip port, tr.lastAddress = some (ip, port) ∧
      Network.getSockaddrIn ip port = none) :
    ∃ tr', tr.closePeer = .done () tr' ∧ tr'.lastAddress = tr.lastAddress := by
  obtain ⟨⟨ip, port⟩, last⟩ := Option.ne_none_iff_exists'.1 nonempty
  rw [closePeer_some last]
  cases resolved : Network.getSockaddrIn ip port with
  | none => exact absurd ⟨ip, port, last, resolved⟩ known
  | some saddr =>
    obtain ⟨tr', done, same⟩ := @setBack_done tr
      (fun peer => { peer with saddr := saddr }) id (fun _ => rfl) (by simp [last])
    refine ⟨tr', done, ?_⟩
    rw [same, Option.map_id, id]

theorem steps_detail {t : Lexeme} (sound : ¬ (placeOf (some .detail) tr).Faults t)
    (taken : ¬ (placeOf (some .detail) tr).Throws t) : Steps .detail t tr := by
  simp only [Place.Throws, placeOf] at taken
  simp only [Steps, stepMode]
  cases type : t.type with
  | dictStart =>
    refine ⟨_, _, rfl, keepsPeers_detail, ?_⟩
    simp only [placeOf, Place.next, type, lastAddress, List.getLast?_concat, Option.map_some,
      Peer.address]
  | dictEnd =>
    rw [type] at taken
    obtain ⟨tr', done, same⟩ := closePeer_done (fun none => sound ⟨type, none⟩) taken
    refine ⟨some .detail, tr', ?_, keepsPeers_detail, ?_⟩
    · dsimp only
      rw [done]
      rfl
    · simp only [placeOf, Place.next, type, same]
  | str =>
    rw [type] at taken
    rw [ofExcept_text]
    cases text : t.str with
    | none => exact absurd text taken
    | some key =>
      refine ⟨some (.detailValue key), tr, rfl, ?_, ?_⟩
      · rintro _ ⟨⟩
        trivial
      · simp only [placeOf, Place.next, type, text, Option.map_some]
  | unknown | int | listStart | listEnd =>
    refine ⟨_, _, rfl, keepsPeers_detail, ?_⟩
    simp only [placeOf, Place.next, type]

theorem steps_detailValue {t : Lexeme}
    (sound : ¬ (placeOf (some (.detailValue key)) tr).Faults t)
    (taken : ¬ (placeOf (some (.detailValue key)) tr).Throws t) :
    Steps (.detailValue key) t tr := by
  unfold Steps
  rw [stepMode, ofExcept_text]
  cases text : t.str with
  | none =>
    refine absurd (fun value h => ?_) taken
    rw [text] at h
    cases h
  | some value =>
    have stored : Stores key value → tr.lastAddress ≠ none := by
      intro stores none
      exact sound ⟨none, value, text, stores⟩
    have good : key = ascii "port" → ∃ n, stoll value = .ok n := by
      intro port
      by_contra bad
      refine taken fun value' h => ⟨port, fun n number => bad ⟨n, ?_⟩⟩
      rw [text] at h
      cases h
      exact number
    obtain ⟨tr', done, same⟩ := storeDetail_done stored good
    refine ⟨some .detail, tr', by simp only [Outcome.bind_done, done]; rfl, keepsPeers_detail, ?_⟩
    simp only [placeOf, Place.next, text, Option.getD_some, same]

/-- A token that is taken moves the reading to the next place. -/
theorem step_done {mode : Option Mode} {t : Lexeme} (keeps : ∀ m ∈ mode, m.KeepsPeers)
    (sound : ¬ (placeOf mode tr).Faults t) (taken : ¬ (placeOf mode tr).Throws t) :
    ∃ mode' tr', trackerReader.reader.step mode t tr = .done mode' tr' ∧
      (∀ m ∈ mode', m.KeepsPeers) ∧ placeOf mode' tr' = (placeOf mode tr).next t := by
  cases mode with
  | none =>
    show ∃ mode' tr', trackerReader.scan t tr = _ ∧ _
    rw [FillerReader.scan]
    by_cases leaf : t.IsLeaf
    · rw [if_pos leaf, ofExcept_text]
      cases text : t.str with
      | none => exact absurd ⟨leaf, text⟩ taken
      | some text' =>
        refine ⟨trackerReader.modes.lookup text', tr, rfl, ?_, ?_⟩
        · exact fun m h => registered_keepsPeers h
        · simp only [placeOf, Place.next, if_pos leaf, text, Option.bind_some]
    · rw [if_neg leaf]
      refine ⟨none, tr, rfl, keepsPeers_none, ?_⟩
      simp only [placeOf, Place.next, if_neg leaf]
  | some mode =>
    show Steps mode t tr
    cases mode with
    | value slot =>
      have taken' : ¬ slot.Throws t := by cases slot <;> exact taken
      have keeps' : slot.Keeps TrackerResponse.peers := by cases slot <;> exact keeps _ rfl
      obtain ⟨tr', done, same⟩ := slot.store_done keeps' taken' tr
      refine ⟨none, tr', by rw [stepMode, done]; rfl, keepsPeers_none, ?_⟩
      simp only [placeOf, Place.next, lastAddress, same]
    | peers => exact steps_peers sound taken
    | detail => exact steps_detail sound taken
    | detailValue key => exact steps_detailValue sound taken

def outline : Outline trackerReader.reader Place where
  place := placeOf
  next := Place.next
  Throws := Place.Throws
  Faults := Place.Faults
  Ends p := ¬ Awaits p.mode
  Kept mode _ := ∀ m ∈ mode, m.KeepsPeers
  fault _ faults := step_fault faults
  thrown _ sound throws := step_thrown sound throws
  done keeps sound taken := step_done keeps sound taken
  ends {mode tr} _ := by
    cases mode with
    | none => exact iff_of_true Outcome.safe_done id
    | some mode =>
      cases mode with
      | detail => exact iff_of_true Outcome.safe_done id
      | value | peers | detailValue =>
        exact iff_of_false Outcome.not_safe_fault fun h => h trivial

/-! ## Any bytes -/

/-- The tokens of an answer that is not read into undefined behaviour: there is
one, and if it starts a dictionary, those behind it are calm. -/
def CalmAnswer (tokens : List Lexeme) : Prop :=
  tokens ≠ [] ∧ ∀ t rest, tokens = t :: rest → t.type = .dictStart →
    outline.Calm rest ⟨none, none⟩

theorem new_iff_calm (tokens : List Lexeme) : (new tokens).Safe ↔ CalmAnswer tokens := by
  cases tokens with
  | nil => exact iff_of_false Outcome.not_safe_fault fun h => h.1 rfl
  | cons t rest =>
    by_cases dict : t.type = .dictStart
    · have kept : outline.Kept none ({} : TrackerResponse) := by
        intro m h
        cases h
      have read : _ ↔ outline.Calm rest _ := Outline.complete_safe_iff kept
      rw [new_cons t rest dict, Outcome.bind_safe, read]
      constructor
      · refine fun h => ⟨List.cons_ne_nil _ _, ?_⟩
        rintro _ _ ⟨⟩ _
        exact h.1
      · exact fun h => ⟨h.2 t rest rfl dict, fun _ _ _ => Outcome.safe_done⟩
    · rw [new, if_neg dict]
      refine iff_of_true Outcome.safe_thrown ⟨List.cons_ne_nil _ _, ?_⟩
      rintro _ _ ⟨⟩ h
      exact absurd h dict

/-- **When an answer is read without undefined behaviour.** -/
theorem receive_safe_iff [SubStrings] (source : StringWrapper) :
    (receive source).Safe ↔ ∀ f : Reading, f.Loose → f.render = source.bytes →
      CalmAnswer ((f.tokens 0).map (·.on source)) := by
  rw [receive, Outcome.bind_safe]
  constructor
  · intro h f loose text
    have parsed := BeParser.parse_eq_ok_iff.2 ⟨f, loose, text, rfl⟩
    rw [parsed] at h
    exact (new_iff_calm _).1 (h.2 _ _ rfl)
  · intro h
    cases parsed : BeParser.parse source with
    | error e => exact ⟨Outcome.safe_thrown, by rintro _ _ ⟨⟩⟩
    | ok tokens =>
      obtain ⟨f, loose, text, rfl⟩ := BeParser.parse_eq_ok_iff.1 parsed
      refine ⟨Outcome.safe_done, ?_⟩
      rintro _ _ ⟨⟩
      exact (new_iff_calm _).2 (h f loose text)

end

/-- Nothing at all. -/
def emptyBody : StringWrapper := .ofBytes [] (by decide)

/-- `de8:interval` -/
def keyLast : StringWrapper :=
  .ofBytes (encodeValues [.dict [], .str (ascii "interval")]) (by decide)

/-- There is no first token; a key is the last one; the answer ends where no
peer was. -/
theorem receive_unsafe :
    ¬ (@receive Network.ipv4 SubStrings.cut emptyBody).Safe ∧
      ¬ (@receive Network.ipv4 SubStrings.cut keyLast).Safe ∧
      ¬ (@receive Network.ipv4 SubStrings.cut detailedNone).Safe := by
  let _ := Network.ipv4
  let _ := SubStrings.cut
  have _ := Network.ipv4_lawful
  refine ⟨?_, ?_, ?_⟩
  · have parsed : BeParser.parse emptyBody = .ok [] :=
      @BeParser.parse_encoded [] _ (StringWrapper.bytes_ofBytes _ _)
    rw [receive, parsed]
    exact Outcome.not_safe_fault
  · have parsed : BeParser.parse keyLast =
        .ok (valuesTokens [.dict [], .str (ascii "interval")] 0) :=
      BeParser.parse_encoded (StringWrapper.bytes_ofBytes _ _)
    rw [receive, parsed, Outcome.ofExcept_ok, Outcome.bind_done]
    have read : new ((valuesTokens [.dict [], .str (ascii "interval")] 0).map (·.on keyLast)) =
        .fault .outOfBounds {} := by
      rw [valuesTokens, Value.tokens, List.append_assoc, List.singleton_append, List.cons_append,
        List.map_cons, new_cons _ _ rfl]
      rfl
    rw [read]
    exact Outcome.not_safe_fault
  · have kept : SameBack {} {} := ⟨rfl, rfl, rfl⟩
    have text : detailedNone.bytes = (TrackerAnswer.detailed {} []).encode :=
      StringWrapper.bytes_ofBytes _ _
    rw [receive_detailed_nil rfl kept text]
    exact Outcome.not_safe_fault

end TorrentClient.TrackerResponse
