import TorrentClient.ParserBounds
import TorrentClient.TrackerSafety

/-!
# A string of peers, inside the body of an answer

`fill_peers_compact` takes the number of records from the announced length of
the string. `compactConfined_iff` says which strings are read as the bytes that
have arrived.
-/

namespace TorrentClient

/-- The bytes of a string that are part of the body. -/
def BeToken.present (source : StringWrapper) (token : BeToken) : Bytes :=
  (source.bytes.drop token.data.start).take (token.data.stop - token.data.start)

/-- The token, with no memory behind the body. -/
def BeToken.inBody [SubStrings] (source : StringWrapper) (token : BeToken) : Lexeme :=
  { token.on source with window := source.bytes.drop token.data.start }

theorem BeToken.present_prefix_window [SubStrings] (source : StringWrapper) (token : BeToken)
    (ordered : token.data.start ≤ token.data.stop) :
    token.present source <+: (token.on source).window := by
  show (source.bytes.drop _).take _ <+: (source.data.drop _).take (SubStrings.size token.data)
  rw [SubStrings.size_eq ordered, StringWrapper.bytes, List.drop_take, List.take_take]
  exact List.take_prefix_take_left (Nat.min_le_left _ _)

/-- A string that the parser returns does not end in front of its start. -/
theorem BeParser.parse_ordered {source : StringWrapper} {tokens : List BeToken} {token : BeToken}
    (parsed : parse source = .ok tokens) (mem : token ∈ tokens) (str : token.type = .str) :
    token.data.start ≤ token.data.stop := by
  obtain ⟨f, -, -, rfl⟩ := parse_eq_ok_iff.1 parsed
  exact (((f.tokens_between 0).1 token mem).leaf (Or.inr str)).1

namespace TrackerResponse

section
variable [Network]

/-- `inet_ntop` fails at one of the records, whose address is present. -/
def FailsInside (n : Nat) (curr : Bytes) : Prop :=
  ∃ i < n, 6 * i + 4 ≤ curr.length ∧ Network.inetNtop ((curr.drop (6 * i)).take 4) = none

theorem failsInside_succ {n : Nat} {curr : Bytes}
    (accepted : Network.inetNtop (curr.take 4) ≠ none) (long : 6 ≤ curr.length) :
    FailsInside (n + 1) curr ↔ FailsInside n (curr.drop 6) := by
  have shift (i : Nat) : curr.drop (6 * (i + 1)) = (curr.drop 6).drop (6 * i) := by
    rw [List.drop_drop]
    congr 1
    omega
  constructor
  · rintro ⟨_ | i, inside, present, fails⟩
    · exact absurd fails accepted
    · refine ⟨i, by omega, ?_, shift i ▸ fails⟩
      rw [List.length_drop]
      omega
  · rintro ⟨i, inside, present, fails⟩
    rw [List.length_drop] at present
    exact ⟨i + 1, by omega, by omega, shift i ▸ fails⟩

/-- The records are there, unless an address in front of the missing ones is refused. -/
theorem covered_iff {n : Nat} {curr : Bytes} :
    Covered n curr ↔ 6 * n ≤ curr.length ∨ FailsInside n curr := by
  induction n generalizing curr with
  | zero => exact iff_of_true trivial (Or.inl (Nat.zero_le _))
  | succ n ih =>
    rw [Covered]
    by_cases refused : Network.inetNtop (curr.take 4) = none
    · constructor
      · rintro ⟨present, -⟩
        exact Or.inr ⟨0, Nat.succ_pos n, present, refused⟩
      · rintro (long | ⟨i, -, present, -⟩)
        · exact ⟨by omega, fun accepted => absurd refused accepted⟩
        · exact ⟨by omega, fun accepted => absurd refused accepted⟩
    · by_cases long : 6 ≤ curr.length
      · rw [ih, failsInside_succ refused long, List.length_drop]
        constructor
        · rintro ⟨-, rest⟩
          exact (rest refused).2.imp_left fun le => by omega
        · intro rest
          exact ⟨by omega, fun _ => ⟨long, rest.imp_left fun le => by omega⟩⟩
      · refine iff_of_false (fun covered => long (covered.2 refused).1) ?_
        rintro (le | ⟨_ | i, -, present, fails⟩)
        · omega
        · exact refused fails
        · omega

/-- What lies behind the records does not matter. -/
theorem failsInside_take {n stop : Nat} (curr : Bytes) (inside : 6 * n ≤ stop) :
    FailsInside n (curr.take stop) ↔ FailsInside n curr := by
  apply exists_congr
  intro i
  apply and_congr_right
  intro before
  have same : ((curr.take stop).drop (6 * i)).take 4 = (curr.drop (6 * i)).take 4 := by
    rw [List.drop_take, List.take_take, Nat.min_eq_left (by omega)]
  rw [same, List.length_take, Nat.le_min]
  exact and_congr_left fun _ => ⟨And.right, fun le => ⟨by omega, le⟩⟩

theorem compactLoop_covered (peers : List Peer) {curr : Bytes}
    (covered : Covered peers.length curr) :
    (∃ e peers', compactLoop peers curr = .thrown e peers') ∨
      ∃ peers', compactLoop peers curr = .done () peers' ∧
        peers'.map Peer.address = addresses peers.length curr := by
  by_cases refused : Refused peers.length curr
  · exact Or.inl (compactLoop_thrown peers covered refused)
  · exact Or.inr (compactLoop_done peers covered refused)

theorem failsInside_of_starts {n : Nat} {short long : Bytes} (starts : short <+: long)
    (fails : FailsInside n short) : FailsInside n long := by
  obtain ⟨behind, rfl⟩ := starts
  obtain ⟨i, before, present, refused⟩ := fails
  refine ⟨i, before, by rw [List.length_append]; omega, ?_⟩
  rw [List.drop_append_of_le_length (by omega), List.take_append_of_le_length]
  · exact refused
  · rw [List.length_drop]
    omega

theorem refused_of_failsInside {n : Nat} {curr : Bytes} (fails : FailsInside n curr) :
    Refused n curr := by
  induction n generalizing curr with
  | zero =>
    obtain ⟨i, before, -⟩ := fails
    exact absurd before (Nat.not_lt_zero i)
  | succ n ih =>
    obtain ⟨_ | i, before, present, refused⟩ := fails
    · exact Or.inl refused
    · refine Or.inr (ih ⟨i, by omega, ?_, ?_⟩)
      · rw [List.length_drop]
        omega
      · rw [List.drop_drop]
        rwa [show 6 + 6 * i = 6 * (i + 1) by omega]

theorem storeCompact_safe_iff {t : Lexeme} {tr : TrackerResponse}
    (granted : Heap.refuses Peer (t.size / 6) = none) :
    (tr.storeCompact t).Safe ↔ Covered (t.size / 6) t.window := by
  have length : (resize tr.peers (t.size / 6) {}).length = t.size / 6 := resize_length _ _ _
  rw [storeCompact_granted granted, Outcome.lift_safe]
  constructor
  · intro safe
    by_contra out
    exact compactLoop_fault _ (by rwa [length]) safe
  · intro covered
    rcases compactLoop_covered (resize tr.peers (t.size / 6) {}) (by rwa [length]) with
      ⟨e, peers, thrown⟩ | ⟨peers, done, -⟩
    · rw [thrown]
      exact Outcome.safe_thrown
    · rw [done]
      exact Outcome.safe_done

/-- The records of a string that is taken in, none of which was refused. -/
theorem storeCompact_addresses {t : Lexeme} {tr tr' : TrackerResponse}
    (done : tr.storeCompact t = .done () tr') (covered : Covered (t.size / 6) t.window) :
    ¬ Refused (t.size / 6) t.window ∧
      tr'.peers.map Peer.address = addresses (t.size / 6) t.window := by
  have length : (resize tr.peers (t.size / 6) {}).length = t.size / 6 := resize_length _ _ _
  cases room : Heap.refuses Peer (t.size / 6) with
  | some e =>
    rw [storeCompact_refused room] at done
    cases done
  | none =>
    rw [storeCompact_granted room] at done
    obtain ⟨peers, returned, rfl⟩ := Outcome.lift_eq_done done
    have accepted : ¬ Refused (t.size / 6) t.window := by
      intro refused
      obtain ⟨e, peers', thrown⟩ := compactLoop_thrown (resize tr.peers (t.size / 6) {})
        (by rwa [length]) (by rwa [length])
      rw [returned] at thrown
      cases thrown
    obtain ⟨peers', done', eq⟩ := compactLoop_done (resize tr.peers (t.size / 6) {})
      (by rwa [length]) (by rwa [length])
    rw [returned] at done'
    cases done'
    rw [length] at eq
    exact ⟨accepted, eq⟩

/-- Records that are inside the shorter of two texts are the same in both. -/
theorem addresses_prefix {n : Nat} {short long : Bytes} (starts : short <+: long)
    (inside : 6 * n ≤ short.length) : addresses n long = addresses n short := by
  obtain ⟨behind, rfl⟩ := starts
  induction n generalizing short with
  | zero => rfl
  | succ n ih =>
    have four : (short ++ behind).take 4 = short.take 4 :=
      List.take_append_of_le_length (by omega)
    have six : (short ++ behind).drop 6 = short.drop 6 ++ behind :=
      List.drop_append_of_le_length (by omega)
    have port : ((short ++ behind).drop 4).take 2 = (short.drop 4).take 2 := by
      rw [List.drop_append_of_le_length (by omega)]
      apply List.take_append_of_le_length
      rw [List.length_drop]
      omega
    rw [addresses, addresses, four, port, six, ih]
    rw [List.length_drop]
    omega

/-- What `fill_peers_compact` is to do at a string: read nothing that is not part
of the body, and make one peer of each six bytes that are present. -/
structure CompactConfined [SubStrings] (source : StringWrapper) (key value : BeToken)
    (rest : List BeToken) (tr : TrackerResponse) : Prop where
  inside : (fillPeers.run (key.on source :: value.inBody source :: rest.map (·.on source)) tr).Safe
  decoded : ∀ cursor tr',
    fillPeers.run ((key :: value :: rest).map (·.on source)) tr = .done cursor tr' →
    tr'.peers.map Peer.address =
      addresses ((value.present source).length / 6) (value.present source)

theorem fillPeers_str {key value : Lexeme} {rest : List Lexeme} {tr : TrackerResponse}
    (str : value.type = .str) :
    fillPeers.run (key :: value :: rest) tr = (tr.storeCompact value).map fun _ => rest :=
  if_pos str

/-- **When a string of peers is read inside the body.** It is announced with as many
records as there are, or there is no room for those that are announced, or `inet_ntop`
fails at one that is there. -/
theorem compactConfined_iff [SubStrings] {source : StringWrapper}
    {tokens front rest : List BeToken} {key value : BeToken}
    (parsed : BeParser.parse source = .ok tokens) (split : tokens = front ++ key :: value :: rest)
    (str : value.type = .str) (tr : TrackerResponse) :
    CompactConfined source key value rest tr ↔
      (value.data.stop - value.data.start) / 6 = (value.present source).length / 6 ∨
        Heap.refuses Peer ((value.data.stop - value.data.start) / 6) ≠ none ∨
          FailsInside ((value.data.stop - value.data.start) / 6) (value.present source) := by
  have ordered : value.data.start ≤ value.data.stop :=
    BeParser.parse_ordered parsed (by simp [split]) str
  have size : (value.on source).size = value.data.stop - value.data.start :=
    SubStrings.size_eq ordered
  have run := @fillPeers_str _ (key.on source) (value.on source) (rest.map (·.on source)) tr str
  have starts := BeToken.present_prefix_window source value ordered
  rw [← size]
  have within : (value.present source).length ≤ (value.on source).size := by
    rw [size]
    exact List.length_take_le _ _
  generalize count : (value.on source).size / 6 = n
  cases room : Heap.refuses Peer n with
  | some e =>
    refine iff_of_true ⟨?_, ?_⟩ (Or.inr (Or.inl (Option.some_ne_none e)))
    · rw [fillPeers_str str, Outcome.map_safe]
      have refused : tr.storeCompact (value.inBody source) = .thrown e tr :=
        storeCompact_refused (count ▸ room)
      rw [refused]
      exact Outcome.safe_thrown
    · intro cursor tr' done
      rw [List.map_cons, List.map_cons, run, storeCompact_refused (count ▸ room)] at done
      cases done
  | none =>
    -- What the records are read from, up to the end of the string.
    have same : Covered n (value.inBody source).window ↔ Covered n (value.present source) := by
      have stops : 6 * n ≤ value.data.stop - value.data.start := by omega
      rw [covered_iff, covered_iff, BeToken.present, failsInside_take _ stops, List.length_take]
      exact or_congr_left ⟨fun le => Nat.le_min.2 ⟨stops, le⟩, fun le => (Nat.le_min.1 le).2⟩
    have inside : (fillPeers.run (key.on source :: value.inBody source ::
        rest.map (·.on source)) tr).Safe ↔ Covered n (value.inBody source).window := by
      have granted : Heap.refuses Peer ((value.inBody source).size / 6) = none := count ▸ room
      rw [fillPeers_str str, Outcome.map_safe, storeCompact_safe_iff granted]
      exact count ▸ Iff.rfl
    constructor
    · intro confined
      rcases covered_iff.1 (same.1 (inside.1 confined.inside)) with long | fails
      · exact Or.inl (by omega)
      · exact Or.inr (Or.inr fails)
    · intro holds
      have covered : Covered n (value.present source) := by
        rcases holds with whole | room' | fails
        · exact covered_iff.2 (Or.inl (by omega))
        · exact absurd rfl room'
        · exact covered_iff.2 (Or.inr fails)
      refine ⟨inside.2 (same.2 covered), ?_⟩
      intro cursor tr' done
      rw [List.map_cons, List.map_cons, run] at done
      obtain ⟨_, stored, -⟩ := Outcome.map_eq_done done
      have reaches : Covered n (value.on source).window :=
        covered_iff.2 ((covered_iff.1 covered).imp (fun le => Nat.le_trans le starts.length_le)
          (failsInside_of_starts starts))
      obtain ⟨accepted, taken⟩ := storeCompact_addresses stored (by rwa [count])
      rw [count] at accepted taken
      have long : 6 * n ≤ (value.present source).length :=
        (covered_iff.1 covered).resolve_right fun fails =>
          accepted (refused_of_failsInside (failsInside_of_starts starts fails))
      have whole : n = (value.present source).length / 6 := by omega
      rw [taken, addresses_prefix starts long, ← whole]

end

/-- `d5:peers6:abcdefe` -/
def wholeReading : Reading :=
  .closed false (.str (ascii "5") (ascii "peers") (.str (ascii "6") (ascii "abcdef") .stop)) .stop

/-- `d5:peers12:abcdefe` -/
def cutReading : Reading :=
  .unclosed false (.str (ascii "5") (ascii "peers") (.overlong (ascii "12") (ascii "abcdefe")))

def wholePeers : StringWrapper := .ofBytes wholeReading.render (by decide)

def cutPeers : StringWrapper := .ofBytes cutReading.render (by decide)

theorem wholeReading_loose : wholeReading.Loose := by
  have isLength (c : UInt8) (digit : isDigit c) : Reading.IsLength [c] :=
    ⟨List.cons_ne_nil _ _, List.forall_mem_singleton.2 digit⟩
  exact ⟨⟨⟨⟨isLength 53 rfl, rfl⟩, ⟨isLength 54 rfl, rfl⟩, trivial⟩, id⟩, trivial⟩

theorem cutReading_loose : cutReading.Loose := by
  have five : Reading.IsLength [53] := ⟨by decide, List.forall_mem_singleton.2 rfl⟩
  have twelve : Reading.IsLength [49, 50] :=
    ⟨by decide, List.forall_mem_cons.2 ⟨rfl, List.forall_mem_singleton.2 rfl⟩⟩
  exact ⟨⟨five, rfl⟩, twelve, by decide⟩

theorem compactConfined_whole :
    @CompactConfined Network.ipv4 SubStrings.cut wholePeers ⟨.str, ⟨3, 8⟩⟩ ⟨.str, ⟨10, 16⟩⟩
      [⟨.dictEnd, ⟨16, 0⟩⟩] {} := by
  have parsed : BeParser.parse wholePeers = .ok (wholeReading.tokens 0) :=
    BeParser.parse_eq_ok_iff.2 ⟨wholeReading, wholeReading_loose,
      (StringWrapper.bytes_ofBytes _ _).symm, rfl⟩
  exact (@compactConfined_iff Network.ipv4 SubStrings.cut wholePeers _ [⟨.dictStart, ⟨0, 0⟩⟩]
    _ _ _ parsed rfl rfl {}).2 (Or.inl rfl)

/-- Two records are announced, and the second is not there. -/
theorem not_compactConfined_cut :
    BeParser.parse cutPeers =
        .ok [⟨.dictStart, ⟨0, 0⟩⟩, ⟨.str, ⟨3, 8⟩⟩, ⟨.str, ⟨11, 23⟩⟩, ⟨.dictEnd, ⟨23, 0⟩⟩] ∧
      ¬ @CompactConfined Network.ipv4 SubStrings.cut cutPeers ⟨.str, ⟨3, 8⟩⟩ ⟨.str, ⟨11, 23⟩⟩
        [⟨.dictEnd, ⟨23, 0⟩⟩] {} := by
  have parsed : BeParser.parse cutPeers = .ok (cutReading.tokens 0) :=
    BeParser.parse_eq_ok_iff.2 ⟨cutReading, cutReading_loose,
      (StringWrapper.bytes_ofBytes _ _).symm, rfl⟩
  refine ⟨parsed, ?_⟩
  intro confined
  have inside := @CompactConfined.inside Network.ipv4 SubStrings.cut _ _ _ _ _ confined
  exact Outcome.not_safe_fault inside

end TrackerResponse

end TorrentClient
