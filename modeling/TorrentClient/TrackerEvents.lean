import TorrentClient.PeerForms
import TorrentClient.TrackerConnection

/-!
# A response over several events

`on_read` starts with an empty buffer at every event, so a response is read when its
blank line and all of its body arrive in the last one.
-/

namespace TorrentClient

/-! ## Memory behind the text -/

/-- The same text, with at least as much memory behind it. -/
structure StringWrapper.Within (source source' : StringWrapper) : Prop where
  bytes : source.bytes = source'.bytes
  memory : source.data <+: source'.data

/-- What a `SubString` reads in a text it reads with more memory behind the text, too. -/
def SubStrings.Steady [SubStrings] : Prop :=
  ∀ (s : SubString) (source source' : StringWrapper), source.Within source' →
    ∀ text, str s source = some text → str s source' = some text

/-- What a token reads, and what it reads with more memory behind the text. -/
structure Lexeme.Within (t t' : Lexeme) : Prop where
  type : t'.type = t.type
  str : ∀ text, t.str = some text → t'.str = some text
  size : t'.size = t.size
  window : t.window <+: t'.window

theorem BeToken.on_within [SubStrings] (steady : SubStrings.Steady)
    {source source' : StringWrapper} (within : source.Within source') (token : BeToken) :
    (token.on source).Within (token.on source') where
  type := rfl
  str := steady token.data source source' within
  size := rfl
  window := (within.memory.drop token.data.start).take _

namespace Lexeme.Within

variable {t t' : Lexeme} (h : t.Within t')
include h

theorem text {text : Bytes} (read : t.text = .ok text) : t'.text = .ok text := by
  rw [Lexeme.text] at read ⊢
  cases some : t.str with
  | none =>
    rw [some] at read
    cases read
  | some value =>
    rw [some] at read
    rw [h.str value some]
    exact read

theorem integer {n : Int} (read : t.integer = .ok n) : t'.integer = .ok n := by
  rw [Lexeme.integer] at read ⊢
  cases text : t.text with
  | error e =>
    rw [text] at read
    cases read
  | ok value =>
    rw [text] at read
    rw [h.text text]
    exact read

theorem isLeaf : t'.IsLeaf ↔ t.IsLeaf := by
  rw [IsLeaf, IsLeaf, h.type]

theorem bind_text {σ α : Type} {s s' : σ} {f : Bytes → σ → Outcome Thrown σ α} {a : α}
    (done : (Outcome.ofExcept t.text s).bind f = .done a s') :
    (Outcome.ofExcept t'.text s).bind f = .done a s' := by
  obtain ⟨text, read, later⟩ := Outcome.ofExcept_bind_eq_done done
  rw [h.text read]
  exact later

theorem store {σ : Type} {slot : Slot σ} {s s' : σ} (done : slot.store t s = .done () s') :
    slot.store t' s = .done () s' := by
  cases slot with
  | int set =>
    rw [Slot.store, storeInt] at done ⊢
    by_cases int : t.type = .int
    · rw [if_pos int] at done
      rw [if_pos (h.type.trans int)]
      obtain ⟨n, read, later⟩ := Outcome.ofExcept_bind_eq_done done
      rw [h.integer read]
      exact later
    · rw [if_neg int] at done
      rwa [if_neg (h.type.symm ▸ int)]
  | str set =>
    rw [Slot.store, storeStr] at done ⊢
    by_cases str : t.type = .str
    · rw [if_pos str] at done
      rw [if_pos (h.type.trans str)]
      exact h.bind_text done
    · rw [if_neg str] at done
      rwa [if_neg (h.type.symm ▸ str)]

end Lexeme.Within

namespace TrackerResponse

variable [Network]

/-- Records that are there are read with more memory behind them, too. -/
theorem compactLoop_within {peers peers' : List Peer} {curr curr' : Bytes}
    (within : curr <+: curr') (done : compactLoop peers curr = .done () peers') :
    compactLoop peers curr' = .done () peers' := by
  induction peers generalizing curr curr' peers' with
  | nil => exact done
  | cons peer peers ih =>
    obtain ⟨behind, rfl⟩ := within
    rw [compactLoop] at done ⊢
    by_cases short : curr.length < 4
    · rw [if_pos short] at done
      cases done
    · have four : (curr ++ behind).take 4 = curr.take 4 :=
        List.take_append_of_le_length (Nat.not_lt.1 short)
      rw [if_neg short] at done
      rw [if_neg (by rw [List.length_append]; omega), four]
      cases ip : Network.inetNtop (curr.take 4) with
      | none =>
        rw [ip] at done
        cases done
      | some text =>
        rw [ip] at done
        dsimp only at done ⊢
        by_cases cut : ((curr.drop 4).take 2).length < 2
        · rw [if_pos cut] at done
          cases done
        · rw [if_neg cut] at done
          rw [List.length_take, List.length_drop] at cut
          have port : ((curr ++ behind).drop 4).take 2 = (curr.drop 4).take 2 := by
            rw [List.drop_append_of_le_length (Nat.not_lt.1 short)]
            apply List.take_append_of_le_length
            rw [List.length_drop]
            omega
          have six : (curr ++ behind).drop 6 = curr.drop 6 ++ behind :=
            List.drop_append_of_le_length (by omega)
          rw [port, six, if_neg (by rw [List.length_take, List.length_drop]; exact cut)]
          obtain ⟨s, rest, rfl⟩ := Outcome.lift_eq_done done
          rw [ih (List.prefix_append _ behind) rest]
          rfl

section
variable {t t' : Lexeme} (h : t.Within t') {tr tr' : TrackerResponse}
include h

theorem storeCompact_within (done : tr.storeCompact t = .done () tr') :
    tr.storeCompact t' = .done () tr' := by
  cases room : Heap.refuses Peer (t.size / 6) with
  | some e =>
    rw [storeCompact_refused room] at done
    cases done
  | none =>
    rw [storeCompact_granted room] at done
    obtain ⟨peers, loop, rfl⟩ := Outcome.lift_eq_done done
    rw [storeCompact_granted (by rwa [h.size]), h.size, compactLoop_within h.window loop]
    rfl

theorem stepMode_within {mode : Mode} {next : Option Mode}
    (done : stepMode mode t tr = .done next tr') : stepMode mode t' tr = .done next tr' := by
  cases mode with
  | value slot =>
    obtain ⟨_, stored, rfl⟩ := Outcome.map_eq_done done
    rw [stepMode, h.store stored]
    rfl
  | peers =>
    rw [stepMode] at done ⊢
    by_cases str : t.type = .str
    · rw [if_pos str] at done
      obtain ⟨_, stored, rfl⟩ := Outcome.map_eq_done done
      rw [if_pos (h.type.trans str), storeCompact_within h stored]
      rfl
    · rw [if_neg str] at done
      rwa [if_neg (h.type.symm ▸ str), h.type]
  | detail =>
    rw [stepMode] at done ⊢
    rw [h.type]
    cases type : t.type with
    | str =>
      rw [type] at done
      exact h.bind_text done
    | unknown | int | listStart | listEnd | dictStart | dictEnd =>
      rw [type] at done
      exact done
  | detailValue key => exact h.bind_text done

theorem step_within {mode next : Option Mode}
    (done : trackerReader.reader.step mode t tr = .done next tr') :
    trackerReader.reader.step mode t' tr = .done next tr' := by
  cases mode with
  | some mode => exact stepMode_within h done
  | none =>
    change trackerReader.scan t tr = _ at done
    show trackerReader.scan t' tr = _
    rw [FillerReader.scan] at done ⊢
    by_cases leaf : t.IsLeaf
    · rw [if_pos leaf] at done
      rw [if_pos (h.isLeaf.2 leaf)]
      exact h.bind_text done
    · rw [if_neg leaf] at done
      rwa [if_neg (mt h.isLeaf.1 leaf)]

end

theorem receive_parsed [SubStrings] {source : StringWrapper} {tokens : List BeToken}
    (parsed : BeParser.parse source = .ok tokens) :
    receive source = new (tokens.map (·.on source)) := by
  rw [receive, parsed]
  rfl

/-- **A response is the same with more memory behind its body.** -/
theorem receive_within [SubStrings] (steady : SubStrings.Steady)
    {source source' : StringWrapper} (within : source.Within source') {tr : TrackerResponse}
    (done : receive source = .done () tr) : receive source' = .done () tr := by
  rw [receive] at done
  obtain ⟨tokens, parsed, made⟩ := Outcome.ofExcept_bind_eq_done done
  obtain ⟨f, loose, text, rfl⟩ := BeParser.parse_eq_ok_iff.1 parsed
  rw [receive_parsed (BeParser.parse_eq_ok_iff.2 ⟨f, loose, text.trans within.bytes, rfl⟩)]
  cases tokens : f.tokens 0 with
  | nil =>
    rw [tokens] at made
    cases made
  | cons token tokens' =>
    rw [tokens] at made
    rw [List.map_cons] at made ⊢
    by_cases dict : token.type = .dictStart
    · rw [new_cons _ _ dict] at made ⊢
      obtain ⟨_, tr', read, validated⟩ := Outcome.bind_eq_done made
      have same := Reader.complete_map_done (R := trackerReader.reader) (g := (·.on source'))
        (fun token _ _ _ _ stepped => step_within (token.on_within steady within) stepped) read
      rw [same]
      exact validated
    · have other : (token.on source).type ≠ .dictStart := dict
      rw [new, if_neg other] at made
      cases made

end TrackerResponse

/-! ## The blank line -/

section
variable {text front tail event back : Bytes} {i n i' n' : Nat}

theorem blankLine_absent (found : blankLine text = some (i, n)) :
    Absent 0 crlf2 text i ∧ (n = 2 → Absent 0 lf2 text i) := by
  rcases blankLine_cases found with ⟨rfl, windows⟩ | ⟨rfl, none, unix⟩
  · exact ⟨((find_eq_some_iff (by decide)).1 windows).2, by rintro ⟨⟩⟩
  · have absent := ((find_eq_some_iff (by decide)).1 unix).2
    exact ⟨absent_of_none (by decide) none fun j lt => (absent j lt).2, fun _ => absent⟩

/-- The bytes up to it may be left out, and it is still the first one. -/
theorem blankLine_tail (found : blankLine (front ++ tail) = some (i, n))
    (before : front.length ≤ i) : blankLine tail = some (i - front.length, n) := by
  obtain ⟨absent, unix⟩ := blankLine_absent found
  have windows := find_append (absent.mono before)
  rcases blankLine_cases found with ⟨rfl, first⟩ | ⟨rfl, none, first⟩
  · rw [windows] at first
    obtain ⟨j, here, eq⟩ := Option.map_eq_some_iff.1 first
    rw [blankLine, here, ← eq, Nat.add_sub_cancel]
    rfl
  · rw [windows] at none
    rw [find_append ((unix rfl).mono before)] at first
    obtain ⟨j, here, eq⟩ := Option.map_eq_some_iff.1 first
    rw [blankLine, Option.map_eq_none_iff.1 none, here, ← eq, Nat.add_sub_cancel]
    rfl

/-- Bytes in front of it have a blank line when they have two line feeds. -/
theorem blankLine_event (found : blankLine (front ++ event ++ back) = some (i, n))
    (before : (front ++ event).length ≤ i) :
    blankLine event = none ↔ ¬ lf2 <:+: event := by
  obtain ⟨absent, -⟩ := blankLine_absent found
  constructor
  · intro none present
    have goes_on : 0 ∉ event := by
      intro mem
      obtain ⟨j, at_place⟩ := List.mem_iff_getElem?.1 mem
      have inside := (List.getElem?_eq_some_iff.1 at_place).1
      rw [List.length_append] at before
      apply (absent (front.length + j) (by omega)).2
      rw [List.append_assoc, List.getElem?_append_right (Nat.le_add_right _ _),
        Nat.add_sub_cancel_left, List.getElem?_append_left inside]
      exact at_place
    rw [blankLine, Option.or_eq_none_iff, Option.map_eq_none_iff, Option.map_eq_none_iff] at none
    exact find_ne_none (by decide) present goes_on none.2
  · intro clear
    have windows : ¬ crlf2 <:+: event := by
      rintro ⟨s, t, rfl⟩
      simp only [List.length_append] at before
      have four : crlf2.length = 4 := rfl
      apply (absent (front ++ s).length (by rw [List.length_append]; omega)).1
      have split : front ++ (s ++ crlf2 ++ t) ++ back = (front ++ s) ++ (crlf2 ++ (t ++ back)) := by
        simp only [List.append_assoc]
      rw [split, List.drop_left]
      exact List.prefix_append _ _
    rw [blankLine, find_none windows (by decide), find_none clear (by decide)]
    rfl

theorem blankLine_getElem? (found : blankLine text = some (i, n)) :
    n = 4 ∧ text[i + 2]? = some 13 ∨ n = 2 ∧ text[i]? = some 10 := by
  have behind {blank : Bytes} (starts : blank <+: text.drop i) {k : Nat}
      (inside : k < blank.length) :
      text[i + k]? = blank[k]? := by
    rw [← List.getElem?_drop, List.getElem?_eq_getElem inside]
    exact List.prefix_iff_getElem?.1 starts k inside
  rcases blankLine_cases found with ⟨rfl, windows⟩ | ⟨rfl, -, unix⟩
  · have starts := ((find_eq_some_iff (by decide)).1 windows).1
    exact Or.inl ⟨rfl, behind starts (by decide)⟩
  · have starts := ((find_eq_some_iff (by decide)).1 unix).1
    exact Or.inr ⟨rfl, behind starts (k := 0) (by decide)⟩

theorem blankLine_length (found : blankLine text = some (i, n)) : i + n ≤ text.length := by
  have fits {blank : Bytes} (starts : blank <+: text.drop i) (some : 0 < blank.length) :
      i + blank.length ≤ text.length := by
    have le := starts.length_le
    rw [List.length_drop] at le
    omega
  rcases blankLine_cases found with ⟨rfl, windows⟩ | ⟨rfl, -, unix⟩
  · exact fits ((find_eq_some_iff (by decide)).1 windows).1 (by decide)
  · exact fits ((find_eq_some_iff (by decide)).1 unix).1 (by decide)

/-- A tail with the same text behind its blank line has the blank line, too. -/
theorem blankLine_reaches (found : blankLine (front ++ tail) = some (i, n))
    (found' : blankLine tail = some (i', n')) (same : i + n = front.length + (i' + n')) :
    front.length ≤ i := by
  have at_tail (k : Nat) : (front ++ tail)[front.length + k]? = tail[k]? := by
    rw [List.getElem?_append_right (Nat.le_add_right _ _), Nat.add_sub_cancel_left]
  rcases blankLine_getElem? found with ⟨rfl, cr⟩ | ⟨rfl, lf⟩
  · rcases blankLine_getElem? found' with ⟨rfl, -⟩ | ⟨rfl, lf⟩
    · omega
    · -- The line feed of the one would be the carriage return of the other.
      have place : i + 2 = front.length + i' := by omega
      rw [place, at_tail, lf] at cr
      cases cr
  · rcases blankLine_getElem? found' with ⟨rfl, cr⟩ | ⟨rfl, -⟩
    · have place : i = front.length + (i' + 2) := by omega
      rw [place, at_tail, cr] at lf
      cases lf
    · omega

end

/-! ## One event -/

/-- The bytes that the reads of an event return. A read of none ends the event. -/
abbrev Event := { reads : List Bytes // ∀ bytes ∈ reads, bytes ≠ [] }

def Event.bytes (event : Event) : Bytes := event.val.flatten

def Event.results (event : Event) : List ReadResult := event.val.map .bytes

/-- The bytes at the start of a buffer, and zeros behind them. -/
def padded (bytes : Bytes) : Bytes :=
  bytes ++ List.replicate (trackerCapacity - bytes.length) 0

section
variable {bytes front : Bytes}

theorem padded_length (short : bytes.length ≤ trackerCapacity) :
    (padded bytes).length = trackerCapacity := by
  rw [padded, List.length_append, List.length_replicate, Nat.add_sub_cancel' short]

theorem overwrite_padded (front data : Bytes) :
    overwrite (padded front) front.length data = padded (front ++ data) := by
  rw [overwrite, padded, padded, List.take_left, List.drop_append,
    List.drop_eq_nil_of_le (Nat.le_add_right _ _), Nat.add_sub_cancel_left, List.nil_append,
    List.drop_replicate, List.length_append, Nat.sub_sub]

theorem set_padded (inside : bytes.length < trackerCapacity) :
    (padded bytes).set bytes.length 0 = padded bytes := by
  obtain ⟨n, zeros⟩ := Nat.exists_eq_add_of_lt inside
  have more : trackerCapacity - bytes.length = n + 1 := by omega
  rw [padded, more, List.set_append_right _ _ (Nat.le_refl _), Nat.sub_self]
  rfl

/-- Where fewer bytes are in the buffer there is more memory behind them. -/
theorem padded_tail (front tail : Bytes) (k : Nat) :
    (padded (front ++ tail)).drop (front.length + k) <+: (padded tail).drop k := by
  have zeros : List.replicate (trackerCapacity - (front ++ tail).length) (0 : UInt8) <+:
      List.replicate (trackerCapacity - tail.length) 0 := by
    apply List.prefix_replicate_iff.2
    rw [List.length_append, List.length_replicate]
    exact ⟨by omega, rfl⟩
  rw [padded, List.append_assoc, ← List.drop_drop, List.drop_left, padded]
  exact List.IsPrefix.drop ((List.prefix_append_right_inj tail).2 zeros) k

theorem blankLine_padded (bytes : Bytes) : blankLine (padded bytes) = blankLine bytes := by
  rw [blankLine, padded, find_append_replicate (by decide) (by decide),
    find_append_replicate (by decide) (by decide)]
  rfl

end

/-- The bytes that some events deliver. -/
def bytesOf (events : List Event) : Bytes := (events.map Event.bytes).flatten

/-- The length of the header, up to the blank line. -/
def headerLength (bytes : Bytes) : Nat := (blankLine bytes).elim bytes.length (·.1)

theorem bytesOf_append (xs ys : List Event) : bytesOf (xs ++ ys) = bytesOf xs ++ bytesOf ys := by
  rw [bytesOf, List.map_append, List.flatten_append]
  rfl

theorem bytesOf_mem {events : List Event} {event : Event} (mem : event ∈ events) :
    ∃ front back, bytesOf events = front ++ event.bytes ++ back := by
  obtain ⟨xs, ys, rfl⟩ := List.append_of_mem mem
  refine ⟨bytesOf xs, bytesOf ys, ?_⟩
  rw [bytesOf_append, List.append_assoc]
  rfl

/-- Events in front of the blank line have one of their own when they have two line feeds. -/
theorem events_clear {events : List Event} {tail : Bytes} {i n : Nat}
    (found : blankLine (bytesOf events ++ tail) = some (i, n))
    (before : (bytesOf events).length ≤ i) :
    (∀ event ∈ events, blankLine event.bytes = none) ↔
      ∀ event ∈ events, ¬ lf2 <:+: event.bytes := by
  refine forall_congr' fun event => forall_congr' fun mem => ?_
  obtain ⟨front, back, eq⟩ := bytesOf_mem mem
  rw [eq, List.append_assoc] at found
  rw [eq, List.length_append] at before
  exact blankLine_event found (Nat.le_trans (Nat.le_add_right _ _) before)

namespace TrackerConnection

/-- The connection with the bytes of an event in its buffer. -/
def loaded (c : TrackerConnection) (bytes : Bytes) (short : bytes.length ≤ trackerCapacity) :
    TrackerConnection :=
  { c with buffer := ⟨padded bytes, padded_length short⟩, offset := bytes.length }

section
variable {c c' : TrackerConnection} {event : Event}

/-- The loop puts the bytes of its reads one behind the other. -/
theorem readLoop_loaded (front : Bytes) (short : front.length ≤ trackerCapacity)
    (reads : List Bytes) (some : ∀ bytes ∈ reads, bytes ≠ []) :
    (∃ short', (c.loaded front short).readLoop (reads.map .bytes) =
      .done () (c.loaded (front ++ reads.flatten) short')) ∨
    trackerCapacity < (front ++ reads.flatten).length ∧
      ∃ c', (c.loaded front short).readLoop (reads.map .bytes) = .fault .outOfBounds c' := by
  induction reads generalizing front with
  | nil =>
    refine Or.inl ⟨by simpa using short, ?_⟩
    simp only [List.flatten_nil, List.append_nil]
    rfl
  | cons bytes reads ih =>
    obtain ⟨first, some⟩ := List.forall_mem_cons.1 some
    have goes_on : (ReadResult.bytes bytes).readed ≠ 0 := by
      intro none
      exact first (List.length_eq_zero_iff.1 (Int.ofNat_eq_zero.1 none))
    rw [List.map_cons, readLoop, if_neg goes_on, List.flatten_cons, ← List.append_assoc]
    by_cases fits : (front ++ bytes).length ≤ trackerCapacity
    · have at_end : front.length + bytes.length < 2 ^ 64 := by
        rw [← List.length_append]
        exact Nat.lt_of_le_of_lt fits (by decide)
      have put : (c.loaded front short).filled (.bytes bytes) =
          Option.some (c.loaded (front ++ bytes) fits) := by
        have inside : front.length + bytes.length ≤ trackerCapacity :=
          List.length_append ▸ fits
        simp only [filled, loaded, TrackerBuffer.put, dif_pos inside, Option.map_some,
          overwrite_padded, add64_eq at_end, List.length_append]
      rw [put]
      exact ih (front ++ bytes) fits some
    · have past : (c.loaded front short).filled (.bytes bytes) = none := by
        have refused : TrackerBuffer.put ⟨padded front, padded_length short⟩ front.length bytes =
            none := dif_neg (List.length_append ▸ fits)
        exact congrArg (Option.map _) refused
      rw [past]
      refine Or.inr ⟨?_, _, rfl⟩
      rw [List.length_append]
      omega

theorem onRead_loaded (waiting : c.state = .waitForRead) (event : Event) [SubStrings]
    [Network] :
    (∃ short, c.onRead event.results = (c.loaded event.bytes short).respond) ∨
      trackerCapacity < event.bytes.length ∧
        ∃ c', c.onRead event.results = .fault .outOfBounds c' := by
  have read := @readLoop_loaded c [] (Nat.zero_le _) event.val event.property
  rw [List.nil_append] at read
  have run : c.onRead event.results =
      ((c.loaded [] (Nat.zero_le _)).readLoop (event.val.map .bytes)).bind
        fun _ c => c.respond := by
    rw [onRead, if_neg (not_not.2 waiting)]
    rfl
  rw [run]
  rcases read with ⟨short, done⟩ | ⟨long, c', fault⟩
  · rw [done]
    exact Or.inl ⟨short, rfl⟩
  · rw [fault]
    exact Or.inr ⟨long, c', rfl⟩

variable [SubStrings] [Network]

/-- What is left to do behind the loop: nothing, or a response to construct. -/
theorem respond_cases (c : TrackerConnection) (inside : c.offset < trackerCapacity) :
    ∃ c', c'.state = c.state ∧ c'.received = c.received ∧
      ((blankLine (c.buffer.val.set c.offset 0) = none ∧ c.respond = .done () c') ∨
        ∃ i n source, blankLine (c.buffer.val.set c.offset 0) = some (i, n) ∧
          source.data = (c.buffer.val.set c.offset 0).drop (i + n) ∧
          source.size = c.offset - (i + n) ∧ c.respond = c'.construct source) := by
  refine ⟨{ c with
    buffer := ⟨c.buffer.val.set c.offset 0, List.length_set.trans c.buffer.property⟩ },
    rfl, rfl, ?_⟩
  unfold respond
  rw [dif_pos inside]
  dsimp only
  split
  · rename_i none
    exact Or.inl ⟨none, rfl⟩
  · rename_i i n found
    exact Or.inr ⟨i, n, _, found, rfl, rfl, rfl⟩

/-- What one event does, if its bytes fit in the buffer. -/
theorem onRead_cases (waiting : c.state = .waitForRead) (event : Event) :
    (trackerCapacity ≤ event.bytes.length ∧ ∀ c', c.onRead event.results ≠ .done () c') ∨
      event.bytes.length < trackerCapacity ∧
        ∃ c', c'.state = c.state ∧ c'.received = c.received ∧
          ((blankLine event.bytes = none ∧ c.onRead event.results = .done () c') ∨
            ∃ i n source, blankLine event.bytes = some (i, n) ∧
              source.data = (padded event.bytes).drop (i + n) ∧
              source.bytes = event.bytes.drop (i + n) ∧
              c.onRead event.results = c'.construct source) := by
  rcases onRead_loaded waiting event with ⟨short, run⟩ | ⟨long, c', fault⟩
  · rw [run]
    by_cases inside : event.bytes.length < trackerCapacity
    · obtain ⟨c', state, received, cases⟩ :=
        respond_cases (c.loaded event.bytes short) inside
      refine Or.inr ⟨inside, c', state, received, ?_⟩
      have same : (c.loaded event.bytes short).buffer.val.set
          (c.loaded event.bytes short).offset 0 = padded event.bytes := set_padded inside
      rw [same, blankLine_padded] at cases
      rcases cases with silent | ⟨i, n, source, found, data, size, respond⟩
      · exact Or.inl silent
      · refine Or.inr ⟨i, n, source, found, data, ?_, respond⟩
        rw [StringWrapper.bytes, data, size, ← List.drop_take]
        show ((padded event.bytes).take event.bytes.length).drop (i + n) = _
        rw [padded, List.take_left]
    · refine Or.inl ⟨Nat.not_lt.1 inside, fun c' => ?_⟩
      unfold respond
      rw [dif_neg (show ¬ (c.loaded event.bytes short).offset < trackerCapacity from inside)]
      rintro ⟨⟩
  · rw [fault]
    exact Or.inl ⟨long.le, by rintro _ ⟨⟩⟩

theorem onRead_silent (waiting : c.state = .waitForRead)
    (inside : event.bytes.length < trackerCapacity) (none : blankLine event.bytes = none) :
    ∃ c', c'.state = c.state ∧ c'.received = c.received ∧
      c.onRead event.results = .done () c' := by
  rcases onRead_cases waiting event with ⟨long, -⟩ | ⟨-, c', state, received, cases⟩
  · exact absurd inside (Nat.not_lt.2 long)
  · rcases cases with ⟨-, run⟩ | ⟨i, n, source, found, -⟩
    · exact ⟨c', state, received, run⟩
    · rw [none] at found
      cases found

theorem construct_done {source : StringWrapper} : c.construct source = .done () c' ↔
    ∃ tr, TrackerResponse.receive source = .done () tr ∧
      c' = { c with received := c.received ++ [⟨source.bytes, tr⟩] } := by
  rw [construct]
  cases TrackerResponse.receive source with
  | done _ tr =>
    constructor
    · rintro ⟨⟩
      exact ⟨tr, rfl, rfl⟩
    · rintro ⟨_, ⟨⟩, rfl⟩
      rfl
  | thrown e tr | fault r tr =>
    refine iff_of_false (by rintro ⟨⟩) ?_
    rintro ⟨_, ⟨⟩, -⟩

/-- An event that returns has no blank line, or one response more. -/
theorem onRead_done (waiting : c.state = .waitForRead)
    (done : c.onRead event.results = .done () c') :
    event.bytes.length < trackerCapacity ∧ c'.state = c.state ∧
      ((blankLine event.bytes = none ∧ c'.received = c.received) ∨
        ∃ i n source tr, blankLine event.bytes = some (i, n) ∧
          source.data = (padded event.bytes).drop (i + n) ∧
          source.bytes = event.bytes.drop (i + n) ∧
          TrackerResponse.receive source = .done () tr ∧
          c'.received = c.received ++ [⟨source.bytes, tr⟩]) := by
  rcases onRead_cases waiting event with ⟨-, never⟩ | ⟨inside, c₁, state, received, cases⟩
  · exact absurd done (never c')
  · refine ⟨inside, ?_⟩
    rcases cases with ⟨none, run⟩ | ⟨i, n, source, found, data, bytes, run⟩
    · rw [run] at done
      cases done
      exact ⟨state, Or.inl ⟨none, received⟩⟩
    · rw [run] at done
      obtain ⟨tr, response, rfl⟩ := construct_done.1 done
      exact ⟨state, Or.inr ⟨i, n, source, tr, found, data, bytes, response, by rw [received]⟩⟩

/-! ## Several events -/

theorem onReads_append (c : TrackerConnection) (xs ys : List (List ReadResult)) :
    c.onReads (xs ++ ys) = (c.onReads xs).bind fun _ c => c.onReads ys := by
  induction xs generalizing c with
  | nil => rfl
  | cons x xs ih =>
    rw [List.cons_append, onReads, onReads, Outcome.bind_assoc]
    congr 1
    funext _ c
    exact ih c

/-- Responses are only added. -/
theorem onReads_done {events : List Event} (waiting : c.state = .waitForRead)
    (done : c.onReads (events.map Event.results) = .done () c') :
    c'.state = c.state ∧ c.received <+: c'.received := by
  induction events generalizing c with
  | nil =>
    cases done
    exact ⟨rfl, List.prefix_refl _⟩
  | cons event events ih =>
    obtain ⟨_, c₁, first, later⟩ := Outcome.bind_eq_done done
    obtain ⟨-, state, cases⟩ := onRead_done waiting first
    obtain ⟨state', more⟩ := ih (state.trans waiting) later
    refine ⟨state'.trans state, List.IsPrefix.trans ?_ more⟩
    rcases cases with ⟨-, same⟩ | ⟨_, _, _, _, -, -, -, -, added⟩
    · rw [same]
    · rw [added]
      exact List.prefix_append _ _

theorem onReads_silent {events : List Event} (waiting : c.state = .waitForRead)
    (clear : ∀ event ∈ events, event.bytes.length < trackerCapacity ∧
      blankLine event.bytes = none) :
    ∃ c', c.onReads (events.map Event.results) = .done () c' ∧ c'.state = c.state ∧
      c'.received = c.received := by
  induction events generalizing c with
  | nil => exact ⟨c, rfl, rfl, rfl⟩
  | cons event events ih =>
    obtain ⟨⟨inside, none⟩, clear⟩ := List.forall_mem_cons.1 clear
    obtain ⟨c₁, state, received, run⟩ := onRead_silent waiting inside none
    obtain ⟨c', done, state', received'⟩ := ih (state.trans waiting) clear
    refine ⟨c', ?_, state'.trans state, received'.trans received⟩
    rw [List.map_cons, onReads, run]
    exact done

theorem clear_of_silent {events : List Event} (waiting : c.state = .waitForRead)
    (done : c.onReads (events.map Event.results) = .done () c')
    (silent : c'.received = c.received) : ∀ event ∈ events, blankLine event.bytes = none := by
  induction events generalizing c with
  | nil =>
    rintro _ ⟨⟩
  | cons event events ih =>
    obtain ⟨_, c₁, first, later⟩ := Outcome.bind_eq_done done
    obtain ⟨-, state, cases⟩ := onRead_done waiting first
    obtain ⟨-, more⟩ := onReads_done (state.trans waiting) later
    rw [silent] at more
    rcases cases with ⟨none, same⟩ | ⟨_, _, _, _, -, -, -, -, added⟩
    · exact List.forall_mem_cons.2
        ⟨none, ih (state.trans waiting) later (silent.trans same.symm)⟩
    · rw [added] at more
      exact absurd more.length_le (by simp)

/-- The events in front of the last one construct no response, and with the last one
this response is constructed. -/
structure SameResponse (c : TrackerConnection) (events : List Event) (last : Event)
    (made : Received) : Prop where
  silent : ∃ c', c.onReads (events.map Event.results) = .done () c' ∧ c'.received = c.received
  same : ∃ c', c.onReads ((events ++ [last]).map Event.results) = .done () c' ∧
    c'.received = c.received ++ [made]

/-- A response of the last event behind the blank line of all of them: the blank line
does not lie in the events before. -/
theorem SameResponse.splits {events : List Event} {last : Event} {made : Received} {i n : Nat}
    (same : SameResponse c events last made) (waiting : c.state = .waitForRead)
    (found : blankLine (bytesOf events ++ last.bytes) = some (i, n))
    (body : made.body = (bytesOf events ++ last.bytes).drop (i + n)) :
    (bytesOf events).length ≤ i ∧ ∀ event ∈ events, ¬ lf2 <:+: event.bytes := by
  obtain ⟨⟨c₁, silent, received⟩, c₂, all, received'⟩ := same
  have clear := clear_of_silent waiting silent received
  obtain ⟨state, -⟩ := onReads_done waiting silent
  rw [List.map_append, onReads_append, silent, Outcome.bind_done] at all
  obtain ⟨_, c₃, ended, ⟨⟩⟩ := Outcome.bind_eq_done all
  obtain ⟨-, -, cases⟩ := onRead_done (state.trans waiting) ended
  rcases cases with ⟨-, same⟩ | ⟨i', n', source', tr', found', -, bytes', -, added⟩
  · rw [received', received] at same
    exact absurd same (by simp)
  · rw [received', received, List.append_cancel_left_eq, List.cons.injEq] at added
    have same := congrArg (·.body.length) added.1
    dsimp only at same
    have fits := blankLine_length found
    have fits' := blankLine_length found'
    rw [body, bytes', List.length_drop, List.length_drop, List.length_append] at same
    rw [List.length_append] at fits
    have before := blankLine_reaches found found' (by omega)
    exact ⟨before, (events_clear found before).1 clear⟩

/-- What stands behind the blank line is read in the last event as it is read with
the events before it in the buffer. -/
theorem sameResponse_of_before (steady : SubStrings.Steady) (waiting : c.state = .waitForRead)
    {events : List Event} {last : Event} {i n : Nat} {source : StringWrapper}
    {tr : TrackerResponse} (short : (bytesOf events ++ last.bytes).length < trackerCapacity)
    (found : blankLine (bytesOf events ++ last.bytes) = some (i, n))
    (data : source.data = (padded (bytesOf events ++ last.bytes)).drop (i + n))
    (bytes : source.bytes = (bytesOf events ++ last.bytes).drop (i + n))
    (response : TrackerResponse.receive source = .done () tr)
    (before : (bytesOf events).length ≤ i) (clear : ∀ event ∈ events, ¬ lf2 <:+: event.bytes) :
    SameResponse c events last ⟨source.bytes, tr⟩ := by
  rw [List.length_append] at short
  have none := (events_clear found before).2 clear
  obtain ⟨c₁, silent, state, received⟩ := onReads_silent waiting fun event mem => by
    obtain ⟨front, back, eq⟩ := bytesOf_mem mem
    have le := congrArg List.length eq
    rw [List.length_append, List.length_append] at le
    exact ⟨by omega, none event mem⟩
  refine ⟨⟨c₁, silent, received⟩, ?_⟩
  rcases onRead_cases (state.trans waiting) last with ⟨long, -⟩ | ⟨-, c₂, state', received', cases⟩
  · omega
  · have found' := blankLine_tail found before
    rcases cases with ⟨missing, -⟩ | ⟨i', n', source', here, data', bytes', run⟩
    · rw [found'] at missing
      cases missing
    · rw [found'] at here
      cases here
      have skip : i + n = (bytesOf events).length + (i - (bytesOf events).length + n) := by
        omega
      have same : source.bytes = source'.bytes := by
        rw [bytes, bytes', skip, ← List.drop_drop, List.drop_left]
      have memory : source.data <+: source'.data := by
        rw [data, data', skip]
        exact padded_tail _ _ _
      have response' := TrackerResponse.receive_within steady ⟨same, memory⟩ response
      refine ⟨{ c₂ with received := c₂.received ++ [⟨source'.bytes, tr⟩] }, ?_, ?_⟩
      · rw [List.map_append, onReads_append, silent, Outcome.bind_done]
        show (c₁.onRead last.results).bind _ = _
        rw [run, construct_done.2 ⟨tr, response', rfl⟩]
        rfl
      · rw [received', received, same]

/-- **When a response that is split is read as it is in one event.** All cuts lie in
front of the blank line, and no two line feeds lie between them. -/
theorem sameResponse_iff (steady : SubStrings.Steady) (waiting : c.state = .waitForRead)
    {one : Event} {whole : TrackerConnection} {made : Received}
    (done : c.onRead one.results = .done () whole)
    (constructed : whole.received = c.received ++ [made]) {events : List Event} {last : Event}
    (split : bytesOf (events ++ [last]) = one.bytes) :
    SameResponse c events last made ↔
      (bytesOf events).length ≤ headerLength one.bytes ∧
        ∀ event ∈ events, ¬ lf2 <:+: event.bytes := by
  obtain ⟨inside, -, cases⟩ := onRead_done waiting done
  have split' : bytesOf events ++ last.bytes = one.bytes := by
    rw [← split, bytesOf_append, bytesOf, bytesOf, List.map_singleton, List.flatten_singleton]
  rcases cases with ⟨-, same⟩ | ⟨i, n, source, tr, found, data, bytes, response, added⟩
  · rw [constructed] at same
    exact absurd same (by simp)
  rw [constructed, List.append_cancel_left_eq, List.cons.injEq] at added
  obtain ⟨rfl, -⟩ := added
  have header : headerLength one.bytes = i := by rw [headerLength, found]; rfl
  rw [header]
  rw [← split'] at inside found data bytes
  constructor
  · intro same
    exact same.splits waiting found bytes
  · rintro ⟨before, clear⟩
    exact sameResponse_of_before steady waiting inside found data bytes response before clear

/-- A body that is read on its own is read in the buffer. -/
theorem onRead_response (steady : SubStrings.Steady) (waiting : c.state = .waitForRead)
    (inside : event.bytes.length < trackerCapacity) {i n : Nat}
    (found : blankLine event.bytes = some (i, n)) {source : StringWrapper}
    (text : source.bytes = event.bytes.drop (i + n)) (alone : source.data = source.bytes ++ [0])
    {tr : TrackerResponse} (response : TrackerResponse.receive source = .done () tr) :
    ∃ c', c.onRead event.results = .done () c' ∧
      c'.received = c.received ++ [⟨source.bytes, tr⟩] := by
  rcases onRead_cases waiting event with ⟨long, -⟩ | ⟨-, c₁, -, received, cases⟩
  · exact absurd inside (Nat.not_lt.2 long)
  · rcases cases with ⟨none, -⟩ | ⟨i', n', source', here, data, bytes, run⟩
    · rw [none] at found
      cases found
    · rw [found] at here
      cases here
      obtain ⟨k, zeros⟩ := Nat.exists_eq_add_of_lt inside
      have more : trackerCapacity - event.bytes.length = k + 1 := by omega
      have memory : source.data <+: source'.data := by
        rw [alone, data, text, padded, more,
          List.drop_append_of_le_length (blankLine_length found)]
        exact (List.prefix_append_right_inj _).2 (List.prefix_append _ _)
      have same := text.trans bytes.symm
      have response' := TrackerResponse.receive_within steady ⟨same, memory⟩ response
      refine ⟨_, run.trans (construct_done.2 ⟨tr, response', rfl⟩), ?_⟩
      rw [received, same]

end

/-- `d8:intervali60ee` -/
def interval : Value := .dict [(ascii "interval", .int 60)]

def intervalBody : StringWrapper := .ofBytes interval.encode (by decide)

def header : Bytes := ascii "HTTP/1.1 200 OK"

/-- The answer in one event. -/
def answer : Event := ⟨[header ++ crlf2 ++ interval.encode], by decide⟩

/-- A connection that has sent its request. -/
def requested : TrackerConnection := ⟨.waitForRead, .zeroed, 0, []⟩

theorem cut_steady : @SubStrings.Steady SubStrings.cut := by
  intro s source source' within text read
  rw [← read]
  exact congrArg (fun bytes => some ((bytes.drop s.start).take (s.stop - s.start)))
    within.bytes.symm

theorem answer_received : ∃ whole,
    @onRead SubStrings.cut Network.ipv4 requested answer.results = .done () whole ∧
      whole.received = [⟨interval.encode, { interval := 60 }⟩] := by
  have text : intervalBody.bytes = interval.encode := StringWrapper.bytes_ofBytes _ _
  have parsed := BeParser.parse_value text
  have response : @TrackerResponse.receive Network.ipv4 SubStrings.cut intervalBody =
      .done () { interval := 60 } := by
    refine (@TrackerResponse.receive_parsed Network.ipv4 SubStrings.cut _ _ parsed).trans ?_
    exact (@TrackerResponse.new_cons Network.ipv4 _ _ rfl).trans rfl
  have found : blankLine answer.bytes = some (15, 4) := by decide
  obtain ⟨whole, done, received⟩ := @onRead_response requested answer SubStrings.cut Network.ipv4
    cut_steady rfl (by decide) _ _ found intervalBody text (by rw [text]; rfl) _ response
  exact ⟨whole, done, by rw [received, text]; rfl⟩

/-- A cut in the header. -/
def headerEvents : Event × Event :=
  (⟨[ascii "HTTP/1.1"], by decide⟩, ⟨[ascii " 200 OK" ++ crlf2 ++ interval.encode], by decide⟩)

/-- A cut in the body, behind `d8:interval`. -/
def bodyEvents : Event × Event :=
  (⟨[header ++ crlf2 ++ ascii "d8:interval"], by decide⟩, ⟨[ascii "i60ee"], by decide⟩)

theorem sameResponse_header :
    bytesOf ([headerEvents.1] ++ [headerEvents.2]) = answer.bytes ∧
      @SameResponse SubStrings.cut Network.ipv4 requested [headerEvents.1] headerEvents.2
        ⟨interval.encode, { interval := 60 }⟩ := by
  obtain ⟨whole, done, received⟩ := answer_received
  have split : bytesOf ([headerEvents.1] ++ [headerEvents.2]) = answer.bytes := by decide
  refine ⟨split, ?_⟩
  apply (@sameResponse_iff requested SubStrings.cut Network.ipv4 cut_steady rfl answer whole _ done
    received [headerEvents.1] headerEvents.2 split).2
  decide

/-- The first event constructs a response from a part of the body. -/
theorem not_sameResponse_body :
    (∃ whole, @onRead SubStrings.cut Network.ipv4 requested answer.results = .done () whole ∧
      whole.received = [⟨interval.encode, { interval := 60 }⟩]) ∧
    bytesOf ([bodyEvents.1] ++ [bodyEvents.2]) = answer.bytes ∧
    ¬ @SameResponse SubStrings.cut Network.ipv4 requested [bodyEvents.1] bodyEvents.2
      ⟨interval.encode, { interval := 60 }⟩ := by
  refine ⟨answer_received, by decide, ?_⟩
  intro same
  obtain ⟨c', silent, received⟩ :=
    @SameResponse.silent SubStrings.cut Network.ipv4 _ _ _ _ same
  have none := @clear_of_silent requested c' SubStrings.cut Network.ipv4 [bodyEvents.1] rfl silent
    received bodyEvents.1 (List.mem_singleton_self _)
  exact absurd none (by decide)

end TrackerConnection

end TorrentClient
