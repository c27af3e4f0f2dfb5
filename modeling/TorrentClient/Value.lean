import TorrentClient.Malformed

/-!
# Bencoded values

The values a text is the encoding of, as trees. The parser flattens them in
preorder (`BeParser.parse_values`).
-/

namespace TorrentClient

inductive Value where
  | str (body : Bytes)
  | int (value : Int)
  | list (values : List Value)
  | dict (entries : List (Bytes × Value))

def encodeString (body : Bytes) : Bytes := decimal body.length ++ 58 :: body

mutual

def Value.encode : Value → Bytes
  | .str body => encodeString body
  | .int value => 105 :: decimalInt value ++ [101]
  | .list values => 108 :: encodeValues values ++ [101]
  | .dict entries => 100 :: encodeEntries entries ++ [101]

def encodeValues : List Value → Bytes
  | [] => []
  | v :: values => v.encode ++ encodeValues values

def encodeEntries : List (Bytes × Value) → Bytes
  | [] => []
  | (key, v) :: entries => encodeString key ++ v.encode ++ encodeEntries entries

end

/-- The token of a string at an offset, which spans its bytes. -/
def stringToken (body : Bytes) (offset : Nat) : BeToken :=
  let start := offset + (decimal body.length).length + 1
  ⟨.str, ⟨start, start + body.length⟩⟩

mutual

/-- The preorder flattening of a value at an offset. -/
def Value.tokens : Value → Nat → List BeToken
  | .str body, offset => [stringToken body offset]
  | .int value, offset =>
    [⟨.int, ⟨offset + 1, offset + 1 + (decimalInt value).length⟩⟩]
  | .list values, offset =>
    [⟨.listStart, ⟨offset, 0⟩⟩] ++ valuesTokens values (offset + 1) ++
      [⟨.listEnd, ⟨offset + 1 + (encodeValues values).length, 0⟩⟩]
  | .dict entries, offset =>
    [⟨.dictStart, ⟨offset, 0⟩⟩] ++ entriesTokens entries (offset + 1) ++
      [⟨.dictEnd, ⟨offset + 1 + (encodeEntries entries).length, 0⟩⟩]

def valuesTokens : List Value → Nat → List BeToken
  | [], _ => []
  | v :: values, offset => v.tokens offset ++ valuesTokens values (offset + v.encode.length)

def entriesTokens : List (Bytes × Value) → Nat → List BeToken
  | [], _ => []
  | (key, v) :: entries, offset =>
    let value := offset + (encodeString key).length
    stringToken key offset :: v.tokens value ++ entriesTokens entries (value + v.encode.length)

end

/-! ## The reading of an encoding -/

mutual

/-- A value in front of what follows it. -/
def Value.reading : Value → Reading → Reading
  | .str body, rest => .str (decimal body.length) body rest
  | .int value, rest => .int (decimalInt value) rest
  | .list values, rest => .closed true (valuesReading values .stop) rest
  | .dict entries, rest => .closed false (entriesReading entries .stop) rest

def valuesReading : List Value → Reading → Reading
  | [], rest => rest
  | v :: values, rest => v.reading (valuesReading values rest)

def entriesReading : List (Bytes × Value) → Reading → Reading
  | [], rest => rest
  | (key, v) :: entries, rest =>
    .str (decimal key.length) key (v.reading (entriesReading entries rest))

end

theorem isLength_decimal (n : Nat) : Reading.IsLength (decimal n) :=
  ⟨decimal_ne_nil n, decimal_digit n⟩

mutual

theorem Value.reading_render (v : Value) (rest : Reading) :
    (v.reading rest).render = v.encode ++ rest.render := by
  cases v with
  | str body => simp [Value.reading, Reading.render, Value.encode, encodeString]
  | int value => simp [Value.reading, Reading.render, Value.encode]
  | list values =>
    simp [Value.reading, Reading.render, Value.encode, valuesReading_render values,
      Reading.opening]
  | dict entries =>
    simp [Value.reading, Reading.render, Value.encode, entriesReading_render entries,
      Reading.opening]

theorem valuesReading_render (values : List Value) (rest : Reading) :
    (valuesReading values rest).render = encodeValues values ++ rest.render := by
  cases values with
  | nil => rfl
  | cons v values =>
    rw [valuesReading, v.reading_render, valuesReading_render values, encodeValues,
      List.append_assoc]

theorem entriesReading_render (entries : List (Bytes × Value)) (rest : Reading) :
    (entriesReading entries rest).render = encodeEntries entries ++ rest.render := by
  cases entries with
  | nil => rfl
  | cons entry entries =>
    obtain ⟨key, v⟩ := entry
    simp [entriesReading, Reading.render, v.reading_render, entriesReading_render entries,
      encodeEntries, encodeString]

end

mutual

theorem Value.reading_alternates (v : Value) (rest : Reading) :
    (v.reading rest).Alternates false ↔ rest.Alternates true := by
  cases v with
  | str body => exact Iff.rfl
  | int value => exact and_iff_right rfl
  | list values => exact and_iff_right rfl
  | dict entries => exact and_iff_right rfl

theorem entriesReading_alternates (entries : List (Bytes × Value)) :
    (entriesReading entries .stop).Alternates true := by
  cases entries with
  | nil => rfl
  | cons entry entries =>
    obtain ⟨key, v⟩ := entry
    exact (v.reading_alternates _).2 (entriesReading_alternates entries)

end

mutual

theorem Value.reading_complete (v : Value) {rest : Reading} (h : rest.Complete) :
    (v.reading rest).Complete := by
  cases v with
  | str body => exact ⟨⟨isLength_decimal _, digitsValue_decimal _⟩, h⟩
  | int value => exact ⟨⟨decimalNumeral value, (decimalNumeral_text value).symm⟩, h⟩
  | list values => exact ⟨⟨valuesReading_complete values trivial, fun h => Bool.noConfusion h⟩, h⟩
  | dict entries =>
    exact ⟨⟨entriesReading_complete entries trivial, fun _ => entriesReading_alternates entries⟩,
      h⟩

theorem valuesReading_complete (values : List Value) {rest : Reading} (h : rest.Complete) :
    (valuesReading values rest).Complete := by
  cases values with
  | nil => exact h
  | cons v values => exact v.reading_complete (valuesReading_complete values h)

theorem entriesReading_complete (entries : List (Bytes × Value)) {rest : Reading}
    (h : rest.Complete) : (entriesReading entries rest).Complete := by
  cases entries with
  | nil => exact h
  | cons entry entries =>
    obtain ⟨key, v⟩ := entry
    exact ⟨⟨isLength_decimal _, digitsValue_decimal _⟩,
      v.reading_complete (entriesReading_complete entries h)⟩

end

theorem valuesReading_endsAt (values : List Value) (offset : Nat) :
    (valuesReading values .stop).endsAt offset = offset + (encodeValues values).length := by
  have complete := valuesReading_complete values (show Reading.stop.Complete from trivial)
  rw [Reading.endsAt_eq complete.loose complete.not_broken, valuesReading_render, Reading.render,
    List.append_nil]

theorem entriesReading_endsAt (entries : List (Bytes × Value)) (offset : Nat) :
    (entriesReading entries .stop).endsAt offset = offset + (encodeEntries entries).length := by
  have complete := entriesReading_complete entries (show Reading.stop.Complete from trivial)
  rw [Reading.endsAt_eq complete.loose complete.not_broken, entriesReading_render,
    Reading.render, List.append_nil]

mutual

theorem Value.reading_tokens (v : Value) (rest : Reading) (offset : Nat) :
    (v.reading rest).tokens offset = v.tokens offset ++ rest.tokens (offset + v.encode.length) := by
  cases v with
  | str body =>
    simp only [Value.reading, Reading.tokens, Value.tokens, stringToken, Value.encode,
      encodeString, List.length_append, List.length_cons, List.singleton_append]
    congr 2
    omega
  | int value =>
    simp only [Value.reading, Reading.tokens, Value.tokens, Value.encode, List.length_append,
      List.length_cons, List.singleton_append, List.length_nil]
    congr 2
    omega
  | list values =>
    have inner := valuesReading_tokens values .stop (offset + 1)
    rw [Value.reading, Reading.tokens, inner, valuesReading_endsAt]
    simp only [Reading.structTokens, Reading.tokens, Value.tokens, Value.encode,
      List.length_append, List.length_cons, List.length_nil, List.append_nil, if_true,
      List.cons_append]
    congr 3
    omega
  | dict entries =>
    have inner := entriesReading_tokens entries .stop (offset + 1)
    rw [Value.reading, Reading.tokens, inner, entriesReading_endsAt]
    simp only [Reading.structTokens, Reading.tokens, Value.tokens, Value.encode,
      List.length_append, List.length_cons, List.length_nil, List.append_nil,
      Bool.false_eq_true, if_false, List.cons_append]
    congr 3
    omega

theorem valuesReading_tokens (values : List Value) (rest : Reading) (offset : Nat) :
    (valuesReading values rest).tokens offset =
      valuesTokens values offset ++ rest.tokens (offset + (encodeValues values).length) := by
  cases values with
  | nil => rfl
  | cons v values =>
    rw [valuesReading, v.reading_tokens, valuesReading_tokens values, valuesTokens, encodeValues,
      List.length_append, List.append_assoc, Nat.add_assoc]

theorem entriesReading_tokens (entries : List (Bytes × Value)) (rest : Reading) (offset : Nat) :
    (entriesReading entries rest).tokens offset =
      entriesTokens entries offset ++ rest.tokens (offset + (encodeEntries entries).length) := by
  cases entries with
  | nil => rfl
  | cons entry entries =>
    obtain ⟨key, v⟩ := entry
    have length : (encodeString key).length = (decimal key.length).length + 1 + key.length := by
      rw [encodeString, List.length_append, List.length_cons]
      omega
    have value : offset + (decimal key.length).length + 1 + key.length =
        offset + (encodeString key).length := by omega
    rw [entriesReading, Reading.tokens, value, v.reading_tokens, entriesReading_tokens entries]
    simp only [entriesTokens, stringToken, encodeEntries, List.length_append, List.append_assoc,
      List.cons_append, length, Nat.add_assoc]

end

theorem BeParser.parse_encoded {values : List Value} {source : StringWrapper}
    (text : source.bytes = encodeValues values) :
    parse source = .ok (valuesTokens values 0) := by
  have complete := valuesReading_complete values (show Reading.stop.Complete from trivial)
  apply parse_eq_ok_iff.2
  refine ⟨valuesReading values .stop, complete.loose, ?_, ?_⟩
  · rw [valuesReading_render, Reading.render, List.append_nil, text]
  · rw [valuesReading_tokens, Reading.tokens, List.append_nil]

theorem BeParser.parse_value {v : Value} {source : StringWrapper} (text : source.bytes = v.encode) :
    parse source = .ok (valuesTokens [v] 0) :=
  parse_encoded (by rw [text, encodeValues, encodeValues, List.append_nil])

/-- **The parser flattens values in preorder.** -/
theorem BeParser.parse_values (values : List Value) (source : StringWrapper)
    (text : source.bytes = encodeValues values) :
    parse source = .ok (valuesTokens values 0) :=
  parse_encoded text

/-- A dictionary with a list in it and a string of digits, letters and a colon. -/
def nestedValues : List Value :=
  [.dict [([97], .list [.int (-7), .str (ascii "5:ie")])], .str []]

theorem BeParser.parse_values_nested :
    parse (.ofBytes (encodeValues nestedValues) (by decide)) =
      .ok (valuesTokens nestedValues 0) :=
  BeParser.parse_values nestedValues _ (StringWrapper.bytes_ofBytes _ _)

end TorrentClient
