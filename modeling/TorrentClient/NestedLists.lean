import TorrentClient.InfoLoops

/-!
# Lists in lists

`read_lists` reads a list of strings, integers and lists in one loop that counts how
deep it is. The count stands for a recursion over the value: the texts of its leaves
are taken in order, and the cursor is left behind the end of the list.
-/

namespace TorrentClient

mutual

/-- No dictionary lies in the value. -/
def Value.DictFree : Value → Prop
  | .str _ | .int _ => True
  | .list values => valuesDictFree values
  | .dict _ => False

def valuesDictFree : List Value → Prop
  | [] => True
  | v :: values => v.DictFree ∧ valuesDictFree values

end

section
variable {cursor : List Lexeme}

theorem readListsLoop_leaf {type : TokenType} (leaf : type = .str ∨ type = .int) (text : Bytes)
    (depth : Nat) (output : List Bytes) :
    readListsLoop (depth + 1) (.leaf type text :: cursor) output =
      readListsLoop (depth + 1) cursor (output ++ [text]) := by
  rcases leaf with rfl | rfl <;> rfl

mutual

/-- A value inside a list leaves the depth as it was. -/
theorem Value.read (v : Value) (free : v.DictFree) (depth : Nat) (cursor : List Lexeme)
    (output : List Bytes) :
    readListsLoop (depth + 1) (v.lexemes ++ cursor) output =
      readListsLoop (depth + 1) cursor (output ++ v.texts) := by
  cases v with
  | str body => exact readListsLoop_leaf (Or.inl rfl) body depth output
  | int value => exact readListsLoop_leaf (Or.inr rfl) _ depth output
  | list values =>
    have tokens : (Value.list values).lexemes ++ cursor =
        .mark .listStart :: (valuesLexemes values ++ .mark .listEnd :: cursor) := by
      simp [Value.lexemes]
    rw [tokens, readListsLoop]
    show readListsLoop (depth + 1 + 1) _ output = _
    rw [values_read values free, readListsLoop]
    rfl
  | dict entries => exact free.elim

theorem values_read (values : List Value) (free : valuesDictFree values) (depth : Nat)
    (cursor : List Lexeme) (output : List Bytes) :
    readListsLoop (depth + 1) (valuesLexemes values ++ cursor) output =
      readListsLoop (depth + 1) cursor (output ++ valuesTexts values) := by
  cases values with
  | nil => rw [valuesTexts, List.append_nil]; rfl
  | cons v values =>
    rw [valuesLexemes, List.append_assoc, v.read free.1, values_read values free.2, valuesTexts,
      List.append_assoc]

end

theorem valuesDictFree_strings (texts : List Bytes) : valuesDictFree (texts.map .str) := by
  induction texts with
  | nil => trivial
  | cons text texts ih => exact ⟨trivial, ih⟩

theorem valuesTexts_strings (texts : List Bytes) : valuesTexts (texts.map .str) = texts := by
  induction texts with
  | nil => rfl
  | cons text texts ih => rw [List.map_cons, valuesTexts, ih]; rfl

theorem readLists_lexemes {values : List Value} (free : valuesDictFree values) :
    readLists (.mark .listStart) (valuesLexemes values ++ .mark .listEnd :: cursor) =
      .ok (valuesTexts values, cursor) := by
  have start : (if (Lexeme.mark .listStart).type = .listStart then 1 else 0) = 0 + 1 := rfl
  rw [readLists, start, values_read values free, List.nil_append, readListsLoop]
  show readListsLoop 0 cursor _ = _
  cases cursor <;> rfl

end

/-- The texts of the start and the end of a list are not looked at. -/
theorem readLists_spelled {values : List Value} (free : valuesDictFree values)
    {tokens : List Lexeme} (spelled : bares tokens = (Value.list values).lexemes)
    (after : List Lexeme) :
    ∃ t cursor, tokens ++ after = t :: cursor ∧ t.type = .listStart ∧
      readLists t cursor = .ok (valuesTexts values, after) := by
  cases tokens with
  | nil => cases spelled
  | cons t inner =>
    obtain ⟨start, inside⟩ := List.cons.inj spelled
    refine ⟨t, inner ++ after, rfl, ?_, ?_⟩
    · rw [← Lexeme.bare_type, start]
      rfl
    · have read := readLists_bare t (inner ++ after)
      have split : bares (inner ++ after) =
          valuesLexemes values ++ .mark .listEnd :: bares after := by
        rw [bares, List.map_append]
        show bares inner ++ bares after = _
        rw [bares, inside]
        simp
      rw [start, split, readLists_lexemes free] at read
      cases taken : readLists t (inner ++ after) with
      | error e =>
        rw [taken] at read
        cases read
      | ok result =>
        obtain ⟨texts, rest⟩ := result
        rw [taken] at read
        obtain ⟨same, left⟩ := Prod.mk.inj (Except.ok.inj read)
        have length := congrArg List.length left
        rw [bares, bares, List.length_map, List.length_map] at length
        have suffix : rest <:+ inner ++ after := readLists_suffix taken
        have behind : after <:+ rest :=
          List.suffix_of_suffix_length_le (List.suffix_append inner after) suffix length.le
        rw [same, behind.eq_of_length length]

/-! ## On the tokens of a source -/

/-- The tokens from a place on, as they read on their source. -/
def cursorAt [SubStrings] (source : StringWrapper) (tokens : List BeToken)
    (currentToken : Nat) : List Lexeme :=
  (tokens.map (·.on source)).drop currentToken

/-- **A list is read to its end.** The texts are those of its leaves from left to right,
wherever the list stands and whatever tokens are behind it. -/
theorem readLists_list [SubStrings] {source : StringWrapper} {values : List Value}
    (free : (Value.list values).DictFree) {front rest : Bytes}
    (place : source.bytes = front ++ (Value.list values).encode ++ rest)
    (before after : List BeToken) :
    ∃ t cursor,
      cursorAt source (before ++ (Value.list values).tokens front.length ++ after)
        before.length = t :: cursor ∧
      t.type = .listStart ∧
      readLists t cursor = .ok ((Value.list values).texts,
        cursorAt source (before ++ (Value.list values).tokens front.length ++ after)
          (before.length + ((Value.list values).tokens front.length).length)) := by
  have spelled : bares (((Value.list values).tokens front.length).map (·.on source)) =
      (Value.list values).lexemes := by
    rw [bares, List.map_map]
    exact (Value.list values).tokens_on place
  have at_start : cursorAt source (before ++ (Value.list values).tokens front.length ++ after)
      before.length = ((Value.list values).tokens front.length).map (·.on source) ++
        after.map (·.on source) := by
    rw [cursorAt, List.append_assoc, List.map_append, List.drop_left' (List.length_map _),
      List.map_append]
  have behind : cursorAt source (before ++ (Value.list values).tokens front.length ++ after)
      (before.length + ((Value.list values).tokens front.length).length) =
        after.map (·.on source) := by
    rw [cursorAt, List.map_append, List.drop_left']
    rw [List.length_map, List.length_append]
  rw [at_start, behind]
  exact readLists_spelled free spelled _

/-- `{"x": [[], "ab", [[-7], "c"]]}` -/
def nestedList : List Value :=
  [.list [], .str [97, 98], .list [.list [.int (-7)], .str [99]]]

def nestedSource : StringWrapper :=
  .ofBytes (Value.dict [([120], .list nestedList)]).encode (by decide)

def nestedTokens : List BeToken := (Value.dict [([120], .list nestedList)]).tokens 0

theorem readLists_list_nested : ∃ t cursor,
    @cursorAt .cut nestedSource nestedTokens 2 = t :: cursor ∧ t.type = .listStart ∧
      readLists t cursor =
        .ok ([[97, 98], [45, 55], [99]], @cursorAt .cut nestedSource nestedTokens 13) :=
  @readLists_list .cut nestedSource nestedList
    ⟨trivial, trivial, ⟨⟨trivial, trivial⟩, trivial, trivial⟩, trivial⟩ [100, 49, 58, 120] [101]
    (StringWrapper.bytes_ofBytes _ _) [⟨.dictStart, ⟨0, 0⟩⟩, stringToken [120] 1]
    [⟨.dictEnd, ⟨23, 0⟩⟩]

/-- The trackers of a torrent file are the texts of its list of lists. -/
theorem Metainfo.fillAnnounceList_spelled {values : List Value} (free : valuesDictFree values)
    {tokens : List Lexeme} (spelled : bares tokens = (Value.list values).lexemes)
    (key : Lexeme) (after : List Lexeme) (tf : Metainfo) :
    fillAnnounceList.run (key :: (tokens ++ after)) tf =
      .done after { tf with announceList := valuesTexts values } := by
  obtain ⟨t, cursor, eq, -, read⟩ := readLists_spelled free spelled after
  rw [eq]
  show (Outcome.ofExcept (readLists t cursor) _).bind _ = _
  rw [read]
  rfl

end TorrentClient
