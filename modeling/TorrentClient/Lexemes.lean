import TorrentClient.TokenListProcessor
import TorrentClient.Value
import TorrentClient.Base.Reader

/-!
# The tokens of values on their source

What the tokens of a value read on its encoding depends on the value alone,
except for what a token of a list or dictionary reads. `bare` leaves that out.
-/

namespace TorrentClient

namespace Lexeme

/-- A string or integer whose span is `text`. -/
def leaf (type : TokenType) (text : Bytes) : Lexeme where
  type := type
  str := some text
  size := text.length
  slices n := (List.range (text.length / n)).map fun i => some ((text.drop (i * n)).take n)
  window := text

/-- The start or end of a list or dictionary, without a text. -/
def mark (type : TokenType) : Lexeme := ⟨type, none, 0, fun _ => [], []⟩

def bare (t : Lexeme) : Lexeme := if t.IsLeaf then t else mark t.type

theorem bare_leaf {t : Lexeme} (h : t.IsLeaf) : t.bare = t := if_pos h

theorem bare_mark {t : Lexeme} (h : ¬ t.IsLeaf) : t.bare = mark t.type := if_neg h

@[simp] theorem bare_type (t : Lexeme) : t.bare.type = t.type := by
  unfold bare
  split <;> rfl

end Lexeme

mutual

/-- What the tokens of a value read on its encoding. -/
def Value.lexemes : Value → List Lexeme
  | .str body => [.leaf .str body]
  | .int value => [.leaf .int (decimalInt value)]
  | .list values => [.mark .listStart] ++ valuesLexemes values ++ [.mark .listEnd]
  | .dict entries => [.mark .dictStart] ++ entriesLexemes entries ++ [.mark .dictEnd]

def valuesLexemes : List Value → List Lexeme
  | [] => []
  | v :: values => v.lexemes ++ valuesLexemes values

def entriesLexemes : List (Bytes × Value) → List Lexeme
  | [] => []
  | (key, v) :: entries => .leaf .str key :: v.lexemes ++ entriesLexemes entries

end

theorem entriesLexemes_append (xs ys : List (Bytes × Value)) :
    entriesLexemes (xs ++ ys) = entriesLexemes xs ++ entriesLexemes ys := by
  induction xs with
  | nil => rfl
  | cons entry xs ih =>
    obtain ⟨key, v⟩ := entry
    simp only [List.cons_append, entriesLexemes, ih, List.append_assoc]

/-- The key and the tokens of its value. -/
def entryLexemes (entry : Bytes × Value) : List Lexeme := .leaf .str entry.1 :: entry.2.lexemes

theorem entriesLexemes_flatMap (entries : List (Bytes × Value)) :
    entriesLexemes entries = entries.flatMap entryLexemes := by
  induction entries with
  | nil => rfl
  | cons entry entries ih =>
    obtain ⟨key, v⟩ := entry
    rw [entriesLexemes, ih, List.flatMap_cons]
    rfl

/-- The entry of a key that is there or not. -/
def optionalEntry (key : String) (v : Option Value) : List (Bytes × Value) :=
  (v.map fun v => (ascii key, v)).toList

theorem stoll_decimalInt (z : Int) :
    stoll (decimalInt z) = if -2 ^ 63 ≤ z ∧ z < 2 ^ 63 then .ok z else .error .outOfRange := by
  have read := readInteger_text (decimalNumeral z) (show StopsDigits [] by simp [StopsDigits])
  rw [List.append_nil, decimalNumeral_text, decimalNumeral_value] at read
  rw [stoll, read]

mutual

/-- The strings and integers in a value, keys included. -/
def Value.texts : Value → List Bytes
  | .str body => [body]
  | .int value => [decimalInt value]
  | .list values => valuesTexts values
  | .dict entries => entriesTexts entries

def valuesTexts : List Value → List Bytes
  | [] => []
  | v :: values => v.texts ++ valuesTexts values

def entriesTexts : List (Bytes × Value) → List Bytes
  | [] => []
  | (key, v) :: entries => key :: (v.texts ++ entriesTexts entries)

end

mutual

theorem Value.lexemes_texts (v : Value) : v.lexemes.filterMap (·.str) = v.texts := by
  cases v with
  | str body => rfl
  | int value => rfl
  | list values =>
    have inner := valuesLexemes_texts values
    simp [Value.lexemes, Value.texts, Lexeme.mark, inner]
  | dict entries =>
    have inner := entriesLexemes_texts entries
    simp [Value.lexemes, Value.texts, Lexeme.mark, inner]

theorem valuesLexemes_texts (values : List Value) :
    (valuesLexemes values).filterMap (·.str) = valuesTexts values := by
  cases values with
  | nil => rfl
  | cons v values =>
    rw [valuesLexemes, List.filterMap_append, v.lexemes_texts, valuesLexemes_texts values,
      valuesTexts]

theorem entriesLexemes_texts (entries : List (Bytes × Value)) :
    (entriesLexemes entries).filterMap (·.str) = entriesTexts entries := by
  cases entries with
  | nil => rfl
  | cons entry entries =>
    obtain ⟨key, v⟩ := entry
    rw [entriesLexemes, List.cons_append, List.filterMap_cons, List.filterMap_append,
      v.lexemes_texts, entriesLexemes_texts entries, entriesTexts]
    rfl

end

mutual

theorem Value.lexemes_leaf (v : Value) : ∀ t ∈ v.lexemes, t.IsLeaf → t.str ≠ none := by
  have mark (type : TokenType) (other : type ≠ .int ∧ type ≠ .str) :
      ∀ t ∈ [Lexeme.mark type], t.IsLeaf → t.str ≠ none :=
    List.forall_mem_singleton.2 fun leaf => (leaf.elim other.1 other.2).elim
  cases v with
  | str body => exact List.forall_mem_singleton.2 fun _ => Option.some_ne_none _
  | int value => exact List.forall_mem_singleton.2 fun _ => Option.some_ne_none _
  | list values =>
    exact List.forall_mem_append.2 ⟨List.forall_mem_append.2
      ⟨mark _ (by decide), valuesLexemes_leaf values⟩, mark _ (by decide)⟩
  | dict entries =>
    exact List.forall_mem_append.2 ⟨List.forall_mem_append.2
      ⟨mark _ (by decide), entriesLexemes_leaf entries⟩, mark _ (by decide)⟩

theorem valuesLexemes_leaf (values : List Value) :
    ∀ t ∈ valuesLexemes values, t.IsLeaf → t.str ≠ none := by
  cases values with
  | nil =>
    intro t mem
    cases mem
  | cons v values => exact List.forall_mem_append.2 ⟨v.lexemes_leaf, valuesLexemes_leaf values⟩

theorem entriesLexemes_leaf (entries : List (Bytes × Value)) :
    ∀ t ∈ entriesLexemes entries, t.IsLeaf → t.str ≠ none := by
  cases entries with
  | nil =>
    intro t mem
    cases mem
  | cons entry entries =>
    obtain ⟨key, v⟩ := entry
    exact List.forall_mem_cons.2 ⟨fun _ => Option.some_ne_none _,
      List.forall_mem_append.2 ⟨v.lexemes_leaf, entriesLexemes_leaf entries⟩⟩

end

variable [SubStrings] {source : StringWrapper}

/-- A span reads the bytes it covers. -/
theorem BeToken.on_leaf {front text rest : Bytes} (type : TokenType)
    (eq : source.bytes = front ++ text ++ rest) :
    BeToken.on source ⟨type, ⟨front.length, front.length + text.length⟩⟩ = .leaf type text := by
  have total := congrArg List.length eq
  simp only [StringWrapper.bytes_length, List.length_append] at total
  have at_front : source.bytes.drop front.length = text ++ rest := by
    rw [eq, List.append_assoc, List.drop_left]
  have size : SubStrings.size ⟨front.length, front.length + text.length⟩ = text.length := by
    rw [SubStrings.size_eq (Nat.le_add_right _ _)]
    dsimp only
    omega
  have str : SubStrings.str ⟨front.length, front.length + text.length⟩ source = some text := by
    rw [SubStrings.str_eq (Nat.le_add_right _ _) (by dsimp only; omega)]
    dsimp only
    rw [at_front, Nat.add_sub_cancel_left, List.take_left]
  have slice (n i : Nat) (hi : i < text.length / n) :
      SubStrings.substr ⟨front.length, front.length + text.length⟩ source (i * n) n =
        some ((text.drop (i * n)).take n) := by
    have within : i * n + n ≤ text.length := by
      have := Nat.mul_le_mul_right n hi
      rw [Nat.succ_mul] at this
      exact this.trans (Nat.div_mul_le_self _ _)
    rw [SubStrings.substr_eq (Nat.le_add_right _ _) (by dsimp only; omega)
      (by dsimp only; omega), ← List.drop_drop, at_front,
      List.drop_append_of_le_length (by omega),
      List.take_append_of_le_length (by rw [List.length_drop]; omega)]
  have window : (source.data.drop front.length).take text.length = text := by
    obtain ⟨behind, memory⟩ := source.data_drop (i := front.length) (by omega)
    rw [memory, at_front, List.append_assoc, List.take_left]
  simp only [BeToken.on, Lexeme.leaf, size, str, window, Lexeme.mk.injEq, true_and, and_true]
  funext n
  exact List.map_congr_left fun i hi => slice n i (List.mem_range.1 hi)

/-- What a token reads, without the texts of lists and dictionaries. -/
def BeToken.bareOn (source : StringWrapper) (t : BeToken) : Lexeme := (t.on source).bare

theorem BeToken.bareOn_leaf {front text rest : Bytes} {type : TokenType} {start : Nat}
    (leaf : type = .int ∨ type = .str) (eq : source.bytes = front ++ text ++ rest)
    (at_front : start = front.length) :
    BeToken.bareOn source ⟨type, ⟨start, start + text.length⟩⟩ = .leaf type text := by
  subst at_front
  rw [bareOn, on_leaf type eq]
  exact Lexeme.bare_leaf leaf

theorem BeToken.bareOn_string {front body rest : Bytes}
    (eq : source.bytes = front ++ encodeString body ++ rest) :
    BeToken.bareOn source (stringToken body front.length) = .leaf .str body := by
  have text : source.bytes = (front ++ decimal body.length ++ [58]) ++ body ++ rest := by
    rw [eq, encodeString]
    simp
  apply bareOn_leaf (Or.inr rfl) text
  · simp only [List.length_append, List.length_singleton]

theorem BeToken.bareOn_mark (type : TokenType) (container : type ≠ .int ∧ type ≠ .str)
    (span : SubString) : BeToken.bareOn source ⟨type, span⟩ = .mark type :=
  Lexeme.bare_mark fun leaf => leaf.elim container.1 container.2

mutual

theorem Value.tokens_on (v : Value) {front rest : Bytes}
    (eq : source.bytes = front ++ v.encode ++ rest) :
    (v.tokens front.length).map (BeToken.bareOn source) = v.lexemes := by
  cases v with
  | str body =>
    rw [Value.tokens, List.map_singleton, BeToken.bareOn_string eq]
    rfl
  | int value =>
    rw [Value.tokens, List.map_singleton]
    have text : source.bytes = (front ++ [105]) ++ decimalInt value ++ (101 :: rest) := by
      rw [eq, Value.encode]
      simp
    rw [BeToken.bareOn_leaf (Or.inl rfl) text (by simp)]
    rfl
  | list values =>
    have text : source.bytes = (front ++ [108]) ++ encodeValues values ++ (101 :: rest) := by
      rw [eq, Value.encode]
      simp
    have inner := valuesTokens_on values text
    rw [List.length_append, List.length_singleton] at inner
    simp only [Value.tokens, List.map_append, List.map_singleton, inner, Value.lexemes,
      BeToken.bareOn_mark .listStart (by decide), BeToken.bareOn_mark .listEnd (by decide)]
  | dict entries =>
    have text : source.bytes = (front ++ [100]) ++ encodeEntries entries ++ (101 :: rest) := by
      rw [eq, Value.encode]
      simp
    have inner := entriesTokens_on entries text
    rw [List.length_append, List.length_singleton] at inner
    simp only [Value.tokens, List.map_append, List.map_singleton, inner, Value.lexemes,
      BeToken.bareOn_mark .dictStart (by decide), BeToken.bareOn_mark .dictEnd (by decide)]

theorem valuesTokens_on (values : List Value) {front rest : Bytes}
    (eq : source.bytes = front ++ encodeValues values ++ rest) :
    (valuesTokens values front.length).map (BeToken.bareOn source) = valuesLexemes values := by
  cases values with
  | nil => rfl
  | cons v values =>
    have head : source.bytes = front ++ v.encode ++ (encodeValues values ++ rest) := by
      rw [eq, encodeValues]
      simp
    have tail : source.bytes = (front ++ v.encode) ++ encodeValues values ++ rest := by
      rw [head, List.append_assoc (front ++ v.encode)]
    have later := valuesTokens_on values tail
    rw [List.length_append] at later
    rw [valuesTokens, List.map_append, v.tokens_on head, later, valuesLexemes]

theorem entriesTokens_on (entries : List (Bytes × Value)) {front rest : Bytes}
    (eq : source.bytes = front ++ encodeEntries entries ++ rest) :
    (entriesTokens entries front.length).map (BeToken.bareOn source) = entriesLexemes entries := by
  cases entries with
  | nil => rfl
  | cons entry entries =>
    obtain ⟨key, v⟩ := entry
    have head : source.bytes =
        front ++ encodeString key ++ (v.encode ++ encodeEntries entries ++ rest) := by
      rw [eq, encodeEntries]
      simp
    have value : source.bytes =
        (front ++ encodeString key) ++ v.encode ++ (encodeEntries entries ++ rest) := by
      rw [head]
      simp
    have tail : source.bytes =
        (front ++ encodeString key ++ v.encode) ++ encodeEntries entries ++ rest := by
      rw [value, List.append_assoc (front ++ encodeString key ++ v.encode)]
    have first := v.tokens_on value
    have later := entriesTokens_on entries tail
    rw [List.length_append] at first
    rw [List.length_append, List.length_append] at later
    simp only [entriesTokens, List.map_append, List.map_cons, BeToken.bareOn_string head, first,
      later, entriesLexemes, List.cons_append]

end

end TorrentClient
