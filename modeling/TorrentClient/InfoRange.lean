import TorrentClient.Lexemes
import TorrentClient.Metainfo

/-!
# The part of a torrent file that is hashed

`calculate_info_sha1` looks for the first token whose text is `info` and counts
dictionaries from the token behind it.
-/

namespace TorrentClient

/-! ## The tokens of a value -/

mutual

/-- The tokens of a value start inside its encoding. -/
theorem Value.tokens_start (v : Value) (offset : Nat) :
    ∀ t ∈ v.tokens offset, t.data.start ≤ offset + v.encode.length := by
  cases v with
  | str body =>
    simp only [Value.tokens, List.forall_mem_singleton, stringToken, Value.encode, encodeString,
      List.length_append, List.length_cons]
    omega
  | int value =>
    simp only [Value.tokens, List.forall_mem_singleton, Value.encode, List.length_append,
      List.length_cons]
    omega
  | list values =>
    have inner := valuesTokens_start values (offset + 1)
    simp only [Value.tokens, List.forall_mem_append, List.forall_mem_singleton, Value.encode,
      List.length_append, List.length_cons, List.length_nil]
    refine ⟨⟨Nat.le_add_right _ _, fun t mem => ?_⟩, by omega⟩
    have start := inner t mem
    omega
  | dict entries =>
    have inner := entriesTokens_start entries (offset + 1)
    simp only [Value.tokens, List.forall_mem_append, List.forall_mem_singleton, Value.encode,
      List.length_append, List.length_cons, List.length_nil]
    refine ⟨⟨Nat.le_add_right _ _, fun t mem => ?_⟩, by omega⟩
    have start := inner t mem
    omega

theorem valuesTokens_start (values : List Value) (offset : Nat) :
    ∀ t ∈ valuesTokens values offset, t.data.start ≤ offset + (encodeValues values).length := by
  cases values with
  | nil =>
    intro t mem
    cases mem
  | cons v values =>
    intro t mem
    rw [encodeValues, List.length_append]
    rw [valuesTokens, List.mem_append] at mem
    cases mem with
    | inl mem =>
      have start := v.tokens_start offset t mem
      omega
    | inr mem =>
      have start := valuesTokens_start values _ t mem
      omega

theorem entriesTokens_start (entries : List (Bytes × Value)) (offset : Nat) :
    ∀ t ∈ entriesTokens entries offset,
      t.data.start ≤ offset + (encodeEntries entries).length := by
  cases entries with
  | nil =>
    intro t mem
    cases mem
  | cons entry entries =>
    obtain ⟨key, v⟩ := entry
    intro t mem
    rw [encodeEntries, List.length_append, List.length_append]
    rw [entriesTokens, List.cons_append, List.mem_cons, List.mem_append] at mem
    rcases mem with rfl | mem | mem
    · simp only [stringToken, encodeString, List.length_append, List.length_cons]
      omega
    · have start := v.tokens_start _ t mem
      omega
    · have start := entriesTokens_start entries _ t mem
      omega

end

theorem entriesTokens_append (xs ys : List (Bytes × Value)) (offset : Nat) :
    entriesTokens (xs ++ ys) offset =
      entriesTokens xs offset ++ entriesTokens ys (offset + (encodeEntries xs).length) := by
  induction xs generalizing offset with
  | nil => rfl
  | cons entry xs ih =>
    obtain ⟨key, v⟩ := entry
    simp only [List.cons_append, entriesTokens, encodeEntries, ih, List.append_assoc,
      List.length_append, Nat.add_assoc]

theorem encodeEntries_append (xs ys : List (Bytes × Value)) :
    encodeEntries (xs ++ ys) = encodeEntries xs ++ encodeEntries ys := by
  induction xs with
  | nil => rfl
  | cons entry xs ih =>
    obtain ⟨key, v⟩ := entry
    simp only [List.cons_append, encodeEntries, ih, List.append_assoc]

/-- The tokens of lists and dictionaries span from an offset to 0. -/
def Marked (t : BeToken) : Prop := t.type = .int ∨ t.type = .str ∨ t.data.stop = 0

mutual

theorem Value.tokens_marked (v : Value) (offset : Nat) : ∀ t ∈ v.tokens offset, Marked t := by
  cases v with
  | str body => exact List.forall_mem_singleton.2 (Or.inr (Or.inl rfl))
  | int value => exact List.forall_mem_singleton.2 (Or.inl rfl)
  | list values =>
    have mark (type : TokenType) (start : Nat) : ∀ t ∈ [(⟨type, ⟨start, 0⟩⟩ : BeToken)], Marked t :=
      List.forall_mem_singleton.2 (Or.inr (Or.inr rfl))
    exact List.forall_mem_append.2 ⟨List.forall_mem_append.2
      ⟨mark _ _, valuesTokens_marked values _⟩, mark _ _⟩
  | dict entries =>
    have mark (type : TokenType) (start : Nat) : ∀ t ∈ [(⟨type, ⟨start, 0⟩⟩ : BeToken)], Marked t :=
      List.forall_mem_singleton.2 (Or.inr (Or.inr rfl))
    exact List.forall_mem_append.2 ⟨List.forall_mem_append.2
      ⟨mark _ _, entriesTokens_marked entries _⟩, mark _ _⟩

theorem valuesTokens_marked (values : List Value) (offset : Nat) :
    ∀ t ∈ valuesTokens values offset, Marked t := by
  cases values with
  | nil =>
    intro t mem
    cases mem
  | cons v values =>
    exact List.forall_mem_append.2 ⟨v.tokens_marked _, valuesTokens_marked values _⟩

theorem entriesTokens_marked (entries : List (Bytes × Value)) (offset : Nat) :
    ∀ t ∈ entriesTokens entries offset, Marked t := by
  cases entries with
  | nil =>
    intro t mem
    cases mem
  | cons entry entries =>
    obtain ⟨key, v⟩ := entry
    exact List.forall_mem_cons.2 ⟨Or.inr (Or.inl rfl), List.forall_mem_append.2
      ⟨v.tokens_marked _, entriesTokens_marked entries _⟩⟩

end

/-! ## Counting dictionaries -/

namespace Metainfo

variable {depth offset : Nat} {t : BeToken} {rest : List BeToken}

theorem skipDict_other (type : TokenType) (eq : t.type = type)
    (other : type ≠ .dictStart ∧ type ≠ .dictEnd) (pos : 0 < depth) :
    skipDict depth (t :: rest) = skipDict depth rest := by
  rw [skipDict, eq]
  cases type with
  | dictStart => exact absurd rfl other.1
  | dictEnd => exact absurd rfl other.2
  | unknown | int | str | listStart | listEnd => exact if_neg (Nat.ne_of_gt pos)

theorem skipDict_start (type : t.type = .dictStart) (bound : depth + 1 < 2 ^ 64) :
    skipDict depth (t :: rest) = skipDict (depth + 1) rest := by
  rw [skipDict, type]
  dsimp only
  rw [add64_eq bound, if_neg (Nat.succ_ne_zero _)]

theorem skipDict_end (type : t.type = .dictEnd) (bound : depth + 1 < 2 ^ 64) :
    skipDict (depth + 1) (t :: rest) = if depth = 0 then rest else skipDict depth rest := by
  rw [skipDict, type]
  dsimp only
  rw [sub64_eq bound (Nat.le_add_left _ _), Nat.add_sub_cancel]

mutual

/-- Inside a dictionary the values in it are passed over. -/
theorem skipDict_value (v : Value) {depth offset : Nat} {rest : List BeToken} (pos : 0 < depth)
    (bound : depth + v.encode.length < 2 ^ 64) :
    skipDict depth (v.tokens offset ++ rest) = skipDict depth rest := by
  cases v with
  | str body => exact skipDict_other .str rfl (by decide) pos
  | int value => exact skipDict_other .int rfl (by decide) pos
  | list values =>
    simp only [Value.encode, List.length_append, List.length_cons] at bound
    simp only [Value.tokens, List.append_assoc, List.cons_append, List.nil_append]
    rw [skipDict_other .listStart rfl (by decide) pos, skipDict_values values pos (by omega),
      skipDict_other .listEnd rfl (by decide) pos]
  | dict entries =>
    simp only [Value.encode, List.length_append, List.length_cons] at bound
    simp only [Value.tokens, List.append_assoc, List.cons_append, List.nil_append]
    rw [skipDict_start rfl (by omega),
      skipDict_entries entries (show 0 < depth + 1 by omega) (by omega),
      skipDict_end rfl (by omega), if_neg (Nat.ne_of_gt pos)]

theorem skipDict_values (values : List Value) {depth offset : Nat} {rest : List BeToken}
    (pos : 0 < depth) (bound : depth + (encodeValues values).length < 2 ^ 64) :
    skipDict depth (valuesTokens values offset ++ rest) = skipDict depth rest := by
  cases values with
  | nil => rfl
  | cons v values =>
    rw [encodeValues, List.length_append] at bound
    rw [valuesTokens, List.append_assoc, skipDict_value v pos (by omega),
      skipDict_values values pos (by omega)]

theorem skipDict_entries (entries : List (Bytes × Value)) {depth offset : Nat}
    {rest : List BeToken} (pos : 0 < depth)
    (bound : depth + (encodeEntries entries).length < 2 ^ 64) :
    skipDict depth (entriesTokens entries offset ++ rest) = skipDict depth rest := by
  cases entries with
  | nil => rfl
  | cons entry entries =>
    obtain ⟨key, v⟩ := entry
    rw [encodeEntries, List.length_append, List.length_append] at bound
    rw [entriesTokens, List.cons_append, List.cons_append, List.append_assoc,
      skipDict_other .str rfl (by decide) pos, skipDict_value v pos (by omega),
      skipDict_entries entries pos (by omega)]

end

/-- The dictionary that is looked for is passed over to its end. -/
theorem skipDict_dict (entries : List (Bytes × Value))
    (bound : (Value.dict entries).encode.length < 2 ^ 64) :
    skipDict 0 ((Value.dict entries).tokens offset ++ rest) = rest := by
  simp only [Value.encode, List.length_append, List.length_cons] at bound
  simp only [Value.tokens, List.append_assoc, List.cons_append, List.nil_append]
  rw [skipDict_start rfl (by decide), skipDict_entries entries (show 0 < 0 + 1 by omega) (by omega),
    skipDict_end rfl (by decide), if_pos rfl]

/-! ## Looking for the key -/

section
variable [SubStrings] {source : StringWrapper}

theorem findInfo_skip {front : List BeToken}
    (other : ∀ t ∈ front, ∃ text, (t.on source).str = some text ∧ text ≠ ascii "info") :
    findInfo source (front ++ rest) = findInfo source rest := by
  induction front with
  | nil => rfl
  | cons t front ih =>
    obtain ⟨first, later⟩ := List.forall_mem_cons.1 other
    obtain ⟨text, str, ne⟩ := first
    rw [List.cons_append, findInfo, Lexeme.text, str]
    show (if text = ascii "info" then _ else _) = _
    rw [if_neg ne, ih later]

theorem findInfo_here (text : (t.on source).str = some (ascii "info")) :
    findInfo source (t :: rest) = .ok (some rest) := by
  rw [findInfo, Lexeme.text, text]
  show (if ascii "info" = ascii "info" then _ else findInfo source rest) = _
  exact if_pos rfl

/-- A text in front stops the search there. -/
theorem findInfo_early {front : List BeToken} (rest : List BeToken)
    (readable : ∀ t ∈ front, ∃ text, (t.on source).str = some text)
    (early : ∃ t ∈ front, (t.on source).str = some (ascii "info")) :
    ∃ behind, behind <:+ front ∧ findInfo source (front ++ rest) = .ok (some (behind ++ rest)) := by
  induction front with
  | nil =>
    obtain ⟨t, mem, -⟩ := early
    cases mem
  | cons t front ih =>
    obtain ⟨first, later⟩ := List.forall_mem_cons.1 readable
    obtain ⟨text, str⟩ := first
    by_cases here : text = ascii "info"
    · subst here
      exact ⟨front, List.suffix_cons _ _, findInfo_here str⟩
    · have early' : ∃ t ∈ front, (t.on source).str = some (ascii "info") := by
        obtain ⟨x, mem, named⟩ := early
        cases List.mem_cons.1 mem with
        | inl eq =>
          subst eq
          rw [str] at named
          exact absurd (Option.some.inj named) here
        | inr mem => exact ⟨x, mem, named⟩
      obtain ⟨behind, suffix, found⟩ := ih later early'
      refine ⟨behind, suffix.trans (List.suffix_cons _ _), ?_⟩
      rw [List.cons_append, findInfo, Lexeme.text, str]
      show (if text = ascii "info" then _ else _) = _
      rw [if_neg here, found]

/-- The texts of the tokens of entries, where no list or dictionary reads `info`. -/
theorem entriesTokens_texts (entries : List (Bytes × Value)) {front rest : Bytes}
    (marks : ∀ offset, ∃ text, SubStrings.str ⟨offset, 0⟩ source = some text ∧
      text ≠ ascii "info")
    (eq : source.bytes = front ++ encodeEntries entries ++ rest) :
    (∀ t ∈ entriesTokens entries front.length, ∃ text, (t.on source).str = some text) ∧
      ((∃ t ∈ entriesTokens entries front.length, (t.on source).str = some (ascii "info")) ↔
        ascii "info" ∈ entriesTexts entries) := by
  have lexemes := entriesTokens_on entries eq
  have leaves := entriesLexemes_leaf entries
  have marked := entriesTokens_marked entries front.length
  have texts := entriesLexemes_texts entries
  rw [← lexemes] at leaves texts
  have read (t : BeToken) (mem : t ∈ entriesTokens entries front.length) :
      (∃ text, (t.on source).str = some text) ∧
        ((t.on source).str = some (ascii "info") ↔
          (t.bareOn source).str = some (ascii "info")) := by
    by_cases leaf : (t.on source).IsLeaf
    · have same : t.bareOn source = t.on source := Lexeme.bare_leaf leaf
      have some := leaves _ (List.mem_map_of_mem mem) (by rwa [same])
      rw [same] at some ⊢
      exact ⟨Option.ne_none_iff_exists'.1 some, Iff.rfl⟩
    · have stop : t.data.stop = 0 := by
        rcases marked t mem with int | str | stop
        · exact absurd (Or.inl int) leaf
        · exact absurd (Or.inr str) leaf
        · exact stop
      obtain ⟨text, str, ne⟩ := marks t.data.start
      have spans : (⟨t.data.start, 0⟩ : SubString) = t.data := by rw [← stop]
      rw [spans] at str
      have bare : t.bareOn source = .mark t.type := Lexeme.bare_mark leaf
      refine ⟨⟨text, str⟩, iff_of_false (fun named => ?_) (fun named => ?_)⟩
      · exact ne (Option.some.inj (str.symm.trans named))
      · rw [bare] at named
        cases named
  refine ⟨fun t mem => (read t mem).1, ?_⟩
  rw [← texts, List.mem_filterMap]
  constructor
  · rintro ⟨t, mem, named⟩
    exact ⟨_, List.mem_map_of_mem mem, (read t mem).2.1 named⟩
  · rintro ⟨_, mem, named⟩
    obtain ⟨t, mem', rfl⟩ := List.mem_map.1 mem
    exact ⟨t, mem', (read t mem').2.2 named⟩

end

/-! ## The range -/

/-- The offset of the value behind a key `info`, with the entries in front of it. -/
def infoAt (front : List (Bytes × Value)) : Nat :=
  1 + (encodeEntries front).length + (encodeString (ascii "info")).length

/-- A torrent file with the entries around `info`. -/
def torrent (front info back : List (Bytes × Value)) : Value :=
  .dict (front ++ (ascii "info", .dict info) :: back)

/-- The tokens in front of the key `info`. -/
def frontTokens (front : List (Bytes × Value)) : List BeToken :=
  ⟨.dictStart, ⟨0, 0⟩⟩ :: entriesTokens front 1

/-- The tokens behind the value of `info`. -/
def behindTokens (front info back : List (Bytes × Value)) : List BeToken :=
  let stop := infoAt front + (Value.dict info).encode.length
  entriesTokens back stop ++ [⟨.dictEnd, ⟨stop + (encodeEntries back).length, 0⟩⟩]

theorem torrent_tokens (front info back : List (Bytes × Value)) :
    valuesTokens [torrent front info back] 0 =
      frontTokens front ++ (stringToken (ascii "info") (1 + (encodeEntries front).length) ::
        ((Value.dict info).tokens (infoAt front) ++ behindTokens front info back)) := by
  have stop : 0 + 1 + (encodeEntries (front ++ (ascii "info", .dict info) :: back)).length =
      infoAt front + (Value.dict info).encode.length + (encodeEntries back).length := by
    simp only [encodeEntries_append, encodeEntries, List.length_append, infoAt]
    omega
  have key : entriesTokens ((ascii "info", .dict info) :: back)
      (0 + 1 + (encodeEntries front).length) =
        stringToken (ascii "info") (1 + (encodeEntries front).length) ::
          ((Value.dict info).tokens (infoAt front) ++
            entriesTokens back (infoAt front + (Value.dict info).encode.length)) := rfl
  simp only [valuesTokens, torrent, Value.tokens, entriesTokens_append, stop, key, frontTokens,
    behindTokens, List.append_nil, List.cons_append, List.nil_append, List.append_assoc]

theorem length_between {start length modifier : Nat} (bound : start + (length + modifier) < 2 ^ 64)
    (small : start < 2 ^ 64) :
    sub64 (sub64 (start + (length + modifier)) start) modifier = length := by
  rw [sub64_eq bound (Nat.le_add_right _ _), Nat.add_sub_cancel_left,
    sub64_eq (by omega) (Nat.le_add_left _ _), Nat.add_sub_cancel]

/-- The length of a key is taken off by way of its logarithm. -/
def ExactLog10 [Externals] : Prop :=
  ∀ n, 0 < n → n < 2 ^ 64 → Externals.log10Plus n = (decimal n).length

section
variable [SubStrings] [Externals] {source : StringWrapper} {front back info : List (Bytes × Value)}
  {tf : Metainfo}
  (marks : ∀ offset, ∃ text, SubStrings.str ⟨offset, 0⟩ source = some text ∧ text ≠ ascii "info")
  (text : source.bytes = (torrent front info back).encode)
include text

omit [Externals] [SubStrings] in
theorem torrent_split : ∃ rest, source.bytes =
    (100 :: encodeEntries front) ++ encodeString (ascii "info") ++
      ((Value.dict info).encode ++ (encodeEntries back ++ rest)) := by
  refine ⟨[101], ?_⟩
  rw [text]
  simp only [torrent, Value.encode, encodeEntries_append, encodeEntries, List.cons_append,
    List.append_assoc]

omit [Externals] in
/-- The text of the key is `info`. -/
theorem key_text :
    ((stringToken (ascii "info") (1 + (encodeEntries front).length)).on source).str =
      some (ascii "info") := by
  obtain ⟨rest, split⟩ := torrent_split text
  have bare := BeToken.bareOn_string split
  rw [List.length_cons, Nat.add_comm, BeToken.bareOn, Lexeme.bare_leaf (Or.inr rfl)] at bare
  rw [bare]
  rfl

include marks

omit [Externals] in
theorem frontTokens_texts :
    (∀ t ∈ frontTokens front, ∃ text, (t.on source).str = some text) ∧
      ((∃ t ∈ frontTokens front, (t.on source).str = some (ascii "info")) ↔
        ascii "info" ∈ entriesTexts front) := by
  obtain ⟨rest, split⟩ := torrent_split text
  have split' : source.bytes = [100] ++ encodeEntries front ++
      (encodeString (ascii "info") ++
        ((Value.dict info).encode ++ (encodeEntries back ++ rest))) := by
    rw [split]
    simp
  obtain ⟨readable, named⟩ := entriesTokens_texts front marks split'
  obtain ⟨first, str, ne⟩ := marks 0
  constructor
  · exact List.forall_mem_cons.2 ⟨⟨first, str⟩, readable⟩
  · simp only [frontTokens, List.mem_cons, exists_eq_or_imp]
    rw [← named]
    constructor
    · rintro (eq | later)
      · exact absurd (Option.some.inj (str.symm.trans eq)) ne
      · exact later
    · exact Or.inr

/-- Where no text in front is `info`, the range is the value of the key. -/
theorem infoRange_key (exact_log10 : ExactLog10)
    (sorted : (front ++ (ascii "info", .dict info) :: back).Pairwise (·.1 < ·.1))
    (unnamed : ascii "info" ∉ entriesTexts front) :
    infoRange (valuesTokens [torrent front info back] 0) source tf =
      .done (some (infoAt front, (Value.dict info).encode.length)) tf := by
  obtain ⟨rest, split⟩ := torrent_split text
  obtain ⟨readable, named⟩ := frontTokens_texts marks text
  have other : ∀ t ∈ frontTokens front, ∃ text, (t.on source).str = some text ∧
      text ≠ ascii "info" := by
    intro t mem
    obtain ⟨text, str⟩ := readable t mem
    refine ⟨text, str, ?_⟩
    rintro rfl
    exact unnamed (named.1 ⟨t, mem, str⟩)
  have total := congrArg List.length split
  have small := source.small
  simp only [StringWrapper.bytes_length, List.length_append, List.length_cons] at total
  have at_info : infoAt front = (encodeEntries front).length + 1 +
      (encodeString (ascii "info")).length := by
    rw [infoAt]
    omega
  rw [infoRange, torrent_tokens, findInfo_skip other, findInfo_here (key_text text),
    Outcome.ofExcept_ok, Outcome.bind_done]
  have starts : ∃ inner, (Value.dict info).tokens (infoAt front) ++ behindTokens front info back =
      ⟨.dictStart, ⟨infoAt front, 0⟩⟩ :: inner := ⟨_, rfl⟩
  have skipped := @skipDict_dict (infoAt front) (behindTokens front info back)
    info (by omega)
  obtain ⟨inner, starts⟩ := starts
  rw [starts] at skipped ⊢
  dsimp only
  rw [skipped]
  cases back with
  | nil =>
    simp only [behindTokens, entriesTokens, encodeEntries, List.nil_append, List.length_nil,
      lengthModifier]
    rw [Nat.add_assoc, length_between (by omega) (by omega)]
  | cons entry back =>
    obtain ⟨key, v⟩ := entry
    have length : (encodeString key).length = (decimal key.length).length + (key.length + 1) := by
      rw [encodeString, List.length_append, List.length_cons]
    simp only [encodeEntries, List.length_append] at total
    have later : ascii "info" < key := by
      have behind := (List.pairwise_append.1 sorted).2.1
      exact (List.pairwise_cons.1 behind).1 (key, v) List.mem_cons_self
    have nonempty : 0 < key.length := by
      cases key with
      | nil => cases later
      | cons c key => exact Nat.succ_pos _
    have size : SubStrings.size (stringToken key
        (infoAt front + (Value.dict info).encode.length)).data = key.length := by
      rw [stringToken, SubStrings.size_eq (Nat.le_add_right _ _)]
      exact Nat.add_sub_cancel_left _ _
    have modifier : lengthModifier (stringToken key
        (infoAt front + (Value.dict info).encode.length)) = (decimal key.length).length + 1 := by
      show add64 (Externals.log10Plus _) 1 = _
      rw [size, exact_log10 _ nonempty (by omega), add64_eq (by omega)]
    simp only [behindTokens, entriesTokens, List.cons_append]
    rw [modifier]
    show Outcome.done (some (_, sub64 (sub64 (infoAt front + (Value.dict info).encode.length +
      (decimal key.length).length + 1) (infoAt front)) _)) tf = _
    rw [Nat.add_assoc _ (decimal key.length).length, Nat.add_assoc (infoAt front),
      length_between (by omega) (by omega)]

/-- Where some text in front is `info`, the range starts in front of the value. -/
theorem infoRange_early (named : ascii "info" ∈ entriesTexts front) :
    infoRange (valuesTokens [torrent front info back] 0) source tf ≠
      .done (some (infoAt front, (Value.dict info).encode.length)) tf := by
  obtain ⟨readable, early⟩ := frontTokens_texts marks text
  obtain ⟨behind, suffix, found⟩ := findInfo_early
    (stringToken (ascii "info") (1 + (encodeEntries front).length) ::
      ((Value.dict info).tokens (infoAt front) ++ behindTokens front info back)) readable
        (early.2 named)
  have starts (t : BeToken) (mem : t ∈ frontTokens front) : t.data.start < infoAt front := by
    have le : t.data.start ≤ 1 + (encodeEntries front).length := by
      cases List.mem_cons.1 mem with
      | inl eq =>
        subst eq
        exact Nat.zero_le _
      | inr mem => exact entriesTokens_start front 1 t mem
    have pos : 0 < (encodeString (ascii "info")).length := by simp [encodeString]
    rw [infoAt]
    omega
  have before : ∃ value tokens, behind ++ stringToken (ascii "info")
      (1 + (encodeEntries front).length) ::
        ((Value.dict info).tokens (infoAt front) ++ behindTokens front info back) =
          value :: tokens ∧ value.data.start < infoAt front := by
    cases behind with
    | nil =>
      refine ⟨_, _, rfl, ?_⟩
      have length : (decimal (ascii "info").length).length + 1 <
          (encodeString (ascii "info")).length := by
        simp [encodeString, ascii]
      simp only [stringToken, infoAt]
      omega
    | cons value behind => exact ⟨value, _, rfl, starts value (suffix.mem List.mem_cons_self)⟩
  obtain ⟨value, tokens, eq, early⟩ := before
  rw [eq] at found
  rw [infoRange, torrent_tokens, found, Outcome.ofExcept_ok, Outcome.bind_done]
  dsimp only
  split
  · intro h
    cases h
  · intro h
    simp only [Outcome.done.injEq, Option.some.injEq, Prod.mk.injEq] at h
    omega

omit marks [SubStrings] [Externals] in
/-- The bytes of the range are the encoding of the value. -/
theorem infoAt_bytes : (source.bytes.drop (infoAt front)).take (Value.dict info).encode.length =
    (Value.dict info).encode := by
  obtain ⟨rest, split⟩ := torrent_split text
  have at_info : infoAt front =
      (100 :: encodeEntries front ++ encodeString (ascii "info")).length := by
    simp only [infoAt, List.length_append, List.length_cons]
    omega
  rw [split, at_info, List.drop_left, List.take_left]

/-- **When the hashed range is the value of `info`.** -/
theorem infoRange_iff (exact_log10 : ExactLog10)
    (sorted : (front ++ (ascii "info", .dict info) :: back).Pairwise (·.1 < ·.1))
    {tokens : List BeToken} (parsed : BeParser.parse source = .ok tokens) :
    infoRange tokens source tf =
        .done (some (infoAt front, (Value.dict info).encode.length)) tf ↔
      ascii "info" ∉ entriesTexts front := by
  rw [BeParser.parse_value text] at parsed
  cases parsed
  constructor
  · exact fun range named => infoRange_early marks text named range
  · exact infoRange_key marks text exact_log10 sorted

end

/-- Room for as many strings as a vector may hold. -/
@[reducible] def stringHeap : Heap Bytes := .upTo _ (2 ^ 58 - 1)

/-- A logarithm that is exact, and some hash. -/
@[reducible] def exactExternals (sha1 : Bytes → Bytes) : Externals where
  toHeap := stringHeap
  sha1 := sha1
  log10Plus n := (decimal n).length

theorem cut_marks (source : StringWrapper) (offset : Nat) :
    ∃ text, SubStrings.cut.str ⟨offset, 0⟩ source = some text ∧ text ≠ ascii "info" := by
  refine ⟨[], ?_, by decide⟩
  show some (List.take (0 - offset) _) = _
  rw [Nat.zero_sub, List.take_zero]

/-- A torrent file with an announce text in front of `info` and a key behind it. -/
def announcing (announce : Bytes) : Value :=
  torrent [(ascii "announce", .str announce)] [(ascii "length", .int 5)]
    [(ascii "nodes", .list [])]

def announcingFile : StringWrapper := .ofBytes (announcing (ascii "udp")).encode (by decide)

theorem infoRange_announcing :
    @infoRange SubStrings.cut (exactExternals id)
        (valuesTokens [announcing (ascii "udp")] 0) announcingFile (opened []) =
      .done (some (infoAt [(ascii "announce", .str (ascii "udp"))],
        (Value.dict [(ascii "length", .int 5)]).encode.length)) (opened []) := by
  let _ := SubStrings.cut
  let _ := exactExternals id
  have text : announcingFile.bytes = (announcing (ascii "udp")).encode :=
    StringWrapper.bytes_ofBytes _ _
  exact (infoRange_iff (cut_marks announcingFile) text (fun _ _ _ => rfl) (by decide)
    (BeParser.parse_value text)).2 (by decide)

/-- The tracker is called `info`. -/
def misleadingFile : StringWrapper := .ofBytes (announcing (ascii "info")).encode (by decide)

theorem infoRange_misled : ∃ tokens, BeParser.parse misleadingFile = .ok tokens ∧
    @infoRange SubStrings.cut (exactExternals id) tokens misleadingFile (opened []) ≠
      .done (some (infoAt [(ascii "announce", .str (ascii "info"))],
        (Value.dict [(ascii "length", .int 5)]).encode.length)) (opened []) := by
  let _ := SubStrings.cut
  let _ := exactExternals id
  have text : misleadingFile.bytes = (announcing (ascii "info")).encode :=
    StringWrapper.bytes_ofBytes _ _
  refine ⟨_, BeParser.parse_value text, ?_⟩
  exact infoRange_early (cut_marks misleadingFile) text (by decide)

end Metainfo

end TorrentClient
