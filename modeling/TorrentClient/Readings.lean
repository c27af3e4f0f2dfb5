import TorrentClient.BeParser

/-!
# What the parser reads

A `Reading` is a text as the parser takes it apart, also where the text breaks
off or a number has no digits. The parser accepts exactly the texts that have a
reading and returns its tokens (`parse_eq_ok_iff`); no text has two.
-/

namespace TorrentClient

/-- Values one after another, up to an `e` or the end of the input. -/
inductive Reading where
  | stop
  | int (text : Bytes) (rest : Reading)
  | str (length body : Bytes) (rest : Reading)
  /-- A string that is announced longer than what is left of the input. -/
  | overlong (length body : Bytes)
  | closed (isList : Bool) (inner rest : Reading)
  /-- A list or dictionary that the end of the input breaks off. -/
  | unclosed (isList : Bool) (inner : Reading)
  deriving DecidableEq, Repr

namespace Reading

/-- `l` or `d` -/
def opening (isList : Bool) : UInt8 := if isList then 108 else 100

def render : Reading → Bytes
  | stop => []
  | int text rest => 105 :: text ++ 101 :: rest.render
  | str length body rest => length ++ 58 :: (body ++ rest.render)
  | overlong length body => length ++ 58 :: body
  | closed isList inner rest => opening isList :: inner.render ++ 101 :: rest.render
  | unclosed isList inner => opening isList :: inner.render

/-- Nothing can follow: the input ends inside the reading. -/
def Broken : Reading → Prop
  | stop => False
  | int _ rest => rest.Broken
  | str _ _ rest => rest.Broken
  | overlong _ _ => True
  | closed _ _ rest => rest.Broken
  | unclosed _ _ => True

/-- The digits in front of a string, which are not empty. -/
def IsLength (length : Bytes) : Prop := length ≠ [] ∧ ∀ c ∈ length, isDigit c

/-- What the parser accepts. -/
def Loose : Reading → Prop
  | stop => True
  | int text rest => (text = [] ∨ ∃ n : Numeral, text = n.text) ∧ rest.Loose
  | str length body rest => (IsLength length ∧ digitsValue length = body.length) ∧ rest.Loose
  | overlong length body => IsLength length ∧ body.length < digitsValue length
  | closed _ inner rest => (inner.Loose ∧ ¬ inner.Broken) ∧ rest.Loose
  | unclosed _ inner => inner.Loose

/-- The length `strtol` returns. -/
def announced (length : Bytes) : Nat := min (digitsValue length) (2 ^ 63 - 1)

/-- The offset behind the reading at an offset. -/
def endsAt : Reading → Nat → Nat
  | stop, offset => offset
  | int text rest, offset => rest.endsAt (offset + 1 + text.length + 1)
  | str length body rest, offset => rest.endsAt (offset + length.length + 1 + body.length)
  | overlong length _, offset => offset + length.length + 1 + announced length
  | closed _ inner rest, offset => rest.endsAt (inner.endsAt (offset + 1) + 1)
  | unclosed _ inner, offset => inner.endsAt (offset + 1) + 1

/-- The tokens of a list or dictionary. -/
def structTokens (isList : Bool) (offset : Nat) (inner : List BeToken) (stop : Nat) :
    List BeToken :=
  ⟨if isList then .listStart else .dictStart, ⟨offset, 0⟩⟩ :: inner ++
    [⟨if isList then .listEnd else .dictEnd, ⟨stop, 0⟩⟩]

/-- The tokens of the reading at an offset. -/
def tokens : Reading → Nat → List BeToken
  | stop, _ => []
  | int text rest, offset =>
    ⟨.int, ⟨offset + 1, offset + 1 + text.length⟩⟩ ::
      rest.tokens (offset + 1 + text.length + 1)
  | str length body rest, offset =>
    ⟨.str, ⟨offset + length.length + 1, offset + length.length + 1 + body.length⟩⟩ ::
      rest.tokens (offset + length.length + 1 + body.length)
  | overlong length _, offset =>
    [⟨.str, ⟨offset + length.length + 1, offset + length.length + 1 + announced length⟩⟩]
  | closed isList inner rest, offset =>
    structTokens isList offset (inner.tokens (offset + 1)) (inner.endsAt (offset + 1)) ++
      rest.tokens (inner.endsAt (offset + 1) + 1)
  | unclosed isList inner, offset =>
    structTokens isList offset (inner.tokens (offset + 1)) (inner.endsAt (offset + 1))

end Reading

/-! ## Numbers in a source -/

variable {source : StringWrapper} {offset stop : Nat} {text rest x : Bytes} {c : UInt8}

theorem prefix_before {front behind p q : Bytes} (eq : front ++ 0 :: behind = p ++ q)
    (no_nul : ∀ b ∈ p, b ≠ 0) : ∃ q', front = p ++ q' := by
  rcases List.append_eq_append_iff.1 eq with ⟨as, rfl, more⟩ | ⟨as, rfl, -⟩
  · cases as with
    | nil => exact ⟨[], by rw [List.append_nil, List.append_nil]⟩
    | cons a as =>
      simp only [List.cons_append, List.cons.injEq] at more
      exact absurd more.1.symm (no_nul a (by simp))
  · exact ⟨as, rfl⟩

theorem isSpace_ne {c : UInt8} (h : isSpace c) : c ≠ 0 := by
  rintro rfl
  cases h

theorem isDigit_ne {c : UInt8} (h : isDigit c) : c ≠ 0 := by
  rintro rfl
  cases h

theorem Numeral.no_nul (n : Numeral) : ∀ b ∈ n.text, b ≠ 0 := by
  intro b hb
  simp only [Numeral.text, List.mem_append] at hb
  rcases hb with (space | sign) | digit
  · exact isSpace_ne (n.blanks_space b space)
  · rcases n.sign_eq with h | h | h <;> rw [h] at sign
    · cases sign
    · cases List.mem_singleton.1 sign
      decide
    · cases List.mem_singleton.1 sign
      decide
  · exact isDigit_ne (n.digits_digit b digit)

/-- A `long` holds the value, or the nearest one it can hold. -/
theorem strtol_text (n : Numeral) (stops : StopsDigits x) :
    strtol (n.text ++ x) = (max (-2 ^ 63) (min n.value (2 ^ 63 - 1)), n.text.length) := by
  rw [strtol, readInteger_text n stops]

theorem stopsDigits_cons (other : ¬ isDigit c) : StopsDigits (c :: x) := by
  intro b hb
  cases hb
  exact other

theorem readInteger_none (other : ¬ isDigit c) (space : ¬ isSpace c) (sign : c ≠ 43 ∧ c ≠ 45) :
    readInteger (c :: x) = none := by
  simp [readInteger, signOf, other, space, sign.1, sign.2]

namespace StringWrapper

/-- What lies in memory where a part of the text starts. -/
theorem data_behind (front : Bytes) (at_offset : source.bytes.drop offset = front ++ c :: rest) :
    source.data[offset + front.length]? = some c ∧
      ∃ behind, source.data.drop offset = front ++ c :: (rest ++ 0 :: behind) := by
  have inside : offset ≤ source.size := by
    have length := congrArg List.length at_offset
    simp only [List.length_drop, bytes_length, List.length_append, List.length_cons] at length
    omega
  obtain ⟨behind, eq⟩ := source.data_drop inside
  rw [at_offset, List.append_assoc, List.cons_append] at eq
  refine ⟨?_, behind, eq⟩
  rw [← List.getElem?_drop, eq, List.getElem?_append_right (Nat.le_refl _), Nat.sub_self,
    List.getElem?_cons_zero]

theorem drop_behind (front : Bytes) (at_offset : source.bytes.drop offset = front ++ rest)
    {next : Nat} (eq : next = offset + front.length) : source.bytes.drop next = rest := by
  rw [eq, ← List.drop_drop, at_offset, List.drop_left]

theorem offset_lt (front : Bytes) (at_offset : source.bytes.drop offset = front ++ c :: rest) :
    offset + front.length < source.size := by
  have length := congrArg List.length at_offset
  simp only [List.length_drop, bytes_length, List.length_append, List.length_cons] at length
  omega

end StringWrapper

/-! ## One call of the parser -/

namespace BeParser

/-- The call returns the tokens, and leaves the offset at `stop`. -/
def Returns {P : Parsed → Prop} (r : Except Thrown { r : Parsed // P r }) (tokens : List BeToken)
    (stop : Nat) : Prop := ∃ ahead, r = .ok ⟨(tokens, stop), ahead⟩

theorem processInteger_returns (valid : text = [] ∨ ∃ n : Numeral, text = n.text)
    (at_offset : source.bytes.drop offset = 105 :: text ++ 101 :: rest) :
    Returns (processInteger source offset)
      [⟨.int, ⟨offset + 1, offset + 1 + text.length⟩⟩] (offset + 1 + text.length + 1) := by
  have inner : source.bytes.drop (offset + 1) = text ++ 101 :: rest :=
    source.drop_behind [105] at_offset rfl
  obtain ⟨letter, behind, eq⟩ := source.data_behind text inner
  have digits : (strtol (source.data.drop (offset + 1))).2 = text.length := by
    rw [eq]
    cases valid with
    | inl empty =>
      subst empty
      rw [List.nil_append, strtol, readInteger_none (by decide) (by decide) (by decide)]
      rfl
    | inr numeral =>
      obtain ⟨n, rfl⟩ := numeral
      rw [strtol_text n (stopsDigits_cons (by decide))]
  simp only [processInteger, digits, if_pos letter]
  exact ⟨_, rfl⟩

theorem digits_numeral {length : Bytes} (valid : Reading.IsLength length) :
    ∃ n : Numeral, n.text = length ∧ n.value = digitsValue length :=
  ⟨⟨[], [], length, by simp, Or.inl rfl, valid.1, valid.2⟩, rfl, rfl⟩

theorem processString_returns {length : Bytes} (valid : Reading.IsLength length)
    (at_offset : source.bytes.drop offset = length ++ 58 :: rest) :
    Returns (processString source offset)
      [⟨.str, ⟨offset + length.length + 1,
        offset + length.length + 1 + Reading.announced length⟩⟩]
      (offset + length.length + 1 + Reading.announced length) := by
  obtain ⟨letter, behind, eq⟩ := source.data_behind length at_offset
  obtain ⟨n, text_eq, value_eq⟩ := digits_numeral valid
  have read : strtol (source.data.drop offset) =
      ((Reading.announced length : Int), length.length) := by
    rw [eq, ← text_eq, strtol_text n (stopsDigits_cons (by decide)), value_eq, text_eq,
      Reading.announced]
    congr 1
    omega
  simp only [processString, read, if_pos letter, Int.toNat_natCast]
  exact ⟨_, rfl⟩

variable {tokens : List BeToken} {isList : Bool}

theorem returns_bind {P Q : Parsed → Prop} {r : Except Thrown { r : Parsed // P r }}
    {f : { r : Parsed // P r } → Except Thrown { r : Parsed // Q r }} :
    Returns (r >>= f) tokens stop ↔
      ∃ front next, ∃ ahead, r = .ok ⟨(front, next), ahead⟩ ∧
        Returns (f ⟨(front, next), ahead⟩) tokens stop := by
  cases r with
  | error e =>
    constructor
    · rintro ⟨_, eq⟩
      cases eq
    · rintro ⟨_, _, _, eq, _⟩
      cases eq
  | ok r =>
    constructor
    · exact fun h => ⟨r.1.1, r.1.2, r.2, rfl, h⟩
    · rintro ⟨_, _, _, ⟨⟩, h⟩
      exact h

theorem returns_ok {P : Parsed → Prop} {v : Parsed} {hv : P v} :
    Returns (.ok ⟨v, hv⟩ : Except Thrown { r : Parsed // P r }) tokens stop ↔
      (tokens, stop) = v := by
  constructor
  · rintro ⟨_, ⟨⟩⟩
    rfl
  · rintro rfl
    exact ⟨hv, rfl⟩

/-- There is another value at the offset. -/
abbrev More (source : StringWrapper) (offset : Nat) : Prop :=
  offset < source.size ∧ source.data[offset]? ≠ some 101

theorem structLoop_more (more : More source offset) :
    Returns (structLoop source offset) tokens stop ↔
      ∃ front next rest, Returns (parseAt source offset) front next ∧
        Returns (structLoop source next) rest stop ∧ tokens = front ++ rest := by
  rw [structLoop, dif_pos more, returns_bind]
  constructor
  · rintro ⟨front, next, ahead, first, later⟩
    obtain ⟨rest, stop', ahead', second, last⟩ := returns_bind.1 later
    cases returns_ok.1 last
    exact ⟨front, next, rest, ⟨ahead, first⟩, ⟨ahead', second⟩, rfl⟩
  · rintro ⟨front, next, rest, ⟨ahead, first⟩, ⟨ahead', second⟩, rfl⟩
    exact ⟨front, next, ahead, first,
      returns_bind.2 ⟨rest, stop, ahead', second, returns_ok.2 rfl⟩⟩

theorem structLoop_over (over_ : ¬ More source offset) :
    Returns (structLoop source offset) tokens stop ↔ tokens = [] ∧ stop = offset := by
  rw [structLoop, dif_neg over_, returns_ok, Prod.mk.injEq]

theorem processStruct_iff {inside : offset < source.size} :
    Returns (processStruct source offset isList inside) tokens stop ↔
      ∃ inner last, Returns (structLoop source (offset + 1)) inner last ∧
        tokens = Reading.structTokens isList offset inner last ∧ stop = last + 1 := by
  rw [processStruct, returns_bind]
  constructor
  · rintro ⟨inner, last, ahead, first, later⟩
    cases returns_ok.1 later
    exact ⟨inner, last, ⟨ahead, first⟩, rfl, rfl⟩
  · rintro ⟨inner, last, ⟨ahead, first⟩, rfl, rfl⟩
    exact ⟨inner, last, ahead, first, returns_ok.2 rfl⟩

theorem parseAt_iff (inside : offset < source.size) :
    Returns (parseAt source offset) tokens stop ↔
      (source.data[offset]? = some 105 ∧ Returns (processInteger source offset) tokens stop) ∨
      (∃ isList, source.data[offset]? = some (Reading.opening isList) ∧
        Returns (processStruct source offset isList inside) tokens stop) ∨
      (∃ c, source.data[offset]? = some c ∧ isDigit c ∧
        Returns (processString source offset) tokens stop) := by
  have same {r : Except Thrown { r : Parsed // offset < r.2 }} :
      Returns (r.map fun r =>
        (⟨r.1, fun _ => r.2⟩ : { r : Parsed // offset < source.size → offset < r.2 }))
        tokens stop ↔ Returns r tokens stop := by
    cases r with
    | error e => exact iff_of_false (fun ⟨_, eq⟩ => nomatch eq) fun ⟨_, eq⟩ => nomatch eq
    | ok r =>
      obtain ⟨v, hv⟩ := r
      exact returns_ok.trans returns_ok.symm
  rw [parseAt, dif_pos inside, same]
  constructor
  · intro h
    split at h
    · exact Or.inl ⟨by assumption, h⟩
    · exact Or.inr (Or.inl ⟨true, by assumption, h⟩)
    · exact Or.inr (Or.inl ⟨false, by assumption, h⟩)
    · split at h
      · rename_i digit
        obtain ⟨c, eq, digit⟩ := (Option.any_eq_true _ _).1 digit
        exact Or.inr (Or.inr ⟨c, eq, digit, h⟩)
      · obtain ⟨_, eq⟩ := h
        cases eq
  · rintro (⟨letter, h⟩ | ⟨isList, letter, h⟩ | ⟨c, letter, digit, h⟩)
    · simpa only [letter] using h
    · rw [letter]
      cases isList <;> exact h
    · rw [letter]
      split
      · exact absurd digit (by simp_all [isDigit])
      · exact absurd digit (by simp_all [isDigit])
      · exact absurd digit (by simp_all [isDigit])
      · rw [Option.any_some, if_pos digit]
        exact h

theorem drop_eq_cons {c : UInt8} (inside : offset < source.size)
    (letter : source.data[offset]? = some c) :
    source.bytes.drop offset = c :: source.bytes.drop (offset + 1) := by
  rw [source.data_getElem? inside] at letter
  obtain ⟨lt, eq⟩ := List.getElem?_eq_some_iff.1 letter
  rw [← eq, List.getElem_cons_drop]

/-- What `strtol` finds in front of a letter lies inside the text. -/
theorem number_inside (h : offset ≤ source.size)
    (letter : source.data[offset + (strtol (source.data.drop offset)).2]? = some c) (ne : c ≠ 0) :
    (strtol (source.data.drop offset) = (0, 0) ∧ ∃ rest, source.bytes.drop offset = c :: rest) ∨
      ∃ (n : Numeral) (rest : Bytes), source.bytes.drop offset = n.text ++ c :: rest ∧
        strtol (source.data.drop offset) =
          (max (-2 ^ 63) (min n.value (2 ^ 63 - 1)), n.text.length) := by
  obtain ⟨behind, memory⟩ := source.data_drop h
  rw [← List.getElem?_drop] at letter
  cases read : readInteger (source.data.drop offset) with
  | none =>
    have none_read : strtol (source.data.drop offset) = (0, 0) := by rw [strtol, read]
    rw [none_read, memory] at letter
    refine Or.inl ⟨none_read, ?_⟩
    cases at_offset : source.bytes.drop offset with
    | nil =>
      rw [at_offset] at letter
      exact absurd (Option.some.inj letter).symm ne
    | cons b rest =>
      rw [at_offset] at letter
      cases letter
      exact ⟨rest, rfl⟩
  | some found =>
    obtain ⟨value, length⟩ := found
    obtain ⟨n, rest, text_eq, stops, rfl, rfl⟩ := readInteger_some read
    have number : strtol (source.data.drop offset) =
        (max (-2 ^ 63) (min n.value (2 ^ 63 - 1)), n.text.length) := by rw [strtol, read]
    rw [number, text_eq, List.getElem?_append_right (Nat.le_refl _), Nat.sub_self] at letter
    cases rest with
    | nil => cases letter
    | cons b rest =>
      cases letter
      have front : source.bytes.drop offset ++ 0 :: behind = (n.text ++ [c]) ++ rest := by
        rw [← memory, text_eq, List.append_assoc, List.singleton_append]
      have no_nul : ∀ b ∈ n.text ++ [c], b ≠ 0 := by
        intro b hb
        rcases List.mem_append.1 hb with number | last
        · exact n.no_nul b number
        · rwa [List.mem_singleton.1 last]
      obtain ⟨rest', eq⟩ := prefix_before front no_nul
      refine Or.inr ⟨n, rest', ?_, number⟩
      rw [eq, List.append_assoc, List.singleton_append]

theorem processInteger_inv (inside : offset < source.size)
    (letter : source.data[offset]? = some 105)
    (h : Returns (processInteger source offset) tokens stop) :
    ∃ text rest, (text = [] ∨ ∃ n : Numeral, text = n.text) ∧
      source.bytes.drop offset = 105 :: text ++ 101 :: rest ∧
      tokens = [⟨.int, ⟨offset + 1, offset + 1 + text.length⟩⟩] ∧
      stop = offset + 1 + text.length + 1 := by
  have first := drop_eq_cons inside letter
  obtain ⟨ahead, eq⟩ := h
  simp only [processInteger] at eq
  split at eq
  · rename_i letter
    simp only [Except.ok.injEq, Subtype.mk.injEq, Prod.mk.injEq] at eq
    obtain ⟨rfl, rfl⟩ := eq
    rcases number_inside inside letter (by decide) with ⟨zero, rest, eq⟩ | ⟨n, rest, eq, value⟩
    · refine ⟨[], rest, Or.inl rfl, by rw [first, eq]; rfl, ?_⟩
      rw [zero]
      exact ⟨rfl, rfl⟩
    · refine ⟨n.text, rest, Or.inr ⟨n, rfl⟩, by rw [first, eq]; rfl, ?_⟩
      rw [value]
      exact ⟨rfl, rfl⟩
  · cases eq

/-- A numeral that starts with a digit has nothing in front of its digits. -/
theorem numeral_of_digit {n : Numeral} (at_front : n.text ++ x = c :: rest) (digit : isDigit c) :
    Reading.IsLength n.text ∧ n.value = digitsValue n.text := by
  obtain ⟨blanks, sign, digits, space, sign_eq, ne, all⟩ := n
  have unblank : blanks = [] := by
    cases blanks with
    | nil => rfl
    | cons b blanks =>
      cases at_front
      exact absurd (space c List.mem_cons_self) (not_space_of_digit digit)
  subst unblank
  have unsigned : sign = [] := by
    rcases sign_eq with rfl | rfl | rfl
    · rfl
    · cases at_front
      exact absurd digit (by decide)
    · cases at_front
      exact absurd digit (by decide)
  subst unsigned
  exact ⟨⟨ne, all⟩, rfl⟩

theorem processString_inv (inside : offset < source.size)
    (letter : source.data[offset]? = some c) (digit : isDigit c)
    (h : Returns (processString source offset) tokens stop) :
    ∃ length rest, Reading.IsLength length ∧
      source.bytes.drop offset = length ++ 58 :: rest ∧
      tokens = [⟨.str, ⟨offset + length.length + 1,
        offset + length.length + 1 + Reading.announced length⟩⟩] ∧
      stop = offset + length.length + 1 + Reading.announced length := by
  obtain ⟨ahead, eq⟩ := h
  simp only [processString] at eq
  split at eq
  · rename_i colon
    simp only [Except.ok.injEq, Subtype.mk.injEq, Prod.mk.injEq] at eq
    obtain ⟨rfl, rfl⟩ := eq
    rcases number_inside (Nat.le_of_lt inside) colon (by decide) with
      ⟨zero, rest, eq⟩ | ⟨n, rest, eq, value⟩
    · rw [zero, Nat.add_zero, letter] at colon
      cases colon
      exact absurd digit (by decide)
    · rw [source.data_getElem? inside, ← Nat.add_zero offset, ← List.getElem?_drop] at letter
      obtain ⟨b, rest', first⟩ := List.exists_cons_of_ne_nil (l := source.bytes.drop offset)
        (by rintro none; rw [none] at letter; cases letter)
      rw [first] at letter
      cases letter
      obtain ⟨valid, digits⟩ := numeral_of_digit (eq.symm.trans first) digit
      refine ⟨n.text, rest, valid, eq, ?_⟩
      have len : (max (-2 ^ 63) (min n.value (2 ^ 63 - 1))).toNat =
          Reading.announced n.text := by
        rw [digits, Reading.announced]
        omega
      rw [value]
      dsimp only
      rw [len]
      exact ⟨rfl, rfl⟩
  · cases eq

end BeParser

/-! ## A whole text -/

namespace Reading

theorem announced_of_fits {length body : Bytes} (eq : digitsValue length = body.length)
    (small : body.length < 2 ^ 63) : announced length = body.length := by
  rw [announced, eq]
  omega

theorem length_le_endsAt {f : Reading} (loose : f.Loose) (small : f.render.length < 2 ^ 63)
    (offset : Nat) : offset + f.render.length ≤ f.endsAt offset := by
  induction f generalizing offset with
  | stop => exact Nat.le_refl _
  | int text rest ih =>
    simp only [render, List.length_cons, List.length_append] at small ⊢
    have := ih loose.2 (by omega) (offset + 1 + text.length + 1)
    simp only [endsAt]
    omega
  | str length body rest ih =>
    simp only [render, List.length_cons, List.length_append] at small ⊢
    have := ih loose.2 (by omega) (offset + length.length + 1 + body.length)
    simp only [endsAt]
    omega
  | overlong length body =>
    have longer := loose.2
    simp only [render, List.length_cons, List.length_append, endsAt, announced] at small ⊢
    omega
  | closed isList inner rest inner_ih ih =>
    simp only [render, List.length_cons, List.length_append] at small ⊢
    have front := inner_ih loose.1.1 (by omega) (offset + 1)
    have back := ih loose.2 (by omega) (inner.endsAt (offset + 1) + 1)
    simp only [endsAt]
    omega
  | unclosed isList inner ih =>
    simp only [render, List.length_cons] at small ⊢
    have := ih loose (by omega) (offset + 1)
    simp only [endsAt]
    omega

/-- A reading that is not broken ends where its text does. -/
theorem endsAt_eq {f : Reading} (loose : f.Loose) (whole : ¬ f.Broken) (offset : Nat) :
    f.endsAt offset = offset + f.render.length := by
  induction f generalizing offset with
  | stop => rfl
  | int text rest ih =>
    simp only [render, endsAt, ih loose.2 whole, List.length_cons, List.length_append]
    omega
  | str length body rest ih =>
    simp only [render, endsAt, ih loose.2 whole, List.length_cons, List.length_append]
    omega
  | overlong length body => exact absurd trivial whole
  | closed isList inner rest inner_ih ih =>
    simp only [render, endsAt, inner_ih loose.1.1 loose.1.2, ih loose.2 whole, List.length_cons,
      List.length_append]
    omega
  | unclosed isList inner ih => exact absurd trivial whole

end Reading

/-- The text is the reading, up to an `e` or the end. -/
structure Reads (text : Bytes) (f : Reading) (x : Bytes) : Prop where
  loose : f.Loose
  text : text = f.render ++ x
  ends : x = [] ∨ ∃ y, x = 101 :: y
  broken : f.Broken → x = []

namespace Reads

variable {f g : Reading} {isList : Bool} {text length body x y : Bytes}

theorem ended (ends : x = [] ∨ ∃ y, x = 101 :: y) : Reads x .stop x :=
  ⟨trivial, rfl, ends, False.elim⟩

theorem int (valid : text = [] ∨ ∃ n : Numeral, text = n.text) (reads : Reads y f x) :
    Reads (105 :: text ++ 101 :: y) (.int text f) x := by
  refine ⟨⟨valid, reads.loose⟩, ?_, reads.ends, reads.broken⟩
  rw [reads.text]
  simp [Reading.render]

theorem str (fits : Reading.IsLength length ∧ digitsValue length = body.length)
    (reads : Reads y f x) : Reads (length ++ 58 :: (body ++ y)) (.str length body f) x := by
  refine ⟨⟨fits, reads.loose⟩, ?_, reads.ends, reads.broken⟩
  rw [reads.text]
  simp [Reading.render]

theorem overlong (valid : Reading.IsLength length) (longer : body.length < digitsValue length) :
    Reads (length ++ 58 :: body) (.overlong length body) [] := by
  refine ⟨⟨valid, longer⟩, ?_, Or.inl rfl, fun _ => rfl⟩
  rw [Reading.render, List.append_nil]

theorem closed (inner : Reads text g (101 :: y)) (reads : Reads y f x) :
    Reads (Reading.opening isList :: text) (.closed isList g f) x := by
  have whole : ¬ g.Broken := fun b => List.cons_ne_nil _ _ (inner.broken b)
  refine ⟨⟨⟨inner.loose, whole⟩, reads.loose⟩, ?_, reads.ends, reads.broken⟩
  rw [inner.text, reads.text]
  simp [Reading.render]

theorem unclosed (inner : Reads text g []) :
    Reads (Reading.opening isList :: text) (.unclosed isList g) [] := by
  refine ⟨inner.loose, ?_, Or.inl rfl, fun _ => rfl⟩
  rw [inner.text, Reading.render, List.append_nil, List.append_nil]

end Reads

namespace BeParser

variable {tokens : List BeToken} {isList : Bool}

theorem more_of {c : UInt8} (at_offset : source.bytes.drop offset = c :: rest) (ne : c ≠ 101) :
    More source offset ∧ source.data[offset]? = some c := by
  have letter : source.data[offset]? = some c := (source.data_behind [] at_offset).1
  refine ⟨⟨source.offset_lt [] at_offset, ?_⟩, letter⟩
  simp [letter, ne]

theorem not_more (at_offset : source.bytes.drop offset = x) (ends : x = [] ∨ ∃ y, x = 101 :: y) :
    ¬ More source offset := by
  rintro ⟨inside, other⟩
  rcases ends with rfl | ⟨y, rfl⟩
  · have length := congrArg List.length at_offset
    simp only [List.length_drop, StringWrapper.bytes_length, List.length_nil] at length
    omega
  · exact other (source.data_behind [] at_offset).1

theorem not_more_behind (h : source.size ≤ offset) : ¬ More source offset :=
  fun more => absurd more.1 (Nat.not_lt.2 h)

theorem parseAt_string {length : Bytes} (valid : Reading.IsLength length)
    (at_offset : source.bytes.drop offset = length ++ 58 :: rest)
    (first : Returns (processString source offset) tokens stop) :
    More source offset ∧ Returns (parseAt source offset) tokens stop := by
  obtain ⟨c, cs, rfl⟩ := List.exists_cons_of_ne_nil valid.1
  have digit := valid.2 c List.mem_cons_self
  obtain ⟨more, letter⟩ := more_of at_offset (by rintro rfl; exact absurd digit (by decide))
  exact ⟨more, (parseAt_iff more.1).2 (Or.inr (Or.inr ⟨c, letter, digit, first⟩))⟩

theorem parseAt_struct {inner : List BeToken}
    (at_offset : source.bytes.drop offset = Reading.opening isList :: rest)
    (first : Returns (structLoop source (offset + 1)) inner stop) :
    More source offset ∧
      Returns (parseAt source offset) (Reading.structTokens isList offset inner stop)
        (stop + 1) := by
  obtain ⟨more, letter⟩ := more_of at_offset (by cases isList <;> decide)
  exact ⟨more, (parseAt_iff more.1).2 (Or.inr (Or.inl ⟨isList, letter,
    processStruct_iff.2 ⟨inner, stop, first, rfl, rfl⟩⟩))⟩

theorem unclosed_over {g : Reading} (reads : Reads (source.bytes.drop (offset + 1)) g [])
    (opened : source.bytes.drop offset = Reading.opening isList :: (g.render ++ [])) :
    source.size ≤ g.endsAt (offset + 1) + 1 := by
  have small := source.small
  have size := congrArg List.length opened
  simp only [List.length_drop, StringWrapper.bytes_length, List.length_cons,
    List.append_nil] at size
  have := Reading.length_le_endsAt reads.loose (by omega) (offset + 1)
  omega

theorem structLoop_reads {f : Reading} :
    ∀ {offset : Nat} {x : Bytes}, Reads (source.bytes.drop offset) f x →
      Returns (structLoop source offset) (f.tokens offset) (f.endsAt offset) := by
  induction f with
  | stop =>
    intro offset x reads
    exact (structLoop_over (not_more reads.text reads.ends)).2 ⟨rfl, rfl⟩
  | int text rest ih =>
    intro offset x ⟨loose, at_offset, ends, broken⟩
    simp only [Reading.render, List.append_assoc, List.cons_append] at at_offset
    obtain ⟨more, letter⟩ := more_of at_offset (by decide)
    have first := processInteger_returns loose.1 at_offset
    have behind : source.bytes.drop (offset + 1 + text.length + 1) = rest.render ++ x :=
      source.drop_behind (105 :: text ++ [101]) (at_offset.trans (by simp)) (by simp; omega)
    exact (structLoop_more more).2 ⟨_, _, _, (parseAt_iff more.1).2 (Or.inl ⟨letter, first⟩),
      ih ⟨loose.2, behind, ends, broken⟩, rfl⟩
  | str length body rest ih =>
    intro offset x ⟨loose, at_offset, ends, broken⟩
    simp only [Reading.render, List.append_assoc, List.cons_append] at at_offset
    have small : body.length < 2 ^ 63 := by
      have := source.small
      have := source.offset_lt length at_offset
      have := congrArg List.length at_offset
      simp only [List.length_drop, StringWrapper.bytes_length, List.length_append,
        List.length_cons] at this
      omega
    have first := processString_returns loose.1.1 at_offset
    rw [Reading.announced_of_fits loose.1.2 small] at first
    have behind : source.bytes.drop (offset + length.length + 1 + body.length) =
        rest.render ++ x :=
      source.drop_behind (length ++ 58 :: body) (at_offset.trans (by simp)) (by simp; omega)
    obtain ⟨more, value⟩ := parseAt_string loose.1.1 at_offset first
    exact (structLoop_more more).2 ⟨_, _, _, value, ih ⟨loose.2, behind, ends, broken⟩, rfl⟩
  | overlong length body =>
    intro offset x ⟨loose, at_offset, ends, broken⟩
    cases broken trivial
    simp only [Reading.render, List.append_nil] at at_offset
    have first := processString_returns loose.1 at_offset
    obtain ⟨more, value⟩ := parseAt_string loose.1 at_offset first
    have behind : source.size ≤ offset + length.length + 1 + Reading.announced length := by
      have := source.small
      have longer := loose.2
      have := congrArg List.length at_offset
      simp only [List.length_drop, StringWrapper.bytes_length, List.length_append,
        List.length_cons] at this
      simp only [Reading.announced]
      omega
    exact (structLoop_more more).2 ⟨_, _, _, value,
      (structLoop_over (not_more_behind behind)).2 ⟨rfl, rfl⟩, rfl⟩
  | closed isList inner rest inner_ih ih =>
    intro offset x ⟨loose, at_offset, ends, broken⟩
    simp only [Reading.render, List.append_assoc, List.cons_append] at at_offset
    have inside : source.bytes.drop (offset + 1) = inner.render ++ 101 :: (rest.render ++ x) :=
      source.drop_behind [Reading.opening isList] at_offset rfl
    have value := parseAt_struct at_offset (inner_ih ⟨loose.1.1, inside, Or.inr ⟨_, rfl⟩,
      fun b => absurd b loose.1.2⟩)
    have behind : source.bytes.drop (inner.endsAt (offset + 1) + 1) = rest.render ++ x := by
      apply source.drop_behind (inner.render ++ [101]) (inside.trans (by simp))
      rw [Reading.endsAt_eq loose.1.1 loose.1.2, List.length_append, List.length_singleton,
        Nat.add_assoc]
    exact (structLoop_more value.1).2 ⟨_, _, _, value.2, ih ⟨loose.2, behind, ends, broken⟩, rfl⟩
  | unclosed isList inner ih =>
    intro offset x ⟨loose, at_offset, ends, broken⟩
    cases broken trivial
    simp only [Reading.render, List.append_nil] at at_offset
    have inside : source.bytes.drop (offset + 1) = inner.render ++ [] :=
      source.drop_behind [Reading.opening isList] (at_offset.trans (by simp)) rfl
    have reads : Reads (source.bytes.drop (offset + 1)) inner [] :=
      ⟨loose, inside, Or.inl rfl, fun _ => rfl⟩
    have value := parseAt_struct at_offset (ih reads)
    have opened : source.bytes.drop offset = Reading.opening isList :: (inner.render ++ []) := by
      rw [at_offset, List.append_nil]
    have behind := unclosed_over reads opened
    exact (structLoop_more value.1).2 ⟨_, _, _, value.2,
      (structLoop_over (not_more_behind behind)).2 ⟨rfl, rfl⟩, (List.append_nil _).symm⟩

/-- What the loop takes has a reading. -/
theorem reads_of_structLoop (h : Returns (structLoop source offset) tokens stop) :
    ∃ f x, Reads (source.bytes.drop offset) f x ∧ tokens = f.tokens offset ∧
      stop = f.endsAt offset := by
  induction hn : source.size - offset using Nat.strongRecOn generalizing offset tokens stop with
  | ind n ih =>
    by_cases more : More source offset
    · obtain ⟨front, next, rest, first, later, rfl⟩ := (structLoop_more more).1 h
      have inside := more.1
      have moved : offset < next := first.1 inside
      rcases (parseAt_iff inside).1 first with ⟨letter, value⟩ | ⟨isList, letter, value⟩ |
        ⟨c, letter, digit, value⟩
      · obtain ⟨text, y, valid, at_offset, rfl, rfl⟩ := processInteger_inv inside letter value
        obtain ⟨f, x, reads, rfl, rfl⟩ := ih _ (by omega) later rfl
        have behind : source.bytes.drop (offset + 1 + text.length + 1) = y :=
          source.drop_behind (105 :: text ++ [101]) (at_offset.trans (by simp)) (by simp; omega)
        rw [behind] at reads
        rw [at_offset]
        exact ⟨.int text f, x, .int valid reads, rfl, rfl⟩
      · obtain ⟨inner, last, looped, rfl, rfl⟩ := processStruct_iff.1 value
        obtain ⟨g, y, inside_reads, rfl, rfl⟩ := ih _ (by omega) looped rfl
        have first := drop_eq_cons inside letter
        have opened : source.bytes.drop offset =
            Reading.opening isList :: (g.render ++ y) := by
          rw [← inside_reads.text]
          exact first
        rw [first]
        rcases inside_reads.ends with rfl | ⟨y, rfl⟩
        · have behind := unclosed_over inside_reads opened
          obtain ⟨rfl, rfl⟩ := (structLoop_over (not_more_behind behind)).1 later
          exact ⟨.unclosed isList g, [], .unclosed inside_reads, List.append_nil _, rfl⟩
        · have whole : ¬ g.Broken := fun b => List.cons_ne_nil _ _ (inside_reads.broken b)
          obtain ⟨f, x, reads, rfl, rfl⟩ := ih _ (by omega) later rfl
          have behind : source.bytes.drop (g.endsAt (offset + 1) + 1) = y := by
            apply source.drop_behind (Reading.opening isList :: g.render ++ [101])
              (opened.trans (by simp))
            rw [Reading.endsAt_eq inside_reads.loose whole]
            simp only [List.length_append, List.length_cons, List.length_nil]
            omega
          rw [behind] at reads
          exact ⟨.closed isList g f, x, .closed inside_reads reads, rfl, rfl⟩
      · obtain ⟨length, y, valid, at_offset, rfl, rfl⟩ :=
          processString_inv inside letter digit value
        have size := congrArg List.length at_offset
        have small := source.small
        simp only [List.length_drop, StringWrapper.bytes_length, List.length_append,
          List.length_cons] at size
        by_cases fits : digitsValue length ≤ y.length
        · have body : digitsValue length = (y.take (digitsValue length)).length := by
            rw [List.length_take, Nat.min_eq_left fits]
          have len := Reading.announced_of_fits body (by omega)
          obtain ⟨f, x, reads, rfl, rfl⟩ := ih _ (by omega) later rfl
          have cut : source.bytes.drop offset =
              length ++ 58 :: (y.take (digitsValue length) ++ y.drop (digitsValue length)) := by
            rw [at_offset, List.take_append_drop]
          have behind : source.bytes.drop (offset + length.length + 1 +
              Reading.announced length) = y.drop (digitsValue length) := by
            apply source.drop_behind (length ++ 58 :: y.take (digitsValue length))
            · rw [cut, List.append_assoc, List.cons_append]
            · rw [len, List.length_append, List.length_cons]
              omega
          rw [behind] at reads
          rw [cut]
          refine ⟨.str length (y.take (digitsValue length)) f, x, .str ⟨valid, body⟩ reads, ?_, ?_⟩
          · rw [Reading.tokens, ← len]
            rfl
          · rw [Reading.endsAt, ← len]
        · have behind : source.size ≤ offset + length.length + 1 + Reading.announced length := by
            simp only [Reading.announced]
            omega
          obtain ⟨rfl, rfl⟩ := (structLoop_over (not_more_behind behind)).1 later
          rw [at_offset]
          exact ⟨.overlong length y, [], .overlong valid (Nat.lt_of_not_le fits), rfl, rfl⟩
    · obtain ⟨rfl, rfl⟩ := (structLoop_over more).1 h
      refine ⟨.stop, source.bytes.drop stop, .ended ?_, rfl, rfl⟩
      cases at_offset : source.bytes.drop stop with
      | nil => exact Or.inl rfl
      | cons c rest =>
        by_cases letter : c = 101
        · exact Or.inr ⟨rest, by rw [letter]⟩
        · exact absurd (more_of at_offset letter).1 more

theorem parseLoop_more (inside : offset < source.size) :
    parseLoop source offset = .ok tokens ↔
      ∃ front next rest, Returns (parseAt source offset) front next ∧
        parseLoop source next = .ok rest ∧ tokens = front ++ rest := by
  rw [parseLoop, dif_pos inside]
  cases first : parseAt source offset with
  | error e =>
    apply iff_of_false
    · exact fun eq => nomatch eq
    · rintro ⟨front, next, rest, ⟨ahead, eq⟩, -⟩
      cases eq
  | ok r =>
    obtain ⟨⟨front, next⟩, ahead⟩ := r
    constructor
    · intro h
      cases later : parseLoop source next with
      | error e =>
        simp only [bind, Except.bind, later] at h
        cases h
      | ok rest =>
        simp only [bind, Except.bind, later] at h
        cases h
        exact ⟨front, next, rest, ⟨ahead, rfl⟩, later, rfl⟩
    · rintro ⟨front', next', rest, ⟨ahead', eq⟩, later, rfl⟩
      cases eq
      simp only [bind, Except.bind, later]
      rfl

/-- A value starts with no `e`. -/
theorem more_of_parseAt (inside : offset < source.size)
    (h : Returns (parseAt source offset) tokens stop) : More source offset := by
  refine ⟨inside, fun letter => ?_⟩
  rcases (parseAt_iff inside).1 h with ⟨other, -⟩ | ⟨isList, other, -⟩ | ⟨c, other, digit, -⟩
  · rw [letter] at other
    cases other
  · rw [letter] at other
    cases isList <;> cases other
  · rw [letter] at other
    cases other
    exact absurd digit (by decide)

/-- The loop of `parse` takes what the loop of `process_struct` takes, unless
that one stops at an `e`. -/
theorem parseLoop_iff :
    parseLoop source offset = .ok tokens ↔
      ∃ stop, Returns (structLoop source offset) tokens stop ∧ source.size ≤ stop := by
  induction hn : source.size - offset using Nat.strongRecOn generalizing offset tokens with
  | ind n ih =>
    by_cases inside : offset < source.size
    · rw [parseLoop_more inside]
      constructor
      · rintro ⟨front, next, rest, first, later, rfl⟩
        have moved : offset < next := first.1 inside
        obtain ⟨stop, looped, behind⟩ := (ih _ (by omega) rfl).1 later
        exact ⟨stop, (structLoop_more (more_of_parseAt inside first)).2
          ⟨front, next, rest, first, looped, rfl⟩, behind⟩
      · rintro ⟨stop, looped, behind⟩
        by_cases more : More source offset
        · obtain ⟨front, next, rest, first, later, rfl⟩ := (structLoop_more more).1 looped
          have moved : offset < next := first.1 inside
          exact ⟨front, next, rest, first, (ih _ (by omega) rfl).2 ⟨stop, later, behind⟩, rfl⟩
        · obtain ⟨-, rfl⟩ := (structLoop_over more).1 looped
          exact absurd inside (Nat.not_lt.2 behind)
    · rw [parseLoop, dif_neg inside]
      have finished : ¬ More source offset := not_more_behind (Nat.le_of_not_lt inside)
      constructor
      · rintro ⟨⟩
        exact ⟨offset, (structLoop_over finished).2 ⟨rfl, rfl⟩, Nat.le_of_not_lt inside⟩
      · rintro ⟨stop, looped, -⟩
        rw [((structLoop_over finished).1 looped).1]

/-- **What the parser accepts.** It returns the tokens of a reading of the text,
and it accepts every text that has one. -/
theorem parse_eq_ok_iff :
    parse source = .ok tokens ↔
      ∃ f : Reading, f.Loose ∧ f.render = source.bytes ∧ tokens = f.tokens 0 := by
  rw [parse, parseLoop_iff]
  constructor
  · rintro ⟨stop, looped, behind⟩
    obtain ⟨f, x, reads, rfl, rfl⟩ := reads_of_structLoop looped
    refine ⟨f, reads.loose, ?_, rfl⟩
    have text := reads.text
    rw [List.drop_zero] at text
    have empty : x = [] := by
      by_contra ne
      have whole : ¬ f.Broken := fun b => ne (reads.broken b)
      rw [Reading.endsAt_eq reads.loose whole, Nat.zero_add, ← source.bytes_length, text,
        List.length_append] at behind
      exact ne (List.length_eq_zero_iff.1 (by omega))
    rw [text, empty, List.append_nil]
  · rintro ⟨f, loose, text, rfl⟩
    have reads : Reads (source.bytes.drop 0) f [] :=
      ⟨loose, by rw [List.drop_zero, List.append_nil, text], Or.inl rfl, fun _ => rfl⟩
    refine ⟨f.endsAt 0, structLoop_reads reads, ?_⟩
    have small := source.small
    rw [← source.bytes_length, ← text] at small ⊢
    have := Reading.length_le_endsAt loose small 0
    omega

end BeParser

end TorrentClient
