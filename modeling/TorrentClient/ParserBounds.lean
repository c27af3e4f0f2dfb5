import TorrentClient.Readings

/-!
# Where the parser reads, and the order of its tokens

`BeParser` with every access to the memory of the source checked: it reads
nothing behind the NUL (`Checked.parse_eq`). The tokens it returns come in groups
and in the order of the text, also where the text is malformed.
-/

namespace TorrentClient

/-- The number of bytes in front of the first one that is not part of a number. -/
def scanned (text : List UInt8) : Nat :=
  let blanks := text.takeWhile isSpace
  let signed := text.dropWhile isSpace
  let sign := signOf signed
  blanks.length + sign.length + ((signed.drop sign.length).takeWhile isDigit).length

theorem scanned_le (text : List UInt8) : scanned text ≤ text.length := by
  have blanks := congrArg List.length (List.takeWhile_append_dropWhile (p := isSpace) (l := text))
  have sign := congrArg List.length (signOf_append (text.dropWhile isSpace))
  have digits := (List.takeWhile_prefix isDigit
    (l := (text.dropWhile isSpace).drop (signOf (text.dropWhile isSpace)).length)).length_le
  simp only [List.length_append] at blanks sign
  simp only [scanned]
  omega

theorem while_append_cons {p : UInt8 → Bool} {c : UInt8} (other : ¬ p c) (behind : List UInt8)
    (front : List UInt8) :
    (front ++ c :: behind).takeWhile p = front.takeWhile p ∧
      (front ++ c :: behind).dropWhile p = front.dropWhile p ++ c :: behind := by
  induction front with
  | nil => simp [other]
  | cons b front ih =>
    by_cases passes : p b
    · simp [passes, ih]
    · simp [passes]

/-- A byte that is part of no number ends the scan. -/
theorem scanned_append {c : UInt8} (digit : ¬ isDigit c) (space : ¬ isSpace c)
    (sign : c ≠ 43 ∧ c ≠ 45) (front behind : List UInt8) :
    scanned (front ++ c :: behind) ≤ front.length := by
  have same : scanned (front ++ c :: behind) = scanned front := by
    obtain ⟨blanks, signed⟩ := while_append_cons space behind front
    have signs : signOf (front.dropWhile isSpace ++ c :: behind) =
        signOf (front.dropWhile isSpace) := by
      cases front.dropWhile isSpace with
      | nil => simp [signOf, sign.1, sign.2]
      | cons b rest => simp [signOf]
    have short : (signOf (front.dropWhile isSpace)).length ≤ (front.dropWhile isSpace).length := by
      apply Nat.le_trans (List.length_filter_le _ _)
      exact List.length_take_le' _ _
    have digits := (while_append_cons digit behind ((front.dropWhile isSpace).drop
      (signOf (front.dropWhile isSpace)).length)).1
    simp only [scanned, blanks, signed, signs, List.drop_append_of_le_length short, digits]
  rw [same]
  exact scanned_le front

theorem strtol_le_scanned (text : List UInt8) : (strtol text).2 ≤ scanned text := by
  unfold strtol
  split
  · exact Nat.zero_le _
  · rename_i value stop found
    unfold readInteger at found
    dsimp only at found
    split at found
    · cases found
    · cases found
      exact Nat.le_refl _

namespace BeParser.Checked

/-- A result, an exception, or `none` for an access to a byte behind the NUL. -/
abbrev Access (α : Type) := Except (Option Thrown) α

/-- `*(BEGIN + i)` -/
def byteAt (source : StringWrapper) (i : Nat) : Access UInt8 :=
  if i ≤ source.size then .ok (source.data.getD i 0) else .error none

/-- `strtol`, which looks at the bytes up to the first one that is not part of a number. -/
def strtolAt (source : StringWrapper) (i : Nat) : Access (Int × Nat) :=
  let text := source.data.drop i
  if i + scanned text ≤ source.size then .ok (strtol text) else .error none

theorem lt_behind_integer (offset digits : Nat) : offset < offset + 1 + digits + 1 := by omega

theorem lt_behind_string (offset digits length : Nat) :
    offset < offset + digits + 1 + length := by omega

def processInteger (source : StringWrapper) (offset : Nat) :
    Access { r : Parsed // offset < r.2 } := do
  let (_, digits) ← strtolAt source (offset + 1)
  let c ← byteAt source (offset + 1 + digits)
  if c = 101 then
    return ⟨([⟨.int, ⟨offset + 1, offset + 1 + digits⟩⟩], offset + 1 + digits + 1),
      lt_behind_integer offset digits⟩
  else throw (some (.runtimeError "invalid integer format"))

def processString (source : StringWrapper) (offset : Nat) :
    Access { r : Parsed // offset < r.2 } := do
  let (len, digits) ← strtolAt source offset
  let c ← byteAt source (offset + digits)
  if c = 58 then
    let length := len.toNat
    return ⟨([⟨.str, ⟨offset + digits + 1, offset + digits + 1 + length⟩⟩],
      offset + digits + 1 + length), lt_behind_string offset digits length⟩
  else throw (some (.runtimeError "invalid string format"))

mutual

def processStruct (source : StringWrapper) (offset : Nat) (isList : Bool)
    (_ : offset < source.size) : Access { r : Parsed // offset < r.2 } := do
  let ⟨(tokens, stop), ahead⟩ ← structLoop source (offset + 1)
  let first := ⟨if isList then .listStart else .dictStart, ⟨offset, 0⟩⟩
  let last := ⟨if isList then .listEnd else .dictEnd, ⟨stop, 0⟩⟩
  return ⟨(first :: tokens ++ [last], stop + 1), by omega⟩
termination_by (source.size - offset, 0)
decreasing_by exact Prod.Lex.left _ _ (by omega)

def structLoop (source : StringWrapper) (offset : Nat) :
    Access { r : Parsed // offset ≤ r.2 } :=
  if inside : offset < source.size then do
    let c ← byteAt source offset
    if c = 101 then return ⟨([], offset), Nat.le_refl _⟩
    else
      let ⟨(tokens, next), ahead⟩ ← parseAt source offset
      have moved : offset < next := ahead inside
      let ⟨(rest, stop), ahead'⟩ ← structLoop source next
      return ⟨(tokens ++ rest, stop), by omega⟩
  else .ok ⟨([], offset), Nat.le_refl _⟩
termination_by (source.size - offset, 2)
decreasing_by
  · exact Prod.Lex.right _ (by decide)
  · exact Prod.Lex.left _ _ (by omega)

def parseAt (source : StringWrapper) (offset : Nat) :
    Access { r : Parsed // offset < source.size → offset < r.2 } :=
  if inside : offset < source.size then do
    let c ← byteAt source offset
    Except.map (fun r => ⟨r.1, fun _ => r.2⟩)
      (match c with
      | 105 => processInteger source offset
      | 108 => processStruct source offset true inside
      | 100 => processStruct source offset false inside
      | c =>
        if isDigit c then processString source offset
        else throw (some (.runtimeError "invalid be data")))
  else .ok ⟨([], offset), fun h => absurd h inside⟩
termination_by (source.size - offset, 1)
decreasing_by all_goals exact Prod.Lex.right _ (by decide)

end

def parseLoop (source : StringWrapper) (offset : Nat) : Access (List BeToken) :=
  if more : offset < source.size then do
    let ⟨(tokens, next), ahead⟩ ← parseAt source offset
    have _moved : offset < next := ahead more
    let rest ← parseLoop source next
    return tokens ++ rest
  else .ok []
termination_by source.size - offset

def parse (source : StringWrapper) : Access (List BeToken) := parseLoop source 0

/-! ## Every access is inside -/

variable {source : StringWrapper} {offset : Nat}

theorem byteAt_inside (h : offset ≤ source.size) :
    ∃ c, byteAt source offset = .ok c ∧ source.data[offset]? = some c := by
  have inside : offset < source.data.length := Nat.lt_of_le_of_lt h source.size_lt
  refine ⟨source.data.getD offset 0, if_pos h, ?_⟩
  simp [List.getD, List.getElem?_eq_getElem inside]

/-- `strtol` stops at the NUL at the latest. -/
theorem strtolAt_inside (h : offset ≤ source.size) :
    strtolAt source offset = .ok (strtol (source.data.drop offset)) ∧
      offset + (strtol (source.data.drop offset)).2 ≤ source.size := by
  obtain ⟨behind, memory⟩ := source.data_drop h
  have stops := scanned_append (c := 0) (by decide) (by decide) (by decide)
    (source.bytes.drop offset) behind
  rw [← memory, List.length_drop, source.bytes_length] at stops
  constructor
  · apply if_pos
    omega
  · have := strtol_le_scanned (source.data.drop offset)
    omega

/-- The result of a function whose accesses are not checked. -/
def within {α : Type} (r : Except Thrown α) : Access α := r.mapError some

theorem within_map {α β : Type} (f : α → β) (r : Except Thrown α) :
    within (r.map f) = (within r).map f := by
  cases r <;> rfl

theorem processInteger_eq (inside : offset < source.size) :
    processInteger source offset = within (BeParser.processInteger source offset) := by
  obtain ⟨read, stop⟩ := @strtolAt_inside source _ inside
  obtain ⟨c, access, letter⟩ := byteAt_inside stop
  simp only [processInteger, BeParser.processInteger, read, letter, Option.some.injEq]
  simp only [bind, Except.bind, access]
  split <;> rfl

theorem processString_eq (inside : offset < source.size) :
    processString source offset = within (BeParser.processString source offset) := by
  obtain ⟨read, stop⟩ := strtolAt_inside (Nat.le_of_lt inside)
  obtain ⟨c, access, letter⟩ := byteAt_inside stop
  simp only [processString, BeParser.processString, read, letter, Option.some.injEq]
  simp only [bind, Except.bind, access]
  split <;> rfl

theorem processStruct_eq {isList : Bool} (inside : offset < source.size)
    (looped : structLoop source (offset + 1) =
      within (BeParser.structLoop source (offset + 1))) :
    processStruct source offset isList inside =
      within (BeParser.processStruct source offset isList inside) := by
  rw [processStruct, BeParser.processStruct, looped]
  cases BeParser.structLoop source (offset + 1) <;> rfl

theorem parseAt_eq
    (looped : structLoop source (offset + 1) =
      within (BeParser.structLoop source (offset + 1))) :
    parseAt source offset = within (BeParser.parseAt source offset) := by
  rw [parseAt, BeParser.parseAt]
  by_cases inside : offset < source.size
  · obtain ⟨c, access, letter⟩ := byteAt_inside (Nat.le_of_lt inside)
    have number := processInteger_eq inside
    have string := processString_eq inside
    have list := @processStruct_eq _ _ true inside looped
    have dict := @processStruct_eq _ _ false inside looped
    rw [dif_pos inside, dif_pos inside, access, letter, within_map]
    apply congrArg (Except.map _)
    split
    · exact number
    · exact list
    · exact dict
    · rename_i int list dict
      by_cases digit : isDigit c
      · rw [if_pos digit, string]
        split
        · simp_all
        · simp_all
        · simp_all
        · rw [Option.any_some, if_pos digit]
      · rw [if_neg digit]
        split
        · simp_all
        · simp_all
        · simp_all
        · rw [Option.any_some, if_neg digit]
          rfl
  · rw [dif_neg inside, dif_neg inside]
    rfl

theorem structLoop_eq (source : StringWrapper) (offset : Nat) :
    structLoop source offset = within (BeParser.structLoop source offset) := by
  induction left : source.size - offset using Nat.strongRecOn generalizing offset with
  | ind n ih =>
    rw [structLoop, BeParser.structLoop]
    by_cases inside : offset < source.size
    · have value := parseAt_eq (ih _ (by omega) (offset + 1) rfl)
      obtain ⟨c, access, letter⟩ := byteAt_inside (Nat.le_of_lt inside)
      rw [dif_pos inside, access, value]
      by_cases closes : c = 101
      · rw [dif_neg (by simp [letter, closes])]
        exact if_pos closes
      · rw [dif_pos ⟨inside, by simp [letter, closes]⟩]
        apply (if_neg closes).trans
        cases BeParser.parseAt source offset with
        | error e => rfl
        | ok r =>
          obtain ⟨⟨tokens, next⟩, ahead⟩ := r
          have later := ih (source.size - next) (by have := ahead inside; omega) next rfl
          simp only [within, Except.mapError, bind, Except.bind] at later ⊢
          rw [later]
          cases BeParser.structLoop source next <;> rfl
    · rw [dif_neg inside, dif_neg fun more => inside more.1]
      rfl

theorem parseLoop_eq (source : StringWrapper) (offset : Nat) :
    parseLoop source offset = within (BeParser.parseLoop source offset) := by
  induction left : source.size - offset using Nat.strongRecOn generalizing offset with
  | ind n ih =>
    rw [parseLoop, BeParser.parseLoop]
    by_cases inside : offset < source.size
    · rw [dif_pos inside, dif_pos inside, parseAt_eq (structLoop_eq source (offset + 1))]
      cases BeParser.parseAt source offset with
      | error e => rfl
      | ok r =>
        obtain ⟨⟨tokens, next⟩, ahead⟩ := r
        have later := ih (source.size - next) (by have := ahead inside; omega) next rfl
        simp only [within, Except.mapError, bind, Except.bind] at later ⊢
        rw [later]
        cases BeParser.parseLoop source next <;> rfl
    · rw [dif_neg inside, dif_neg inside]
      rfl

/-- The parser reads nothing behind the NUL. -/
theorem parse_eq (source : StringWrapper) :
    parse source = within (BeParser.parse source) :=
  parseLoop_eq source 0

end BeParser.Checked

/-! ## Groups, in the order of the text -/

def BeToken.IsLeaf (t : BeToken) : Prop := t.type = .int ∨ t.type = .str

/-- Leaves and groups one after another. A group starts and ends with the tokens of
a list, or with those of a dictionary. -/
inductive Grouped : List BeToken → Prop
  | nil : Grouped []
  | leaf {t : BeToken} {rest : List BeToken} : t.IsLeaf → Grouped rest → Grouped (t :: rest)
  | group {first last : BeToken} {inner rest : List BeToken} :
      (first.type = .listStart ∧ last.type = .listEnd) ∨
        (first.type = .dictStart ∧ last.type = .dictEnd) →
      Grouped inner → Grouped rest → Grouped (first :: inner ++ last :: rest)

/-- The token does not start behind the other, and if it is a leaf it ends in front of it. -/
def BeToken.Before (t u : BeToken) : Prop :=
  t.data.start ≤ u.data.start ∧ (t.IsLeaf → t.data.stop ≤ u.data.start)

/-- The token lies between two offsets. -/
structure BeToken.Between (lo hi : Nat) (t : BeToken) : Prop where
  lo_le : lo ≤ t.data.start
  le_hi : t.data.start ≤ hi
  leaf : t.IsLeaf → t.data.start ≤ t.data.stop ∧ t.data.stop ≤ hi

theorem BeToken.Between.mono {lo lo' hi hi' : Nat} {t : BeToken} (h : t.Between lo hi)
    (below : lo' ≤ lo) (above : hi ≤ hi') : t.Between lo' hi' where
  lo_le := Nat.le_trans below h.lo_le
  le_hi := Nat.le_trans h.le_hi above
  leaf leaf := ⟨(h.leaf leaf).1, Nat.le_trans (h.leaf leaf).2 above⟩

theorem BeToken.Between.before {lo mid hi : Nat} {t u : BeToken} (h : t.Between lo mid)
    (h' : u.Between mid hi) : t.Before u :=
  ⟨Nat.le_trans h.le_hi h'.lo_le, fun leaf => Nat.le_trans (h.leaf leaf).2 h'.lo_le⟩

theorem BeToken.Between.span {type : TokenType} {lo start stop hi : Nat} (below : lo ≤ start)
    (ordered : start ≤ stop) (above : stop ≤ hi) : BeToken.Between lo hi ⟨type, ⟨start, stop⟩⟩ where
  lo_le := below
  le_hi := Nat.le_trans ordered above
  leaf _ := ⟨ordered, above⟩

/-- The letters of a list or dictionary as tokens. -/
theorem BeToken.Between.mark (isStart isList : Bool) {offset lo hi : Nat} (below : lo ≤ offset)
    (above : offset ≤ hi) : BeToken.Between lo hi ⟨if isStart then
      if isList then .listStart else .dictStart else if isList then .listEnd else .dictEnd,
      ⟨offset, 0⟩⟩ where
  lo_le := below
  le_hi := above
  leaf leaf := by cases isStart <;> cases isList <;> simp [IsLeaf] at leaf

namespace Reading

theorem tokens_grouped (f : Reading) (offset : Nat) : Grouped (f.tokens offset) := by
  induction f generalizing offset with
  | stop => exact .nil
  | int text rest ih => exact .leaf (Or.inl rfl) (ih _)
  | str length body rest ih => exact .leaf (Or.inr rfl) (ih _)
  | overlong length body => exact .leaf (Or.inr rfl) .nil
  | closed isList inner rest inner_ih ih =>
    rw [tokens, structTokens, List.append_assoc]
    apply Grouped.group ?_ (inner_ih _) (ih _)
    cases isList
    · exact Or.inr ⟨rfl, rfl⟩
    · exact Or.inl ⟨rfl, rfl⟩
  | unclosed isList inner ih =>
    apply Grouped.group ?_ (ih _) .nil
    cases isList
    · exact Or.inr ⟨rfl, rfl⟩
    · exact Or.inl ⟨rfl, rfl⟩

theorem le_endsAt (f : Reading) (offset : Nat) : offset ≤ f.endsAt offset := by
  induction f generalizing offset with
  | stop => exact Nat.le_refl _
  | int text rest ih =>
    apply Nat.le_trans ?_ (ih _)
    omega
  | str length body rest ih =>
    apply Nat.le_trans ?_ (ih _)
    omega
  | overlong length body =>
    simp only [endsAt]
    omega
  | closed isList inner rest inner_ih ih =>
    have := inner_ih (offset + 1)
    apply Nat.le_trans ?_ (ih _)
    omega
  | unclosed isList inner ih =>
    have := ih (offset + 1)
    simp only [endsAt]
    omega

/-- The tokens of a list or dictionary, from those inside it. -/
theorem structTokens_between {isList : Bool} {offset stop : Nat} {inner : List BeToken}
    (ahead : offset + 1 ≤ stop)
    (inside : (∀ t ∈ inner, t.Between (offset + 1) stop) ∧ inner.Pairwise BeToken.Before) :
    (∀ t ∈ structTokens isList offset inner stop, t.Between offset (stop + 1)) ∧
      (structTokens isList offset inner stop).Pairwise BeToken.Before := by
  have first : BeToken.Between offset (offset + 1)
      ⟨if isList then .listStart else .dictStart, ⟨offset, 0⟩⟩ :=
    BeToken.Between.mark true isList (Nat.le_refl _) (Nat.le_succ _)
  have last : BeToken.Between stop (stop + 1)
      ⟨if isList then .listEnd else .dictEnd, ⟨stop, 0⟩⟩ :=
    BeToken.Between.mark false isList (Nat.le_refl _) (Nat.le_succ _)
  obtain ⟨between, before⟩ := inside
  simp only [structTokens, List.cons_append, List.mem_cons, List.mem_append, List.not_mem_nil,
    or_false, List.pairwise_cons, List.pairwise_append]
  refine ⟨?_, ?_, before, ⟨by simp, .nil⟩, ?_⟩
  · rintro t (rfl | ht | rfl)
    · exact first.mono (Nat.le_refl _) (by omega)
    · exact (between t ht).mono (by omega) (by omega)
    · exact last.mono (by omega) (Nat.le_refl _)
  · rintro t (ht | rfl)
    · exact first.before (between t ht)
    · exact first.before (last.mono ahead (Nat.le_refl _))
  · rintro t ht _ rfl
    exact (between t ht).before last

/-- The tokens of a reading lie inside it, one behind the other. -/
theorem tokens_between (f : Reading) (offset : Nat) :
    (∀ t ∈ f.tokens offset, t.Between offset (f.endsAt offset)) ∧
      (f.tokens offset).Pairwise BeToken.Before := by
  have leaf {t : BeToken} {rest : List BeToken} {lo mid hi : Nat} (is : t.Between lo mid)
      (reaches : lo ≤ mid ∧ mid ≤ hi)
      (later : (∀ u ∈ rest, u.Between mid hi) ∧ rest.Pairwise BeToken.Before) :
      (∀ u ∈ t :: rest, u.Between lo hi) ∧ (t :: rest).Pairwise BeToken.Before := by
    refine ⟨?_, List.pairwise_cons.2 ⟨fun u hu => is.before (later.1 u hu), later.2⟩⟩
    intro u hu
    cases hu with
    | head => exact is.mono (Nat.le_refl _) reaches.2
    | tail _ hu => exact (later.1 u hu).mono reaches.1 (Nat.le_refl _)
  induction f generalizing offset with
  | stop => exact ⟨by simp [tokens], .nil⟩
  | int text rest ih =>
    exact leaf (.span (by omega) (by omega) (Nat.le_succ _)) ⟨by omega, le_endsAt _ _⟩ (ih _)
  | str length body rest ih =>
    exact leaf (.span (by omega) (by omega) (Nat.le_refl _)) ⟨by omega, le_endsAt _ _⟩ (ih _)
  | overlong length body =>
    simp only [endsAt]
    exact leaf (.span (by omega) (by omega) (Nat.le_refl _)) ⟨by omega, Nat.le_refl _⟩
      ⟨by simp, .nil⟩
  | closed isList inner rest inner_ih ih =>
    have front := @structTokens_between isList _ _ _ (le_endsAt inner (offset + 1))
      (inner_ih (offset + 1))
    have back := ih (inner.endsAt (offset + 1) + 1)
    have start := le_endsAt inner (offset + 1)
    have stop := le_endsAt rest (inner.endsAt (offset + 1) + 1)
    refine ⟨?_, List.pairwise_append.2 ⟨front.2, back.2, ?_⟩⟩
    · intro t ht
      cases List.mem_append.1 ht with
      | inl ht => exact (front.1 t ht).mono (Nat.le_refl _) stop
      | inr ht => exact (back.1 t ht).mono (by omega) (Nat.le_refl _)
    · exact fun t ht u hu => (front.1 t ht).before (back.1 u hu)
  | unclosed isList inner ih =>
    exact structTokens_between (le_endsAt inner (offset + 1)) (ih (offset + 1))

/-- How far behind its text a reading can end: the `e` of each list that is
broken off, and what a string is announced longer. -/
theorem endsAt_le {f : Reading} (loose : f.Loose) (offset : Nat) :
    f.endsAt offset ≤ offset + 2 * f.render.length + (2 ^ 63 - 1) := by
  induction f generalizing offset with
  | stop => simp only [endsAt]; omega
  | int text rest ih =>
    have := ih loose.2 (offset + 1 + text.length + 1)
    simp only [endsAt, render, List.length_cons, List.length_append]
    omega
  | str length body rest ih =>
    have := ih loose.2 (offset + length.length + 1 + body.length)
    simp only [endsAt, render, List.length_cons, List.length_append]
    omega
  | overlong length body =>
    simp only [endsAt, render, announced, List.length_cons, List.length_append]
    omega
  | closed isList inner rest inner_ih ih =>
    have := ih loose.2 (inner.endsAt (offset + 1) + 1)
    have := endsAt_eq loose.1.1 loose.1.2 (offset + 1)
    simp only [endsAt, render, List.length_cons, List.length_append]
    omega
  | unclosed isList inner ih =>
    have := ih loose (offset + 1)
    simp only [endsAt, render, List.length_cons]
    omega

end Reading

/-- What every token list is that the parser returns. -/
structure InOrder (tokens : List BeToken) : Prop where
  grouped : Grouped tokens
  starts : tokens.Pairwise fun t u => t.data.start ≤ u.data.start
  spans : ∀ t ∈ tokens, t.IsLeaf → t.data.start ≤ t.data.stop
  apart : tokens.Pairwise fun t u => t.IsLeaf → t.data.stop ≤ u.data.start
  /-- No position wraps. -/
  words : ∀ t ∈ tokens, t.data.start < 2 ^ 64 ∧ (t.IsLeaf → t.data.stop < 2 ^ 64)

/-- **What the parser does with any bytes.** It returns or throws, looks at no byte
behind the NUL, and what it returns is leaves and groups in the order of the text. -/
theorem BeParser.parse_inOrder (source : StringWrapper) (short : source.size < 2 ^ 62) :
    Checked.parse source = Checked.within (parse source) ∧
      ∀ tokens, parse source = .ok tokens → InOrder tokens := by
  refine ⟨Checked.parse_eq source, ?_⟩
  intro tokens returned
  obtain ⟨f, loose, text, rfl⟩ := parse_eq_ok_iff.1 returned
  obtain ⟨between, before⟩ := f.tokens_between 0
  have last : f.endsAt 0 < 2 ^ 64 := by
    have := Reading.endsAt_le loose 0
    rw [text, source.bytes_length] at this
    omega
  refine ⟨f.tokens_grouped 0, before.imp fun h => h.1, ?_, before.imp fun h => h.2, ?_⟩
  · exact fun t ht leaf => ((between t ht).leaf leaf).1
  · intro t ht
    refine ⟨Nat.lt_of_le_of_lt (between t ht).le_hi last, ?_⟩
    exact fun leaf => Nat.lt_of_le_of_lt ((between t ht).leaf leaf).2 last

/-- A list that is broken off, in a string that is announced too long. -/
theorem BeParser.parse_inOrder_broken :
    let source : StringWrapper := .ofBytes (ascii "l5:ab") (by decide)
    Checked.parse source = Checked.within (parse source) ∧
      ∀ tokens, parse source = .ok tokens → InOrder tokens := by
  intro source
  exact parse_inOrder source (by decide)

end TorrentClient
