import TorrentClient.ParserBounds
import Mathlib.Data.List.Defs

/-!
# Texts that are not values

The parser accepts texts that are not values one after another. They are those
with a reading in which an integer has no digits, a string is announced longer
than what is left, a list or dictionary is broken off by the end of the input,
or a dictionary is not keys and values by turns.
-/

namespace TorrentClient

variable {f g : Reading} {text u v x y : Bytes} {c : UInt8}

namespace Reading

/-- Strings as keys and values by turns. A key is due where `key` holds. -/
def Alternates : Reading → Bool → Prop
  | stop, key => key = true
  | int _ rest, key => key = false ∧ rest.Alternates true
  | str _ _ rest, key => rest.Alternates !key
  | overlong _ _, _ => False
  | closed _ _ rest, key => key = false ∧ rest.Alternates true
  | unclosed _ _, _ => False

/-- Complete values: every integer has a digit, every string is as long as
announced, every list and dictionary is closed, and a dictionary has a value
for each of its keys. -/
def Complete : Reading → Prop
  | stop => True
  | int text rest => (∃ n : Numeral, text = n.text) ∧ rest.Complete
  | str length body rest => (IsLength length ∧ digitsValue length = body.length) ∧ rest.Complete
  | overlong _ _ => False
  | closed isList inner rest =>
    (inner.Complete ∧ (isList = false → inner.Alternates true)) ∧ rest.Complete
  | unclosed _ _ => False

def Flawed : Reading → Prop
  | stop => False
  | int text rest => text = [] ∨ rest.Flawed
  | str _ _ rest => rest.Flawed
  | overlong _ _ => True
  | closed isList inner rest =>
    (inner.Flawed ∨ isList = false ∧ ¬ inner.Alternates true) ∨ rest.Flawed
  | unclosed _ _ => True

theorem numeral_ne_nil (n : Numeral) : n.text ≠ [] := by
  intro empty
  simp only [Numeral.text, List.append_eq_nil_iff] at empty
  exact n.digits_ne empty.2

theorem Complete.not_broken (h : f.Complete) : ¬ f.Broken := by
  induction f with
  | stop => exact id
  | int text rest ih => exact ih h.2
  | str length body rest ih => exact ih h.2
  | overlong length body => exact h.elim
  | closed isList inner rest inner_ih ih => exact ih h.2
  | unclosed isList inner ih => exact h.elim

theorem Complete.loose (h : f.Complete) : f.Loose := by
  induction f with
  | stop => trivial
  | int text rest ih => exact ⟨Or.inr h.1, ih h.2⟩
  | str length body rest ih => exact ⟨h.1, ih h.2⟩
  | overlong length body => exact h.elim
  | closed isList inner rest inner_ih ih =>
    exact ⟨⟨inner_ih h.1.1, h.1.1.not_broken⟩, ih h.2⟩
  | unclosed isList inner ih => exact h.elim

theorem complete_iff (loose : f.Loose) : f.Complete ↔ ¬ f.Flawed := by
  induction f with
  | stop => exact ⟨fun _ => id, fun _ => trivial⟩
  | int text rest ih =>
    have digits : (∃ n : Numeral, text = n.text) ↔ text ≠ [] := by
      constructor
      · rintro ⟨n, rfl⟩
        exact numeral_ne_nil n
      · exact fun ne => loose.1.resolve_left ne
    rw [Complete, Flawed, ih loose.2, digits, not_or]
  | str length body rest ih => rw [Complete, Flawed, ih loose.2, and_iff_right loose.1]
  | overlong length body => exact iff_of_false id fun h => h trivial
  | closed isList inner rest inner_ih ih =>
    rw [Complete, Flawed, ih loose.2, inner_ih loose.1.1]
    tauto
  | unclosed isList inner ih => exact iff_of_false id fun h => h trivial

end Reading

/-! ## No text has two readings -/

theorem append_cons_inj {p : UInt8 → Bool} {a b : Bytes} (ha : ∀ x ∈ a, p x) (hb : ∀ x ∈ b, p x)
    (hc : ¬ p c) (eq : a ++ c :: u = b ++ c :: v) : a = b ∧ u = v := by
  have stop (w : Bytes) : ∀ x ∈ (c :: w).head?, ¬ p x := by
    intro x hx
    cases hx
    exact hc
  have front := (takeWhile_append_of_stop ha (stop u)).1
  rw [eq, (takeWhile_append_of_stop hb (stop v)).1] at front
  subst front
  exact ⟨rfl, (List.cons.inj (List.append_cancel_left eq)).2⟩

theorem Numeral.no_e (n : Numeral) : ∀ b ∈ n.text, b ≠ 101 := by
  rintro b hb rfl
  simp only [Numeral.text, List.mem_append] at hb
  rcases hb with (space | sign) | digit
  · exact absurd (n.blanks_space _ space) (by decide)
  · rcases n.sign_eq with h | h | h <;> rw [h] at sign <;> simp at sign
  · exact absurd (n.digits_digit _ digit) (by decide)

/-- What a reading starts with: nothing, an integer, a string, a list or dictionary. -/
def Reading.kind : Reading → Nat
  | stop => 0
  | int _ _ => 1
  | str _ _ _ => 2
  | overlong _ _ => 2
  | closed _ _ _ => 3
  | unclosed _ _ => 3

/-- The same by the first letter of the text. -/
def letterKind : Option UInt8 → Nat
  | none => 0
  | some c => if c = 101 then 0 else if c = 105 then 1 else if isDigit c then 2 else 3

theorem letterKind_digit (digit : isDigit c) : letterKind (some c) = 2 := by
  have not_e : c ≠ 101 := by
    rintro rfl
    exact absurd digit (by decide)
  have not_i : c ≠ 105 := by
    rintro rfl
    exact absurd digit (by decide)
  rw [letterKind, if_neg not_e, if_neg not_i, if_pos digit]

theorem Reads.kind_eq {s : Bytes} (h : Reads s f x) : f.kind = letterKind s.head? := by
  obtain ⟨loose, rfl, ends, -⟩ := h
  cases f with
  | stop =>
    rcases ends with rfl | ⟨y, rfl⟩
    · rfl
    · rfl
  | int text rest => rfl
  | str length body rest =>
    obtain ⟨c, cs, rfl⟩ := List.exists_cons_of_ne_nil loose.1.1.1
    exact (letterKind_digit (loose.1.1.2 c List.mem_cons_self)).symm
  | overlong length body =>
    obtain ⟨c, cs, rfl⟩ := List.exists_cons_of_ne_nil loose.1.1
    exact (letterKind_digit (loose.1.2 c List.mem_cons_self)).symm
  | closed isList inner rest => cases isList <;> rfl
  | unclosed isList inner => cases isList <;> rfl

theorem isInt_unique {t t' : Bytes} (h : t = [] ∨ ∃ n : Numeral, t = n.text)
    (h' : t' = [] ∨ ∃ n : Numeral, t' = n.text) (eq : t ++ 101 :: u = t' ++ 101 :: v) :
    t = t' ∧ u = v := by
  have no_e {t : Bytes} (h : t = [] ∨ ∃ n : Numeral, t = n.text) :
      ∀ b ∈ t, (fun b => decide (b ≠ 101)) b = true := by
    intro b hb
    rcases h with rfl | ⟨n, rfl⟩
    · cases hb
    · exact decide_eq_true (n.no_e b hb)
  exact append_cons_inj (no_e h) (no_e h') (by decide) eq

theorem isLength_unique {t t' : Bytes} (h : Reading.IsLength t) (h' : Reading.IsLength t')
    (eq : t ++ 58 :: u = t' ++ 58 :: v) : t = t' ∧ u = v :=
  append_cons_inj h.2 h'.2 (by decide) eq

section
variable {s : Bytes} {isList isList' : Bool} {inner rest : Reading}

theorem Reads.inner_closed (h : Reads s (.closed isList inner rest) x) :
    Reads s.tail inner (101 :: (rest.render ++ x)) where
  loose := h.loose.1.1
  text := by
    rw [h.text, Reading.render, List.cons_append, List.cons_append, List.tail_cons,
      List.append_assoc, List.cons_append]
  ends := Or.inr ⟨_, rfl⟩
  broken := fun b => absurd b h.loose.1.2

theorem Reads.inner_unclosed (h : Reads s (.unclosed isList inner) x) : Reads s.tail inner [] where
  loose := h.loose
  text := by
    rw [h.text, h.broken trivial, List.append_nil, List.append_nil, Reading.render,
      List.tail_cons]
  ends := Or.inl rfl
  broken := fun _ => rfl

theorem Reads.letter_closed (h : Reads s (.closed isList inner rest) x) :
    s.head? = some (Reading.opening isList) := by
  rw [h.text]
  rfl

theorem Reads.letter_unclosed (h : Reads s (.unclosed isList inner) x) :
    s.head? = some (Reading.opening isList) := by
  rw [h.text]
  rfl

theorem opening_unique (h : s.head? = some (Reading.opening isList))
    (h' : s.head? = some (Reading.opening isList')) : isList = isList' := by
  rw [h] at h'
  cases isList <;> cases isList' <;> simp_all [Reading.opening]

end

theorem fits_not_overlong {s length body length' body' : Bytes}
    (hf : Reads s (.str length body f) x) (hg : Reads s (.overlong length' body') y) : False := by
  cases hg.broken trivial
  have eq := hf.text.symm.trans hg.text
  simp only [Reading.render, List.append_assoc, List.cons_append, List.append_nil] at eq
  obtain ⟨rfl, rfl⟩ := isLength_unique hf.loose.1.1 hg.loose.1 eq
  have fits := hf.loose.1.2
  have longer := hg.loose.2
  simp only [List.length_append] at longer
  omega

/-- **No text has two readings.** -/
theorem Reads.unique {s : Bytes} (hf : Reads s f x) (hg : Reads s g y) : f = g ∧ x = y := by
  have same : f.kind = g.kind := hf.kind_eq.trans hg.kind_eq.symm
  induction f generalizing g s x y with
  | stop =>
    cases g with
    | stop => exact ⟨rfl, hf.text.symm.trans hg.text⟩
    | _ => exact absurd same (by simp [Reading.kind])
  | int text rest ih =>
    cases g with
    | int text' rest' =>
      have eq := hf.text.symm.trans hg.text
      simp only [Reading.render, List.cons_append, List.append_assoc, List.cons.injEq,
        true_and] at eq
      obtain ⟨rfl, later⟩ := isInt_unique hf.loose.1 hg.loose.1 eq
      have hf' : Reads (rest.render ++ x) rest x := ⟨hf.loose.2, rfl, hf.ends, hf.broken⟩
      have hg' : Reads (rest.render ++ x) rest' y := ⟨hg.loose.2, later, hg.ends, hg.broken⟩
      obtain ⟨rfl, rfl⟩ := ih hf' hg' (hf'.kind_eq.trans hg'.kind_eq.symm)
      exact ⟨rfl, rfl⟩
    | _ => exact absurd same (by simp [Reading.kind])
  | str length body rest ih =>
    cases g with
    | str length' body' rest' =>
      have eq := hf.text.symm.trans hg.text
      simp only [Reading.render, List.cons_append, List.append_assoc] at eq
      obtain ⟨rfl, behind⟩ := isLength_unique hf.loose.1.1 hg.loose.1.1 eq
      obtain ⟨rfl, later⟩ := List.append_inj behind (hf.loose.1.2.symm.trans hg.loose.1.2)
      have hf' : Reads (rest.render ++ x) rest x := ⟨hf.loose.2, rfl, hf.ends, hf.broken⟩
      have hg' : Reads (rest.render ++ x) rest' y := ⟨hg.loose.2, later, hg.ends, hg.broken⟩
      obtain ⟨rfl, rfl⟩ := ih hf' hg' (hf'.kind_eq.trans hg'.kind_eq.symm)
      exact ⟨rfl, rfl⟩
    | overlong length' body' => exact (fits_not_overlong hf hg).elim
    | _ => exact absurd same (by simp [Reading.kind])
  | overlong length body =>
    cases g with
    | str length' body' rest' => exact (fits_not_overlong hg hf).elim
    | overlong length' body' =>
      cases hf.broken trivial
      cases hg.broken trivial
      have eq := hf.text.symm.trans hg.text
      simp only [Reading.render, List.append_nil] at eq
      obtain ⟨rfl, rfl⟩ := isLength_unique hf.loose.1 hg.loose.1 eq
      exact ⟨rfl, rfl⟩
    | _ => exact absurd same (by simp [Reading.kind])
  | closed isList inner rest inner_ih ih =>
    have hf_inner := hf.inner_closed
    cases g with
    | closed isList' inner' rest' =>
      have hg_inner := hg.inner_closed
      cases opening_unique hf.letter_closed hg.letter_closed
      obtain ⟨rfl, behind⟩ := inner_ih hf_inner hg_inner
        (hf_inner.kind_eq.trans hg_inner.kind_eq.symm)
      have later := (List.cons.inj behind).2
      have hf' : Reads (rest.render ++ x) rest x := ⟨hf.loose.2, rfl, hf.ends, hf.broken⟩
      have hg' : Reads (rest.render ++ x) rest' y := ⟨hg.loose.2, later, hg.ends, hg.broken⟩
      obtain ⟨rfl, rfl⟩ := ih hf' hg' (hf'.kind_eq.trans hg'.kind_eq.symm)
      exact ⟨rfl, rfl⟩
    | unclosed isList' inner' =>
      have hg_inner := hg.inner_unclosed
      cases (inner_ih hf_inner hg_inner (hf_inner.kind_eq.trans hg_inner.kind_eq.symm)).2
    | _ => exact absurd same (by simp [Reading.kind])
  | unclosed isList inner ih =>
    have hf_inner := hf.inner_unclosed
    cases g with
    | closed isList' inner' rest' =>
      have hg_inner := hg.inner_closed
      cases (ih hf_inner hg_inner (hf_inner.kind_eq.trans hg_inner.kind_eq.symm)).2
    | unclosed isList' inner' =>
      have hg_inner := hg.inner_unclosed
      cases opening_unique hf.letter_unclosed hg.letter_unclosed
      cases hf.broken trivial
      cases hg.broken trivial
      rw [(ih hf_inner hg_inner (hf_inner.kind_eq.trans hg_inner.kind_eq.symm)).1]
      exact ⟨rfl, rfl⟩
    | _ => exact absurd same (by simp [Reading.kind])

/-! ## Accepted texts -/

/-- The spans of the strings and integers of complete values lie inside them. -/
theorem Reading.Complete.spans (h : f.Complete) {offset : Nat} {t : BeToken}
    (ht : t ∈ f.tokens offset) (leaf : t.type = .str ∨ t.type = .int) :
    t.data.start ≤ t.data.stop ∧ t.data.stop ≤ offset + f.render.length := by
  have inside := ((f.tokens_between offset).1 t ht).leaf leaf.symm
  rwa [Reading.endsAt_eq h.loose h.not_broken] at inside

/-- The text is complete values one after another, and the strings among its
tokens lie inside it. -/
def CompleteText (source : StringWrapper) (tokens : List BeToken) : Prop :=
  (∃ f : Reading, f.Complete ∧ f.render = source.bytes) ∧
    ∀ t ∈ tokens, t.type = .str → t.data.start ≤ t.data.stop ∧ t.data.stop ≤ source.size

theorem not_complete_of_flawed {source : StringWrapper} {tokens : List BeToken}
    (loose : f.Loose) (text : f.render = source.bytes) (flawed : f.Flawed) :
    ¬ CompleteText source tokens := by
  rintro ⟨⟨g, complete, same⟩, -⟩
  have hf : Reads source.bytes f [] :=
    ⟨loose, by rw [List.append_nil, text], Or.inl rfl, fun _ => rfl⟩
  have hg : Reads source.bytes g [] :=
    ⟨complete.loose, by rw [List.append_nil, same], Or.inl rfl, fun _ => rfl⟩
  obtain ⟨rfl, -⟩ := hf.unique hg
  exact (Reading.complete_iff loose).1 complete flawed

/-- **Which texts are accepted although they are not values.** They are those
with a flawed reading. -/
theorem BeParser.parse_complete_iff (source : StringWrapper) :
    (∀ tokens, parse source = .ok tokens → CompleteText source tokens) ↔
      ¬ ∃ f : Reading, f.Loose ∧ f.render = source.bytes ∧ f.Flawed := by
  constructor
  · rintro h ⟨f, loose, text, flawed⟩
    exact not_complete_of_flawed loose text flawed
      (h _ (parse_eq_ok_iff.2 ⟨f, loose, text, rfl⟩))
  · intro sound tokens accepted
    obtain ⟨f, loose, text, rfl⟩ := parse_eq_ok_iff.1 accepted
    have complete : f.Complete :=
      (Reading.complete_iff loose).2 fun flawed => sound ⟨f, loose, text, flawed⟩
    refine ⟨⟨f, complete, text⟩, fun t ht leaf => ?_⟩
    have inside := complete.spans ht (Or.inl leaf)
    rwa [Nat.zero_add, text, source.bytes_length] at inside

/-- An integer without a digit, a string of two bytes announced as five, a list
that is not closed, and a dictionary with an integer as its key. -/
def malformedTexts : List StringWrapper :=
  [.ofBytes (ascii "ie") (by decide), .ofBytes (ascii "5:ab") (by decide),
    .ofBytes (ascii "l") (by decide), .ofBytes (ascii "di1ei2ee") (by decide)]

theorem BeParser.parse_accepts_malformed :
    malformedTexts.Forall fun source => ∃ tokens,
      parse source = .ok tokens ∧ ¬ CompleteText source tokens := by
  have accepted (source : StringWrapper) (f : Reading) (loose : f.Loose)
      (text : f.render = source.bytes) (flawed : f.Flawed) :
      ∃ tokens, parse source = .ok tokens ∧ ¬ CompleteText source tokens :=
    ⟨f.tokens 0, parse_eq_ok_iff.2 ⟨f, loose, text, rfl⟩,
      not_complete_of_flawed loose text flawed⟩
  refine ⟨?_, ?_, ?_, ?_⟩
  · exact accepted _ (.int [] .stop) ⟨Or.inl rfl, trivial⟩ (by decide) (Or.inl rfl)
  · have digit : ∀ c ∈ [(53 : UInt8)], isDigit c := List.forall_mem_singleton.2 (by decide)
    exact accepted _ (.overlong [53] [97, 98]) ⟨⟨by decide, digit⟩, by decide⟩ (by decide) trivial
  · exact accepted _ (.unclosed true .stop) trivial (by decide) trivial
  · apply accepted _ (.closed false (.int [49] (.int [50] .stop)) .stop)
    · exact ⟨⟨⟨Or.inr ⟨decimalNumeral 1, by decide⟩, Or.inr ⟨decimalNumeral 2, by decide⟩,
        trivial⟩, id⟩, trivial⟩
    · decide
    · exact Or.inl (Or.inr ⟨rfl, fun key => absurd key.1 (by decide)⟩)

end TorrentClient
