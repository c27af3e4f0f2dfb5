import Mathlib.Tactic.Common

/-!
# Queries

The query of a URL is what stands behind its first `?`: fields between `&`, each of them a name
and a value around a `=`. A byte may be written as a `%` and two hexadecimal digits.

* `read_append`: a query that is added behind another one is read behind it;
* `read_write`: fields that spell names and values are read as these.
-/

namespace TorrentClient.Query

/-- The number that a hexadecimal digit stands for. -/
def hexValue (c : UInt8) : Option UInt8 :=
  if 48 ≤ c ∧ c ≤ 57 then some (c - 48)
  else if 65 ≤ c ∧ c ≤ 70 then some (c - 55)
  else if 97 ≤ c ∧ c ≤ 102 then some (c - 87)
  else none

/-- The bytes that a text stands for. -/
def unescape : List UInt8 → Option (List UInt8)
  | [] => some []
  | c :: text =>
    if c = 37 then
      match text with
      | high :: low :: text =>
        (hexValue high).bind fun h => (hexValue low).bind fun l =>
          (unescape text).map ((16 * h + l) :: ·)
      | _ => none
    else (unescape text).map (c :: ·)

/-- The name and the value of a field. -/
def readField (text : List UInt8) : Option (List UInt8 × List UInt8) :=
  (unescape (text.takeWhile (· ≠ 61))).bind fun name =>
    (unescape ((text.dropWhile (· ≠ 61)).drop 1)).map fun value => (name, value)

/-- The fields of a query. -/
def read (query : List UInt8) : Option (List (List UInt8 × List UInt8)) :=
  (query.splitOn 38).mapM readField

/-- The query of a URL. -/
def behind (url : List UInt8) : Option (List UInt8) := (url.dropWhile (· ≠ 63)).tail?

/-- The fields of a URL, none when it has no query. -/
def fields (url : List UInt8) : Option (List (List UInt8 × List UInt8)) :=
  (behind url).elim (some []) read

/-! ## Escapes -/

section
variable {text text' bytes bytes' : List UInt8}

theorem unescape_cons {c : UInt8} (plain : c ≠ 37) :
    unescape (c :: text) = (unescape text).map (c :: ·) := by
  rw [unescape.eq_def]
  exact if_neg plain

theorem unescape_escape {high low h l : UInt8} (hh : hexValue high = some h)
    (hl : hexValue low = some l) :
    unescape (37 :: high :: low :: text) = (unescape text).map ((16 * h + l) :: ·) := by
  rw [unescape, if_pos rfl, hh, Option.bind_some, hl, Option.bind_some]

/-- A byte that delimits the parts of a query. -/
def Delimits (c : UInt8) : Prop := c = 38 ∨ c = 61 ∨ c = 63

instance (c : UInt8) : Decidable (Delimits c) := inferInstanceAs (Decidable (_ ∨ _))

/-- The text stands for these bytes inside a field. -/
structure Spells (text bytes : List UInt8) : Prop where
  free : ∀ c ∈ text, ¬ Delimits c
  unescaped : unescape text = some bytes

theorem Spells.nil : Spells [] [] := ⟨fun _ mem => absurd mem List.not_mem_nil, rfl⟩

theorem Spells.cons (h : Spells text bytes) {c : UInt8} (plain : c ≠ 37) (free : ¬ Delimits c) :
    Spells (c :: text) (c :: bytes) where
  free := List.forall_mem_cons.2 ⟨free, h.free⟩
  unescaped := by rw [unescape_cons plain, h.unescaped, Option.map_some]

theorem free_of_hex {c v : UInt8} (hex : hexValue c = some v) : ¬ Delimits c := by
  rintro (rfl | rfl | rfl) <;> cases hex

theorem Spells.escape (spells : Spells text bytes) {high low h l : UInt8}
    (hh : hexValue high = some h) (hl : hexValue low = some l) :
    Spells (37 :: high :: low :: text) ((16 * h + l) :: bytes) where
  free := List.forall_mem_cons.2 ⟨by decide, List.forall_mem_cons.2 ⟨free_of_hex hh,
    List.forall_mem_cons.2 ⟨free_of_hex hl, spells.free⟩⟩⟩
  unescaped := by rw [unescape_escape hh hl, spells.unescaped, Option.map_some]

/-- A text without an escape stands for itself. -/
theorem spells_plain (plain : ∀ c ∈ text, c ≠ 37 ∧ ¬ Delimits c) : Spells text text := by
  induction text with
  | nil => exact .nil
  | cons c text ih =>
    obtain ⟨⟨unescaped, free⟩, rest⟩ := List.forall_mem_cons.1 plain
    exact (ih rest).cons unescaped free

theorem spells_plain_of_all (plain : text.all fun c => c ≠ 37 ∧ ¬ Delimits c) :
    Spells text text :=
  spells_plain fun c mem => of_decide_eq_true (List.all_eq_true.1 plain c mem)

end

/-! ## Fields -/

theorem readField_spells {name value n v : List UInt8} (hn : Spells name n) (hv : Spells value v) :
    readField (name ++ 61 :: value) = some (n, v) := by
  have stop : ∀ c ∈ name, decide (c ≠ 61) = true := by
    intro c mem
    apply decide_eq_true
    rintro rfl
    exact hn.free 61 mem (by decide)
  rw [readField, List.takeWhile_append_of_pos stop, List.dropWhile_append_of_pos stop]
  simp [hn.unescaped, hv.unescaped]

theorem read_append (query query' : List UInt8) :
    read (query ++ 38 :: query') =
      (do let fields ← read query; let fields' ← read query'; pure (fields ++ fields')) := by
  rw [read, List.splitOn_append_cons_self, List.mapM_append]
  rfl

/-- A field as it is written, and what it stands for. -/
structure Field where
  name : List UInt8
  value : List UInt8
  stands : List UInt8 × List UInt8
  spells_name : Spells name stands.1
  spells_value : Spells value stands.2

def Field.text (field : Field) : List UInt8 := field.name ++ 61 :: field.value

theorem Field.free (field : Field) {c : UInt8} (mem : c ∈ field.text) (delimits : Delimits c) :
    c = 61 := by
  rcases List.mem_append.1 mem with name | value
  · exact absurd delimits (field.spells_name.free c name)
  · rcases List.mem_cons.1 value with here | value
    · exact here
    · exact absurd delimits (field.spells_value.free c value)

/-- Fields that are written with their `&` and `=`. -/
def write (fields : List Field) : List UInt8 := [38].intercalate (fields.map (·.text))

/-- **What is written is read back.** -/
theorem read_write {fields : List Field} (some_field : fields ≠ []) :
    read (write fields) = some (fields.map (·.stands)) := by
  have parts : ∀ part ∈ fields.map (·.text), 38 ∉ part := by
    intro part mem
    obtain ⟨field, -, rfl⟩ := List.mem_map.1 mem
    exact fun inside => absurd (field.free inside (by decide)) (by decide)
  rw [read, write, List.splitOn_intercalate _ parts (by simpa using some_field), List.mapM_map]
  clear parts some_field
  induction fields with
  | nil => rfl
  | cons field fields ih =>
    rw [List.mapM_cons, ih]
    dsimp only [Function.comp_apply, Field.text]
    rw [readField_spells field.spells_name field.spells_value]
    rfl

/-- No query starts inside the fields. -/
theorem not_mem_write (fields : List Field) : 63 ∉ write fields := by
  have outside (field : Field) : 63 ∉ field.text := fun inside =>
    absurd (field.free inside (by decide)) (by decide)
  induction fields with
  | nil => exact List.not_mem_nil
  | cons field fields ih =>
    by_cases last : fields = []
    · subst last
      rw [write, List.map_cons, List.map_nil, List.intercalate_singleton]
      exact outside field
    · rw [write, List.map_cons, List.intercalate_cons_of_ne_nil (by simpa using last)]
      intro mem
      rcases List.mem_append.1 mem with front | later
      · rcases List.mem_append.1 front with here | mark
        · exact outside field here
        · exact absurd (List.mem_singleton.1 mark) (by decide)
      · exact ih later

/-! ## The query of a URL -/

theorem behind_append {front : List UInt8} (first : 63 ∉ front) (query : List UInt8) :
    behind (front ++ 63 :: query) = some query := by
  have stop : ∀ c ∈ front, decide (c ≠ 63) = true := by
    intro c mem
    apply decide_eq_true
    rintro rfl
    exact first mem
  rw [behind, List.dropWhile_append_of_pos stop]
  rfl

theorem behind_none {url : List UInt8} (none : 63 ∉ url) : behind url = .none := by
  have stop : ∀ c ∈ url, decide (c ≠ 63) = true := by
    intro c mem
    apply decide_eq_true
    rintro rfl
    exact none mem
  rw [behind, ← List.append_nil url, List.dropWhile_append_of_pos stop]
  rfl

/-- A query that is added to a URL is read behind the one that the URL has. -/
theorem read_extended {origin : List UInt8} (first : 63 ∉ origin) (path request : List UInt8) :
    ∃ query, behind (origin ++ path ++ (if 63 ∈ path then [38] else [63]) ++ request) =
        some query ∧
      read query = (do let own ← fields path; let more ← read request; pure (own ++ more)) := by
  by_cases own : 63 ∈ path
  · obtain ⟨front, query, eq, before⟩ := List.eq_append_cons_of_mem own
    have outside : 63 ∉ origin ++ front := fun mem =>
      (List.mem_append.1 mem).elim first before
    refine ⟨query ++ 38 :: request, ?_, ?_⟩
    · rw [if_pos own, eq]
      have found := behind_append outside (query ++ 38 :: request)
      simpa only [List.append_assoc, List.cons_append, List.nil_append] using found
    · rw [read_append, fields, eq, behind_append before, Option.elim_some]
  · refine ⟨request, ?_, ?_⟩
    · rw [if_neg own]
      have outside : 63 ∉ origin ++ path := fun mem => (List.mem_append.1 mem).elim first own
      have found := behind_append outside request
      simpa only [List.append_assoc, List.cons_append, List.nil_append] using found
    · rw [fields, behind_none own, Option.elim_none]
      cases read request <;> rfl

end TorrentClient.Query
