import TorrentClient.Lexemes
import Mathlib.Data.List.Forall2

/-!
# The token list, one token at a time

`processLoop` and its fillers move one cursor by different amounts. A
`FillerReader` takes the same tokens one at a time, and each of its modes is a
place in a filler; `processLoop_eq` says that the two do the same.
-/

namespace TorrentClient

/-- The value of a key that is an integer or a string, and what it sets. -/
inductive Slot (σ : Type) where
  | int (set : Nat → σ → σ)
  | str (set : Bytes → σ → σ)

def Slot.store {σ : Type} : Slot σ → Lexeme → σ → Outcome Thrown σ Unit
  | .int set => storeInt set
  | .str set => storeStr set

/-- A value that is neither is not looked at. -/
theorem Slot.store_bare {σ : Type} (slot : Slot σ) (t : Lexeme) (s : σ) :
    slot.store t.bare s = slot.store t s := by
  by_cases leaf : t.IsLeaf
  · rw [Lexeme.bare_leaf leaf]
  · have types := not_or.1 leaf
    cases slot with
    | int set => simp only [store, storeInt, Lexeme.bare_type, if_neg types.1]
    | str set => simp only [store, storeStr, Lexeme.bare_type, if_neg types.2]

theorem ofExcept_text {σ : Type} (t : Lexeme) (s : σ) :
    (Outcome.ofExcept t.text s : Outcome Thrown σ Bytes) =
      match t.str with
      | some text => .done text s
      | none => .thrown .subString s := by
  unfold Lexeme.text
  cases t.str <;> rfl

namespace Slot

variable {σ β : Type} {slot : Slot σ} {t : Lexeme}

/-- The value is a number that is none or does not fit, or cannot be read. -/
def Throws : Slot σ → Lexeme → Prop
  | .int _, t => t.type = .int ∧ ∀ n, t.integer ≠ .ok n
  | .str _, t => t.type = .str ∧ t.str = none

/-- What the value sets leaves something of the object as it is. -/
def Keeps (f : σ → β) : Slot σ → Prop
  | .int set => ∀ n s, f (set n s) = f s
  | .str set => ∀ text s, f (set text s) = f s

theorem store_thrown (throws : slot.Throws t) (s : σ) : ∃ e, slot.store t s = .thrown e s := by
  cases slot with
  | int set =>
    obtain ⟨int, bad⟩ := throws
    rw [store, storeInt, if_pos int]
    cases number : t.integer with
    | error e => exact ⟨e, rfl⟩
    | ok n => exact absurd number (bad n)
  | str set =>
    obtain ⟨str, bad⟩ := throws
    rw [store, storeStr, if_pos str, ofExcept_text, bad]
    exact ⟨_, rfl⟩

theorem store_done {f : σ → β} (keeps : slot.Keeps f) (taken : ¬ slot.Throws t) (s : σ) :
    ∃ s', slot.store t s = .done () s' ∧ f s' = f s := by
  cases slot with
  | int set =>
    rw [store, storeInt]
    by_cases int : t.type = .int
    · rw [if_pos int]
      cases number : t.integer with
      | error e => exact absurd ⟨int, fun n h => by rw [number] at h; cases h⟩ taken
      | ok n => exact ⟨_, rfl, keeps _ _⟩
    · rw [if_neg int]
      exact ⟨s, rfl, rfl⟩
  | str set =>
    rw [store, storeStr]
    by_cases str : t.type = .str
    · rw [if_pos str, ofExcept_text]
      cases text : t.str with
      | none => exact absurd ⟨str, text⟩ taken
      | some value => exact ⟨_, rfl, keeps _ _⟩
    · rw [if_neg str]
      exact ⟨s, rfl, rfl⟩

end Slot

/-- `m_fillers` has a filler for the text. -/
def registered {σ : Type} (fillers : List (Bytes × Filler σ)) (text : Bytes) : Bool :=
  (fillers.lookup text).isSome

structure FillerReader (σ μ : Type) where
  /-- The mode a registered text puts the reader in. -/
  modes : List (Bytes × μ)
  /-- What a token does inside a filler. `none` is behind it. -/
  step : μ → Lexeme → σ → Outcome Thrown σ (Option μ)
  finish : μ → σ → Outcome Thrown σ Unit

namespace FillerReader

variable {σ μ : Type} (F : FillerReader σ μ)

/-- A token between two fillers. -/
def scan (t : Lexeme) (s : σ) : Outcome Thrown σ (Option μ) :=
  if t.IsLeaf then (Outcome.ofExcept t.text s).map fun text => F.modes.lookup text
  else .done none s

def reader : Reader Thrown σ (Option μ) Lexeme where
  step mode t s :=
    match mode with
    | none => F.scan t s
    | some m => F.step m t s
  finish mode s :=
    match mode with
    | none => .done () s
    | some m => F.finish m s

theorem scan_bare (t : Lexeme) (s : σ) : F.scan t.bare s = F.scan t s := by
  by_cases leaf : t.IsLeaf
  · rw [Lexeme.bare_leaf leaf]
  · have bare : ¬ t.bare.IsLeaf := by
      rwa [Lexeme.IsLeaf, Lexeme.bare_type]
    rw [scan, scan, if_neg leaf, if_neg bare]

/-- From the mode on, the reader does what is left of the filler to do. -/
def Matches (filler : Filler σ) (m : μ) : Prop :=
  ∀ t cursor s, F.reader.complete cursor (some m) s =
    (filler.run (t :: cursor) s).bind fun rest s => F.reader.complete rest none s

variable {F} {fillers : List (Bytes × Filler σ)}

/-- A mode in front of the value of a key. -/
theorem matches_value {slot : Slot σ} {m : μ}
    (step : ∀ t s, F.step m t s = (slot.store t s).map fun _ => none)
    (finish : ∀ s, F.finish m s = .fault .outOfBounds s) :
    F.Matches ⟨fillValue slot.store, fillValue_moves⟩ m := by
  intro t cursor s
  cases cursor with
  | nil => exact finish s
  | cons v cursor =>
    rw [Reader.complete_cons]
    show (F.step m v s).bind _ = ((slot.store v s).map _).bind _
    rw [step, Outcome.bind_map, Outcome.bind_map]

theorem lookup_cases
    (matched : List.Forall₂ (fun f m => f.1 = m.1 ∧ F.Matches f.2 m.2) fillers F.modes)
    (text : Bytes) :
    (fillers.lookup text = none ∧ F.modes.lookup text = none) ∨
      ∃ filler m, fillers.lookup text = some filler ∧ F.modes.lookup text = some m ∧
        F.Matches filler m := by
  generalize F.modes = modes at matched
  induction matched with
  | nil => exact Or.inl ⟨rfl, rfl⟩
  | @cons f m fillers modes first _ ih =>
    obtain ⟨name, filler⟩ := f
    obtain ⟨_, mode⟩ := m
    obtain ⟨rfl, first⟩ := first
    by_cases eq : text = name
    · subst eq
      exact Or.inr ⟨filler, mode, List.lookup_cons_self, List.lookup_cons_self, first⟩
    · have other : (text == name) = false := beq_eq_false_iff_ne.2 eq
      simpa only [List.lookup_cons, other] using ih

theorem lookup_unregistered
    (matched : List.Forall₂ (fun f m => f.1 = m.1 ∧ F.Matches f.2 m.2) fillers F.modes)
    {text : Bytes} (free : registered fillers text = false) : F.modes.lookup text = none := by
  rcases lookup_cases matched text with ⟨-, none⟩ | ⟨filler, m, some, -, -⟩
  · exact none
  · rw [registered, some] at free
    cases free

/-- Tokens that no filler is registered for are passed over. -/
theorem run_scan {ts : List Lexeme} {s : σ} (read : ∀ t ∈ ts, t.IsLeaf → t.str ≠ none)
    (free : ∀ t ∈ ts, ∀ text, t.str = some text → F.modes.lookup text = none) :
    F.reader.run ts none s = .done none s := by
  induction ts with
  | nil => rfl
  | cons t ts ih =>
    obtain ⟨first, read'⟩ := List.forall_mem_cons.1 read
    obtain ⟨free₁, free'⟩ := List.forall_mem_cons.1 free
    have scanned : F.scan t s = .done none s := by
      rw [scan]
      split
      · rename_i leaf
        obtain ⟨text, eq⟩ := Option.ne_none_iff_exists'.1 (first leaf)
        rw [ofExcept_text, eq]
        exact congrArg (Outcome.done · s) (free₁ text eq)
      · rfl
    rw [Reader.run_cons]
    show (F.scan t s).bind _ = _
    rw [scanned]
    exact ih read' free'

/-- **The reader does what `process` does.** -/
theorem processLoop_eq
    (matched : List.Forall₂ (fun f m => f.1 = m.1 ∧ F.Matches f.2 m.2) fillers F.modes)
    (cursor : List Lexeme) (s : σ) :
    processLoop fillers cursor s = F.reader.complete cursor none s := by
  induction hn : cursor.length using Nat.strongRecOn generalizing cursor s with
  | ind n ih =>
    cases cursor with
    | nil =>
      rw [processLoop]
      rfl
    | cons t cursor =>
      have shorter : cursor.length < n := by
        rw [← hn]
        exact Nat.lt_succ_self _
      rw [processLoop, Reader.complete_cons]
      show _ = (F.scan t s).bind _
      unfold scan
      split
      · cases read : t.text with
        | error e => rfl
        | ok text =>
          rw [Outcome.ofExcept_ok, Outcome.map_done, Outcome.bind_done]
          dsimp only
          rcases lookup_cases matched text with ⟨none, none'⟩ | ⟨filler, m, some, some', same⟩
          · rw [none, none']
            exact ih _ shorter cursor s rfl
          · rw [some, some', same t]
            dsimp only
            split
            · rename_i rest s' called
              have moved := filler.moves called
              rw [called]
              exact ih _ (by omega) rest s' rfl
            · rename_i called
              rw [called]
              rfl
            · rename_i called
              rw [called]
              rfl
      · exact ih _ shorter cursor s rfl

end FillerReader

end TorrentClient
