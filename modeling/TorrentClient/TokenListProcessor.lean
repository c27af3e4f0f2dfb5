import TorrentClient.BeToken

/-!
# The list of tokens

`TokenListProcessor` walks over the tokens of a source and calls a filler at
every text that is registered for one. A filler takes the cursor, the tokens
from `current_token` on, and leaves it behind what it has read.
-/

namespace TorrentClient

/-- A token, and what it reads on its source. -/
structure Lexeme where
  type : TokenType
  /-- `str(source)`, `none` where it throws. -/
  str : Option Bytes
  /-- `substr().size()` -/
  size : Nat
  /-- `substr(source, i * n, n)` for every `i` below `size / n`. -/
  slices : Nat → List (Option Bytes)
  /-- The bytes of the span, as far as there is memory. -/
  window : Bytes

def BeToken.on [SubStrings] (source : StringWrapper) (token : BeToken) : Lexeme where
  type := token.type
  str := SubStrings.str token.data source
  size := SubStrings.size token.data
  slices n := (List.range (SubStrings.size token.data / n)).map fun i =>
    SubStrings.substr token.data source (i * n) n
  window := (source.data.drop token.data.start).take (SubStrings.size token.data)

namespace Lexeme

def text (t : Lexeme) : Except Thrown Bytes :=
  match t.str with
  | some text => .ok text
  | none => .error .subString

/-- A string or an integer. -/
def IsLeaf (t : Lexeme) : Prop := t.type = .int ∨ t.type = .str

instance (t : Lexeme) : Decidable t.IsLeaf := inferInstanceAs (Decidable (_ ∨ _))

end Lexeme

/-- `std::stoll` and `std::stol` -/
def stoll (text : Bytes) : Except Thrown Int :=
  match readInteger text with
  | none => .error .invalidArgument
  | some (value, _) =>
    if -2 ^ 63 ≤ value ∧ value < 2 ^ 63 then .ok value else .error .outOfRange

def Lexeme.integer (t : Lexeme) : Except Thrown Int := t.text.bind stoll

/-- A member function that fills fields from the tokens at the cursor. It moves
the cursor. -/
structure Filler (σ : Type) where
  run : List Lexeme → σ → Outcome Thrown σ (List Lexeme)
  moves : ∀ {t cursor s rest s'}, run (t :: cursor) s = .done rest s' →
    rest.length ≤ cursor.length

section
variable {σ : Type}

/-- The loop of `process`, with the fillers that are registered in `m_fillers`. -/
def processLoop (fillers : List (Bytes × Filler σ)) :
    (cursor : List Lexeme) → σ → Outcome Thrown σ Unit
  | [], s => .done () s
  | t :: cursor, s =>
    if t.IsLeaf then
      match t.text with
      | .error e => .thrown e s
      | .ok text =>
        match fillers.lookup text with
        | some filler =>
          match called : filler.run (t :: cursor) s with
          | .done rest s =>
            have _shorter := filler.moves called
            processLoop fillers rest s
          | .thrown e s => .thrown e s
          | .fault r s => .fault r s
        | none => processLoop fillers cursor s
    else processLoop fillers cursor s
  termination_by cursor => cursor.length

/-- The part of `fill_int` that looks at the value. -/
def storeInt (set : Nat → σ → σ) (t : Lexeme) (s : σ) : Outcome Thrown σ Unit :=
  if t.type = .int then
    (Outcome.ofExcept t.integer s).bind fun value s => .done () (set (toUInt64 value) s)
  else .done () s

/-- The part of `fill_str` that looks at the value. -/
def storeStr (set : Bytes → σ → σ) (t : Lexeme) (s : σ) : Outcome Thrown σ Unit :=
  if t.type = .str then
    (Outcome.ofExcept t.text s).bind fun value s => .done () (set value s)
  else .done () s

/-- Skip the key and store its value. -/
def fillValue (store : Lexeme → σ → Outcome Thrown σ Unit) (cursor : List Lexeme) (s : σ) :
    Outcome Thrown σ (List Lexeme) :=
  match cursor.tail with
  | [] => .fault .outOfBounds s
  | t :: rest => (store t s).map fun _ => rest

theorem fillValue_moves {store : Lexeme → σ → Outcome Thrown σ Unit} {t : Lexeme}
    {cursor rest : List Lexeme} {s s' : σ}
    (h : fillValue store (t :: cursor) s = .done rest s') : rest.length ≤ cursor.length := by
  cases cursor with
  | nil => cases h
  | cons v cursor =>
    obtain ⟨_, _, _, later⟩ := Outcome.bind_eq_done h
    cases later
    exact Nat.le_succ _

/-- `fill_int` -/
def fillInt (set : Nat → σ → σ) : Filler σ := ⟨fillValue (storeInt set), fillValue_moves⟩

/-- `fill_str` -/
def fillStr (set : Bytes → σ → σ) : Filler σ := ⟨fillValue (storeStr set), fillValue_moves⟩

end

end TorrentClient
