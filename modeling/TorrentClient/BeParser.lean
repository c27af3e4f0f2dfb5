import TorrentClient.BeToken

/-!
# The parser

`BeParser` cuts a source into tokens. Its functions share one offset, which each
of them takes and leaves behind what it has read.
-/

namespace TorrentClient.BeParser

/-- Tokens, and the offset behind them. -/
abbrev Parsed := List BeToken × Nat

/-- `process_integer` -/
def processInteger (source : StringWrapper) (offset : Nat) :
    Except Thrown { r : Parsed // offset < r.2 } :=
  let offset := offset + 1 -- 'i'
  let stop := offset + (strtol (source.data.drop offset)).2
  if source.data[stop]? = some 101 then -- 'e'
    .ok ⟨([⟨.int, ⟨offset, stop⟩⟩], stop + 1), by omega⟩
  else .error (.runtimeError "invalid integer format")

/-- `process_string`, at a digit: the length is not negative. -/
def processString (source : StringWrapper) (offset : Nat) :
    Except Thrown { r : Parsed // offset < r.2 } :=
  let (len, digits) := strtol (source.data.drop offset)
  if source.data[offset + digits]? = some 58 then -- ':'
    let offset := offset + digits + 1
    .ok ⟨([⟨.str, ⟨offset, offset + len.toNat⟩⟩], offset + len.toNat), by omega⟩
  else .error (.runtimeError "invalid string format")

mutual

/-- `process_struct` -/
def processStruct (source : StringWrapper) (offset : Nat) (isList : Bool)
    (_ : offset < source.size) : Except Thrown { r : Parsed // offset < r.2 } := do
  let ⟨(tokens, stop), ahead⟩ ← structLoop source (offset + 1)
  let first := ⟨if isList then .listStart else .dictStart, ⟨offset, 0⟩⟩
  let last := ⟨if isList then .listEnd else .dictEnd, ⟨stop, 0⟩⟩
  return ⟨(first :: tokens ++ [last], stop + 1), by omega⟩
termination_by (source.size - offset, 0)
decreasing_by exact Prod.Lex.left _ _ (by omega)

/-- The loop of `process_struct`. -/
def structLoop (source : StringWrapper) (offset : Nat) :
    Except Thrown { r : Parsed // offset ≤ r.2 } :=
  if more : offset < source.size ∧ source.data[offset]? ≠ some 101 then do
    let ⟨(tokens, next), ahead⟩ ← parseAt source offset
    have moved : offset < next := ahead more.1
    let ⟨(rest, stop), ahead'⟩ ← structLoop source next
    return ⟨(tokens ++ rest, stop), by omega⟩
  else .ok ⟨([], offset), Nat.le_refl _⟩
termination_by (source.size - offset, 2)
decreasing_by
  · exact Prod.Lex.right _ (by decide)
  · exact Prod.Lex.left _ _ (by omega)

/-- `parse` from an offset on. -/
def parseAt (source : StringWrapper) (offset : Nat) :
    Except Thrown { r : Parsed // offset < source.size → offset < r.2 } :=
  if inside : offset < source.size then
    Except.map (fun r => ⟨r.1, fun _ => r.2⟩)
      (match source.data[offset]? with
      | some 105 => processInteger source offset -- 'i'
      | some 108 => processStruct source offset true inside -- 'l'
      | some 100 => processStruct source offset false inside -- 'd'
      | c =>
        if c.any isDigit then processString source offset
        else .error (.runtimeError "invalid be data"))
  else .ok ⟨([], offset), fun h => absurd h inside⟩
termination_by (source.size - offset, 1)
decreasing_by all_goals exact Prod.Lex.right _ (by decide)

end

/-- The loop of `parse`. -/
def parseLoop (source : StringWrapper) (offset : Nat) : Except Thrown (List BeToken) :=
  if more : offset < source.size then do
    let ⟨(tokens, next), ahead⟩ ← parseAt source offset
    have _moved : offset < next := ahead more
    let rest ← parseLoop source next
    return tokens ++ rest
  else .ok []
termination_by source.size - offset

def parse (source : StringWrapper) : Except Thrown (List BeToken) := parseLoop source 0

end TorrentClient.BeParser
