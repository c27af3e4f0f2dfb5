import TorrentClient.Thrown
import TorrentClient.Base.Numeral

/-!
# Tokens of a bencoded text

A token is a type and the pair of positions its `SubString` is set to. What a
`SubString` reads on a source belongs to a library that is not part of the
repository.
-/

namespace TorrentClient

/-- The characters of a text as bytes. -/
def ascii (text : String) : Bytes := text.toList.map fun c => UInt8.ofNat c.toNat

inductive TokenType where
  | unknown
  | int
  | str
  | listStart
  | listEnd
  | dictStart
  | dictEnd
  deriving DecidableEq, Repr

/-- The arguments of `SubString::set`. -/
structure SubString where
  start : Nat
  stop : Nat
  deriving DecidableEq, Repr

structure BeToken where
  type : TokenType
  data : SubString
  deriving DecidableEq, Repr

/-- A text of `size` bytes with a NUL behind it, and the memory from its first
byte on. -/
structure StringWrapper where
  data : Bytes
  size : Nat
  small : size < 2 ^ 63
  terminated : data[size]? = some 0

namespace StringWrapper

def bytes (source : StringWrapper) : Bytes := source.data.take source.size

/-- A text with nothing but the NUL behind it. -/
def ofBytes (bytes : Bytes) (small : bytes.length < 2 ^ 63) : StringWrapper where
  data := bytes ++ [0]
  size := bytes.length
  small := small
  terminated := by simp

@[simp] theorem bytes_ofBytes (bytes : Bytes) (small : bytes.length < 2 ^ 63) :
    (ofBytes bytes small).bytes = bytes := List.take_left

theorem size_lt (source : StringWrapper) : source.size < source.data.length :=
  (List.getElem?_eq_some_iff.1 source.terminated).1

@[simp] theorem bytes_length (source : StringWrapper) : source.bytes.length = source.size := by
  rw [bytes, List.length_take]
  exact Nat.min_eq_left (Nat.le_of_lt source.size_lt)

theorem data_eq (source : StringWrapper) :
    ∃ behind, source.data = source.bytes ++ 0 :: behind := by
  have zero := (List.getElem?_eq_some_iff.1 source.terminated).2
  refine ⟨source.data.drop (source.size + 1), ?_⟩
  rw [bytes, ← zero, List.getElem_cons_drop, List.take_append_drop]

/-- The memory from a position of the text on. -/
theorem data_drop (source : StringWrapper) {i : Nat} (h : i ≤ source.size) :
    ∃ behind, source.data.drop i = source.bytes.drop i ++ 0 :: behind := by
  obtain ⟨behind, eq⟩ := source.data_eq
  refine ⟨behind, ?_⟩
  rw [eq, List.drop_append_of_le_length (by rwa [bytes_length])]

theorem data_getElem? (source : StringWrapper) {i : Nat} (h : i < source.size) :
    source.data[i]? = source.bytes[i]? := by
  rw [bytes, List.getElem?_take_of_lt h]

end StringWrapper

/-- What is called on a `SubString`, `none` where it throws. The laws are about
spans that lie inside the source. -/
class SubStrings where
  size : SubString → Nat
  str : SubString → StringWrapper → Option Bytes
  substr : SubString → StringWrapper → Nat → Nat → Option Bytes
  size_eq : ∀ {s : SubString}, s.start ≤ s.stop → size s = s.stop - s.start
  str_eq : ∀ {s : SubString} {source : StringWrapper}, s.start ≤ s.stop →
    s.stop ≤ source.size →
    str s source = some ((source.bytes.drop s.start).take (s.stop - s.start))
  substr_eq : ∀ {s : SubString} {source : StringWrapper} {offset length : Nat},
    s.start ≤ s.stop → s.stop ≤ source.size → offset + length ≤ s.stop - s.start →
    substr s source offset length = some ((source.bytes.drop (s.start + offset)).take length)

/-- Substrings that are cut out of the bytes of the source. -/
@[reducible] def SubStrings.cut : SubStrings where
  size s := s.stop - s.start
  str s source := some ((source.bytes.drop s.start).take (s.stop - s.start))
  substr s source offset length := some ((source.bytes.drop (s.start + offset)).take length)
  size_eq _ := rfl
  str_eq _ _ := rfl
  substr_eq _ _ _ := rfl

end TorrentClient
