import TorrentClient.Base.Outcome
import TorrentClient.Base.Word

/-!
# What is thrown

The exceptions of the modelled functions, and where a vector has no room to grow.
-/

namespace TorrentClient

/-- `Block::Error`, which `modify_on_intersection` throws. -/
inductive Block.Error where
  | ok
  | selfInRight
  | rightInSelf
  deriving DecidableEq, Repr

/-- Everything the modelled functions throw. -/
inductive Thrown where
  | runtimeError (what : String)
  | block (error : Block.Error)
  | int (value : Int)
  /-- An exception out of the bit set, which is not part of the repository. -/
  | bitSet
  /-- `std::invalid_argument`, for a text that starts with no number. -/
  | invalidArgument
  /-- `std::out_of_range`, for a number the type cannot hold. -/
  | outOfRange
  /-- `std::length_error`, for a vector that would hold too many elements. -/
  | lengthError
  /-- `std::bad_alloc` -/
  | badAlloc
  /-- An exception out of a `SubString`, which is not part of the repository. -/
  | subString
  /-- An exception out of `IpAddr`, which is not part of the repository. -/
  | ipAddr
  deriving DecidableEq, Repr

/-- Where a `std::vector<α>` gets its room. -/
class Heap (α : Type) where
  /-- What the vector throws that is to have room for so many elements, `none` where it gets it. -/
  refuses (α) : Nat → Option Thrown
  refuses_with : ∀ {n e}, refuses n = some e → e = .lengthError ∨ e = .badAlloc

/-- Room for elements up to the `max_size()` of the vector. -/
@[reducible] def Heap.upTo (α : Type) (maxSize : Nat) : Heap α where
  refuses n := if n ≤ maxSize then none else some .lengthError
  refuses_with {n e} refused := by
    split at refused
    · cases refused
    · exact Or.inl (Option.some.inj refused).symm

end TorrentClient
