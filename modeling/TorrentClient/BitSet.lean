/-!
# The bit set

`common/bitset.hpp` belongs to a library that is not part of the repository.
The programs that use a bit set are modelled over any implementation of it.
-/

namespace TorrentClient

/-- What is called on a `BitSet`, `none` where it throws. -/
class BitSet (β : Type) where
  /-- A bit set that is not bound yet. -/
  unbound : β
  /-- `bind(size)` -/
  bind : β → Nat → Option β
  /-- `bind(size, data)`, with the bytes that are there. -/
  bindData : β → List UInt8 → Option β
  /-- `bits[i]` as a value -/
  test : β → Nat → Option Bool
  /-- `bits[i] = value` -/
  set : β → Nat → Bool → Option β

/-- A bit set as the list of its bits, a byte's highest bit first. -/
instance : BitSet (List Bool) where
  unbound := []
  bind _ size := some (List.replicate (8 * size) false)
  bindData _ bytes :=
    some (bytes.flatMap fun byte => (List.range 8).map fun i => byte.toNat.testBit (7 - i))
  test bits i := bits[i]?
  set bits i value := if i < bits.length then some (bits.set i value) else none

end TorrentClient
