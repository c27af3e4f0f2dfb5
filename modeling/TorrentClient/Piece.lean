import TorrentClient.Thrown
import TorrentClient.Base.OrderedSet

/-!
# Blocks of a piece

`piece.hpp` and `piece.cpp`: a piece collects the blocks a peer sends into one
buffer and remembers, as a set of blocks ordered by offset, which of its bytes
have arrived.
-/

namespace TorrentClient

structure Block where
  offset : Nat
  size : Nat
  deriving DecidableEq, Repr

namespace Block

/-- The position just after the block. -/
def stop (b : Block) : Nat := b.offset + b.size

/-- Cut `self` back to what lies outside `right`. An exception leaves `self` as
it was. -/
def modifyOnIntersection (self right : Block) : Except Error Block :=
  let selfEnd := add64 self.offset self.size
  let rightEnd := add64 right.offset right.size
  if selfEnd ≤ right.offset ∨ rightEnd ≤ self.offset then .ok self
  else if self.offset < right.offset then
    if rightEnd < selfEnd then .error .rightInSelf
    else .ok ⟨self.offset, sub64 self.size (sub64 selfEnd right.offset)⟩
  else if selfEnd < rightEnd then .error .selfInRight
  else
    let cut := sub64 rightEnd self.offset
    .ok ⟨add64 self.offset cut, sub64 self.size cut⟩

/-- `modify_on_intersection` against a neighbour, when there is one. -/
def trim (self : Block) : Option Block → Except Error Block
  | none => .ok self
  | some right => self.modifyOnIntersection right

end Block

/-- `std::set<Block>`, whose order is that of the offsets. -/
abbrev Blocks := OrderedSet Block.offset

/-- A byte of an allocated buffer, `none` until it is written. -/
abbrev Cell := Option UInt8

structure Piece where
  data : Option (List Cell)
  id : Int
  fullPieceSize : Nat
  blocks : Blocks
  deriving DecidableEq

namespace Piece

/-- The members' default values, which the constructor leaves as they are. -/
def new : Piece := ⟨none, -1, 0, .empty⟩

def init (id : Int) (size : Nat) : Piece :=
  ⟨some (List.replicate size none), id, size, .empty⟩

/-- `new_block` after both trims. The two `try` blocks around them handle an
exception alike, so the first one decides. -/
def fit (newBlock : Block) (prev next : Option Block) : Except Block.Error Block :=
  match newBlock.trim prev with
  | .error e => .error e
  | .ok newBlock => newBlock.trim next

/-- The merge with the block after, made when both neighbours exist. `prev` is
the block the new one was put into. -/
def linkNext (blocks : Blocks) (prev : Block) : Option Block → Blocks
  | none => blocks
  | some next =>
    if add64 prev.offset prev.size = next.offset then
      let tmp : Block := ⟨prev.offset, add64 prev.size next.size⟩
      ((blocks.erase prev.offset).insert tmp).erase next.offset
    else blocks

/-- Put a trimmed block into the set, merged with the neighbours it touches.
`add` calls this on a set that is not empty, so one of the neighbours exists. -/
def link (blocks : Blocks) (prev next : Option Block) (newBlock : Block) : Blocks :=
  match prev with
  | some prev =>
    if add64 prev.offset prev.size = newBlock.offset then
      let tmp : Block := ⟨prev.offset, add64 prev.size newBlock.size⟩
      let blocks := blocks.erase prev.offset
      linkNext (blocks.insert tmp) (blocks.slot tmp) next
    else linkNext (blocks.insert newBlock) (blocks.slot newBlock) next
  | none =>
    match next with
    | some next =>
      if add64 newBlock.offset newBlock.size = next.offset then
        let tmp : Block := ⟨newBlock.offset, add64 next.size newBlock.size⟩
        (blocks.insert tmp).erase next.offset
      else blocks.insert newBlock
    | none => blocks.insert newBlock

/-- A piece that has no id takes the one of the first call of `add`. -/
def claimed (piece : Piece) (id : Int) : Piece :=
  if piece.id = -1 then { piece with id := id } else piece

/-- Copy a block into the buffer from `skip` bytes after `source`, the memory
that can be read through the source pointer, and put the new set in place. -/
def store (piece : Piece) (data : List Cell) (source : List UInt8) (skip : Nat)
    (block : Block) (blocks : Blocks) : Outcome Thrown Piece Unit :=
  match memcpy data block.offset source skip block.size with
  | none => .fault .outOfBounds piece
  | some data => .done () { piece with data := some data, blocks := blocks }

def add (piece : Piece) (id : Int) (source : List UInt8) (size offset : Nat) :
    Outcome Thrown Piece Unit :=
  match piece.data with
  | none => .thrown (.runtimeError "uninitialized piece buffer. call init before add") piece
  | some data =>
    if piece.id ≠ -1 ∧ piece.id ≠ id then
      .thrown (.runtimeError "invalid piece id") piece
    else
      let piece := piece.claimed id
      let newBlock : Block := ⟨offset, size⟩
      if piece.blocks.isEmpty then
        piece.store data source 0 newBlock (piece.blocks.insert newBlock)
      else
        let prev := piece.blocks.lastUpTo offset
        let next := piece.blocks.upperBound offset
        match fit newBlock prev next with
        | .error .selfInRight => .done () piece
        | .error e => .thrown (.block e) piece
        | .ok newBlock =>
          if newBlock.size = 0 then .done () piece
          else
            piece.store data source (sub64 newBlock.offset offset) newBlock
              (link piece.blocks prev next newBlock)

def full (piece : Piece) : Bool :=
  match piece.blocks.begin with
  | none => false
  | some first => first.size = piece.fullPieceSize

/-- The buffer, and the piece without it. -/
def get (piece : Piece) : Option (List Cell) × Piece :=
  (piece.data, ⟨none, -1, 0, .empty⟩)

def clear (_ : Piece) : Piece := ⟨none, -1, 0, .empty⟩

/-! ## The memory of a block -/

theorem store_more {piece : Piece} {data : List Cell} {source : List UInt8} {skip : Nat}
    {block : Block} {blocks : Blocks} (safe : (piece.store data source skip block blocks).Safe)
    (more : List UInt8) :
    piece.store data (source ++ more) skip block blocks =
      piece.store data source skip block blocks := by
  unfold store at *
  cases copied : memcpy data block.offset source skip block.size with
  | none =>
    rw [copied] at safe
    exact absurd safe Outcome.not_safe_fault
  | some out => simp only [memcpy_more copied more]

/-- A call that stays inside its memory looks at nothing behind. -/
theorem add_more {piece : Piece} {id : Int} {source : List UInt8} {size offset : Nat}
    (safe : (piece.add id source size offset).Safe) (more : List UInt8) :
    piece.add id (source ++ more) size offset = piece.add id source size offset := by
  revert safe
  unfold add
  split
  · exact fun _ => rfl
  · split
    · exact fun _ => rfl
    · dsimp only
      split
      · exact fun safe => store_more safe more
      · split
        · exact fun _ => rfl
        · exact fun _ => rfl
        · split
          · exact fun _ => rfl
          · exact fun safe => store_more safe more

end Piece

end TorrentClient
