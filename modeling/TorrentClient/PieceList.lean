import TorrentClient.TorrentFile

/-!
# The list of pieces

`PieceList` hands out the pieces of a torrent to the peers, those that were
returned first and then the next one that was never issued.
-/

namespace TorrentClient

structure PieceList where
  maxPieceNum : Nat
  lastPieceSize : Nat
  pieceSize : Nat
  nextPiece : Nat := 0
  returnedPieces : List Int := []
  deriving DecidableEq, Repr

namespace PieceList

def new (tf : TorrentFile) : PieceList where
  maxPieceNum := sub64 tf.pieces.val.length 1
  lastPieceSize := tf.lastPieceSize
  pieceSize := tf.pieceSize

def numberOfPieces (pl : PieceList) : Nat := sub64 pl.maxPieceNum 1

/-- The size of a piece. The comparison converts the index. -/
def sizeOf (pl : PieceList) (pieceIndex : Int) : Nat :=
  if toUInt64 pieceIndex = pl.maxPieceNum then pl.lastPieceSize else pl.pieceSize

/-- The size returned, the index set, and the list afterwards. -/
def getPiece (pl : PieceList) : Nat × Int × PieceList :=
  match pl.returnedPieces with
  | pieceIndex :: rest =>
    (pl.sizeOf pieceIndex, pieceIndex, { pl with returnedPieces := rest })
  | [] =>
    if pl.nextPiece ≤ pl.maxPieceNum then
      let pieceIndex := toInt64 pl.nextPiece
      (pl.sizeOf pieceIndex, pieceIndex, { pl with nextPiece := add64 pl.nextPiece 1 })
    else (0, -1, pl)

/-- The parameter is a `uint64_t`, the elements of the list are `int64_t`. -/
def returnPiece (pl : PieceList) (piece : Nat) : PieceList :=
  { pl with returnedPieces := pl.returnedPieces ++ [toInt64 piece] }

end PieceList

end TorrentClient
