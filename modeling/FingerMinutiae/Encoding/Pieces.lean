import FingerMinutiae.Wire.Extended
import FingerMinutiae.Wire.Header
import FingerMinutiae.Wire.View

/-!
# The pieces of a record

A record is written piece by piece: the parts of the header, a view header, a single minutia, a
single ridge count. Each piece has its packed fields beside its bytes, so the list of pieces says
all about an encoding: the bytes in order, and which value overflows first, if any does.

Declared lengths, counts and reserved bits are written as they are, so a decoded record becomes the
bytes it was read from.

## Main definitions

* `Payload.pieces`, `ExtendedBlock.pieces`, `FingerView.pieces`, `Record.headerPieces`.
* `Record.pieces`: all pieces of a record, unless it is a card without exactly one view.
-/

namespace FingerMinutiae

open Layout

/-! ### Extended data -/

/-- A method byte and then the counts. -/
def RidgeCounts.pieces (b : RidgeCounts) : List Piece :=
  byte.piece b.method :: b.counts.map ridgeCount.piece

/-- The position of a core, and its angle if its type is angular. An angle that is missing is
written as zero, and one that should not be there is left out. -/
def Landmarks.corePieces (variant : Variant) (b : Landmarks) (c : Core) : List Piece :=
  (landmark variant).piece c.toLandmark ::
    if b.coreIsAngular variant c then [byte.piece (c.angle.getD 0)] else []

/-- The position of a delta, and its three angles if its type is angular. -/
def Landmarks.deltaPieces (variant : Variant) (b : Landmarks) (d : Delta) : List Piece :=
  (landmark variant).piece d.toLandmark ::
    if b.deltaIsAngular variant d then [deltaAngles.piece (d.angles.getD {})] else []

/-- The cores and then the deltas, each list behind its declared count. -/
def Landmarks.pieces (variant : Variant) (b : Landmarks) : List Piece :=
  ((coresInfo variant).piece ⟨b.coreType, b.numCores⟩ :: b.cores.flatMap (b.corePieces variant)) ++
    ((deltasInfo variant).piece ⟨b.deltaType, b.numDeltas⟩ ::
      b.deltas.flatMap (b.deltaPieces variant))

/-- The contents of an extended data record. -/
def Payload.pieces (variant : Variant) : Payload → List Piece
  | ridgeCounts b => b.pieces
  | landmarks b => b.pieces variant
  | raw _ data => [.plain data]

/-- An extended data record: its type and declared length, and then the contents. -/
def ExtendedRecord.pieces (variant : Variant) (d : ExtendedRecord) : List Piece :=
  dataHeader.piece ⟨d.typeId, d.length⟩ :: d.payload.pieces variant

/-- A block: its declared length, and then the records. -/
def ExtendedBlock.pieces (variant : Variant) (b : ExtendedBlock) : List Piece :=
  half.piece b.blockLength :: b.records.flatMap (ExtendedRecord.pieces variant)

/-! ### Views and records -/

/-- A view of a record with a header. A view without extended data has the block length zero. -/
def FingerView.pieces (variant : Variant) (v : FingerView) : List Piece :=
  viewHeader.piece v.toViewHeader :: v.minutiae.map (minutia variant).piece ++
    v.extended.elim [half.piece 0] (ExtendedBlock.pieces variant)

/-- The header of a record. -/
def Record.headerPieces (r : Record) : List Piece :=
  identification.piece r.toIdentification ::
    (if r.variant = .ansi then
      [.plain (ansiLengthBytes r.recordLength), product.piece r.toProduct]
    else
      [word.piece r.recordLength]) ++
    [capture.piece r.toCapture]

/-- A card cannot be written with this many views. -/
structure CardViewCount where
  /-- How many views there are. -/
  found : Nat
deriving DecidableEq

/-- All pieces of a record. A card is the minutiae of its one view. -/
def Record.pieces (r : Record) : Except CardViewCount (List Piece) :=
  if r.variant.isCard then
    match r.views with
    | [view] => .ok (view.minutiae.map (minutia r.variant).piece)
    | views => .error ⟨views.length⟩
  else
    .ok (r.headerPieces ++ r.views.flatMap (FingerView.pieces r.variant))

end FingerMinutiae
