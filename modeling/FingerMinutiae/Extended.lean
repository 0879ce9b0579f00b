import FingerMinutiae.Variant
import FingerMinutiae.Wire.Field

/-!
# Extended data

After its minutiae a finger view may carry a block of typed records: counts of the ridges between
pairs of minutiae, the cores and deltas of the ridge flow, or data of a type this library does not
read.

Counts and lengths are kept as declared, beside the lists they describe, so that conformance can
compare the two. A node that the end of a stream cut short is marked `truncated`.

The size of a core or a delta depends on whether its type is angular. Under ANSI one type is
declared for all cores and one for all deltas; under ISO each entry has its own.

## Main definitions

* `RidgeCount`, `RidgeCounts`; `Landmark`, `Core`, `Delta`, `Landmarks`; `Payload`.
* `ExtendedRecord`, `ExtendedBlock`.
* `Payload.encodedLength`, and `ExtendedRecord.ofPayload`, which declares the length that the
  payload takes.
-/

namespace FingerMinutiae

/-! ### Ridge counts -/

/-- The number of ridges crossed between two minutiae. -/
structure RidgeCount where
  /-- Number of the first minutia, counted from one. -/
  indexOne : UInt8 := 0
  /-- Number of the second minutia, counted from one. -/
  indexTwo : UInt8 := 0
  /-- Ridges between them. -/
  count : UInt8 := 0
deriving DecidableEq

/-- Ridge counts and the way they were found. -/
structure RidgeCounts where
  /-- Code of the extraction method. -/
  method : UInt8 := 0
  /-- The counts, in file order. -/
  counts : List RidgeCount := []
deriving DecidableEq

/-! ### Cores and deltas -/

/-- The two sorts of landmark in a ridge flow. -/
inductive LandmarkSort where
  | core
  | delta
deriving DecidableEq

/-- The name of a sort of landmark. -/
def LandmarkSort.name : LandmarkSort → String
  | core => "core"
  | delta => "delta"

/-- The type and position of a core or a delta. -/
structure Landmark where
  /-- Type code: under ISO the entry's own, under ANSI the block's. -/
  kind : UInt8 := 0
  /-- Horizontal position. -/
  x : UInt16 := 0
  /-- Vertical position. -/
  y : UInt16 := 0
deriving DecidableEq

/-- A core point: a landmark, with one angle if its type is angular. -/
structure Core extends Landmark where
  /-- Direction of the core. -/
  angle : Option UInt8 := none
deriving DecidableEq

/-- The directions of the three ridge flows that meet in a delta. -/
structure DeltaAngles where
  /-- First direction. -/
  first : UInt8 := 0
  /-- Second direction. -/
  second : UInt8 := 0
  /-- Third direction. -/
  third : UInt8 := 0
deriving DecidableEq

/-- The three angles in order. -/
def DeltaAngles.toList (a : DeltaAngles) : List UInt8 :=
  [a.first, a.second, a.third]

/-- A delta point: a landmark, with three angles if its type is angular. -/
structure Delta extends Landmark where
  /-- Directions of the delta. -/
  angles : Option DeltaAngles := none
deriving DecidableEq

/-- The cores and deltas of a view. The two types are declared under ANSI only and zero under
ISO. -/
structure Landmarks where
  /-- The type of all cores. -/
  coreType : UInt8 := 0
  /-- How many cores are declared. -/
  numCores : UInt8 := 0
  /-- The cores, in file order. -/
  cores : List Core := []
  /-- The type of all deltas. -/
  deltaType : UInt8 := 0
  /-- How many deltas are declared. -/
  numDeltas : UInt8 := 0
  /-- The deltas, in file order. -/
  deltas : List Delta := []
deriving DecidableEq

/-- Whether landmarks of a type carry angles. -/
def isAngular (kind : UInt8) : Bool :=
  kind == 1

namespace Landmarks

/-- The type that governs a core: the block's under ANSI, its own under ISO. -/
def coreKind (b : Landmarks) (variant : Variant) (c : Core) : UInt8 :=
  if variant.isIsoFamily then c.kind else b.coreType

/-- The type that governs a delta: the block's under ANSI, its own under ISO. -/
def deltaKind (b : Landmarks) (variant : Variant) (d : Delta) : UInt8 :=
  if variant.isIsoFamily then d.kind else b.deltaType

/-- Whether a core is written with its angle. -/
def coreIsAngular (b : Landmarks) (variant : Variant) (c : Core) : Bool :=
  isAngular (b.coreKind variant c)

/-- Whether a delta is written with its three angles. -/
def deltaIsAngular (b : Landmarks) (variant : Variant) (d : Delta) : Bool :=
  isAngular (b.deltaKind variant d)

/-- Bytes the landmarks take: a byte for each of the two counts, and four for each position with
one more for the angle of a core or three more for those of a delta. -/
def encodedLength (b : Landmarks) (variant : Variant) : Nat :=
  2 + (b.cores.map fun c => if b.coreIsAngular variant c then 5 else 4).sum
    + (b.deltas.map fun d => if b.deltaIsAngular variant d then 7 else 4).sum

end Landmarks

/-! ### Payloads, records and blocks -/

/-- The contents of an extended data record. -/
inductive Payload where
  /-- Type 1. -/
  | ridgeCounts (block : RidgeCounts)
  /-- Type 2. -/
  | landmarks (block : Landmarks)
  /-- Data of any other type, kept as it is. -/
  | raw (typeId : UInt16) (data : List UInt8)
deriving DecidableEq

namespace Payload

/-- The type identifier of ridge counts. -/
def ridgeCountsType : UInt16 := 1

/-- The type identifier of cores and deltas. -/
def landmarksType : UInt16 := 2

/-- The type identifier written ahead of a payload. -/
def typeId : Payload → UInt16
  | ridgeCounts _ => ridgeCountsType
  | landmarks _ => landmarksType
  | raw typeId _ => typeId

/-- Bytes the payload takes, without the header of its record. -/
def encodedLength (variant : Variant) : Payload → Nat
  | ridgeCounts b => 1 + 3 * b.counts.length
  | landmarks b => b.encodedLength variant
  | raw _ data => data.length

end Payload

/-- One typed record of an extended data block. -/
structure ExtendedRecord where
  /-- Declared length, the four bytes of type and length included. -/
  length : UInt16
  /-- The contents. -/
  payload : Payload
  /-- The stream ended within this record. -/
  truncated : Bool := false
deriving DecidableEq

namespace ExtendedRecord

/-- Bytes of the type and length that open an extended data record. -/
def headerLength : Nat := 4

/-- The type identifier of the contents. -/
def typeId (d : ExtendedRecord) : UInt16 :=
  d.payload.typeId

/-- Bytes the contents take, whatever length is declared. -/
def payloadLength (d : ExtendedRecord) (variant : Variant) : Nat :=
  d.payload.encodedLength variant

/-- A record around a payload, declaring the length that it takes. There is none when the length
does not fit its sixteen bits; the report then gives it up to the largest 32-bit number. -/
def ofPayload (payload : Payload) (variant : Variant) : Except FieldValue ExtendedRecord :=
  let length := headerLength + payload.encodedLength variant
  if length < 2 ^ 16 then
    .ok { length := UInt16.ofNat length, payload }
  else
    .error ⟨.extendedDataLength, min length (2 ^ 32 - 1), 16⟩

end ExtendedRecord

/-- The extended data block of a view. -/
structure ExtendedBlock where
  /-- Declared length of all records of the block. -/
  blockLength : UInt16
  /-- The records, in file order. -/
  records : List ExtendedRecord := []
  /-- The stream ended within this block. -/
  truncated : Bool := false
deriving DecidableEq

/-- The sum of the lengths that the records of a block declare. -/
def ExtendedBlock.recordsLength (b : ExtendedBlock) : Nat :=
  (b.records.map fun d => d.length.toNat).sum

end FingerMinutiae
