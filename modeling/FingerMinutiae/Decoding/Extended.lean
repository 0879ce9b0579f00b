import FingerMinutiae.Decoding.Decoder
import FingerMinutiae.Wire.Extended

/-!
# Decoding extended data

A block is read record by record until its declared length is used up. The length that a record
declares is checked against what the block has left before anything of its payload is read, so a
block that is accepted takes exactly its declared length. What cores and deltas announce is compared
with what is declared for them only when all of them have been read.

## Main definitions

* `RidgeCounts.decoder`, `Landmarks.decoder`, `Payload.decoder`.
* `ExtendedRecord.lengthDefect?`: what is wrong with a declared length.
* `ExtendedBlock.decoder`.
-/

namespace FingerMinutiae

open Decoder

/-! ### Ridge counts -/

/-- Whether so many bytes are a method byte and whole ridge counts. -/
def RidgeCounts.isLength (declared : Nat) : Bool :=
  declared % 3 == 1

/-- Ridge counts in a payload of `declared` bytes. -/
def RidgeCounts.decoder (place : Place) (declared : Nat) : Decoder (Decoded RidgeCounts) :=
  if RidgeCounts.isLength declared then
    readPieceOr {} .byte fun method => do
      let counts ← several (fun _ => item .ridgeCount) (declared / 3)
      return counts.map fun counts => { method, counts }
  else
    malformed ExtendedRecord.headerLength place .ridgeCountLength

/-! ### Cores and deltas -/

/-- A landmark in a list of which `listKind` is the type: the type of the list counts under ANSI,
and its own under ISO. -/
def Landmark.ofList (variant : Variant) (listKind : UInt8) (l : Landmark) : Landmark :=
  { l with kind := if variant.isIsoFamily then l.kind else listKind }

/-- A core in a list of which `listKind` is the type. There is nothing of it unless the angle it
should have is there too. -/
def Core.decoder (variant : Variant) (listKind : UInt8) : Decoder (Option (Decoded Core)) :=
  readPiece (.landmark variant) >>= fun
    | .short _ => done none
    | .whole position =>
      let core : Core := { toLandmark := position.ofList variant listKind }
      if isAngular core.kind then
        readPiece .byte >>= fun
          | .short _ => done none
          | .whole angle => done (some (.complete { core with angle := some angle }))
      else
        done (some (.complete core))

/-- A delta in a list of which `listKind` is the type. There is nothing of it unless the angles it
should have are there too. -/
def Delta.decoder (variant : Variant) (listKind : UInt8) : Decoder (Option (Decoded Delta)) :=
  readPiece (.landmark variant) >>= fun
    | .short _ => done none
    | .whole position =>
      let delta : Delta := { toLandmark := position.ofList variant listKind }
      if isAngular delta.kind then
        readPiece .deltaAngles >>= fun
          | .short _ => done none
          | .whole angles => done (some (.complete { delta with angles := some angles }))
      else
        done (some (.complete delta))

/-- Cores and then deltas, as many of each as are announced. -/
def Landmarks.entriesDecoder (variant : Variant) : Decoder (Decoded Landmarks) :=
  readPieceOr {} (.coresInfo variant) fun info => do
    let draft : Landmarks := { coreType := info.kind, numCores := info.count }
    match ← several (fun _ => Core.decoder variant info.kind) info.count.toNat with
    | .incomplete cores => return .incomplete { draft with cores }
    | .complete cores =>
      let draft := { draft with cores }
      readPieceOr draft (.deltasInfo variant) fun info => do
        let draft := { draft with deltaType := info.kind, numDeltas := info.count }
        let deltas ← several (fun _ => Delta.decoder variant info.kind) info.count.toNat
        return deltas.map fun deltas => { draft with deltas }

/-- Cores and deltas in a payload of `declared` bytes. Only when all are read is it known whether
they take what is declared. -/
def Landmarks.decoder (variant : Variant) (place : Place) (declared : Nat) :
    Decoder (Decoded Landmarks) := do
  match ← Landmarks.entriesDecoder variant with
  | .incomplete b => return .incomplete b
  | .complete b =>
    let consumed := b.encodedLength variant
    if consumed = declared then
      return .complete b
    else
      malformed (ExtendedRecord.headerLength + consumed) place (.landmarksLength declared consumed)

/-! ### Records and blocks -/

/-- A payload of `declared` bytes. Data of a type that is not read here is there as a whole or not
at all. -/
def Payload.decoder (variant : Variant) (place : Place) (typeId : UInt16) (declared : Nat) :
    Decoder (Decoded Payload) :=
  if typeId = Payload.ridgeCountsType then
    return (← RidgeCounts.decoder place declared).map .ridgeCounts
  else if typeId = Payload.landmarksType then
    return (← Landmarks.decoder variant place declared).map .landmarks
  else
    take declared fun
      | .whole data => done (.complete (.raw typeId data))
      | .short _ => done (.incomplete (.raw typeId []))

/-- What is wrong with the length that an extended data record declares, when its block has
`remaining` bytes left. -/
def ExtendedRecord.lengthDefect? (length remaining : Nat) : Option Defect :=
  if length = 0 then some .zeroLength
  else if remaining < length then some (.overrun length remaining)
  else if length < ExtendedRecord.headerLength then some .tooShort
  else none

/-- A declared length in which nothing is wrong has room for the header and does not pass the end
of the block. -/
theorem ExtendedRecord.bounds_of_lengthDefect? {length remaining : Nat}
    (h : ExtendedRecord.lengthDefect? length remaining = none) :
    4 ≤ length ∧ length ≤ remaining := by
  unfold ExtendedRecord.lengthDefect? ExtendedRecord.headerLength at h
  grind

/-- Extended data records, the first of them at `index`, until the `remaining` bytes of the block
are used up, put behind those already read, which are kept last first. A record of which the header
was read is kept even if the stream ended within it. -/
def ExtendedBlock.recordsDecoder (variant : Variant) (view index remaining : Nat)
    (got : List ExtendedRecord) : Decoder (Decoded (List ExtendedRecord)) :=
  if remaining = 0 then
    done (.complete got.reverse)
  else
    readPiece .dataHeader >>= fun
      | .short _ => done (.incomplete got.reverse)
      | .whole header =>
        let length := header.length.toNat
        let place := Place.data view index
        match h : ExtendedRecord.lengthDefect? length remaining with
        | some defect => malformed ExtendedRecord.headerLength place defect
        | none =>
          have := ExtendedRecord.bounds_of_lengthDefect? h
          let declared := length - ExtendedRecord.headerLength
          Payload.decoder variant place header.typeId declared >>= fun
            | .complete payload =>
              ExtendedBlock.recordsDecoder variant view (index + 1) (remaining - length)
                ({ length := header.length, payload } :: got)
            | .incomplete payload =>
              done (.incomplete
                ({ length := header.length, payload, truncated := true } :: got).reverse)
termination_by remaining

/-- The extended data block of the view at index `view`, after its length has been read. -/
def ExtendedBlock.decoder (variant : Variant) (view : Nat) (blockLength : UInt16) :
    Decoder (Decoded ExtendedBlock) := do
  match ← ExtendedBlock.recordsDecoder variant view 0 blockLength.toNat [] with
  | .complete records => return .complete { blockLength, records }
  | .incomplete records => return .incomplete { blockLength, records, truncated := true }

end FingerMinutiae
