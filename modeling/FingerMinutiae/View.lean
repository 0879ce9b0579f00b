import FingerMinutiae.Extended
import FingerMinutiae.Minutia

/-!
# Finger views

A finger view is one impression of one finger: a header, the minutiae found, and perhaps a block
of extended data.

## Main definitions

* `ViewHeader`, `FingerView`.
* `FingerView.encodedLength`: the bytes that a view takes in a variant.
* `FingerView.ridgeCounts`, `FingerView.cores`, `FingerView.deltas`: the entries of all extended
  data records of a view together.
-/

namespace FingerMinutiae

/-- The fields that open a finger view. -/
structure ViewHeader where
  /-- Finger or palm position code. -/
  position : UInt8 := 0
  /-- Number of the view among those of its position, from zero; four bits. -/
  viewNumber : UInt8 := 0
  /-- Impression type code; four bits. -/
  impression : UInt8 := 0
  /-- Finger quality from 0 to 100. -/
  quality : UInt8 := 0
  /-- How many minutiae are declared. -/
  numMinutiae : UInt8 := 0
deriving DecidableEq, Inhabited

/-- One impression of one finger. -/
structure FingerView extends ViewHeader where
  /-- The minutiae, in file order. -/
  minutiae : List Minutia := []
  /-- The extended data, if there is any. -/
  extended : Option ExtendedBlock := none
  /-- The stream ended within this view. -/
  truncated : Bool := false
deriving DecidableEq

namespace FingerView

/-- Bytes of the view header and of the length that announces the extended data. -/
def frameLength : Nat := 4 + 2

/-- Bytes a view takes in a variant. A card holds the minutiae alone; a record has them between
the view header and the extended data, which takes the length it declares. -/
def encodedLength (v : FingerView) (variant : Variant) : Nat :=
  let minutiae := v.minutiae.length * variant.minutiaLength
  if variant.isCard then minutiae
  else frameLength + minutiae + (v.extended.elim 0 fun b => b.blockLength.toNat)

/-- The payloads of the extended data records, in file order. -/
def payloads (v : FingerView) : List Payload :=
  v.extended.elim [] fun b => b.records.map (·.payload)

/-- Every ridge count of the view, in file order. -/
def ridgeCounts (v : FingerView) : List RidgeCount :=
  v.payloads.flatMap fun
    | .ridgeCounts b => b.counts
    | _ => []

/-- Every core of the view, in file order. -/
def cores (v : FingerView) : List Core :=
  v.payloads.flatMap fun
    | .landmarks b => b.cores
    | _ => []

/-- Every delta of the view, in file order. -/
def deltas (v : FingerView) : List Delta :=
  v.payloads.flatMap fun
    | .landmarks b => b.deltas
    | _ => []

end FingerView

end FingerMinutiae
