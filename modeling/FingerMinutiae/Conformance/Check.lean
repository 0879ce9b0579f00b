import FingerMinutiae.Conformance.Violation

/-!
# Checking conformance

The check walks the whole record and reports every violation, in file order, rather than stopping
at the first. Each rule is one `demand`: it reports nothing if its condition holds and one
violation otherwise, so the report is empty exactly when all conditions hold.

View numbers are judged for each finger position on its own: its views must be numbered 0, 1, 2, …
in file order. A number out of sequence is reported and leaves the expectation as it was.

## Main definitions

* `Profile`: the full set of rules, or those of MINEX testing.
* `expectedNumbers`: the view numbers that views are judged against.
* `Record.violations`: the report on a record.
-/

namespace FingerMinutiae

/-- A set of rules to conform to. -/
inductive Profile where
  /-- All rules. -/
  | full
  /-- The rules of MINEX conformance testing, which asks for no product owner. -/
  | minex
deriving DecidableEq

/-- Reports a breach unless a condition holds. -/
def demand (condition : Prop) [Decidable condition] (place : Place) (breach : Breach) :
    List Violation :=
  if condition then [] else [⟨place, breach⟩]

/-- A coded field must hold one of its codes. -/
def CodedField.demand (field : CodedField) (value : UInt8) (place : Place) : List Violation :=
  FingerMinutiae.demand (field.set.allows value = true) place (.notAllowed field value)

/-- An angle must be below a full turn. -/
def Variant.demandAngle (variant : Variant) (angle : UInt8) (place : Place) : List Violation :=
  demand (angle ≤ variant.maxAngle) place (.angle angle variant.maxAngle)

/-- A position must lie in the image of the record. -/
def Capture.demandInside (c : Capture) (x y : UInt16) (place : Place) : List Violation :=
  demand (x < c.xImageSize ∧ y < c.yImageSize) place
    (.outsideImage x y c.xImageSize c.yImageSize)

/-! ### Minutiae -/

/-- What is wrong with a minutia. A card has neither quality nor an image. -/
def Record.minutiaViolations (r : Record) (place : Place) (m : Minutia) : List Violation :=
  CodedField.minutiaType.demand m.kind place
    ++ demand (m.reserved = 0) place (.reserved m.reserved)
    ++ r.variant.demandAngle m.angle place
    ++ if r.variant.hasHeader then
        CodedField.minutiaQuality.demand m.quality place ++ r.demandInside m.x m.y place
      else []

/-! ### Extended data -/

/-- What is wrong with ridge counts in a view that declares so many minutiae: the minutiae are
numbered from one, and zero refers to none. -/
def RidgeCounts.violations (b : RidgeCounts) (minutiae : UInt8) (view data : Nat) :
    List Violation :=
  CodedField.ridgeCountMethod.demand b.method (.data view data)
    ++ b.counts.zipIdx.flatMap fun (c, i) =>
      [c.indexOne, c.indexTwo].flatMap fun index =>
        demand (index ≤ minutiae) (.ridgeCount view data i) (.ridgeCountIndex index minutiae)

/-- What is wrong with a core. -/
def Record.coreViolations (r : Record) (b : Landmarks) (place : Place) (c : Core) :
    List Violation :=
  (if r.variant.isIsoFamily then CodedField.coreType.demand c.kind place else [])
    ++ r.demandInside c.x c.y place
    ++ demand (c.angle.isSome = b.coreIsAngular r.variant c) place
        (.anglePresence .core (b.coreIsAngular r.variant c))
    ++ c.angle.toList.flatMap fun angle => r.variant.demandAngle angle place

/-- What is wrong with a delta. -/
def Record.deltaViolations (r : Record) (b : Landmarks) (place : Place) (d : Delta) :
    List Violation :=
  (if r.variant.isIsoFamily then CodedField.deltaType.demand d.kind place else [])
    ++ r.demandInside d.x d.y place
    ++ demand (d.angles.isSome = b.deltaIsAngular r.variant d) place
        (.anglePresence .delta (b.deltaIsAngular r.variant d))
    ++ (d.angles.elim [] DeltaAngles.toList).flatMap fun angle =>
      r.variant.demandAngle angle place

/-- What is wrong with cores and deltas: first the counts and, under ANSI, the two types, then the
entries. -/
def Record.landmarksViolations (r : Record) (b : Landmarks) (view data : Nat) : List Violation :=
  let place := Place.data view data
  demand (b.numCores.toNat = b.cores.length) place
      (.landmarkCount .core b.numCores.toNat b.cores.length)
    ++ demand (b.numDeltas.toNat = b.deltas.length) place
      (.landmarkCount .delta b.numDeltas.toNat b.deltas.length)
    ++ (if r.variant = .ansi then
        CodedField.coreType.demand b.coreType place
          ++ CodedField.deltaType.demand b.deltaType place
      else [])
    ++ (b.cores.zipIdx.flatMap fun (c, i) => r.coreViolations b (.core view data i) c)
    ++ (b.deltas.zipIdx.flatMap fun (d, i) => r.deltaViolations b (.delta view data i) d)

/-- What is wrong with an extended data record of a view that declares so many minutiae. -/
def Record.dataViolations (r : Record) (minutiae : UInt8) (view data : Nat)
    (d : ExtendedRecord) : List Violation :=
  demand (d.truncated = false) (.data view data) .truncated
    ++ match d.payload with
      | .ridgeCounts b => b.violations minutiae view data
      | .landmarks b => r.landmarksViolations b view data
      | .raw _ _ => []

/-- What is wrong with the extended data of a view that declares so many minutiae. -/
def Record.extendedViolations (r : Record) (minutiae : UInt8) (view : Nat) (b : ExtendedBlock) :
    List Violation :=
  demand (b.truncated = false) (.extended view) .truncated
    ++ demand (b.blockLength.toNat = b.recordsLength) (.extended view)
      (.blockLength b.blockLength.toNat b.recordsLength)
    ++ b.records.zipIdx.flatMap fun (d, i) => r.dataViolations minutiae view i d

/-! ### Views -/

/-- The view number after another; the largest has none after it. -/
def nextNumber (n : UInt8) : UInt8 :=
  if n = 255 then 255 else n + 1

/-- The number each of some views is judged against, where `next` has the number expected next for
each finger position. A position moves on when a view has the number expected of it. -/
def expectedNumbers (next : UInt8 → UInt8) : List FingerView → List UInt8
  | [] => []
  | v :: vs =>
    let expected := next v.position
    let after := if v.viewNumber = expected then nextNumber expected else expected
    expected :: expectedNumbers (fun p => if p = v.position then after else next p) vs

/-- What is wrong with the header of a view that should have the given number. -/
def FingerView.headerViolations (v : FingerView) (expected : UInt8) (place : Place) :
    List Violation :=
  CodedField.fingerPosition.demand v.position place
    ++ demand (v.viewNumber = expected) place (.viewNumber v.position expected v.viewNumber)
    ++ CodedField.impressionType.demand v.impression place
    ++ CodedField.fingerQuality.demand v.quality place

/-- What is wrong with the view at index `view`, which should have the given number. -/
def Record.viewViolations (r : Record) (view : Nat) (v : FingerView) (expected : UInt8) :
    List Violation :=
  demand (v.truncated = false) (.view view) .truncated
    ++ demand (v.numMinutiae.toNat = v.minutiae.length) (.view view)
      (.minutiaeCount v.numMinutiae.toNat v.minutiae.length)
    ++ (if r.variant.hasHeader then v.headerViolations expected (.view view) else [])
    ++ (v.minutiae.zipIdx.flatMap fun (m, i) => r.minutiaViolations (.minutia view i) m)
    ++ v.extended.elim [] (r.extendedViolations v.numMinutiae view)

/-! ### Records -/

/-- What is wrong with the header of a record. -/
def Record.headerViolations (profile : Profile) (r : Record) : List Violation :=
  demand (r.formatId = .finger) .record (.formatId r.formatId)
    ++ demand (r.specVersion = .version20) .record (.specVersion r.specVersion)
    ++ demand (r.variant.minRecordLength ≤ r.recordLength.toNat) .record
      (.recordTooShort r.recordLength.toNat r.variant.minRecordLength)
    ++ demand (r.variant = .ansi → profile = .full → r.productOwner ≠ 0) .record .productOwner
    ++ demand (r.xResolution ≠ 0 ∧ r.yResolution ≠ 0) .record
      (.resolution r.xResolution r.yResolution)
    ++ demand (r.reserved = 0) .record (.reserved r.reserved)

/-- Everything that is wrong with a record, in file order. A record conforms when this is
nothing. -/
def Record.violations (profile : Profile) (r : Record) : List Violation :=
  (if r.variant.hasHeader then r.headerViolations profile else [])
    ++ demand (r.recordLength.toNat = r.computedLength) .record
      (.recordLength r.recordLength.toNat r.computedLength)
    ++ demand (r.numViews.toNat = r.views.length) .record
      (.viewCount r.numViews.toNat r.views.length)
    ++ (r.views.zip (expectedNumbers (fun _ => 0) r.views)).zipIdx.flatMap
      fun ((v, expected), i) => r.viewViolations i v expected

end FingerMinutiae
