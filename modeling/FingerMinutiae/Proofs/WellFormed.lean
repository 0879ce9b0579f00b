import FingerMinutiae.Record
import Mathlib.Tactic.MkIffOfInductiveProp

/-!
# Well-formed records

A record keeps what was declared beside what is there, so most values of the type are no record
that any bytes could be. A record is well formed when nothing in it is cut short, every count and
length says what it counts, every packed field is within its bits, and every field for which the
encoding has no place is zero.

This is not conformance. A record of a finger that does not exist, with minutiae outside its image,
may be well formed; and whether the declared record length is right is not asked of a record with
a header, since nothing but the header itself depends on it.

## Main definitions

* `Minutia.WellFormed`, `Landmarks.WellFormed`, `Payload.WellFormed`, `ExtendedRecord.WellFormed`,
  `ExtendedBlock.WellFormed`, `FingerView.WellFormed`: the nodes of a record with a header.
* `Record.HeadedWellFormed`, `Record.CardWellFormed`, `Record.WellFormed`.
* `FingerView.Bounded`, `Record.Bounded`: what is left of it when not all of the record is there.
-/

namespace FingerMinutiae

/-! ### Minutiae -/

/-- The fields of a minutia that share the two position words are within their bits. -/
@[mk_iff]
structure Minutia.PositionFits (m : Minutia) : Prop where
  kind : m.kind.toNat < 2 ^ 2
  x : m.x.toNat < 2 ^ 14
  reserved : m.reserved.toNat < 2 ^ 2
  y : m.y.toNat < 2 ^ 14

instance (m : Minutia) : Decidable m.PositionFits :=
  decidable_of_iff _ m.positionFits_iff.symm

/-- A minutia of the compact card is within its bits, and the fields it does not have are zero. -/
@[mk_iff]
structure Minutia.CompactWellFormed (m : Minutia) : Prop where
  kind : m.kind.toNat < 2 ^ 2
  x : m.x.toNat < 2 ^ 8
  y : m.y.toNat < 2 ^ 8
  angle : m.angle.toNat < 2 ^ 6
  quality : m.quality = 0
  reserved : m.reserved = 0

instance (m : Minutia) : Decidable m.CompactWellFormed :=
  decidable_of_iff _ m.compactWellFormed_iff.symm

/-- A minutia is within the bits of its variant, and what the variant does not write is zero. -/
def Minutia.WellFormed (m : Minutia) : Variant → Prop
  | .ansi | .iso => m.PositionFits
  | .isoNormalCard => m.PositionFits ∧ m.quality = 0
  | .isoCompactCard => m.CompactWellFormed

instance (m : Minutia) : (variant : Variant) → Decidable (m.WellFormed variant)
  | .ansi | .iso => inferInstanceAs (Decidable m.PositionFits)
  | .isoNormalCard => inferInstanceAs (Decidable (m.PositionFits ∧ m.quality = 0))
  | .isoCompactCard => inferInstanceAs (Decidable m.CompactWellFormed)

/-! ### Extended data -/

/-- A landmark in a list of which `listKind` is the type: it is within its bits, and under ANSI its
type is that of the list. -/
@[mk_iff]
structure Landmark.WellFormed (variant : Variant) (listKind : UInt8) (l : Landmark) : Prop where
  kind : l.kind.toNat < 2 ^ 2
  x : l.x.toNat < 2 ^ 14
  y : l.y.toNat < 2 ^ 14
  of_list : variant.isIsoFamily = false → l.kind = listKind

instance (variant : Variant) (listKind : UInt8) (l : Landmark) :
    Decidable (l.WellFormed variant listKind) :=
  decidable_of_iff _ (Landmark.wellFormed_iff variant listKind l).symm

/-- The type of a list of landmarks has two bits under ANSI and is zero under ISO. -/
def Landmarks.KindWellFormed (variant : Variant) (listKind : UInt8) : Prop :=
  if variant.isIsoFamily then listKind = 0 else listKind.toNat < 2 ^ 2

instance (variant : Variant) (listKind : UInt8) :
    Decidable (Landmarks.KindWellFormed variant listKind) :=
  inferInstanceAs (Decidable (if variant.isIsoFamily then listKind = 0 else listKind.toNat < 2 ^ 2))

/-- Both lists are as long as declared and fit their counts, and an entry has angles exactly when
its type is angular. -/
@[mk_iff]
structure Landmarks.WellFormed (variant : Variant) (b : Landmarks) : Prop where
  numCores : b.numCores.toNat = b.cores.length
  cores_length : b.cores.length < 2 ^ 4
  coreType : KindWellFormed variant b.coreType
  cores : ∀ c ∈ b.cores, c.toLandmark.WellFormed variant b.coreType
  core_angle : ∀ c ∈ b.cores, c.angle.isSome = b.coreIsAngular variant c
  numDeltas : b.numDeltas.toNat = b.deltas.length
  deltas_length : b.deltas.length < 2 ^ 6
  deltaType : KindWellFormed variant b.deltaType
  deltas : ∀ d ∈ b.deltas, d.toLandmark.WellFormed variant b.deltaType
  delta_angles : ∀ d ∈ b.deltas, d.angles.isSome = b.deltaIsAngular variant d

instance (variant : Variant) (b : Landmarks) : Decidable (b.WellFormed variant) :=
  decidable_of_iff _ (Landmarks.wellFormed_iff variant b).symm

/-- Ridge counts are always well formed. Data is kept as it is only under a type that has no
reading of its own. -/
def Payload.WellFormed (variant : Variant) : Payload → Prop
  | .ridgeCounts _ => True
  | .landmarks b => b.WellFormed variant
  | .raw typeId _ => typeId ≠ ridgeCountsType ∧ typeId ≠ landmarksType

instance (variant : Variant) : (p : Payload) → Decidable (p.WellFormed variant)
  | .ridgeCounts _ => inferInstanceAs (Decidable True)
  | .landmarks b => inferInstanceAs (Decidable (b.WellFormed variant))
  | .raw typeId _ =>
    inferInstanceAs (Decidable (typeId ≠ Payload.ridgeCountsType ∧ typeId ≠ Payload.landmarksType))

/-- A record is all there and declares the bytes it takes, its header included. -/
@[mk_iff]
structure ExtendedRecord.WellFormed (variant : Variant) (d : ExtendedRecord) : Prop where
  whole : d.truncated = false
  length : d.length.toNat = headerLength + d.payloadLength variant
  payload : d.payload.WellFormed variant

instance (variant : Variant) (d : ExtendedRecord) : Decidable (d.WellFormed variant) :=
  decidable_of_iff _ (ExtendedRecord.wellFormed_iff variant d).symm

/-- A block is all there and declares the bytes of its records, of which there is at least one. -/
@[mk_iff]
structure ExtendedBlock.WellFormed (variant : Variant) (b : ExtendedBlock) : Prop where
  whole : b.truncated = false
  length : b.blockLength.toNat = b.recordsLength
  nonempty : 0 < b.recordsLength
  records : ∀ d ∈ b.records, d.WellFormed variant

instance (variant : Variant) (b : ExtendedBlock) : Decidable (b.WellFormed variant) :=
  decidable_of_iff _ (ExtendedBlock.wellFormed_iff variant b).symm

/-! ### Views and records -/

/-- The header of a view is within its bits. -/
@[mk_iff]
structure ViewHeader.WellFormed (h : ViewHeader) : Prop where
  viewNumber : h.viewNumber.toNat < 2 ^ 4
  impression : h.impression.toNat < 2 ^ 4

instance (h : ViewHeader) : Decidable h.WellFormed :=
  decidable_of_iff _ h.wellFormed_iff.symm

theorem ViewHeader.wellFormed_of_zero {h : ViewHeader} (hnumber : h.viewNumber = 0)
    (himpression : h.impression = 0) : h.WellFormed :=
  ⟨by rw [hnumber]; decide, by rw [himpression]; decide⟩

/-- A view of a record with a header: all there, and with as many minutiae as declared. -/
@[mk_iff]
structure FingerView.WellFormed (variant : Variant) (v : FingerView) : Prop where
  whole : v.truncated = false
  header : v.toViewHeader.WellFormed
  numMinutiae : v.numMinutiae.toNat = v.minutiae.length
  minutiae : ∀ m ∈ v.minutiae, m.WellFormed variant
  extended : ∀ b ∈ v.extended, b.WellFormed variant

instance (variant : Variant) (v : FingerView) : Decidable (v.WellFormed variant) :=
  decidable_of_iff _ (FingerView.wellFormed_iff variant v).symm

/-- The capture details are within their bits. -/
@[mk_iff]
structure Capture.WellFormed (c : Capture) : Prop where
  compliance : c.compliance.toNat < 2 ^ 4
  scannerId : c.scannerId.toNat < 2 ^ 12

instance (c : Capture) : Decidable c.WellFormed :=
  decidable_of_iff _ c.wellFormed_iff.symm

theorem Capture.wellFormed_of_zero {c : Capture} (hcompliance : c.compliance = 0)
    (hscanner : c.scannerId = 0) : c.WellFormed :=
  ⟨by rw [hcompliance]; decide, by rw [hscanner]; decide⟩

/-- A record with a header. Only ANSI has a product identifier. -/
@[mk_iff]
structure Record.HeadedWellFormed (r : Record) : Prop where
  product : r.variant ≠ .ansi → r.toProduct = {}
  capture : r.toCapture.WellFormed
  numViews : r.numViews.toNat = r.views.length
  views : ∀ v ∈ r.views, v.WellFormed r.variant

instance (r : Record) : Decidable r.HeadedWellFormed :=
  decidable_of_iff _ r.headedWellFormed_iff.symm

/-- A card: a bare view of at most 255 minutiae, and no header field but the count of views and
the length, which is that of the minutiae. -/
structure Record.CardWellFormed (r : Record) : Prop where
  identification : r.toIdentification = {}
  product : r.toProduct = {}
  capture : r.toCapture = { numViews := 1 }
  views : ∃ minutiae : List Minutia,
    r.views = [{ numMinutiae := UInt8.ofNat minutiae.length, minutiae }] ∧
      minutiae.length ≤ 255 ∧ (∀ m ∈ minutiae, m.WellFormed r.variant) ∧
      r.recordLength.toNat = minutiae.length * r.variant.minutiaLength

/-- A record that some bytes of its variant may be. -/
def Record.WellFormed (r : Record) : Prop :=
  if r.variant.isCard then r.CardWellFormed else r.HeadedWellFormed

/-! ### What does not depend on all being there -/

/-- The header and the minutiae of a view are within their bits, and the minutiae are no more than
can be declared. -/
structure FingerView.Bounded (variant : Variant) (v : FingerView) : Prop where
  header : v.toViewHeader.WellFormed
  minutiae_length : v.minutiae.length ≤ 255
  minutiae : ∀ m ∈ v.minutiae, m.WellFormed variant

/-- The header and the views of a record are within their bits, and the views are no more than can
be declared. -/
structure Record.Bounded (r : Record) : Prop where
  product : r.variant ≠ .ansi → r.toProduct = {}
  capture : r.toCapture.WellFormed
  views_length : r.views.length ≤ 255
  views : ∀ v ∈ r.views, v.Bounded r.variant

theorem FingerView.WellFormed.bounded {variant : Variant} {v : FingerView}
    (h : v.WellFormed variant) : v.Bounded variant where
  header := h.header
  minutiae_length := by
    rw [← h.numMinutiae]
    exact Nat.le_of_lt_succ v.numMinutiae.toNat_lt
  minutiae := h.minutiae

theorem Record.HeadedWellFormed.bounded {r : Record} (h : r.HeadedWellFormed) : r.Bounded where
  product := h.product
  capture := h.capture
  views_length := by
    rw [← h.numViews]
    exact Nat.le_of_lt_succ r.numViews.toNat_lt
  views v hv := (h.views v hv).bounded

end FingerMinutiae
