import FingerMinutiae.Variant

/-!
# Converting positions

The record formats count pixels, and a card counts fractions of a millimetre, so a position moves
between the two by the resolution of the capture. The scale is computed in double precision and
rounded half up, in the order in which the factors stand here. Another order would differ in the
last bit, which shows where the exact value is next to a half.

## Main definitions

* `Resolution`: pixels per centimetre.
* `pixelsToUnits`, `unitsToPixels`: one coordinate.
* `rescale`: a coordinate between two variants.
* `maxCoordinate`: the largest coordinate a variant holds.
-/

namespace FingerMinutiae

/-- A capture resolution in pixels per centimetre. -/
structure Resolution where
  /-- Horizontal. -/
  x : UInt16
  /-- Vertical. -/
  y : UInt16
deriving DecidableEq

/-- Neither component is zero. -/
def Resolution.isUsable (r : Resolution) : Bool :=
  r.x != 0 && r.y != 0

/-- A pixel coordinate in card units. -/
def pixelsToUnits (pixels resolution : UInt16) (unitsPerMm : Nat) : Nat :=
  let mm := 10.0 * pixels.toFloat / resolution.toFloat
  (mm * Float.ofNat unitsPerMm + 0.5).toUInt32.toNat

/-- A coordinate in card units in pixels. -/
def unitsToPixels (units resolution : UInt16) (unitsPerMm : Nat) : Nat :=
  let mm := units.toFloat / Float.ofNat unitsPerMm
  (mm * resolution.toFloat / 10.0 + 0.5).toUInt32.toNat

/-- A coordinate of one variant as another counts it. Between two variants that both count pixels
it stays as it is. -/
def rescale (source target : Variant) (coordinate resolution : UInt16) : Nat :=
  match source.unitsPerMm?, target.unitsPerMm? with
  | none, some units => pixelsToUnits coordinate resolution units
  | some units, none => unitsToPixels coordinate resolution units
  | none, none | some _, some _ => coordinate.toNat

/-- The largest coordinate a variant holds: fourteen bits, and on the compact card eight. -/
def maxCoordinate : Variant → Nat
  | .ansi | .iso | .isoNormalCard => 0x3fff
  | .isoCompactCard => 0xff

end FingerMinutiae
