import FingerMinutiae.Minutia

/-!
# The centroid of minutiae

Minutiae are ordered and pruned about their centroid, the mean of their positions with fractions
dropped. Distances are compared as squares, so all arithmetic is on integers.

## Main definitions

* `Point`, `centroid?`.
* `Minutia.offsetX`, `Minutia.offsetY`, `Minutia.distanceSq`: a minutia seen from a point.
-/

namespace FingerMinutiae

/-- A position in an image. -/
structure Point where
  /-- Horizontal position. -/
  x : Nat
  /-- Vertical position. -/
  y : Nat
deriving DecidableEq

/-- The mean of the positions of some minutiae, fractions dropped. Without minutiae there is
none. -/
def centroid? (ms : List Minutia) : Option Point :=
  if ms.isEmpty then none
  else
    some {
      x := (ms.map fun m => m.x.toNat).sum / ms.length
      y := (ms.map fun m => m.y.toNat).sum / ms.length }

namespace Minutia

/-- How far a minutia is to the right of a point. -/
def offsetX (m : Minutia) (centre : Point) : Int :=
  m.x.toNat - centre.x

/-- How far a minutia is below a point. -/
def offsetY (m : Minutia) (centre : Point) : Int :=
  m.y.toNat - centre.y

/-- The square of the distance of a minutia from a point. -/
def distanceSq (m : Minutia) (centre : Point) : Int :=
  m.offsetX centre * m.offsetX centre + m.offsetY centre * m.offsetY centre

end Minutia

end FingerMinutiae
