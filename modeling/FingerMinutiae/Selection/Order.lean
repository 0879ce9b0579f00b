import FingerMinutiae.Selection.Centroid

/-!
# Ordering and pruning minutiae

The ways of choosing among minutiae that need no chance. Pruning keeps the order of what it keeps,
and sorting keeps the order of what is equally near.

## Main definitions

* `sortPolar`: nearest to the centroid first.
* `pruneElliptical`, `pruneRectangular`: what lies in an ellipse or in a rectangle.
-/

namespace FingerMinutiae

/-- The minutiae by distance from their centroid, nearest first. Those at equal distances stay in
order. -/
def sortPolar (ms : List Minutia) : List Minutia :=
  match centroid? ms with
  | none => []
  | some centre => ms.mergeSort fun p q => p.distanceSq centre ≤ q.distanceSq centre

/-- Whether an offset from the centre lies in the ellipse with the semi-axes `a` and `b`, its edge
included. With a zero semi-axis the ellipse is a segment of the other axis, and with both it is the
centre. -/
def insideEllipse (a b : Nat) (dx dy : Int) : Bool :=
  if a = 0 then dx = 0 ∧ dy.natAbs ≤ b
  else if b = 0 then dy = 0 ∧ dx.natAbs ≤ a
  else (dx * b) * (dx * b) + (dy * a) * (dy * a) ≤ ((a * b) * (a * b) : Nat)

/-- The minutiae in the ellipse about their centroid with the semi-axes `a` along x and `b`
along y. -/
def pruneElliptical (a b : UInt16) (ms : List Minutia) : List Minutia :=
  match centroid? ms with
  | none => []
  | some centre =>
    ms.filter fun m => insideEllipse a.toNat b.toNat (m.offsetX centre) (m.offsetY centre)

/-- The minutiae in the rectangle with a corner at `(x, y)` and the given sides, its edges
included. -/
def pruneRectangular (x y width height : UInt16) (ms : List Minutia) : List Minutia :=
  ms.filter fun m =>
    (x ≤ m.x && m.x.toNat ≤ x.toNat + width.toNat)
      && (y ≤ m.y && m.y.toNat ≤ y.toNat + height.toNat)

end FingerMinutiae
