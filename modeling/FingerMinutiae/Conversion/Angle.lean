import FingerMinutiae.Variant

/-!
# Converting angles

Every variant divides the full turn into its own number of steps. An angle is moved from one to
another through whole degrees, and rounded on the way there and on the way back, so steps finer
than a degree are lost.

## Main definitions

* `roundedQuotient`: a quotient of naturals rounded to the nearest, a half upward.
* `convertAngle`: an angle in the steps of another variant.
-/

namespace FingerMinutiae

/-- The natural number nearest to `n / d`; of two equally near ones the larger. -/
def roundedQuotient (n d : Nat) : Nat :=
  (2 * n + d) / (2 * d)

/-- An angle of one variant in whole degrees. -/
def angleDegrees (source : Variant) (angle : UInt8) : Nat :=
  roundedQuotient (angle.toNat * 360) source.angleLevels

/-- An angle of one variant in the steps of another. Within a variant nothing changes, even for an
angle of a full turn and more; between two, the answer is below a full turn. -/
def convertAngle (source target : Variant) (angle : UInt8) : UInt8 :=
  if source = target then angle
  else
    let steps := roundedQuotient (angleDegrees source angle * target.angleLevels) 360
    UInt8.ofNat (steps % target.angleLevels)

end FingerMinutiae
