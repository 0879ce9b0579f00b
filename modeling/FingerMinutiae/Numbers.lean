/-!
# Numbers

Powers and sums of natural numbers are those of the core library. Algebra has powers and zeros of
its own, which are equal to these but are other terms; where both are in scope core's come first, so
that a formula means the same in every module.
-/

namespace FingerMinutiae

@[default_instance 20000]
instance (priority := 1100) corePow : Pow Nat Nat :=
  instPowNat

instance (priority := 1100) coreZero : Zero Nat :=
  Zero.ofOfNat0

end FingerMinutiae
