import FingerMinutiae.Numbers

/-!
# Minutiae

A minutia is a point where a friction ridge ends or forks. Its fields are kept as the code values
of a record, within or outside the ranges that conformance allows.

## Main definitions

* `Minutia`: the fields of one minutia.
* `MinutiaKind`: the type codes with a defined meaning, read by `Minutia.kind?`.
-/

namespace FingerMinutiae

/-- A single minutia. -/
structure Minutia where
  /-- Type code; `Minutia.kind?` gives its meaning. -/
  kind : UInt8 := 0
  /-- Horizontal position, in pixels or card units. -/
  x : UInt16 := 0
  /-- Vertical position, in pixels or card units. -/
  y : UInt16 := 0
  /-- Direction, in the angle units of the record's variant. -/
  angle : UInt8 := 0
  /-- Quality from 0 (unknown) to 100. -/
  quality : UInt8 := 0
  /-- The two bits above the vertical position, zero in a conforming record. -/
  reserved : UInt8 := 0
deriving DecidableEq, Inhabited

/-- The defined meanings of a minutia's type code. -/
inductive MinutiaKind where
  | other
  | ridgeEnding
  | bifurcation
deriving DecidableEq

namespace MinutiaKind

/-- The meaning of a type code, for the three codes that have one. -/
def ofCode? : UInt8 → Option MinutiaKind
  | 0 => some other
  | 1 => some ridgeEnding
  | 2 => some bifurcation
  | _ => none

/-- The name of a kind. -/
def name : MinutiaKind → String
  | other => "Other"
  | ridgeEnding => "RidgeEnding"
  | bifurcation => "Bifurcation"

end MinutiaKind

/-- The meaning of the minutia's type code, if it has one. -/
def Minutia.kind? (m : Minutia) : Option MinutiaKind :=
  MinutiaKind.ofCode? m.kind

end FingerMinutiae
