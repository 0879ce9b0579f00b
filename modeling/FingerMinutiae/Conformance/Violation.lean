import FingerMinutiae.Conformance.CodeSet
import FingerMinutiae.Place
import FingerMinutiae.Record

/-!
# Violations

A violation is a rule of conformance that a record breaks, and the place where it does.

## Main definitions

* `Breach`: the ways a record can fail to conform, and `Breach.message`.
* `Violation` and `Violation.message`.
-/

namespace FingerMinutiae

/-- A way in which a record can fail to conform. -/
inductive Breach where
  | formatId (found : Tag)
  | specVersion (found : Tag)
  | recordTooShort (length minimum : Nat)
  | recordLength (declared computed : Nat)
  | productOwner
  | resolution (x y : UInt16)
  | reserved (found : UInt8)
  | viewCount (declared present : Nat)
  | minutiaeCount (declared present : Nat)
  | truncated
  | notAllowed (field : CodedField) (value : UInt8)
  | viewNumber (position expected found : UInt8)
  | angle (found max : UInt8)
  | outsideImage (x y width height : UInt16)
  | blockLength (declared records : Nat)
  | ridgeCountIndex (index minutiae : UInt8)
  | landmarkCount (sort : LandmarkSort) (declared present : Nat)
  | anglePresence (sort : LandmarkSort) (angular : Bool)
deriving DecidableEq

/-- What is said about a breach. -/
def Breach.message : Breach → String
  | formatId found => s!"Format identifier {bracketed found.toList} is not \"FMR\\0\"."
  | specVersion found => s!"Specification version {bracketed found.toList} is not \" 20\\0\"."
  | recordTooShort length minimum =>
    s!"Record length {length} is shorter than the {minimum}-byte header."
  | recordLength declared computed =>
    s!"Record length {declared} does not match the {computed} bytes of its contents."
  | productOwner => "CBEFF product identifier owner is zero."
  | resolution x y => s!"Image resolution {x.toNat}x{y.toNat} has a zero dimension."
  | reserved found => s!"Reserved field holds {found.toNat}; must be zero."
  | viewCount declared present => s!"Declares {declared} views but holds {present}."
  | minutiaeCount declared present => s!"Declares {declared} minutiae but holds {present}."
  | truncated => "Only partly read before the end of the stream."
  | notAllowed field value => s!"{field.name} {value.toNat} is not one of {field.set.text}."
  | viewNumber position expected found =>
    s!"View number {found.toNat} for finger position {position.toNat} is out of sequence; " ++
      s!"expected {expected.toNat}."
  | angle found max => s!"Angle {found.toNat} exceeds the maximum of {max.toNat}."
  | outsideImage x y width height =>
    s!"Position ({x.toNat}, {y.toNat}) lies outside the {width.toNat}x{height.toNat} image."
  | blockLength declared records =>
    s!"Block length {declared} does not match the {records} bytes of its records."
  | ridgeCountIndex index minutiae =>
    s!"Ridge count refers to minutia {index.toNat} of a view declaring {minutiae.toNat}."
  | landmarkCount sort declared present =>
    s!"Declares {declared} {sort.name}s but holds {present}."
  | anglePresence sort angular =>
    s!"Angle presence does not match the {sort.name} type; expected angles: {angular}."

/-- A breach and where it is. -/
structure Violation where
  /-- The node that breaks a rule. -/
  place : Place
  /-- How it breaks it. -/
  breach : Breach
deriving DecidableEq

/-- What is said about a violation. -/
def Violation.message (v : Violation) : String :=
  s!"{v.place.text}: {v.breach.message}"

end FingerMinutiae
