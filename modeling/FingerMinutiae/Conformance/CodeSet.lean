/-!
# Sets of allowed codes

Several byte-sized fields of a record are codes, and a conforming record uses only some of them.

## Main definitions

* `CodeSet`: a range or a list of codes, with its members and its written form.
* `CodedField`: the fields that are codes, each with its name and its set.
-/

namespace FingerMinutiae

/-- A list of numbers in brackets, with commas between them. -/
def bracketed (codes : List UInt8) : String :=
  "[" ++ ", ".intercalate (codes.map fun c => toString c.toNat) ++ "]"

/-- A set of codes. -/
inductive CodeSet where
  /-- All codes between two, both included. -/
  | range (lo hi : UInt8)
  /-- The codes listed. -/
  | codes (members : List UInt8)
deriving DecidableEq

namespace CodeSet

/-- Whether a code is in the set. -/
def allows : CodeSet → UInt8 → Bool
  | range lo hi, c => lo.toNat ≤ c.toNat && c.toNat ≤ hi.toNat
  | codes members, c => members.contains c

/-- The written form of the set. -/
def text : CodeSet → String
  | range lo hi => s!"{lo.toNat}..={hi.toNat}"
  | codes members => bracketed members

/-! ### The sets in use -/

/-- Codes of the ten fingers, and zero for an unknown one. -/
def fingerPositions : CodeSet := range 0 10

/-- Codes of the ways an impression is made: live-scan plain and rolled, nonlive-scan plain and
rolled, swipe, and live-scan contactless. -/
def impressionTypes : CodeSet := codes [0, 1, 2, 3, 8, 9]

/-- Quality values of fingers and minutiae; zero is unknown. -/
def qualities : CodeSet := range 0 100

/-- Codes of the kinds of minutia. -/
def minutiaTypes : CodeSet := codes [0, 1, 2]

/-- Codes of the ways ridges are counted. -/
def ridgeCountMethods : CodeSet := codes [0, 1, 2]

/-- Codes of the types of cores and deltas: non-angular and angular. -/
def landmarkTypes : CodeSet := codes [0, 1]

end CodeSet

/-- The fields that hold a code. -/
inductive CodedField where
  | fingerPosition
  | impressionType
  | fingerQuality
  | minutiaType
  | minutiaQuality
  | ridgeCountMethod
  | coreType
  | deltaType
deriving DecidableEq

namespace CodedField

/-- The name by which reports call a field. -/
def name : CodedField → String
  | fingerPosition => "Finger position"
  | impressionType => "Impression type"
  | fingerQuality => "Finger quality"
  | minutiaType => "Minutia type"
  | minutiaQuality => "Minutia quality"
  | ridgeCountMethod => "Ridge count method"
  | coreType => "Core type"
  | deltaType => "Delta type"

/-- The codes a field may hold. -/
def set : CodedField → CodeSet
  | fingerPosition => .fingerPositions
  | impressionType => .impressionTypes
  | fingerQuality | minutiaQuality => .qualities
  | minutiaType => .minutiaTypes
  | ridgeCountMethod => .ridgeCountMethods
  | coreType | deltaType => .landmarkTypes

end CodedField

end FingerMinutiae
