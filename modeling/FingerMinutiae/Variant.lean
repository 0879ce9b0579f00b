/-!
# Record variants

One logical finger minutiae record travels in four encodings that do not understand each other:
two record formats, which open with a record header, and two card formats, which are a bare run of
minutiae. Every length, angle unit and coordinate unit depends on the encoding, and nothing in the
bytes announces it, so the variant is always passed in.

## Main definitions

* `Variant` and its names, `Variant.name` and `Variant.ofName`.
* The facts that differ between the four: `hasHeader`, `isIsoFamily`, `minutiaLength`,
  `angleLevels`, `maxAngle`, `unitsPerMm?`, `minRecordLength`.
-/

namespace FingerMinutiae

/-- One of the four encodings of a finger minutiae record. -/
inductive Variant where
  /-- ANSI INCITS 378. -/
  | ansi
  /-- ISO/IEC 19794-2, the record format. -/
  | iso
  /-- ISO/IEC 19794-2, the normal card format: no record header. -/
  | isoNormalCard
  /-- ISO/IEC 19794-2, the compact card format: no record header. -/
  | isoCompactCard
deriving DecidableEq

/-- A name that belongs to no variant. -/
structure UnknownVariant where
  /-- The name as given. -/
  name : String
deriving DecidableEq

/-- What is said about a name that belongs to no variant. -/
def UnknownVariant.message (e : UnknownVariant) : String :=
  s!"Unknown record variant `{e.name}`; expected one of ANSI, ISO, ISONC, ISOCC."

namespace Variant

/-- All four variants. -/
def all : List Variant :=
  [ansi, iso, isoNormalCard, isoCompactCard]

/-- The name under which a variant is asked for and reported. -/
def name : Variant → String
  | ansi => "ANSI"
  | iso => "ISO"
  | isoNormalCard => "ISONC"
  | isoCompactCard => "ISOCC"

/-- The variant of a name. Names are matched exactly, upper case included. -/
def ofName (s : String) : Except UnknownVariant Variant :=
  match all.find? (·.name == s) with
  | some v => .ok v
  | none => .error ⟨s⟩

/-! ### Families -/

/-- Whether records of this variant open with a record header. -/
def hasHeader : Variant → Bool
  | ansi | iso => true
  | isoNormalCard | isoCompactCard => false

/-- Whether this is one of the card formats, which have no record header. -/
def isCard (v : Variant) : Bool :=
  !v.hasHeader

theorem hasHeader_of_not_isCard {v : Variant} (h : ¬v.isCard = true) : v.hasHeader = true := by
  simpa [isCard] using h

theorem not_isCard_of_hasHeader {v : Variant} (h : v.hasHeader = true) : ¬v.isCard = true := by
  simp [isCard, h]

theorem ne_ansi_of_not_hasHeader {v : Variant} (h : v.hasHeader = false) : v ≠ .ansi := by
  rintro rfl
  cases h

/-- Whether this variant belongs to the ISO family, cards included. -/
def isIsoFamily : Variant → Bool
  | ansi => false
  | iso | isoNormalCard | isoCompactCard => true

theorem isIsoFamily_of_isCard {v : Variant} (h : v.isCard = true) : v.isIsoFamily = true := by
  cases v <;> first | rfl | cases h

/-! ### Units and sizes -/

/-- Bytes that one encoded minutia takes. -/
def minutiaLength : Variant → Nat
  | ansi | iso => 6
  | isoNormalCard => 5
  | isoCompactCard => 3

/-- Angle steps that make up a full turn: ANSI counts in units of two degrees, the others in
256ths of a turn or, on the compact card, in 64ths. -/
def angleLevels : Variant → Nat
  | ansi => 180
  | iso | isoNormalCard => 256
  | isoCompactCard => 64

/-- The largest angle below a full turn. -/
def maxAngle : Variant → UInt8
  | ansi => 179
  | iso | isoNormalCard => 255
  | isoCompactCard => 63

/-- Coordinate units to the millimetre on a card, where positions are physical; a record format
counts pixels and has no such unit. -/
def unitsPerMm? : Variant → Option Nat
  | ansi | iso => none
  | isoNormalCard => some 100
  | isoCompactCard => some 10

/-- The length of the smallest record header; a card has none. -/
def minRecordLength : Variant → Nat
  | ansi => 26
  | iso => 24
  | isoNormalCard | isoCompactCard => 0

end Variant

end FingerMinutiae
