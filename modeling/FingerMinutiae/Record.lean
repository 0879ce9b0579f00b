import FingerMinutiae.View

/-!
# Records

A record is the header of a capture and the finger views taken from it. The header is made of the
pieces in which it is written: the identification, the record length, the product identifier (ANSI
only) and the capture details. A card has no header; its record carries the fields as zero, the
view count and the length excepted.

## Main definitions

* `Tag`, `Identification`, `Product`, `Capture`, `Record`.
* `Record.empty`: the record of a variant with every field zero.
* `Record.computedLength`: the bytes the contents take, whatever length is declared.
-/

namespace FingerMinutiae

/-- Four bytes that identify a format or a version. -/
structure Tag where
  /-- First byte. -/
  first : UInt8 := 0
  /-- Second byte. -/
  second : UInt8 := 0
  /-- Third byte. -/
  third : UInt8 := 0
  /-- Fourth byte. -/
  fourth : UInt8 := 0
deriving DecidableEq

/-- The bytes of a tag in order. -/
def Tag.toList (t : Tag) : List UInt8 :=
  [t.first, t.second, t.third, t.fourth]

/-- The format identifier of every conforming record header: the letters FMR and a zero byte. -/
def Tag.finger : Tag := ⟨0x46, 0x4d, 0x52, 0⟩

/-- The specification version of every conforming record header: a blank, the digits 20 and a zero
byte. -/
def Tag.version20 : Tag := ⟨0x20, 0x32, 0x30, 0⟩

/-- The tags that open a record header. -/
structure Identification where
  /-- Format identifier. -/
  formatId : Tag := {}
  /-- Specification version. -/
  specVersion : Tag := {}
deriving DecidableEq, Inhabited

/-- The CBEFF product identifier. -/
structure Product where
  /-- The owner of the product. -/
  productOwner : UInt16 := 0
  /-- The owner's type of product. -/
  productType : UInt16 := 0
deriving DecidableEq, Inhabited

/-- The capture details that close a record header. -/
structure Capture where
  /-- Compliance flags of the capture equipment; four bits. -/
  compliance : UInt8 := 0
  /-- Identifier of the capture equipment; twelve bits. -/
  scannerId : UInt16 := 0
  /-- Width of the image in pixels. -/
  xImageSize : UInt16 := 0
  /-- Height of the image in pixels. -/
  yImageSize : UInt16 := 0
  /-- Horizontal resolution in pixels per centimetre. -/
  xResolution : UInt16 := 0
  /-- Vertical resolution in pixels per centimetre. -/
  yResolution : UInt16 := 0
  /-- How many views are declared. -/
  numViews : UInt8 := 0
  /-- Reserved, zero in a conforming record. -/
  reserved : UInt8 := 0
deriving DecidableEq, Inhabited

/-- A finger minutiae record. Lengths and counts are kept as declared, beside what they
describe. -/
structure Record extends Identification, Product, Capture where
  /-- The encoding the record is in. -/
  variant : Variant
  /-- Declared length of the whole record. -/
  recordLength : UInt32 := 0
  /-- The views, in file order. -/
  views : List FingerView := []
deriving DecidableEq

namespace Record

/-- The record of a variant with every field zero and no views. -/
def empty (variant : Variant) : Record :=
  { variant }

/-- The length of an ANSI header with a short record length, of two bytes. -/
def ansiHeaderLength : Nat := 26

/-- The length of an ANSI header with a long record length, of six bytes. -/
def ansiLongHeaderLength : Nat := 30

/-- The length of an ISO header. -/
def isoHeaderLength : Nat := 24

/-- Bytes the views take. -/
def bodyLength (r : Record) : Nat :=
  (r.views.map fun v => v.encodedLength r.variant).sum

/-- Bytes the record takes, from its contents alone. An ANSI header grows when the total no longer
fits the short record length. -/
def computedLength (r : Record) : Nat :=
  match r.variant with
  | .ansi =>
    if ansiHeaderLength + r.bodyLength < 2 ^ 16 then ansiHeaderLength + r.bodyLength
    else ansiLongHeaderLength + r.bodyLength
  | .iso => isoHeaderLength + r.bodyLength
  | .isoNormalCard | .isoCompactCard => r.bodyLength

/-- The record with its declared length set to the bytes its contents take. -/
def withComputedLength (r : Record) : Record :=
  { r with recordLength := UInt32.ofNat r.computedLength }

end Record

end FingerMinutiae
