import FingerMinutiae.Extended
import FingerMinutiae.Wire.Layout

/-!
# Extended data in bytes

A block opens with its length, and each of its records with a type and a length. A ridge count is
three bytes. The two lists of landmarks open with a byte for their count; ANSI has the type of the
whole list in the top bits of that byte, and ISO the type of each entry in the top bits of its
x word.

## Main definitions

* `DataHeader`, `Layout.dataHeader`, `Layout.ridgeCount`.
* `LandmarkInfo`, `Layout.coresInfo`, `Layout.deltasInfo`.
* `Layout.landmark`, `Layout.deltaAngles`.
-/

namespace FingerMinutiae

/-- The type and length that open an extended data record. -/
structure DataHeader where
  /-- Type identifier of the payload. -/
  typeId : UInt16 := 0
  /-- Length of the record, this header included. -/
  length : UInt16 := 0
deriving DecidableEq

/-- The type and count that open a list of landmarks; the type is zero under ISO. -/
structure LandmarkInfo where
  /-- Type of the whole list. -/
  kind : UInt8 := 0
  /-- Number of entries. -/
  count : UInt8 := 0
deriving DecidableEq

namespace Layout

/-- The header of an extended data record. -/
def dataHeader : Layout DataHeader where
  width := 4
  parse
    | [a, b, c, d] => ⟨word16 a b, word16 c d⟩
    | _ => {}
  packed _ := []
  bytes h := bytes16 h.typeId ++ bytes16 h.length

/-- A ridge count. -/
def ridgeCount : Layout RidgeCount where
  width := 3
  parse
    | [indexOne, indexTwo, count] => ⟨indexOne, indexTwo, count⟩
    | _ => {}
  packed _ := []
  bytes c := [c.indexOne, c.indexTwo, c.count]

/-- The byte that opens a list of landmarks: a count of so many bits, and under ANSI the type in
the top two bits. Bits that are neither are dropped on reading and zero on writing. -/
def landmarkInfo (countField typeField : Field) (countBits : Nat) (variant : Variant) :
    Layout LandmarkInfo where
  width := 1
  parse
    | [b] =>
      { kind := if variant.isIsoFamily then 0 else highBits8 6 b
        count := lowBits8 countBits b }
    | _ => {}
  packed i :=
    ⟨countField, i.count.toNat, countBits⟩ ::
      if variant.isIsoFamily then [] else [⟨typeField, i.kind.toNat, 2⟩]
  bytes i := [if variant.isIsoFamily then i.count else join8 6 i.kind i.count]

/-- The byte that opens the cores, with a count of four bits. -/
def coresInfo : Variant → Layout LandmarkInfo :=
  landmarkInfo .coreCount .coreType 4

/-- The byte that opens the deltas, with a count of six bits. -/
def deltasInfo : Variant → Layout LandmarkInfo :=
  landmarkInfo .deltaCount .deltaType 6

/-- The position words of a landmark. The top bits of the x word are read as a type in any case
and written only under ISO; those of the y word are dropped. -/
def landmark (variant : Variant) : Layout Landmark where
  width := 4
  parse
    | [a, b, c, d] =>
      { kind := highBits16 14 (word16 a b)
        x := lowBits16 14 (word16 a b)
        y := lowBits16 14 (word16 c d) }
    | _ => {}
  packed p :=
    [⟨.landmarkX, p.x.toNat, 14⟩, ⟨.landmarkY, p.y.toNat, 14⟩] ++
      if variant.isIsoFamily then [⟨.landmarkType, p.kind.toNat, 2⟩] else []
  bytes p :=
    bytes16 (if variant.isIsoFamily then join16 14 p.kind p.x else p.x) ++ bytes16 p.y

/-- The three angles of a delta. -/
def deltaAngles : Layout DeltaAngles where
  width := 3
  parse
    | [first, second, third] => ⟨first, second, third⟩
    | _ => {}
  packed _ := []
  bytes := DeltaAngles.toList

end Layout

end FingerMinutiae
