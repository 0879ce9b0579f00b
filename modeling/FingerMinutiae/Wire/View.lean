import FingerMinutiae.View
import FingerMinutiae.Wire.Layout

/-!
# The view header and the minutiae in bytes

The record formats and the normal card share two position words, each a fourteen-bit coordinate
under two more bits: the type above x, the reserved bits above y. The record formats add an angle
and a quality byte, the normal card only the angle. The compact card has a byte for each
coordinate and one for the type above a six-bit angle.

## Main definitions

* `Layout.viewHeader`.
* `Layout.recordMinutia`, `Layout.normalMinutia`, `Layout.compactMinutia`, and `Layout.minutia`,
  which chooses among them by variant.
-/

namespace FingerMinutiae

namespace Layout

/-- The header of a finger view. The view number is above the impression type in one byte. -/
def viewHeader : Layout ViewHeader where
  width := 4
  parse
    | [position, b, quality, numMinutiae] =>
      { position
        viewNumber := highBits8 4 b
        impression := lowBits8 4 b
        quality
        numMinutiae }
    | _ => {}
  packed h :=
    [⟨.viewNumber, h.viewNumber.toNat, 4⟩, ⟨.impression, h.impression.toNat, 4⟩]
  bytes h :=
    [h.position, join8 4 h.viewNumber h.impression, h.quality, h.numMinutiae]

/-! ### Minutiae -/

/-- The values packed into the two position words of a minutia. -/
def positionWords (m : Minutia) : List FieldValue :=
  [⟨.minutiaType, m.kind.toNat, 2⟩, ⟨.minutiaX, m.x.toNat, 14⟩,
    ⟨.minutiaReserved, m.reserved.toNat, 2⟩, ⟨.minutiaY, m.y.toNat, 14⟩]

/-- A minutia of the record formats. -/
def recordMinutia : Layout Minutia where
  width := 6
  parse
    | [a, b, c, d, angle, quality] =>
      { kind := highBits16 14 (word16 a b)
        x := lowBits16 14 (word16 a b)
        y := lowBits16 14 (word16 c d)
        angle
        quality
        reserved := highBits16 14 (word16 c d) }
    | _ => {}
  packed := positionWords
  bytes m :=
    bytes16 (join16 14 m.kind m.x) ++ bytes16 (join16 14 m.reserved m.y) ++ [m.angle, m.quality]

/-- A minutia of the normal card, which has no quality. -/
def normalMinutia : Layout Minutia where
  width := 5
  parse
    | [a, b, c, d, angle] =>
      { kind := highBits16 14 (word16 a b)
        x := lowBits16 14 (word16 a b)
        y := lowBits16 14 (word16 c d)
        angle
        reserved := highBits16 14 (word16 c d) }
    | _ => {}
  packed := positionWords
  bytes m :=
    bytes16 (join16 14 m.kind m.x) ++ bytes16 (join16 14 m.reserved m.y) ++ [m.angle]

/-- A minutia of the compact card, which has neither quality nor reserved bits. -/
def compactMinutia : Layout Minutia where
  width := 3
  parse
    | [x, y, b] =>
      { kind := highBits8 6 b
        x := x.toUInt16
        y := y.toUInt16
        angle := lowBits8 6 b }
    | _ => {}
  packed m :=
    [⟨.minutiaX, m.x.toNat, 8⟩, ⟨.minutiaY, m.y.toNat, 8⟩,
      ⟨.minutiaType, m.kind.toNat, 2⟩, ⟨.minutiaAngle, m.angle.toNat, 6⟩]
  bytes m := [m.x.toUInt8, m.y.toUInt8, join8 6 m.kind m.angle]

/-- A minutia of a variant. -/
def minutia : Variant → Layout Minutia
  | .ansi | .iso => recordMinutia
  | .isoNormalCard => normalMinutia
  | .isoCompactCard => compactMinutia

end Layout

end FingerMinutiae
