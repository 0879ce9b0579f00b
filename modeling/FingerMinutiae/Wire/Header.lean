import FingerMinutiae.Record
import FingerMinutiae.Wire.Layout

/-!
# The record header in bytes

An ANSI header is the identification (8 bytes), the record length (2 or 6), the product identifier
(4) and the capture details (12). An ISO header has a record length of four bytes and no product.

## Main definitions

* `Layout.identification`, `Layout.product`, `Layout.capture`.
* `AnsiLength`: what the first two bytes of an ANSI record length say.
* `ansiLengthBytes`: the record length as ANSI writes it.
-/

namespace FingerMinutiae

namespace Layout

/-- The format identifier and the specification version. -/
def identification : Layout Identification where
  width := 8
  parse
    | [a, b, c, d, e, f, g, h] => ⟨⟨a, b, c, d⟩, ⟨e, f, g, h⟩⟩
    | _ => {}
  packed _ := []
  bytes i := i.formatId.toList ++ i.specVersion.toList

/-- The product identifier. -/
def product : Layout Product where
  width := 4
  parse
    | [a, b, c, d] => ⟨word16 a b, word16 c d⟩
    | _ => {}
  packed _ := []
  bytes p := bytes16 p.productOwner ++ bytes16 p.productType

/-- The capture details. The compliance flags are the high four bits of a word that has the
identifier of the equipment below them. -/
def capture : Layout Capture where
  width := 12
  parse
    | [a, b, c, d, e, f, g, h, i, j, numViews, reserved] =>
      { compliance := highBits16 12 (word16 a b)
        scannerId := lowBits16 12 (word16 a b)
        xImageSize := word16 c d
        yImageSize := word16 e f
        xResolution := word16 g h
        yResolution := word16 i j
        numViews
        reserved }
    | _ => {}
  packed c :=
    [⟨.compliance, c.compliance.toNat, 4⟩, ⟨.scannerId, c.scannerId.toNat, 12⟩]
  bytes c :=
    bytes16 (join16 12 c.compliance c.scannerId) ++ bytes16 c.xImageSize ++ bytes16 c.yImageSize
      ++ bytes16 c.xResolution ++ bytes16 c.yResolution ++ [c.numViews, c.reserved]

end Layout

/-! ### The ANSI record length -/

/-- What the two bytes that open an ANSI record length say. -/
inductive AnsiLength where
  /-- They are the length. -/
  | short (length : UInt32)
  /-- They are zero, and the length is the four bytes that follow. -/
  | long
deriving DecidableEq

/-- Reads the two bytes that open an ANSI record length. -/
def AnsiLength.ofHalf (w : UInt16) : AnsiLength :=
  if w = 0 then long else short w.toUInt32

/-- The record length as ANSI writes it: two bytes for the lengths from 1 to 65535, and for the
others two zero bytes and then four. -/
def ansiLengthBytes (length : UInt32) : Bytes :=
  if 0 < length.toNat ∧ length.toNat < 2 ^ 16 then bytes16 length.toUInt16
  else [0, 0] ++ bytes32 length

end FingerMinutiae
