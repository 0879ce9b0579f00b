import FingerMinutiae.Conversion.Angle
import FingerMinutiae.Conversion.Position
import FingerMinutiae.Record

/-!
# Converting records

A record can be converted into ANSI and out of it. The new record has the views and minutiae of the
old one in their order, with angles and positions in the units of the target, and a record length
of its own. Extended data is not carried over.

A conversion to or from a card needs a resolution, to scale the positions by. It is the one that
was asked for or, when none was, that of the source's header; a resolution with a zero component is
as good as none.

## Main definitions

* `ConvertError`: the reasons for which there is no conversion, in the order of their precedence.
* `Record.convert`.
-/

namespace FingerMinutiae

/-- Why a record cannot be converted. -/
inductive ConvertError where
  /-- Neither variant is ANSI. -/
  | unsupportedPair (source target : Variant)
  /-- A card holds exactly one view, and the source has another number of them. -/
  | viewCount (found : Nat)
  /-- A card is involved and there is no resolution to scale by. -/
  | missingResolution
  /-- A position, scaled, is too large for the target. -/
  | coordinateOverflow (x y : Nat)
deriving DecidableEq

/-- What is said about a conversion that fails. -/
def ConvertError.message : ConvertError → String
  | unsupportedPair source target => s!"Cannot convert {source.name} records to {target.name}."
  | viewCount found => s!"Card records hold exactly one view, source has {found}."
  | missingResolution => "Conversion needs a non-zero capture resolution."
  | coordinateOverflow x y => s!"Coordinate ({x}, {y}) does not fit the target format."

/-! ### Minutiae and views -/

/-- The position of a minutia in the target, if it fits there. -/
def Minutia.convertPosition (source target : Variant) (resolution : Resolution) (m : Minutia) :
    Except ConvertError (UInt16 × UInt16) :=
  let x := rescale source target m.x resolution.x
  let y := rescale source target m.y resolution.y
  if maxCoordinate target < x ∨ maxCoordinate target < y then .error (.coordinateOverflow x y)
  else .ok (UInt16.ofNat x, UInt16.ofNat y)

/-- Whether minutiae keep their quality: the cards have none, and ISO values mean nothing to
ANSI. -/
def keepsQuality (source target : Variant) : Bool :=
  target.hasHeader && (target.isIsoFamily || !source.isIsoFamily)

/-- A minutia in the target. -/
def Minutia.convert (source target : Variant) (resolution : Resolution) (m : Minutia) :
    Except ConvertError Minutia := do
  let (x, y) ← m.convertPosition source target resolution
  return {
    kind := m.kind
    x
    y
    angle := convertAngle source target m.angle
    quality := if keepsQuality source target then m.quality else 0
    reserved := if target.isCard then 0 else m.reserved }

/-- A view in the target, without its extended data. The declared count is that of the minutiae,
modulo 256. -/
def FingerView.convert (source target : Variant) (resolution : Resolution) (v : FingerView) :
    Except ConvertError FingerView := do
  let minutiae ← v.minutiae.mapM (Minutia.convert source target resolution)
  return {
    position := v.position
    viewNumber := v.viewNumber
    impression := v.impression
    quality := v.quality
    numMinutiae := UInt8.ofNat minutiae.length
    minutiae }

/-! ### Records -/

/-- The resolution that a conversion scales by: the one asked for, or that of the source's header,
unless it has a zero component. -/
def Record.usableResolution? (r : Record) (asked : Option Resolution) : Option Resolution :=
  let header := if r.variant.hasHeader then some ⟨r.xResolution, r.yResolution⟩ else none
  (asked <|> header).filter Resolution.isUsable

/-- The header of the converted record, the counts and the length left out. What a header holds
goes over as it is, but for a resolution that is usable and, between different variants, the
product. A card has no header to take it from: its record gets the tags of a conforming one. -/
def Record.convertHeader (r : Record) (target : Variant) (resolution : Option Resolution) :
    Record :=
  let fresh := Record.empty target
  let header : Record :=
    if r.variant.hasHeader then
      { fresh with
        toIdentification := r.toIdentification
        toProduct := if r.variant = .ansi ∧ target = .ansi then r.toProduct else {}
        toCapture := { r.toCapture with numViews := 0 } }
    else
      { fresh with formatId := .finger, specVersion := .version20 }
  match resolution with
  | some resolution =>
    if target.hasHeader then
      { header with xResolution := resolution.x, yResolution := resolution.y }
    else header
  | none => header

/-- The record converted to another variant. -/
def Record.convert (r : Record) (target : Variant) (asked : Option Resolution) :
    Except ConvertError Record :=
  let resolution := r.usableResolution? asked
  if r.variant.isIsoFamily && target.isIsoFamily then
    .error (.unsupportedPair r.variant target)
  else if target.isCard && r.views.length != 1 then
    .error (.viewCount r.views.length)
  else if (r.variant.isCard || target.isCard) && resolution.isNone then
    .error .missingResolution
  else do
    let views ← r.views.mapM (FingerView.convert r.variant target (resolution.getD ⟨0, 0⟩))
    let header := r.convertHeader target resolution
    return { header with numViews := UInt8.ofNat views.length, views }.withComputedLength

end FingerMinutiae
