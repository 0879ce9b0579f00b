import FingerMinutiae.Numbers

/-!
# Packed fields

Several fields of a record share a byte or a word with others and have fewer bits than the value
that is to go into them. A `FieldValue` is such a value on its way into its field. When it has
too many bits the same triple is the report of the overflow.

## Main definitions

* `Field`: the packed fields by name.
* `FieldValue`, `FieldValue.Fits`, `FieldValue.overflowMessage`.
* `firstOverflow?`: the first of several values that does not fit.
-/

namespace FingerMinutiae

/-- The fields that hold fewer bits than the values they are given. -/
inductive Field where
  | compliance
  | scannerId
  | viewNumber
  | impression
  | minutiaType
  | minutiaX
  | minutiaReserved
  | minutiaY
  | minutiaAngle
  | coreCount
  | coreType
  | deltaCount
  | deltaType
  | landmarkX
  | landmarkY
  | landmarkType
  | extendedDataLength
deriving DecidableEq

/-- The name by which overflow reports call a field. -/
def Field.name : Field → String
  | compliance => "compliance"
  | scannerId => "scanner_id"
  | viewNumber => "view_number"
  | impression => "impression"
  | minutiaType => "minutia type"
  | minutiaX => "minutia x"
  | minutiaReserved => "minutia reserved"
  | minutiaY => "minutia y"
  | minutiaAngle => "minutia angle"
  | coreCount => "core count"
  | coreType => "core type"
  | deltaCount => "delta count"
  | deltaType => "delta type"
  | landmarkX => "landmark x"
  | landmarkY => "landmark y"
  | landmarkType => "landmark type"
  | extendedDataLength => "extended data length"

/-- A value, the field it is to go into, and the bits the field has for it. The bits belong to the
layout: a minutia's x has fourteen of them in a record and eight on a compact card. -/
structure FieldValue where
  /-- Where the value goes. -/
  field : Field
  /-- What goes there. -/
  value : Nat
  /-- How many bits there are. -/
  bits : Nat
deriving DecidableEq

namespace FieldValue

/-- The value needs no more bits than the field has. -/
def Fits (v : FieldValue) : Prop :=
  v.value < 2 ^ v.bits

instance (v : FieldValue) : Decidable v.Fits :=
  inferInstanceAs (Decidable (_ < _))

/-- What is said about a value that does not fit. -/
def overflowMessage (v : FieldValue) : String :=
  s!"Value {v.value} of field `{v.field.name}` does not fit in {v.bits} bits."

end FieldValue

/-- The first of some values that does not fit its field. -/
def firstOverflow? (values : List FieldValue) : Option FieldValue :=
  values.find? fun v => decide ¬ v.Fits

end FingerMinutiae
