import FingerMinutiae.Decoding.Extended
import FingerMinutiae.Stream.Buffer
import FingerMinutiae.Wire.Header
import FingerMinutiae.Wire.View

/-!
# Decoding records

A record of the record formats says how many views it has, and each view how many minutiae; it
ends where the last announced piece ends. A card says nothing and goes to the end of the stream.

Only the structure is checked. Values outside the ranges that conformance allows are kept as they
are.

## Main definitions

* `FingerView.decoder`, `Record.headerDecoder`, `Record.cardDecoder`.
* `Record.decoder`: a record of any variant.
* `Record.decode`: the record at the start of a string of bytes.
-/

namespace FingerMinutiae

open Decoder

/-! ### Views -/

/-- The view at index `index`. Nothing of it is there if not a single byte is; otherwise, when the
stream ends within the view, it is kept as far as it was read. -/
def FingerView.decoder (variant : Variant) (index : Nat) :
    Decoder (Option (Decoded FingerView)) := do
  match ← readPiece .viewHeader with
  | .short 0 => return none
  | .short (_ + 1) => return some (.incomplete { truncated := true })
  | .whole header =>
    let draft : FingerView := { toViewHeader := header }
    match ← several (fun _ => item (.minutia variant)) header.numMinutiae.toNat with
    | .incomplete minutiae => return some (.incomplete { draft with minutiae, truncated := true })
    | .complete minutiae =>
      let draft := { draft with minutiae }
      match ← readPiece .half with
      | .short _ => return some (.incomplete { draft with truncated := true })
      | .whole blockLength =>
        if blockLength = 0 then
          return some (.complete draft)
        else
          match ← ExtendedBlock.decoder variant index blockLength with
          | .complete block => return some (.complete { draft with extended := some block })
          | .incomplete block =>
            return some (.incomplete { draft with extended := some block, truncated := true })

/-! ### Record formats -/

/-- The record length as the variant writes it. -/
def Record.lengthDecoder (draft : Record) (next : UInt32 → Decoder (Decoded Record)) :
    Decoder (Decoded Record) :=
  if draft.variant = .ansi then
    readPieceOr draft .half fun w =>
      match AnsiLength.ofHalf w with
      | .short length => next length
      | .long => readPieceOr draft .word next
  else
    readPieceOr draft .word next

/-- The product identifier, which only ANSI has. -/
def Record.productDecoder (draft : Record) (next : Product → Decoder (Decoded Record)) :
    Decoder (Decoded Record) :=
  if draft.variant = .ansi then readPieceOr draft .product next else next {}

/-- The header of a record. -/
def Record.headerDecoder (variant : Variant) : Decoder (Decoded Record) :=
  let draft := Record.empty variant
  readPieceOr draft .identification fun identification =>
  let draft := { draft with toIdentification := identification }
  draft.lengthDecoder fun recordLength =>
  let draft := { draft with recordLength }
  draft.productDecoder fun product =>
  let draft := { draft with toProduct := product }
  readPieceOr draft .capture fun capture =>
  done (.complete { draft with toCapture := capture })

/-- A record with a header: the header, and then as many views as it announces. -/
def Record.headedDecoder (variant : Variant) : Decoder (Decoded Record) := do
  match ← Record.headerDecoder variant with
  | .incomplete r => return .incomplete r
  | .complete r =>
    let views ← several (FingerView.decoder variant) r.numViews.toNat
    return views.map fun views => { r with views }

/-! ### Card formats -/

/-- Minutiae to the end of the stream, at most `room` of them, put behind those already read, which
are kept last first. -/
def Record.cardMinutiaeDecoder (layout : Layout Minutia) :
    (room : Nat) → List Minutia → Decoder (Decoded (List Minutia))
  | 0, got =>
    atEnd fun
      | true => done (.complete got.reverse)
      | false => malformed 0 (.view 0) .tooManyMinutiae
  | room + 1, got =>
    atEnd fun
      | true => done (.complete got.reverse)
      | false =>
        readPiece layout >>= fun
          | .whole m => cardMinutiaeDecoder layout room (m :: got)
          | .short _ => done (.incomplete got.reverse)

/-- The record of a card with the given minutiae. -/
def Record.ofCard (variant : Variant) (minutiae : List Minutia) (truncated : Bool) : Record :=
  let view : FingerView := { numMinutiae := UInt8.ofNat minutiae.length, minutiae, truncated }
  { Record.empty variant with
    recordLength := UInt32.ofNat (view.encodedLength variant)
    numViews := 1
    views := [view] }

/-- A card: one view of at most 255 minutiae, the most that a view can count. -/
def Record.cardDecoder (variant : Variant) : Decoder (Decoded Record) := do
  match ← Record.cardMinutiaeDecoder (.minutia variant) 255 [] with
  | .complete minutiae => return .complete (Record.ofCard variant minutiae false)
  | .incomplete minutiae => return .incomplete (Record.ofCard variant minutiae true)

/-! ### Any record -/

/-- A record of a variant. -/
def Record.decoder (variant : Variant) : Decoder (Decoded Record) :=
  if variant.isCard then Record.cardDecoder variant else Record.headedDecoder variant

/-- The record of a variant at the start of a string of bytes. -/
def Record.decode (variant : Variant) (bytes : Bytes) : Except DecodeError (Decoded Record) :=
  ((Record.decoder variant).run (Buffer.ofBytes bytes)).1

end FingerMinutiae
