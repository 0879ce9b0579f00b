import FingerMinutiae.Encoding.Pieces
import FingerMinutiae.Stream.Sink

/-!
# Writing records

The pieces of a record are checked and written one by one. Before a piece is written, its packed
fields are checked; so when a record cannot be written, the pieces before the one at fault have
gone into the sink already.

## Main definitions

* `EncodeError`: how writing can fail.
* `Record.encode`: the bytes of a record.
* `Record.encodeTo`: writing a record into a sink.
-/

namespace FingerMinutiae

/-- How writing a record can fail. -/
inductive EncodeError where
  /-- The sink took less than it was given. -/
  | sink (message : String)
  /-- A value does not fit its packed field. -/
  | overflow (value : FieldValue)
  /-- The record is a card without exactly one view. -/
  | cardViewCount (found : Nat)
deriving DecidableEq

/-- What is said about a record that could not be written. -/
def EncodeError.message : EncodeError → String
  | sink message => message
  | overflow value => s!"Cannot encode record: {value.overflowMessage}"
  | cardViewCount found => s!"Card records hold exactly one view, found {found}."

/-! ### All bytes at once -/

/-- The bytes of some pieces, or the first of their values that does not fit. -/
def Piece.emitAll (pieces : List Piece) : Except FieldValue Bytes :=
  match firstOverflow? (pieces.flatMap (·.packed)) with
  | some v => .error v
  | none => .ok (pieces.flatMap (·.bytes))

/-- The bytes of a record. -/
def Record.encode (r : Record) : Except EncodeError Bytes :=
  match r.pieces with
  | .error e => .error (.cardViewCount e.found)
  | .ok pieces => (Piece.emitAll pieces).mapError .overflow

/-! ### Into a sink -/

/-- What came of writing into a sink. -/
structure Written where
  /-- The bytes the sink accepted. -/
  bytes : Bytes
  /-- Why it is not all of them, if it is not. -/
  error : Option EncodeError
deriving DecidableEq

/-- Writes pieces in order, each after a check of its own, until one does not fit or the sink is
full. -/
def Piece.writeAll : List Piece → Sink → Written
  | [], _ => { bytes := [], error := none }
  | p :: pieces, sink =>
    match p.emit with
    | .error v => { bytes := [], error := some (.overflow v) }
    | .ok bytes =>
      match sink.write bytes with
      | (accepted, some message, _) => { bytes := accepted, error := some (.sink message) }
      | (accepted, none, sink) =>
        let later := writeAll pieces sink
        { later with bytes := accepted ++ later.bytes }

/-- Writes a record into a sink. -/
def Record.encodeTo (r : Record) (sink : Sink) : Written :=
  match r.pieces with
  | .error e => { bytes := [], error := some (.cardViewCount e.found) }
  | .ok pieces => Piece.writeAll pieces sink

end FingerMinutiae
