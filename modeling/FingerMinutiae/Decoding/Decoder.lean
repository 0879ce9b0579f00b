import FingerMinutiae.Place
import FingerMinutiae.Stream.Source

/-!
# Decoders

A decoder is a tree of requests to a stream: take so many bytes, or look whether the stream is
over, and go on with the answer. It ends with a value or finds the bytes malformed. Since a tree
contains no stream, whatever is done with it is done for every source alike, and `Decoder.run` is
the one place where the two meet.

The end of the stream is an answer like any other. A decoder for a node of a record settles for
the part of the node that was there and says so: it gives a `Decoded` value.

## Main definitions

* `Defect`, `DecodeError`: what can be wrong with the bytes, and how decoding can fail.
* `Decoder`, its monad operations, and `Decoder.run`.
* `Decoded`: a value read to its end, or as far as the stream went.
* `Decoder.readPiece`, `Decoder.readPieceOr`, `Decoder.item`, `Decoder.several`: the steps that
  decoders are made of.
-/

namespace FingerMinutiae

/-! ### Failures -/

/-- What makes bytes impossible as a record. -/
inductive Defect where
  /-- An extended data record declares the length zero. -/
  | zeroLength
  /-- An extended data record declares more bytes than its block has left. -/
  | overrun (length remaining : Nat)
  /-- An extended data record declares fewer bytes than its header has. -/
  | tooShort
  /-- Ridge counts are not a method byte and whole entries. -/
  | ridgeCountLength
  /-- Cores and deltas do not take the bytes declared for them. -/
  | landmarksLength (declared consumed : Nat)
  /-- A card holds more minutiae than a view can count. -/
  | tooManyMinutiae
deriving DecidableEq

/-- What is said about a defect. -/
def Defect.message : Defect → String
  | zeroLength => "extended data record has zero length"
  | overrun length remaining =>
    s!"extended data record of {length} bytes overruns the {remaining} bytes left in its block"
  | tooShort => "extended data record is shorter than its header"
  | ridgeCountLength => "ridge count data length is not a whole number of entries"
  | landmarksLength declared consumed =>
    s!"core and delta data declares {declared} bytes but its entries take {consumed}"
  | tooManyMinutiae => "card record holds more than 255 minutiae"

/-- How decoding can fail. That the stream ends is no failure. -/
inductive DecodeError where
  /-- The stream could not be read. -/
  | read (error : ReadError)
  /-- The bytes at an offset cannot be the node they should be. -/
  | malformed (offset : Nat) (place : Place) (defect : Defect)
deriving DecidableEq

/-- What is said about a failure. -/
def DecodeError.message : DecodeError → String
  | read error => error.message
  | malformed offset place defect =>
    s!"Malformed record at byte {offset} ({place.text}): {defect.message}"

/-! ### Requests -/

/-- A computation that reads a stream and gives an `α`. -/
inductive Decoder (α : Type) where
  /-- The value is read. -/
  | done (value : α)
  /-- The node that began `back` bytes ago has a defect. -/
  | malformed (back : Nat) (place : Place) (defect : Defect)
  /-- Take `n` bytes. -/
  | take (n : Nat) (next : Portion Bytes → Decoder α)
  /-- Look whether the stream is over. -/
  | atEnd (next : Bool → Decoder α)

namespace Decoder

variable {α β σ : Type}

/-- Goes on with the value once it is read. -/
def bind : Decoder α → (α → Decoder β) → Decoder β
  | done a, f => f a
  | malformed back place defect, _ => malformed back place defect
  | take n next, f => take n fun answer => (next answer).bind f
  | atEnd next, f => atEnd fun answer => (next answer).bind f

instance : Monad Decoder where
  pure := done
  bind := bind

/-- Reads from a source until the decoder is done or something is wrong. -/
def run [Source σ] : Decoder α → σ → Except DecodeError α × σ
  | done a, s => (.ok a, s)
  | malformed back place defect, s =>
    (.error (.malformed (Source.offset s - back) place defect), s)
  | take n next, s =>
    match Source.take s n with
    | (.ok answer, s) => (next answer).run s
    | (.error e, s) => (.error (.read e), s)
  | atEnd next, s =>
    match Source.atEnd s with
    | (.ok answer, s) => (next answer).run s
    | (.error e, s) => (.error (.read e), s)

end Decoder

/-! ### Values that may have been cut short -/

/-- A node that was not malformed. -/
inductive Decoded (α : Type) where
  /-- It was read to its end. -/
  | complete (value : α)
  /-- The stream ended within it; this is what was read. -/
  | incomplete (value : α)
deriving DecidableEq

namespace Decoded

variable {α β : Type}

/-- Whether the node was read to its end. -/
def isComplete : Decoded α → Bool
  | complete _ => true
  | incomplete _ => false

/-- What was read. -/
def value : Decoded α → α
  | complete a | incomplete a => a

/-- What was read, if it was read to its end. -/
def complete? : Decoded α → Option α
  | complete a => some a
  | incomplete _ => none

/-- Applies a function to what was read. -/
def map (f : α → β) : Decoded α → Decoded β
  | complete a => complete (f a)
  | incomplete a => incomplete (f a)

end Decoded

/-! ### Steps -/

namespace Decoder

variable {α β : Type}

/-- Reads a piece of fixed size. -/
def readPiece (layout : Layout α) : Decoder (Portion α) :=
  take layout.width fun answer => done (answer.map layout.parse)

/-- Reads a piece of fixed size and goes on with it, or settles for the draft there is when the
stream ends first. -/
def readPieceOr (draft : β) (layout : Layout α) (next : α → Decoder (Decoded β)) :
    Decoder (Decoded β) :=
  readPiece layout >>= fun
    | .whole a => next a
    | .short _ => done (.incomplete draft)

/-- Reads an item of a list that is one piece of fixed size. There is nothing of the item when the
stream ends first. -/
def item (layout : Layout α) : Decoder (Option (Decoded α)) :=
  readPiece layout >>= fun
    | .whole a => done (some (.complete a))
    | .short _ => done none

/-- Reads `count` items in order, the first of them at `index`, and puts them behind those already
read, which are kept last first. An item the stream cuts short is the last; one of which there is
nothing is left out. -/
def severalFrom (each : Nat → Decoder (Option (Decoded α))) :
    (index count : Nat) → List α → Decoder (Decoded (List α))
  | _, 0, got => done (.complete got.reverse)
  | index, count + 1, got =>
    each index >>= fun
      | some (.complete a) => severalFrom each (index + 1) count (a :: got)
      | some (.incomplete a) => done (.incomplete (a :: got).reverse)
      | none => done (.incomplete got.reverse)

/-- Reads `count` items, each told its index. -/
def several (each : Nat → Decoder (Option (Decoded α))) (count : Nat) :
    Decoder (Decoded (List α)) :=
  severalFrom each 0 count []

end Decoder

end FingerMinutiae
