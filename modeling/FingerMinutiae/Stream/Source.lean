import FingerMinutiae.Wire.Layout

/-!
# Byte sources

A decoder reads forward through a stream of bytes. A stream may lie in memory or arrive from a
reader in pieces, and a decoder must not be able to tell the two apart, so it sees of either only
what `Source` offers.

## Main definitions

* `Portion`: a piece of the stream, or what there was of it before the stream ended.
* `ReadError`: why a stream could not be read. The end of the stream is no error.
* `Source`: taking an exact number of bytes, looking for the end, and counting.
-/

namespace FingerMinutiae

/-- What a stream had to give when it was asked for a piece. -/
inductive Portion (α : Type) where
  /-- The piece was there. -/
  | whole (piece : α)
  /-- The stream ended first, after `got` bytes, which are used up. -/
  | short (got : Nat)
deriving DecidableEq

namespace Portion

variable {α β : Type}

/-- Reads a meaning into the piece that was there. -/
def map (f : α → β) : Portion α → Portion β
  | whole a => whole (f a)
  | short got => short got

end Portion

/-- The portion that a read for `n` bytes makes of the bytes it got. -/
def Portion.ofBytes (n : Nat) (bytes : Bytes) : Portion Bytes :=
  if bytes.length = n then whole bytes else short bytes.length

/-- Why a stream could not be read. -/
inductive ReadError where
  /-- The reader failed. -/
  | io (message : String)
  /-- No buffer can hold that many bytes. -/
  | allocation
deriving DecidableEq

/-- What is said about a stream that could not be read. -/
def ReadError.message : ReadError → String
  | io message => message
  | allocation =>
    "Could not reserve memory for record data: memory allocation failed because the computed " ++
      "capacity exceeded the collection's maximum"

/-- The largest number of bytes that a buffer can hold. -/
def maxReservation : Nat := 2 ^ 63 - 1

/-- A forward-only stream of bytes. -/
class Source (σ : Type) where
  /-- Takes `n` bytes, or what is left when there are fewer. -/
  take : σ → Nat → Except ReadError (Portion Bytes) × σ
  /-- Whether no byte is left. Uses none up. -/
  atEnd : σ → Except ReadError Bool × σ
  /-- How many bytes have been taken. -/
  offset : σ → Nat

end FingerMinutiae
