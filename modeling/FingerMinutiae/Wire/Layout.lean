import FingerMinutiae.Wire.Field

/-!
# Fixed-size layouts

A record is a string of fixed-size pieces. A `Layout` says how one piece lies in its bytes: how
many there are, what any such bytes mean, which values have to fit into packed fields, and the
bytes that a fitting value becomes. Reading cannot fail, since every pattern of bits has a
meaning; writing fails exactly on a value that is too wide for its field.

All numbers are big-endian. They are built and split by arithmetic on `Nat`: the high part of a
word is a quotient and the low part a remainder by a power of two.

## Main definitions

* `Bytes`, `word16`, `bytes16`, `word32`, `bytes32`.
* `Layout`, `Piece`, and `Piece.emit`, which checks the packed fields in order and then writes.
-/

namespace FingerMinutiae

/-- A string of bytes. -/
abbrev Bytes := List UInt8

/-! ### Big-endian words -/

/-- The word of two bytes, high byte first. -/
def word16 (high low : UInt8) : UInt16 :=
  UInt16.ofNat (high.toNat * 2 ^ 8 + low.toNat)

/-- The two bytes of a word, high byte first. -/
def bytes16 (w : UInt16) : Bytes :=
  [UInt8.ofNat (w.toNat / 2 ^ 8), UInt8.ofNat (w.toNat % 2 ^ 8)]

/-- The word of four bytes, high byte first. -/
def word32 (a b c d : UInt8) : UInt32 :=
  UInt32.ofNat (((a.toNat * 2 ^ 8 + b.toNat) * 2 ^ 8 + c.toNat) * 2 ^ 8 + d.toNat)

/-- The four bytes of a word, high byte first. -/
def bytes32 (w : UInt32) : Bytes :=
  [UInt8.ofNat (w.toNat / 2 ^ 24), UInt8.ofNat (w.toNat / 2 ^ 16 % 2 ^ 8),
    UInt8.ofNat (w.toNat / 2 ^ 8 % 2 ^ 8), UInt8.ofNat (w.toNat % 2 ^ 8)]

/-! ### Two fields in one byte or word

The split is after the low `k` bits. Joining is exact when both parts fit, which the layouts check
before they write. -/

/-- The part of a byte above its low `k` bits. -/
def highBits8 (k : Nat) (b : UInt8) : UInt8 :=
  UInt8.ofNat (b.toNat / 2 ^ k)

/-- The low `k` bits of a byte. -/
def lowBits8 (k : Nat) (b : UInt8) : UInt8 :=
  UInt8.ofNat (b.toNat % 2 ^ k)

/-- The byte with `high` above its low `k` bits and `low` in them. -/
def join8 (k : Nat) (high low : UInt8) : UInt8 :=
  UInt8.ofNat (high.toNat * 2 ^ k + low.toNat)

/-- The part of a word above its low `k` bits, which has at most a byte. -/
def highBits16 (k : Nat) (w : UInt16) : UInt8 :=
  UInt8.ofNat (w.toNat / 2 ^ k)

/-- The low `k` bits of a word. -/
def lowBits16 (k : Nat) (w : UInt16) : UInt16 :=
  UInt16.ofNat (w.toNat % 2 ^ k)

/-- The word with `high` above its low `k` bits and `low` in them. -/
def join16 (k : Nat) (high : UInt8) (low : UInt16) : UInt16 :=
  UInt16.ofNat (high.toNat * 2 ^ k + low.toNat)

/-! ### Layouts and pieces -/

/-- Bytes ready to be written, with the packed values they were made from in the order in which
these are checked. The bytes count only if every value fits. -/
structure Piece where
  /-- The values that have to fit. -/
  packed : List FieldValue
  /-- The bytes, meant for values that fit. -/
  bytes : Bytes

namespace Piece

/-- Bytes in which nothing is packed. -/
def plain (bytes : Bytes) : Piece :=
  ⟨[], bytes⟩

/-- Every packed value fits its field. -/
def Fits (p : Piece) : Prop :=
  ∀ v ∈ p.packed, v.Fits

instance (p : Piece) : Decidable p.Fits :=
  inferInstanceAs (Decidable (∀ v ∈ p.packed, v.Fits))

/-- The bytes of a piece, or the first of its values that does not fit. -/
def emit (p : Piece) : Except FieldValue Bytes :=
  match firstOverflow? p.packed with
  | some v => .error v
  | none => .ok p.bytes

end Piece

/-- How a value of type `α` lies in a fixed number of bytes. -/
structure Layout (α : Type) where
  /-- The number of bytes. -/
  width : Nat
  /-- The meaning of that many bytes. A string of another length has no meaning here and gives
  the value with every field zero. -/
  parse : Bytes → α
  /-- The values that have to fit into packed fields, in the order in which they are checked. -/
  packed : α → List FieldValue
  /-- The bytes of a value whose packed fields fit. -/
  bytes : α → Bytes

namespace Layout

variable {α : Type}

/-- A value as a piece to write. -/
def piece (layout : Layout α) (a : α) : Piece :=
  ⟨layout.packed a, layout.bytes a⟩

/-- The bytes of a value, or the first of its fields that overflows. -/
def emit (layout : Layout α) (a : α) : Except FieldValue Bytes :=
  (layout.piece a).emit

/-- A single byte. -/
def byte : Layout UInt8 where
  width := 1
  parse
    | [b] => b
    | _ => 0
  packed _ := []
  bytes b := [b]

/-- A two-byte word. -/
def half : Layout UInt16 where
  width := 2
  parse
    | [high, low] => word16 high low
    | _ => 0
  packed _ := []
  bytes := bytes16

/-- A four-byte word. -/
def word : Layout UInt32 where
  width := 4
  parse
    | [a, b, c, d] => word32 a b c d
    | _ => 0
  packed _ := []
  bytes := bytes32

end Layout

end FingerMinutiae
