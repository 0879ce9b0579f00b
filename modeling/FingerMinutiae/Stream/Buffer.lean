import FingerMinutiae.Stream.Source

/-!
# Bytes in memory

The plainest source: all bytes are at hand, so no read fails.

## Main definitions

* `Buffer`, `Buffer.ofBytes`, and its `Source` operations.
-/

namespace FingerMinutiae

/-- Bytes in memory, of which some have been taken. -/
structure Buffer where
  /-- The bytes not taken yet. -/
  rest : Bytes
  /-- How many have been taken. -/
  offset : Nat := 0
deriving DecidableEq

namespace Buffer

/-- A buffer of which nothing has been taken. -/
def ofBytes (bytes : Bytes) : Buffer :=
  { rest := bytes }

/-- Takes `n` bytes, or all when there are fewer. Only the bytes taken are counted, so a read costs
what it gives however long the buffer is. -/
def take (b : Buffer) (n : Nat) : Portion Bytes × Buffer :=
  let front := b.rest.take n
  (.ofBytes n front, { rest := b.rest.drop n, offset := b.offset + front.length })

/-- Whether no byte is left. -/
def atEnd (b : Buffer) : Bool :=
  b.rest.isEmpty

end Buffer

instance : Source Buffer where
  take b n := ((.ok (b.take n).1), (b.take n).2)
  atEnd b := (.ok b.atEnd, b)
  offset b := b.offset

end FingerMinutiae
