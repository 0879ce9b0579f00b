import FingerMinutiae.Stream.Source

/-!
# Bytes from a reader

A reader is asked for bytes call by call. A call may hand out fewer than it was asked for, may be
interrupted and hand out none, or may fail. A `Feed` is a reader whose behaviour is laid down in
advance, and a `Reader` is the source over it: it calls until it has what it was asked for or the
stream is over.

Looking for the end of the stream costs a byte, which the reader hands out and the source keeps
back for the next read.

## Main definitions

* `Feed`: the bytes, how the calls go, and whether the stream ends or fails after the bytes.
* `Feed.fill`: calls until so many bytes have come or the stream is over.
* `Reader` and its `Source` operations.
-/

namespace FingerMinutiae

/-! ### What is read from -/

/-- How one call to a reader goes. -/
inductive Turn where
  /-- It is interrupted and hands out nothing. -/
  | interrupted
  /-- It hands out at most `more + 1` bytes. -/
  | atMost (more : Nat)
deriving DecidableEq

/-- A reader whose behaviour is laid down in advance. -/
structure Feed where
  /-- The bytes not handed out yet. -/
  pending : Bytes
  /-- What every call fails with once the bytes have been handed out; when there is nothing here,
  the stream ends with its bytes. -/
  failure : Option String := none
  /-- How the next calls go. The calls after them hand out all they are asked for. -/
  turns : List Turn := []
deriving DecidableEq

namespace Feed

/-- Calls a reader until it has handed out `wanted` bytes or the stream is over: what came, and
what is left of the bytes and of the turns. Interrupted calls are repeated. When a call fails, the
bytes that came before it are lost. -/
def fillFrom (failure : Option String) (wanted : Nat) (pending : Bytes) :
    List Turn → Except String Bytes × Bytes × List Turn
  | [] =>
    let got := pending.take wanted
    match failure with
    | some message =>
      if got.length < wanted then (.error message, [], []) else (.ok got, pending.drop wanted, [])
    | none => (.ok got, pending.drop wanted, [])
  | .interrupted :: turns =>
    if wanted = 0 then (.ok [], pending, .interrupted :: turns)
    else fillFrom failure wanted pending turns
  | .atMost more :: turns =>
    if wanted = 0 then (.ok [], pending, .atMost more :: turns)
    else
      match pending, failure with
      | [], some message => (.error message, [], turns)
      | [], none => (.ok [], [], turns)
      | _ :: _, _ =>
        let got := pending.take (min wanted (more + 1))
        let (later, left) := fillFrom failure (wanted - got.length) (pending.drop got.length) turns
        (later.map (got ++ ·), left)

/-- Calls the reader until it has handed out `wanted` bytes or the stream is over. -/
def fill (f : Feed) (wanted : Nat) : Except String Bytes × Feed :=
  let (got, pending, turns) := fillFrom f.failure wanted f.pending f.turns
  (got, { f with pending, turns })

end Feed

/-! ### The source over it -/

/-- A source over a reader. -/
structure Reader where
  /-- What is read from. -/
  feed : Feed
  /-- How many bytes have been taken. A read that fails counts for nothing. -/
  offset : Nat := 0
  /-- A byte that was handed out and has not been taken. -/
  peeked : Option UInt8 := none
deriving DecidableEq

namespace Reader

/-- A source over a reader, of which nothing has been taken. -/
def ofFeed (feed : Feed) : Reader :=
  { feed }

/-- Takes `n` bytes, the byte kept back first. A read for none makes no call, and one for more
than a buffer can hold is refused before any. -/
def take (r : Reader) (n : Nat) : Except ReadError (Portion Bytes) × Reader :=
  if n = 0 then (.ok (.whole []), r)
  else if maxReservation < n then (.error .allocation, r)
  else
    let front := r.peeked.toList
    let (got, feed) := r.feed.fill (n - front.length)
    match got with
    | .error message => (.error (.io message), { r with feed, peeked := none })
    | .ok bytes =>
      (.ok (.ofBytes n (front ++ bytes)),
        { feed, offset := r.offset + (front.length + bytes.length), peeked := none })

/-- Whether no byte is left. Asks the reader for a byte unless one is kept back already. -/
def atEnd (r : Reader) : Except ReadError Bool × Reader :=
  match r.peeked with
  | some _ => (.ok false, r)
  | none =>
    let (got, feed) := r.feed.fill 1
    match got with
    | .error message => (.error (.io message), { r with feed })
    | .ok bytes => (.ok bytes.isEmpty, { r with feed, peeked := bytes.head? })

end Reader

instance : Source Reader where
  take := Reader.take
  atEnd := Reader.atEnd
  offset := Reader.offset

end FingerMinutiae
