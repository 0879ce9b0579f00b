import FingerMinutiae.Wire.Layout

/-!
# Byte sinks

A sink takes bytes call by call. A call may accept fewer bytes than it was given, and a sink that
is full either fails or accepts nothing, which the writer takes for a failure as well. What was
accepted before the failure stays in the sink, even part of a piece.

## Main definitions

* `Sink`: its room, what it does when full, and how much the calls accept.
* `Sink.write`: writing a string of bytes to its end.
-/

namespace FingerMinutiae

/-- What a full sink does when it is given bytes. -/
inductive Refusal where
  /-- It fails. -/
  | fails (message : String)
  /-- It accepts nothing. -/
  | acceptsNothing
deriving DecidableEq

/-- What is said about a full sink. -/
def Refusal.message : Refusal → String
  | fails message => message
  | acceptsNothing => "failed to write whole buffer"

/-- A sink whose behaviour is laid down in advance. -/
structure Sink where
  /-- How many more bytes it holds; any number, when there is nothing here. -/
  room : Option Nat := none
  /-- What it does when full. -/
  refusal : Refusal := .acceptsNothing
  /-- How many bytes the next calls accept: an entry `more` stands for `more + 1`. The calls after
  them accept all they are given. -/
  quotas : List Nat := []
deriving DecidableEq

namespace Sink

/-- How many of `n` bytes there is room for. -/
def fitting (room : Option Nat) (n : Nat) : Nat :=
  room.elim n (min n)

/-- The room left after `n` bytes. -/
def roomAfter (room : Option Nat) (n : Nat) : Option Nat :=
  room.map (· - n)

/-- Calls a sink until it has accepted all bytes or is full: how many it accepted, and the quotas
left. -/
def accept (room : Option Nat) (n : Nat) : List Nat → Nat × List Nat
  | [] => (fitting room n, [])
  | more :: quotas =>
    if n = 0 then (0, more :: quotas)
    else
      let taken := fitting room (min n (more + 1))
      if taken = 0 then (0, quotas)
      else
        let (later, left) := accept (roomAfter room taken) (n - taken) quotas
        (taken + later, left)

/-- Writes bytes to their end, or as far as there is room: the bytes accepted, the message of the
failure if they were not all, and the sink. Nothing is done to write no bytes. -/
def write (s : Sink) (bytes : Bytes) : Bytes × Option String × Sink :=
  let n := bytes.length
  let (taken, quotas) := accept s.room n s.quotas
  (bytes.take taken, if taken < n then some s.refusal.message else none,
    { s with room := roomAfter s.room taken, quotas })

end Sink

end FingerMinutiae
