import FingerMinutiae.Stream.Sink

/-!
# Sinks that are full at some point

How a sink divides what it accepts among its calls does not show in the end. A sink with room for so
many bytes accepts these many of what is written to it, or all of it if that is less, and fails
exactly if that is not all.

## Main results

* `Sink.write_of_room`: what comes of writing bytes to their end.
-/

namespace FingerMinutiae

namespace Sink

/-- The calls together accept what there is room for. -/
theorem accept_of_room (room n : Nat) (quotas : List Nat) :
    (accept (some room) n quotas).1 = min n room := by
  induction quotas generalizing room n with
  | nil => rfl
  | cons more quotas ih =>
    rw [accept]
    by_cases hn : n = 0
    · rw [if_pos hn, hn, Nat.zero_min]
    · rw [if_neg hn]
      -- One call accepts something unless there is no room, and the later calls the rest.
      have htaken : fitting (some room) (min n (more + 1)) = min (min n (more + 1)) room := rfl
      dsimp only
      rw [htaken]
      by_cases hroom : room = 0
      · rw [hroom, Nat.min_zero, Nat.min_zero, if_pos rfl]
      · rw [if_neg (by omega)]
        show _ + (accept (some (room - _)) _ quotas).1 = _
        rw [ih]
        omega

/-- **Writing to a bounded sink.** The first bytes are accepted, as many as there is room for, and
it fails if there are more. -/
theorem write_of_room (room : Nat) (refusal : Refusal) (quotas : List Nat) (bytes : Bytes) :
    ∃ left, write { room := some room, refusal, quotas } bytes
      = (bytes.take room, if room < bytes.length then some refusal.message else none,
          { room := some (room - bytes.length), refusal, quotas := left }) := by
  have haccepted := accept_of_room room bytes.length quotas
  rcases haccept : accept (some room) bytes.length quotas with ⟨taken, left⟩
  rw [haccept] at haccepted
  obtain rfl : taken = min bytes.length room := haccepted
  refine ⟨left, ?_⟩
  have hrest : room - min bytes.length room = room - bytes.length := by omega
  have hall : min bytes.length room < bytes.length ↔ room < bytes.length := by omega
  rw [write]
  dsimp only
  rw [haccept]
  dsimp only
  rw [show roomAfter (some room) (min bytes.length room) = some (room - bytes.length) from
    congrArg some hrest, Nat.min_comm, ← List.take_eq_take_min]
  simp only [Nat.min_comm room, hall]

end Sink

end FingerMinutiae
