import FingerMinutiae.Proofs.Decoding.Announced

/-!
# Machines that decode

A decoder counts with numbers, and it knows of a node only how long ago it began. A machine has
words, and it has an offset: it subtracts from what is left of a block, it subtracts one offset from
another, it goes back to a record by the index at which it has just put it, and it counts what was
not announced in a byte. Each of these can fail. So here is decoding once more as a machine does it,
with every such operation in its place, and there is no answer when one of them has none.

What a machine does that has nothing to calculate is what a decoder does, so a machine is compared
with its decoder step by step: `MachineDecoder.Realises` is that the machine has an answer and that
it is the same. For the payload of an extended data record this holds wherever the record stands, if
its length was found right.

## Main definitions

* `MachineDecoder`, `MachineDecoder.Realises`.
* `RidgeCounts.machineDecoder`, `Landmarks.machineDecoder`, `Payload.machineDecoder`.

## Main results

* `MachineDecoder.Realises.bind`: machines and decoders in sequence.
* `Payload.realises_machineDecoder`.
-/

namespace FingerMinutiae

open Decoder Layout

/-! ### Machines -/

/-- Decoding of bytes in memory by a machine. The machine can ask for its offset, and it has no
answer when one of its operations has none. -/
abbrev MachineDecoder (α : Type) : Type :=
  ExceptT DecodeError (StateT Buffer Option) α

/-- Where there is nothing to calculate a machine does what a decoder does. -/
instance : MonadLift Decoder MachineDecoder where
  monadLift d := fun s => some (d.run s)

namespace MachineDecoder

variable {α β : Type} {x : MachineDecoder α} {f : α → MachineDecoder β} {d : Decoder α}
  {g : α → Decoder β} {s : Buffer}

/-- At a buffer the machine has an answer, and it is that of the decoder. -/
def Realises (x : MachineDecoder α) (s : Buffer) (d : Decoder α) : Prop :=
  x s = some (d.run s)

theorem realises_lift (d : Decoder α) (s : Buffer) : Realises (liftM d) s d := rfl

theorem realises_pure (a : α) (s : Buffer) : Realises (pure a) s (done a) := rfl

/-- A defect that is reported by its offset. -/
theorem realises_throw {offset back : Nat} (h : s.offset = offset + back) (place : Place)
    (defect : Defect) :
    Realises (throw (.malformed offset place defect) : MachineDecoder α) s
      (malformed back place defect) := by
  have hoffset : s.offset - back = offset := Nat.sub_eq_of_eq_add h
  show _ = some (Except.error (DecodeError.malformed (s.offset - back) place defect), s)
  rw [hoffset]
  rfl

theorem bind_of_ok {a : α} {s' : Buffer} (h : x s = some (.ok a, s')) :
    (x >>= f) s = f a s' := by
  show Option.bind (x s) _ = _
  rw [h]
  rfl

theorem bind_of_error {e : DecodeError} {s' : Buffer} (h : x s = some (.error e, s')) :
    (x >>= f) s = some (.error e, s') := by
  show Option.bind (x s) _ = _
  rw [h]
  rfl

theorem bind_of_none (h : x s = none) : (x >>= f) s = none := by
  show Option.bind (x s) _ = _
  rw [h]
  rfl

/-- What comes first of two machines has a value if both have. -/
theorem exists_of_bind {b : β} {s' : Buffer} (h : (x >>= f) s = some (.ok b, s')) :
    ∃ a s'', x s = some (.ok a, s'') ∧ f a s'' = some (.ok b, s') := by
  rcases hx : x s with _ | ⟨e | a, s''⟩
  · rw [bind_of_none hx] at h
    cases h
  · rw [bind_of_error hx] at h
    cases h
  · rw [bind_of_ok hx] at h
    exact ⟨a, s'', rfl, h⟩

theorem eq_of_operation {o : Option α} {a : α} {s' : Buffer}
    (h : (liftM o : MachineDecoder α) s = some (.ok a, s')) : o = some a ∧ s' = s := by
  cases o with
  | none => cases h
  | some b =>
    cases h
    exact ⟨rfl, rfl⟩

theorem realises_bind_get {f : Buffer → MachineDecoder β} {d : Decoder β}
    (h : (f s).Realises s d) : (get >>= f : MachineDecoder β).Realises s d := h

/-- An operation that has an answer. -/
theorem bind_operation {o : Option α} {a : α} (ho : o = some a) :
    (liftM o >>= f : MachineDecoder β) s = f a s := by
  subst ho
  rfl

theorem realises_bind_operation {o : Option α} {a : α} (ho : o = some a) {d : Decoder β}
    (h : (f a).Realises s d) : (liftM o >>= f : MachineDecoder β).Realises s d :=
  (bind_operation ho).trans h

theorem Realises.bind (hx : x.Realises s d)
    (hf : ∀ a s', d.run s = (.ok a, s') → (f a).Realises s' (g a)) :
    (x >>= f).Realises s (d.bind g) := by
  rw [Realises, run_bind]
  rcases hrun : d.run s with ⟨e | a, s'⟩
  · rw [Realises, hrun] at hx
    exact bind_of_error hx
  · rw [Realises, hrun] at hx
    rw [bind_of_ok hx]
    exact hf a s' hrun

/-- A function applied to the node at the end. -/
theorem Realises.map {x : MachineDecoder (Decoded α)} {d : Decoder (Decoded α)} {g : α → β}
    (hx : x.Realises s d) :
    (x >>= fun a => pure (a.map g)).Realises s (d.bind fun a => done (a.map g)) :=
  hx.bind fun _ _ _ => rfl

end MachineDecoder

/-! ### Payloads -/

section

open MachineDecoder

variable {variant : Variant} {place : Place} {offset declared : Nat} {s : Buffer}

/-- Ridge counts in a payload of `declared` bytes, of a record that began at `offset`. That there is
no method byte is told from the subtraction. -/
def RidgeCounts.machineDecoder (offset : Nat) (place : Place) (declared : Nat) :
    MachineDecoder (Decoded RidgeCounts) :=
  match word? 64 (declared - (1 : Nat)) with
  | none => throw (.malformed offset place .ridgeCountLength)
  | some entries =>
    if entries % 3 = 0 then
      liftM (readPieceOr {} .byte fun method => do
        let counts ← several (fun _ => item .ridgeCount) (entries / 3)
        return counts.map fun counts => { method, counts : RidgeCounts })
    else
      throw (.malformed offset place .ridgeCountLength)

theorem RidgeCounts.realises_machineDecoder (hoffset : s.offset = offset + 4)
    (hdeclared : declared < 2 ^ 16) :
    (machineDecoder offset place declared).Realises s (RidgeCounts.decoder place declared) := by
  rw [machineDecoder, RidgeCounts.decoder]
  cases declared with
  | zero => exact realises_throw hoffset place _
  | succ entries =>
    have hword : word? 64 ((entries + 1 : Nat) - (1 : Nat)) = some entries :=
      word?_sub (Nat.le_add_left 1 entries) (Nat.lt_trans (Nat.lt_of_succ_lt hdeclared) (by decide))
    have hlength : isLength (entries + 1) = decide (entries % 3 = 0) := by
      rw [isLength, beq_eq_decide]
      exact decide_eq_decide.mpr (by omega)
    rw [hword, hlength]
    by_cases hmod : entries % 3 = 0
    · have hcount : (entries + 1) / 3 = entries / 3 := by omega
      simp only [hmod, decide_true, if_true, hcount]
      exact realises_lift _ s
    · simp only [hmod, decide_false, if_false]
      exact realises_throw hoffset place _

/-- Cores and deltas in a payload of `declared` bytes, of a record that began at `offset`. What they
take is the difference of two offsets. -/
def Landmarks.machineDecoder (variant : Variant) (offset : Nat) (place : Place) (declared : Nat) :
    MachineDecoder (Decoded Landmarks) := do
  let start := (← get).offset
  match ← Landmarks.entriesDecoder variant with
  | .incomplete b => return .incomplete b
  | .complete b =>
    let consumed ← word? 64 ((← get).offset - start)
    if consumed = declared then
      return .complete b
    else
      throw (.malformed offset place (.landmarksLength declared consumed))

/-- Offsets do not go back, and cores and deltas take as many bytes as it takes to write them. -/
theorem Landmarks.word?_offset_sub {b : Landmarks} {s' : Buffer}
    (h : (entriesDecoder variant).run s = (.ok (.complete b), s')) :
    s'.offset = s.offset + b.encodedLength variant ∧
      word? 64 (s'.offset - s.offset) = some (b.encodedLength variant) := by
  have hread := reads_entriesDecoder variant
  -- The bytes taken spell the landmarks, and how many these are is bounded by the two counts.
  rcases hread.of_run h with ⟨front, -, hoffset, hends⟩ | ⟨-, hends⟩
  · obtain ⟨-, hspells⟩ := hread.of_ends_value hends
    have hfront : front.length = b.encodedLength variant :=
      hspells.length_mask.symm.trans (length_mask variant b)
    have hmost : front.length ≤ maxLength := (within_entriesDecoder variant).value hends
    have hfits : front.length < 2 ^ 64 := Nat.lt_of_le_of_lt hmost (by decide)
    have hle : s.offset ≤ s'.offset := hoffset ▸ Nat.le_add_right s.offset _
    have hconsumed : s'.offset - s.offset = front.length := by omega
    rw [← hfront]
    exact ⟨hoffset, (word?_sub hle (hconsumed.trans_lt hfits)).trans
      (congrArg some hconsumed)⟩
  · exact (hread.of_ends_short hends).elim

theorem Landmarks.realises_machineDecoder (hoffset : s.offset = offset + 4) :
    (machineDecoder variant offset place declared).Realises s
      (Landmarks.decoder variant place declared) := by
  refine realises_bind_get ?_
  refine Realises.bind (realises_lift (entriesDecoder variant) s) ?_
  rintro (b | b) s' hrun
  · obtain ⟨hend, hconsumed⟩ := word?_offset_sub hrun
    refine realises_bind_get (realises_bind_operation hconsumed ?_)
    dsimp only
    split
    · exact realises_pure _ s'
    · refine realises_throw ?_ place _
      rw [hend, hoffset, ExtendedRecord.headerLength, Nat.add_assoc]
  · exact realises_pure _ s'

/-- A payload of `declared` bytes, of a record that began at `offset`. There is nothing to calculate
for data of a type that is not read here. -/
def Payload.machineDecoder (variant : Variant) (offset : Nat) (place : Place) (typeId : UInt16)
    (declared : Nat) : MachineDecoder (Decoded Payload) := do
  if typeId = ridgeCountsType then
    return (← RidgeCounts.machineDecoder offset place declared).map .ridgeCounts
  else if typeId = landmarksType then
    return (← Landmarks.machineDecoder variant offset place declared).map .landmarks
  else
    Payload.decoder variant place typeId declared

/-- **Payloads.** A machine reads the payload of a record that began four bytes ago. -/
theorem Payload.realises_machineDecoder {typeId : UInt16} (hoffset : s.offset = offset + 4)
    (hdeclared : declared < 2 ^ 16) :
    (machineDecoder variant offset place typeId declared).Realises s
      (Payload.decoder variant place typeId declared) := by
  rw [machineDecoder]
  split
  · next hridges =>
    rw [Payload.decoder, if_pos hridges]
    exact (RidgeCounts.realises_machineDecoder hoffset hdeclared).map
  · next hridges =>
    split
    · next hlandmarks =>
      rw [Payload.decoder, if_neg hridges, if_pos hlandmarks]
      exact (Landmarks.realises_machineDecoder hoffset).map
    · exact realises_lift _ s

end

end FingerMinutiae
