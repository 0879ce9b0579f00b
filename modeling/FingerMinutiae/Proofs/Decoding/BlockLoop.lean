import FingerMinutiae.Proofs.Decoding.Machine
import Mathlib.Logic.Relation

/-!
# The loop over a block

A machine reads the records of a block in a loop. It counts down what is left of the block, pushes a
record as soon as its length is found right, goes back to where it pushed it to put its payload in,
and stops when nothing is left. The loop is taken apart here: a round makes one state into the next,
or is the last. What a round can come to is said once, and what is true of all states that the loop
comes to follows by induction on the rounds before.

Taken together the rounds read what the decoder of the block reads.

## Main definitions

* `BlockLoop`, `BlockLoop.round`, `BlockLoop.loop`: the state of the loop, a round, and all rounds.
* `BlockLoop.Next`, `BlockLoop.Reached`: from state to state.
* `BlockLoop.Pushes`: what a round does to the state.
* `BlockLoop.Counts`: the invariant of the loop.
* `BlockLoop.Sound`: what is true of every state that the loop comes to.
* `ExtendedBlock.machineDecoder`.

## Main results

* `BlockLoop.round_cases`: what a round comes to.
* `BlockLoop.realises_round`, `BlockLoop.realises_loop`: what is read, in one round and in all.
* `BlockLoop.sound`.
-/

namespace FingerMinutiae

open Decoder Layout MachineDecoder

variable {variant : Variant}

/-! ### Rounds -/

/-- What was put behind a list and is then replaced. -/
theorem set_length_concat {α : Type} (as : List α) (a b : α) :
    (as ++ [a]).set as.length b = as ++ [b] := by
  rw [List.set_append_right as.length b (Nat.le_refl _), Nat.sub_self, List.set_cons_zero]

/-- A payload of a type of which nothing has been read. -/
def Payload.blank (typeId : UInt16) : Payload :=
  if typeId = ridgeCountsType then .ridgeCounts {}
  else if typeId = landmarksType then .landmarks {}
  else .raw typeId []

/-- What the loop over the records of a block counts and collects. -/
structure BlockLoop where
  /-- The bytes of the block that are left. -/
  remaining : Nat
  /-- The records pushed so far, in file order. -/
  records : List ExtendedRecord

namespace BlockLoop

/-- Nothing of the block has been read. -/
def start (blockLength : UInt16) : BlockLoop where
  remaining := blockLength.toNat
  records := []

/-- A record is put behind the others, and its length taken off what is left. -/
def push (l : BlockLoop) (d : ExtendedRecord) : BlockLoop where
  remaining := l.remaining - d.length.toNat
  records := l.records ++ [d]

@[simp] theorem remaining_push (l : BlockLoop) (d : ExtendedRecord) :
    (l.push d).remaining = l.remaining - d.length.toNat := rfl

@[simp] theorem records_push (l : BlockLoop) (d : ExtendedRecord) :
    (l.push d).records = l.records ++ [d] := rfl

/-- A round of the loop, which leads to the next state or is the last. A record is pushed as soon as
its length is found right, and its payload is put in where it was pushed. -/
def round (variant : Variant) (view : Nat) (l : BlockLoop) :
    MachineDecoder (BlockLoop ⊕ Decoded BlockLoop) := do
  if l.remaining = 0 then
    return .inr (.complete l)
  else
    let offset := (← get).offset
    let index := l.records.length
    let place := Place.data view index
    match ← readPiece dataHeader with
    | .short _ => return .inr (.incomplete l)
    | .whole header =>
      let length := header.length.toNat
      match ExtendedRecord.lengthDefect? length l.remaining with
      | some defect => throw (.malformed offset place defect)
      | none =>
        let remaining ← word? 32 (l.remaining - length)
        let pushed :=
          l.records ++ [{ length := header.length, payload := Payload.blank header.typeId }]
        let data ← pushed[index]?
        let declared ← word? 16 (length - ExtendedRecord.headerLength)
        match ← Payload.machineDecoder variant offset place header.typeId declared with
        | .complete payload =>
          return .inl { remaining, records := pushed.set index { data with payload } }
        | .incomplete payload =>
          let records := pushed.set index { data with payload, truncated := true }
          return .inr (.incomplete { remaining, records })

/-- A round leads from one state to the next. -/
def Next (variant : Variant) (view : Nat) (before after : BlockLoop × Buffer) : Prop :=
  before.1.round variant view before.2 = some (.ok (.inl after.1), after.2)

/-- A record of at least four bytes was pushed, which was not more than there was left. -/
def Pushes (before after : BlockLoop) : Prop :=
  ∃ d : ExtendedRecord, 4 ≤ d.length.toNat ∧ d.length.toNat ≤ before.remaining ∧
    after = before.push d

variable {view : Nat} {l l' : BlockLoop} {s s' : Buffer}

theorem Pushes.remaining_add_le (h : l.Pushes l') : l'.remaining + 4 ≤ l.remaining := by
  obtain ⟨d, hheader, hlength, rfl⟩ := h
  rw [remaining_push]
  omega

/-- **Rounds.** What a round comes to: the end of the block, the end of the bytes, or a record that
was pushed, and this is the last one if the bytes end within it. -/
theorem round_cases {answer : BlockLoop ⊕ Decoded BlockLoop}
    (h : l.round variant view s = some (.ok answer, s')) :
    (l.remaining = 0 ∧ answer = .inr (.complete l)) ∨ answer = .inr (.incomplete l) ∨
      ∃ l', l.Pushes l' ∧ (answer = .inl l' ∨ answer = .inr (.incomplete l')) := by
  rw [round] at h
  split at h
  · next hend =>
    cases h
    exact .inl ⟨hend, rfl⟩
  · obtain ⟨_, _, -, h⟩ := exists_of_bind h
    obtain ⟨header | got, _, -, h⟩ := exists_of_bind h
    · dsimp only at h
      cases hdefect : ExtendedRecord.lengthDefect? header.length.toNat l.remaining with
      | some defect =>
        rw [hdefect] at h
        cases h
      | none =>
        rw [hdefect] at h
        obtain ⟨hheader, hlength⟩ := ExtendedRecord.bounds_of_lengthDefect? hdefect
        obtain ⟨remaining, _, hremaining, h⟩ := exists_of_bind h
        obtain ⟨data, _, hdata, h⟩ := exists_of_bind h
        obtain ⟨declared, _, -, h⟩ := exists_of_bind h
        have hleft := eq_of_word?_eq_some (eq_of_operation hremaining).1
        obtain rfl : remaining = l.remaining - header.length.toNat := by omega
        have hpushed := (eq_of_operation hdata).1
        rw [List.getElem?_concat_length] at hpushed
        cases hpushed
        -- The record is pushed by now, and only what its payload is remains to be seen.
        have hpushes (payload : Payload) (truncated : Bool) :
            l.Pushes (l.push { length := header.length, payload, truncated }) :=
          ⟨_, hheader, hlength, rfl⟩
        obtain ⟨payload | payload, _, -, h⟩ := exists_of_bind h
        · dsimp only at h
          rw [set_length_concat] at h
          cases h
          exact .inr (.inr ⟨_, hpushes payload false, .inl rfl⟩)
        · dsimp only at h
          rw [set_length_concat] at h
          cases h
          exact .inr (.inr ⟨_, hpushes payload true, .inr rfl⟩)
    · cases h
      exact .inr (.inl rfl)

theorem pushes_of_next (h : Next variant view (l, s) (l', s')) : l.Pushes l' := by
  obtain ⟨-, hanswer⟩ | hanswer | ⟨l'', hpushes, hanswer | hanswer⟩ := round_cases h
  · cases hanswer
  · cases hanswer
  · cases hanswer
    exact hpushes
  · cases hanswer

theorem remaining_lt_of_next (h : Next variant view (l, s) (l', s')) :
    l'.remaining < l.remaining :=
  Nat.lt_of_lt_of_le (Nat.lt_add_of_pos_right (by decide)) (pushes_of_next h).remaining_add_le

/-! ### The loop -/

/-- Rounds until one of them is the last. -/
def loop (variant : Variant) (view : Nat) (l : BlockLoop) :
    MachineDecoder (Decoded (List ExtendedRecord)) := fun s =>
  match h : l.round variant view s with
  | some (.ok (.inl l'), s') =>
    have := remaining_lt_of_next h
    loop variant view l' s'
  | some (.ok (.inr last), s') => some (.ok (last.map records), s')
  | some (.error e, s') => some (.error e, s')
  | none => none
termination_by l.remaining

theorem loop_eq (variant : Variant) (view : Nat) (l : BlockLoop) :
    l.loop variant view
      = l.round variant view >>= Sum.elim (loop variant view) fun last =>
          pure (last.map records) := by
  funext s
  rw [loop]
  split
  · next h =>
    rw [bind_of_ok h]
    rfl
  · next h =>
    rw [bind_of_ok h]
    rfl
  · next h => exact (bind_of_error h).symm
  · next h => exact (bind_of_none h).symm

/-- What a round reads, when nothing is in the way of its operations. -/
def roundDecoder (variant : Variant) (view : Nat) (l : BlockLoop) :
    Decoder (BlockLoop ⊕ Decoded BlockLoop) :=
  if l.remaining = 0 then
    done (.inr (.complete l))
  else
    readPiece dataHeader >>= fun
      | .short _ => done (.inr (.incomplete l))
      | .whole header =>
        let length := header.length.toNat
        let place := Place.data view l.records.length
        match ExtendedRecord.lengthDefect? length l.remaining with
        | some defect => malformed ExtendedRecord.headerLength place defect
        | none =>
          Payload.decoder variant place header.typeId (length - ExtendedRecord.headerLength) >>= fun
            | .complete payload => done (.inl (l.push { length := header.length, payload }))
            | .incomplete payload =>
              done (.inr (.incomplete
                (l.push { length := header.length, payload, truncated := true })))

/-- What is left to read for the loop. -/
def decoder (variant : Variant) (view : Nat) (l : BlockLoop) :
    Decoder (Decoded (List ExtendedRecord)) :=
  ExtendedBlock.recordsDecoder variant view l.records.length l.remaining l.records.reverse

theorem decoder_eq (variant : Variant) (view : Nat) (l : BlockLoop) :
    l.decoder variant view
      = (l.roundDecoder variant view).bind (Sum.elim (decoder variant view) fun last =>
          done (last.map records)) := by
  have hreverse : l.records.reverse.reverse = l.records := List.reverse_reverse l.records
  rw [decoder, ExtendedBlock.recordsDecoder, roundDecoder]
  by_cases hend : l.remaining = 0
  · rw [if_pos hend, if_pos hend, hreverse]
    rfl
  · rw [if_neg hend, if_neg hend]
    refine Eq.trans ?_ (Decoder.bind_assoc _ _ _).symm
    refine congrArg (Decoder.bind (readPiece dataHeader)) (funext ?_)
    rintro (header | got)
    · dsimp only
      split
      · next defect hdefect =>
        rw [hdefect]
        rfl
      · next hdefect =>
        rw [hdefect]
        refine Eq.trans ?_ (Decoder.bind_assoc _ _ _).symm
        refine congrArg (Decoder.bind _) (funext ?_)
        -- The decoder keeps the records last first, so one that is pushed stands in front there.
        rintro (payload | payload)
        · show _ = decoder variant view (l.push { length := header.length, payload })
          rw [decoder, records_push, List.length_append, List.reverse_concat]
          rfl
        · show done (Decoded.incomplete (_ :: l.records.reverse).reverse) = _
          rw [List.reverse_cons, hreverse]
          rfl
    · show done (Decoded.incomplete l.records.reverse.reverse) = _
      rw [hreverse]
      rfl

/-- A round has an answer as long as what is left fits a word. -/
theorem realises_round (hfits : l.remaining < 2 ^ 32) :
    (l.round variant view).Realises s (l.roundDecoder variant view) := by
  rw [round, roundDecoder]
  by_cases hend : l.remaining = 0
  · rw [if_pos hend, if_pos hend]
    exact realises_pure _ s
  · rw [if_neg hend, if_neg hend]
    refine realises_bind_get ?_
    refine Realises.bind (realises_lift (readPiece dataHeader) s) ?_
    rintro (header | got) s' hrun
    · have hoffset : s'.offset = s.offset + 4 := offset_of_run_readPiece hrun
      dsimp only
      cases hdefect : ExtendedRecord.lengthDefect? header.length.toNat l.remaining with
      | some defect => exact realises_throw hoffset _ defect
      | none =>
        obtain ⟨hheader, hlength⟩ := ExtendedRecord.bounds_of_lengthDefect? hdefect
        have hdeclared : header.length.toNat - ExtendedRecord.headerLength < 2 ^ 16 :=
          Nat.lt_of_le_of_lt (Nat.sub_le _ _) header.length.toNat_lt
        refine realises_bind_operation
          (word?_sub hlength (Nat.lt_of_le_of_lt (Nat.sub_le _ _) hfits)) ?_
        refine realises_bind_operation List.getElem?_concat_length ?_
        refine realises_bind_operation (word?_sub hheader hdeclared) ?_
        refine Realises.bind (Payload.realises_machineDecoder hoffset hdeclared) ?_
        rintro (payload | payload) s'' -
        · dsimp only
          rw [set_length_concat]
          exact realises_pure _ s''
        · dsimp only
          rw [set_length_concat]
          exact realises_pure _ s''
    · exact realises_pure _ s'

/-- Where the decoder of a round comes to a state, the round does. -/
theorem next_of_run (hfits : l.remaining < 2 ^ 32)
    (h : (l.roundDecoder variant view).run s = (.ok (.inl l'), s')) :
    Next variant view (l, s) (l', s') := by
  have hround : (l.round variant view).Realises s (l.roundDecoder variant view) :=
    realises_round hfits
  rw [Realises, h] at hround
  exact hround

/-- **The loop** has an answer as long as what is left fits a word, that of the decoder. -/
theorem realises_loop (hfits : l.remaining < 2 ^ 32) :
    (l.loop variant view).Realises s (l.decoder variant view) := by
  induction hn : l.remaining using Nat.strongRecOn generalizing l s with
  | ind n ih =>
  subst hn
  rw [loop_eq, decoder_eq]
  refine (realises_round hfits).bind ?_
  rintro (l' | last) s' hrun
  · have hlt := remaining_lt_of_next (next_of_run hfits hrun)
    exact ih _ hlt (Nat.lt_trans hlt hfits) rfl
  · exact realises_pure _ s'

/-! ### All rounds -/

/-- The state is one that the loop comes to, in a block of that length. -/
def Reached (variant : Variant) (view : Nat) (blockLength : UInt16) (s : Buffer) :
    BlockLoop × Buffer → Prop :=
  Relation.ReflTransGen (Next variant view) (start blockLength, s)

/-- The invariant of the loop: the bytes that are left of the block and those that the records
pushed so far declare are together those of the block. -/
def Counts (blockLength : UInt16) (l : BlockLoop) : Prop :=
  l.remaining + (l.records.map fun d => d.length.toNat).sum = blockLength.toNat

theorem counts_start (blockLength : UInt16) : (start blockLength).Counts blockLength := rfl

theorem Counts.pushes {blockLength : UInt16} (h : l.Counts blockLength) (hpushes : l.Pushes l') :
    l'.Counts blockLength := by
  obtain ⟨d, -, hlength, rfl⟩ := hpushes
  rw [Counts] at h ⊢
  rw [records_push, remaining_push, List.map_append, List.sum_append, List.map_singleton,
    List.sum_singleton]
  omega

/-- The invariant holds behind the last round as well, and a block that was read to its end has
nothing left. -/
theorem Counts.last {blockLength : UInt16} {last : Decoded BlockLoop} (h : l.Counts blockLength)
    (hlast : l.round variant view s = some (.ok (.inr last), s')) :
    last.value.Counts blockLength ∧ (last.isComplete = true → last.value.remaining = 0) := by
  obtain ⟨hend, hanswer⟩ | hanswer | ⟨l', hpushes, hanswer | hanswer⟩ := round_cases hlast
  · cases hanswer
    exact ⟨h, fun _ => hend⟩
  · cases hanswer
    exact ⟨h, Bool.noConfusion⟩
  · cases hanswer
  · cases hanswer
    exact ⟨h.pushes hpushes, Bool.noConfusion⟩

theorem Counts.remaining_lt {blockLength : UInt16} (h : l.Counts blockLength) :
    l.remaining < 2 ^ 32 := by
  have hblock := blockLength.toNat_lt
  rw [Counts] at h
  omega

theorem Reached.counts {blockLength : UInt16} {state : BlockLoop × Buffer}
    (h : Reached variant view blockLength s state) : state.1.Counts blockLength := by
  induction h with
  | refl => exact counts_start blockLength
  | tail _ hnext ih => exact ih.pushes (pushes_of_next hnext)

/-- From every state the loop comes to one that is the last. -/
theorem exists_last (variant : Variant) (view : Nat) (state : BlockLoop × Buffer) :
    ∃ last, Relation.ReflTransGen (Next variant view) state last ∧
      ∀ after, ¬ Next variant view last after := by
  induction hn : state.1.remaining using Nat.strongRecOn generalizing state with
  | ind n ih =>
  subst hn
  by_cases hnext : ∃ after, Next variant view state after
  · obtain ⟨after, hnext⟩ := hnext
    obtain ⟨last, hlast, hover⟩ := ih _ (remaining_lt_of_next hnext) after rfl
    exact ⟨last, .head hnext hlast, hover⟩
  · exact ⟨state, .refl, fun after h => hnext ⟨after, h⟩⟩

/-- What is true of the loop over the records of a block, whatever the length of the block and the
bytes that follow. -/
structure Sound (variant : Variant) (view : Nat) (blockLength : UInt16) (s : Buffer) : Prop where
  /-- What is left is the length of the block without those of the records pushed so far. -/
  counts : ∀ state, Reached variant view blockLength s state → state.1.Counts blockLength
  /-- So it is behind the last round, and nothing is left of a block that was read to its end. -/
  last : ∀ state last s', Reached variant view blockLength s state →
    state.1.round variant view state.2 = some (.ok (.inr last), s') →
      last.value.Counts blockLength ∧ (last.isComplete = true → last.value.remaining = 0)
  /-- No operation of a round is without an answer. -/
  answers : ∀ state, Reached variant view blockLength s state →
    ∃ answer, state.1.round variant view state.2 = some answer
  /-- Every round that is not the last takes at least four bytes off what is left. -/
  decreases : ∀ state after, Next variant view state after →
    after.1.remaining + 4 ≤ state.1.remaining
  /-- The loop comes to a state from which no round leads on. -/
  ends : ∃ last, Reached variant view blockLength s last ∧ ∀ after, ¬ Next variant view last after

/-- **All rounds.** -/
theorem sound (variant : Variant) (view : Nat) (blockLength : UInt16) (s : Buffer) :
    Sound variant view blockLength s where
  counts _ hstate := hstate.counts
  last _ _ _ hstate hlast := hstate.counts.last hlast
  answers _ hstate := ⟨_, realises_round hstate.counts.remaining_lt⟩
  decreases _ _ hnext := (pushes_of_next hnext).remaining_add_le
  ends := exists_last variant view _

end BlockLoop

/-! ### Blocks -/

/-- The extended data block of the view at index `view`, after its length has been read. -/
def ExtendedBlock.machineDecoder (variant : Variant) (view : Nat) (blockLength : UInt16) :
    MachineDecoder (Decoded ExtendedBlock) := do
  match ← BlockLoop.loop variant view (.start blockLength) with
  | .complete records => return .complete { blockLength, records }
  | .incomplete records => return .incomplete { blockLength, records, truncated := true }

/-- **Blocks.** A machine reads a block wherever it stands, whatever its length. -/
theorem ExtendedBlock.realises_machineDecoder (variant : Variant) (view : Nat)
    (blockLength : UInt16) (s : Buffer) :
    (machineDecoder variant view blockLength).Realises s
      (ExtendedBlock.decoder variant view blockLength) := by
  have hfits := (BlockLoop.counts_start blockLength).remaining_lt
  refine Realises.bind (BlockLoop.realises_loop hfits) ?_
  rintro (records | records) s' -
  · exact realises_pure _ s'
  · exact realises_pure _ s'

end FingerMinutiae
