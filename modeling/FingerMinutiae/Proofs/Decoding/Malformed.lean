import FingerMinutiae.Proofs.Decoding.Diagnosis
import FingerMinutiae.Proofs.Decoding.LastBlock

/-!
# Malformed records

A record with a header is refused for an extended data record, and the report names it by its place
and its offset. Both are right: the bytes in front of that offset are read as a record that stops
just there, in front of the extended data record with the index that is named, in the view that is
named. And the defect that is reported is the one that the extended data record has, given how many
bytes of the block the earlier ones have left.

## Main definitions

* `Record.StopsBefore`: a record that was read up to an extended data record.

## Main results

* `Record.decode_malformed`: what a report of a malformed record says of the bytes.
-/

namespace FingerMinutiae

open Decoder

/-- The block has the defect that its records have. -/
theorem ExtendedBlock.ends_recordsDecoder_of_defect {variant : Variant} {view : Nat}
    {blockLength : UInt16} {bytes : Bytes} {back : Nat} {place : Place} {defect : Defect}
    (h : (ExtendedBlock.decoder variant view blockLength).Ends bytes (.defect back place defect)) :
    (recordsDecoder variant view 0 blockLength.toNat []).Ends bytes
      (.defect back place defect) := by
  rcases h.bind_cases with ⟨_, _, ds, rfl, -, hlater⟩ | ⟨_, hds, ⟨⟩⟩
  · rcases ds with ds | ds
    · cases hlater
    · cases hlater
  · exact hds

/-- The block stops where its records do. -/
theorem ExtendedBlock.ends_decoder_of_short {variant : Variant} {view : Nat} {blockLength : UInt16}
    {bytes : Bytes} {ds : List ExtendedRecord}
    (h : (recordsDecoder variant view 0 blockLength.toNat []).Ends bytes
      (.short (.incomplete ds))) :
    (ExtendedBlock.decoder variant view blockLength).Ends bytes
      (.short (.incomplete { blockLength, records := ds, truncated := true })) :=
  h.bind_passes (.short rfl)

namespace Record

variable {variant : Variant} {bytes : Bytes}

/-- The record was read up to the extended data record at index `j` of the view at index `i`, of
which the block is `b` as far as it was read. Everything before that is whole. -/
structure StopsBefore (r : Record) (i j : Nat) (b : ExtendedBlock) : Prop where
  views : ∃ whole v, r.views = whole ++ [v] ∧ whole.length = i ∧
    (∀ w ∈ whole, w.truncated = false) ∧ v.truncated = true ∧ v.extended = some b
  length : b.records.length = j
  records : ∀ d ∈ b.records, d.truncated = false

/-- **Where a record has a defect.** It is in an extended data record, and everything before that is
whole. The defect is said to have begun as many bytes ago as are taken of the extended data record.
-/
theorem exists_stopsBefore_of_ends_defect (hheader : variant.hasHeader = true) {back : Nat}
    {place : Place} {defect : Defect}
    (h : (headedDecoder variant).Ends bytes (.defect back place defect)) :
    ∃ before after i j r b, bytes = before ++ after ∧ back = after.length ∧ place = .data i j ∧
      (headedDecoder variant).Ends before (.short (.incomplete r)) ∧ r.StopsBefore i j b ∧
      4 ≤ after.length ∧ b.recordsLength < b.blockLength.toNat ∧
      ∀ rest, ExtendedRecord.diagnosis? variant (b.blockLength.toNat - b.recordsLength)
        (after ++ rest) = some defect := by
  obtain ⟨front, later, r, left, draft, blockLength, _, rfl, hblock, he, ⟨⟩⟩ :=
    exists_reachesBlock_of_ends hheader h trivial
  obtain ⟨before, after, ds, rfl, rfl, hflaw⟩ :=
    ExtendedBlock.exists_flaw_of_ends_defect (ExtendedBlock.ends_recordsDecoder_of_defect he)
  let b : ExtendedBlock := { blockLength, records := ds, truncated := true }
  let v : FingerView := { draft with extended := some b, truncated := true }
  have hbefore := ExtendedBlock.ends_decoder_of_short hflaw.before_ends
  have hends := hblock.reaches.ends
    (hbefore.bind_passes (.short (withBlock_incomplete r left draft b)))
  refine ⟨front ++ before, after, r.views.length, ds.length, { r with views := r.views ++ [v] }, b,
    (List.append_assoc ..).symm, rfl, ?_, hends, ⟨⟨r.views, v, rfl, rfl, hblock.whole, rfl, rfl⟩,
      rfl, hflaw.whole⟩, hflaw.header, hflaw.room, hflaw.diagnosis⟩
  rw [hflaw.place_eq, Nat.zero_add]

/-- **Reports of malformed records.** The bytes in front of the offset that is reported are read as
a record that stops before the extended data record at the place that is reported, and the header
of that one is at the offset. Its defect is told from the bytes there and from what its block has
left. -/
theorem decode_malformed (hheader : variant.hasHeader = true) {offset : Nat} {place : Place}
    {defect : Defect} (h : decode variant bytes = .error (.malformed offset place defect)) :
    ∃ i j r b, place = .data i j ∧ decode variant (bytes.take offset) = .ok (.incomplete r) ∧
      r.StopsBefore i j b ∧ offset + 4 ≤ bytes.length ∧
      b.recordsLength < b.blockLength.toNat ∧
      ExtendedRecord.diagnosis? variant (b.blockLength.toNat - b.recordsLength) (bytes.drop offset)
        = some defect := by
  rw [decode, decoder_of_hasHeader hheader] at h
  rcases hrun : (headedDecoder variant).run (Buffer.ofBytes bytes) with ⟨answer, s⟩
  rw [hrun] at h
  cases h
  obtain ⟨front, back, place', defect', rfl, hends, herror⟩ :=
    Ensures.of_run_error (reads_headedDecoder variant) hrun
  cases herror
  obtain ⟨before, after, i, j, r, b, rfl, rfl, rfl, hbefore, hstops, hroom, hleft, hdiagnosis⟩ :=
    exists_stopsBefore_of_ends_defect hheader hends
  have hoffset : 0 + (before ++ after).length - after.length = before.length := by
    rw [Nat.zero_add, List.length_append, Nat.add_sub_cancel]
  rw [hoffset, List.append_assoc, List.take_left, List.drop_left]
  refine ⟨i, j, r, b, rfl, decode_of_ends_short hheader hbefore, hstops, ?_, hleft,
    hdiagnosis s.rest⟩
  simp only [List.length_append]
  omega

/-- The bytes of an ISO record of which the second view has ridge counts and then a core that takes
seven bytes where five are declared. -/
def overlongBytes : Bytes :=
  [0x46, 0x4d, 0x52, 0, 0x20, 0x32, 0x30, 0, 0, 0, 0, 53, 0, 0, 1, 0, 1, 0, 0, 197, 0, 197, 2, 0,
    1, 0, 80, 0, 0, 0, 1, 16, 80, 0, 0, 17, 0, 1, 0, 8, 1, 1, 2, 3, 0, 2, 0, 9, 1, 64, 5, 0, 6, 7,
    0]

theorem decode_malformed_overlongBytes :
    decode .iso overlongBytes = .error (.malformed 44 (.data 1 1) (.landmarksLength 5 7)) ∧
      ∃ r b, decode .iso (overlongBytes.take 44) = .ok (.incomplete r) ∧ r.StopsBefore 1 1 b ∧
        ExtendedRecord.diagnosis? .iso (b.blockLength.toNat - b.recordsLength)
          (overlongBytes.drop 44) = some (.landmarksLength 5 7) := by
  have hfailure : failure? (decode .iso overlongBytes)
      = some (.malformed 44 (.data 1 1) (.landmarksLength 5 7)) := by decide +kernel
  have hdecode := failure?_eq_some_iff.mp hfailure
  obtain ⟨i, j, r, b, hplace, hbefore, hstops, -, -, hdiagnosis⟩ :=
    decode_malformed (rfl : Variant.iso.hasHeader = true) hdecode
  cases hplace
  exact ⟨hdecode, r, b, hbefore, hstops, hdiagnosis⟩

end Record

end FingerMinutiae
