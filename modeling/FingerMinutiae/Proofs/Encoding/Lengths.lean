import FingerMinutiae.Proofs.Encoding.Spelling

/-!
# The bytes that a node takes

The lengths that are computed from a node are those of the bytes that spell it and of the bytes
that are written for it. For payloads this holds of any value; for the nodes above it rests on the
declared lengths being right, since it is these that are added up.

## Main definitions

* `Landmarks.coreLength`, `Landmarks.deltaLength`: the bytes of one entry.

## Main results

* `Payload.length_mask`, `ExtendedRecord.length_mask`, `FingerView.length_mask`.
* `Payload.length_allBytes_pieces`, `ExtendedBlock.length_allBytes_pieces`,
  `FingerView.length_allBytes_pieces`.
-/

namespace FingerMinutiae

open Layout

namespace Landmarks

/-- Bytes a core takes. -/
def coreLength (variant : Variant) (b : Landmarks) (c : Core) : Nat :=
  if b.coreIsAngular variant c then 5 else 4

/-- Bytes a delta takes. -/
def deltaLength (variant : Variant) (b : Landmarks) (d : Delta) : Nat :=
  if b.deltaIsAngular variant d then 7 else 4

theorem length_coreMask (variant : Variant) (b : Landmarks) (c : Core) :
    (b.coreMask variant c).length = b.coreLength variant c := by
  rw [coreMask, coreLength]
  cases b.coreIsAngular variant c <;> rfl

theorem length_deltaMask (variant : Variant) (b : Landmarks) (d : Delta) :
    (b.deltaMask variant d).length = b.deltaLength variant d := by
  rw [deltaMask, deltaLength]
  cases b.deltaIsAngular variant d <;> rfl

theorem length_mask (variant : Variant) (b : Landmarks) :
    (b.mask variant).length = b.encodedLength variant := by
  have hcores : (coresMask variant).length = 1 := rfl
  have hdeltas : (deltasMask variant).length = 1 := rfl
  simp only [mask, encodedLength, List.length_append, List.length_flatMap, length_coreMask,
    length_deltaMask, hcores, hdeltas, coreLength, deltaLength]
  omega

end Landmarks

theorem Payload.length_mask (variant : Variant) (p : Payload) :
    (p.mask variant).length = p.encodedLength variant := by
  cases p with
  | ridgeCounts b => exact length_allBits _
  | landmarks b => exact Landmarks.length_mask variant b
  | raw typeId data => exact length_allBits _

theorem ExtendedRecord.length_mask {variant : Variant} {d : ExtendedRecord}
    (h : d.WellFormed variant) : (d.mask variant).length = d.length.toNat := by
  rw [mask, List.length_append, length_allBits, Payload.length_mask, h.length, payloadLength]

theorem ExtendedBlock.length_mask {variant : Variant} {b : ExtendedBlock}
    (h : b.WellFormed variant) : (b.mask variant).length = 2 + b.blockLength.toNat := by
  have hrecords : b.records.map (fun d => (d.mask variant).length)
      = b.records.map fun d => d.length.toNat :=
    List.map_congr_left fun d hd => ExtendedRecord.length_mask (h.records d hd)
  rw [mask, List.length_append, length_allBits, List.length_flatMap, hrecords, h.length,
    recordsLength]

theorem FingerView.length_mask {variant : Variant} {v : FingerView}
    (hheader : variant.hasHeader = true) (h : v.WellFormed variant) :
    (v.mask variant).length = v.encodedLength variant := by
  rw [mask, encodedLength, if_neg (Variant.not_isCard_of_hasHeader hheader), List.length_append,
    List.length_append, length_allBits, flatMap_allBits, length_allBits,
    Nat.mul_comm variant.minutiaLength, frameLength]
  cases hv : v.extended with
  | none =>
    simp only [Option.elim_none, length_allBits]
    omega
  | some b =>
    simp only [Option.elim_some, ExtendedBlock.length_mask (h.extended b hv)]
    omega

/-! ### Written bytes -/

theorem Landmarks.length_allBytes_corePieces (variant : Variant) (b : Landmarks) (c : Core) :
    (Piece.allBytes (b.corePieces variant c)).length = b.coreLength variant c := by
  rw [corePieces, coreLength]
  cases b.coreIsAngular variant c <;> rfl

theorem Landmarks.length_allBytes_deltaPieces (variant : Variant) (b : Landmarks) (d : Delta) :
    (Piece.allBytes (b.deltaPieces variant d)).length = b.deltaLength variant d := by
  rw [deltaPieces, deltaLength]
  cases b.deltaIsAngular variant d <;> rfl

theorem Landmarks.length_allBytes_pieces (variant : Variant) (b : Landmarks) :
    (Piece.allBytes (b.pieces variant)).length = b.encodedLength variant := by
  have hcores : ((coresInfo variant).piece ⟨b.coreType, b.numCores⟩).bytes.length = 1 := rfl
  have hdeltas : ((deltasInfo variant).piece ⟨b.deltaType, b.numDeltas⟩).bytes.length = 1 := rfl
  simp only [pieces, encodedLength, Piece.allBytes_append, Piece.allBytes_cons,
    Piece.allBytes_flatMap, List.length_append, List.length_flatMap, length_allBytes_corePieces,
    length_allBytes_deltaPieces, hcores, hdeltas, coreLength, deltaLength]
  omega

/-- A payload is written in as many bytes as are computed for it, whatever it declares. -/
theorem Payload.length_allBytes_pieces (variant : Variant) (p : Payload) :
    (Piece.allBytes (p.pieces variant)).length = p.encodedLength variant := by
  cases p with
  | ridgeCounts b =>
    have hmethod : (byte.piece b.method).bytes.length = 1 := rfl
    rw [pieces, RidgeCounts.pieces, Piece.allBytes_cons, Piece.allBytes_map, List.length_append,
      hmethod]
    have hcounts := lawful_ridgeCount.length_flatMap_bytes b.counts
    rw [encodedLength, Nat.mul_comm]
    exact congrArg (1 + ·) hcounts
  | landmarks b => exact b.length_allBytes_pieces variant
  | raw typeId data => simp [pieces, Piece.plain, encodedLength]

theorem ExtendedRecord.length_allBytes_pieces (variant : Variant) (d : ExtendedRecord) :
    (Piece.allBytes (d.pieces variant)).length = headerLength + d.payloadLength variant := by
  have hheader : (dataHeader.piece ⟨d.typeId, d.length⟩).bytes.length = headerLength := rfl
  rw [pieces, Piece.allBytes_cons, List.length_append, hheader, Payload.length_allBytes_pieces,
    payloadLength]

theorem ExtendedBlock.length_allBytes_pieces (variant : Variant) (b : ExtendedBlock) :
    (Piece.allBytes (b.pieces variant)).length
      = 2 + (b.records.map fun d =>
          ExtendedRecord.headerLength + d.payloadLength variant).sum := by
  have hlength : (half.piece b.blockLength).bytes.length = 2 := rfl
  rw [pieces, Piece.allBytes_cons, List.length_append, hlength, Piece.allBytes_flatMap,
    List.length_flatMap]
  simp only [ExtendedRecord.length_allBytes_pieces]

/-- A view of a record with a header is written in as many bytes as are computed for it, if its
block declares what its records take. -/
theorem FingerView.length_allBytes_pieces {variant : Variant} {v : FingerView}
    (hheader : variant.hasHeader = true) (h : ∀ b ∈ v.extended, b.blockLength.toNat
      = (b.records.map fun d => ExtendedRecord.headerLength + d.payloadLength variant).sum) :
    (Piece.allBytes (v.pieces variant)).length = v.encodedLength variant := by
  have hframe : (viewHeader.piece v.toViewHeader).bytes.length = 4 := rfl
  have hminutiae : (v.minutiae.flatMap fun m => ((minutia variant).piece m).bytes).length
      = v.minutiae.length * variant.minutiaLength := by
    rw [← width_minutia]
    exact (lawful_minutia variant).length_flatMap_bytes v.minutiae
  rw [pieces, Piece.allBytes_append, Piece.allBytes_cons, Piece.allBytes_map, List.length_append,
    List.length_append, hframe, hminutiae, encodedLength,
    if_neg (Variant.not_isCard_of_hasHeader hheader), frameLength]
  cases hv : v.extended with
  | none =>
    have hzero : (Piece.allBytes [half.piece 0]).length = 2 := rfl
    rw [Option.elim_none, Option.elim_none, hzero]
    omega
  | some b =>
    rw [Option.elim_some, Option.elim_some, ExtendedBlock.length_allBytes_pieces, h b hv]
    omega

end FingerMinutiae
