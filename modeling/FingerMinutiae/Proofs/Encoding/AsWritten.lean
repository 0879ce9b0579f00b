import FingerMinutiae.Proofs.Encoding.Lengths

/-!
# A record as it is written

A record has fields for which its variant has no place. Under ANSI a core or a delta has no type of
its own, and under ISO neither its list nor the product has one. A block of length zero stands for
no block. Such fields may hold anything when a record is built, and what they hold is not written.

Here they are brought to what the bytes say about them. The record as it is written is written like
the record itself, and it takes as many bytes by the lengths that are computed.

## Main definitions

* `Landmarks.asWritten`, `ExtendedBlock.asWritten`, `FingerView.asWritten`, `Record.asWritten`.

## Main results

* `Record.encode_asWritten`: the bytes are the same.
* `Record.computedLength_asWritten`: so is the length.
* `Record.HeadedWellFormed.asWritten_eq`: a record that some bytes may be is left as it is.
-/

namespace FingerMinutiae

open Layout

/-! ### Cores and deltas -/

/-- Of the type of a landmark ANSI writes nothing. -/
theorem piece_landmark_ofList (variant : Variant) (listKind : UInt8) (l : Landmark) :
    (landmark variant).piece (l.ofList variant listKind) = (landmark variant).piece l := by
  cases hiso : variant.isIsoFamily <;> simp [piece, landmark, Landmark.ofList, hiso]

theorem Landmark.WellFormed.ofList_eq {variant : Variant} {listKind : UInt8} {l : Landmark}
    (h : l.WellFormed variant listKind) : l.ofList variant listKind = l := by
  rw [ofList]
  cases hiso : variant.isIsoFamily with
  | true => rfl
  | false => rw [if_neg Bool.false_ne_true, ← h.of_list hiso]

/-- The type of a list that is written: under ISO it has none. -/
def writtenKind (variant : Variant) (listKind : UInt8) : UInt8 :=
  if variant.isIsoFamily then 0 else listKind

theorem writtenKind_eq {variant : Variant} {listKind : UInt8}
    (h : Landmarks.KindWellFormed variant listKind) : writtenKind variant listKind = listKind := by
  cases hiso : variant.isIsoFamily <;> simp_all [writtenKind, Landmarks.KindWellFormed]

theorem piece_landmarkInfo_writtenKind (countField typeField : Field) (countBits : Nat)
    (variant : Variant) (listKind count : UInt8) :
    (landmarkInfo countField typeField countBits variant).piece
        ⟨writtenKind variant listKind, count⟩
      = (landmarkInfo countField typeField countBits variant).piece ⟨listKind, count⟩ := by
  cases hiso : variant.isIsoFamily <;> simp [piece, landmarkInfo, writtenKind, hiso]

namespace Landmarks

variable (variant : Variant) (b : Landmarks)

/-- A core with the type that is written for it. -/
def coreAsWritten (c : Core) : Core :=
  { c with toLandmark := c.toLandmark.ofList variant b.coreType }

/-- A delta with the type that is written for it. -/
def deltaAsWritten (d : Delta) : Delta :=
  { d with toLandmark := d.toLandmark.ofList variant b.deltaType }

/-- Cores and deltas with the types that are written. -/
def asWritten : Landmarks :=
  { b with
    coreType := writtenKind variant b.coreType
    cores := b.cores.map (b.coreAsWritten variant)
    deltaType := writtenKind variant b.deltaType
    deltas := b.deltas.map (b.deltaAsWritten variant) }

theorem coreIsAngular_asWritten (c : Core) :
    (b.asWritten variant).coreIsAngular variant (b.coreAsWritten variant c)
      = b.coreIsAngular variant c := by
  rw [coreIsAngular, coreIsAngular, coreKind, coreKind]
  cases hiso : variant.isIsoFamily <;>
    simp [asWritten, coreAsWritten, writtenKind, Landmark.ofList, hiso]

theorem deltaIsAngular_asWritten (d : Delta) :
    (b.asWritten variant).deltaIsAngular variant (b.deltaAsWritten variant d)
      = b.deltaIsAngular variant d := by
  rw [deltaIsAngular, deltaIsAngular, deltaKind, deltaKind]
  cases hiso : variant.isIsoFamily <;>
    simp [asWritten, deltaAsWritten, writtenKind, Landmark.ofList, hiso]

theorem corePieces_asWritten (c : Core) :
    (b.asWritten variant).corePieces variant (b.coreAsWritten variant c)
      = b.corePieces variant c := by
  rw [corePieces, corePieces, coreIsAngular_asWritten, coreAsWritten, piece_landmark_ofList]

theorem deltaPieces_asWritten (d : Delta) :
    (b.asWritten variant).deltaPieces variant (b.deltaAsWritten variant d)
      = b.deltaPieces variant d := by
  rw [deltaPieces, deltaPieces, deltaIsAngular_asWritten, deltaAsWritten, piece_landmark_ofList]

/-- The landmarks are written as before: the types that are changed are the ones that are left
out. -/
theorem pieces_asWritten : (b.asWritten variant).pieces variant = b.pieces variant := by
  have hcores : (b.asWritten variant).cores = b.cores.map (b.coreAsWritten variant) := rfl
  have hdeltas : (b.asWritten variant).deltas = b.deltas.map (b.deltaAsWritten variant) := rfl
  have hcoresInfo : (coresInfo variant).piece
        ⟨(b.asWritten variant).coreType, (b.asWritten variant).numCores⟩
      = (coresInfo variant).piece ⟨b.coreType, b.numCores⟩ := piece_landmarkInfo_writtenKind ..
  have hdeltasInfo : (deltasInfo variant).piece
        ⟨(b.asWritten variant).deltaType, (b.asWritten variant).numDeltas⟩
      = (deltasInfo variant).piece ⟨b.deltaType, b.numDeltas⟩ := piece_landmarkInfo_writtenKind ..
  simp only [pieces, hcores, hdeltas, List.flatMap_map, corePieces_asWritten,
    deltaPieces_asWritten, hcoresInfo, hdeltasInfo]

theorem encodedLength_asWritten :
    (b.asWritten variant).encodedLength variant = b.encodedLength variant := by
  rw [← length_allBytes_pieces, pieces_asWritten, length_allBytes_pieces]

end Landmarks

/-! ### Records and blocks of extended data -/

/-- Data with the types of its cores and deltas as they are written. -/
def Payload.asWritten (variant : Variant) : Payload → Payload
  | landmarks b => landmarks (b.asWritten variant)
  | ridgeCounts b => ridgeCounts b
  | raw typeId data => raw typeId data

namespace Payload

variable (variant : Variant) (p : Payload)

theorem typeId_asWritten : (p.asWritten variant).typeId = p.typeId := by
  cases p <;> rfl

theorem pieces_asWritten : (p.asWritten variant).pieces variant = p.pieces variant := by
  cases p with
  | ridgeCounts b => rfl
  | landmarks b => exact b.pieces_asWritten variant
  | raw typeId data => rfl

theorem encodedLength_asWritten :
    (p.asWritten variant).encodedLength variant = p.encodedLength variant := by
  rw [← length_allBytes_pieces, pieces_asWritten, length_allBytes_pieces]

end Payload

/-- A record of extended data as it is written. -/
def ExtendedRecord.asWritten (variant : Variant) (d : ExtendedRecord) : ExtendedRecord :=
  { d with payload := d.payload.asWritten variant }

theorem ExtendedRecord.pieces_asWritten (variant : Variant) (d : ExtendedRecord) :
    (d.asWritten variant).pieces variant = d.pieces variant := by
  have htype : (d.asWritten variant).typeId = d.typeId := d.payload.typeId_asWritten variant
  have hpayload := d.payload.pieces_asWritten variant
  rw [pieces, pieces, htype]
  exact congrArg (_ :: ·) hpayload

/-- A block as it is written. -/
def ExtendedBlock.asWritten (variant : Variant) (b : ExtendedBlock) : ExtendedBlock :=
  { b with records := b.records.map (ExtendedRecord.asWritten variant) }

namespace ExtendedBlock

variable (variant : Variant) (b : ExtendedBlock)

theorem recordsLength_asWritten : (b.asWritten variant).recordsLength = b.recordsLength := by
  rw [recordsLength, recordsLength, asWritten, List.map_map]
  rfl

theorem pieces_asWritten : (b.asWritten variant).pieces variant = b.pieces variant := by
  have hrecords : (b.asWritten variant).records
      = b.records.map (ExtendedRecord.asWritten variant) := rfl
  rw [pieces, pieces, hrecords, List.flatMap_map]
  simp only [ExtendedRecord.pieces_asWritten]
  rfl

end ExtendedBlock

/-! ### Views and records -/

/-- A view as it is written: a block of length zero is none. -/
def FingerView.asWritten (variant : Variant) (v : FingerView) : FingerView :=
  { v with
    extended := (v.extended.filter fun b => b.blockLength != 0).map
      (ExtendedBlock.asWritten variant) }

namespace FingerView

variable {variant : Variant} {v : FingerView}

theorem extended_asWritten_of_none (h : v.extended = none) :
    (v.asWritten variant).extended = none := by
  simp [asWritten, h]

variable {b : ExtendedBlock}

theorem extended_asWritten_of_zero (h : v.extended = some b) (hzero : b.blockLength = 0) :
    (v.asWritten variant).extended = none := by
  simp [asWritten, h, Option.filter, hzero]

theorem extended_asWritten_of_ne_zero (h : v.extended = some b) (hzero : b.blockLength ≠ 0) :
    (v.asWritten variant).extended = some (b.asWritten variant) := by
  simp [asWritten, h, Option.filter, hzero]

theorem mem_extended_asWritten {w : ExtendedBlock} : w ∈ (v.asWritten variant).extended ↔
    ∃ b ∈ v.extended, b.blockLength ≠ 0 ∧ b.asWritten variant = w := by
  cases hv : v.extended with
  | none => simp [extended_asWritten_of_none hv]
  | some b =>
    by_cases hzero : b.blockLength = 0
    · simp [extended_asWritten_of_zero hv hzero, hzero]
    · simp [extended_asWritten_of_ne_zero hv hzero, hzero]

/-- The view is written as before if a block of length zero has no records. -/
theorem pieces_asWritten (h : ∀ b ∈ v.extended, b.blockLength = 0 → b.records = []) :
    (v.asWritten variant).pieces variant = v.pieces variant := by
  have hextended : (v.asWritten variant).extended.elim [half.piece 0] (ExtendedBlock.pieces variant)
      = v.extended.elim [half.piece 0] (ExtendedBlock.pieces variant) := by
    cases hv : v.extended with
    | none => rw [extended_asWritten_of_none hv]
    | some b =>
      by_cases hzero : b.blockLength = 0
      · rw [extended_asWritten_of_zero hv hzero, Option.elim_none, Option.elim_some,
          ExtendedBlock.pieces, hzero, h b hv hzero, List.flatMap_nil]
      · rw [extended_asWritten_of_ne_zero hv hzero, Option.elim_some, Option.elim_some,
          ExtendedBlock.pieces_asWritten]
  rw [pieces, pieces, hextended]
  rfl

theorem encodedLength_asWritten (v : FingerView) :
    (v.asWritten variant).encodedLength variant = v.encodedLength variant := by
  have hextended : ((v.asWritten variant).extended.elim 0 fun b => b.blockLength.toNat)
      = v.extended.elim 0 fun b => b.blockLength.toNat := by
    cases hv : v.extended with
    | none => rw [extended_asWritten_of_none hv]
    | some b =>
      by_cases hzero : b.blockLength = 0
      · rw [extended_asWritten_of_zero hv hzero, Option.elim_none, Option.elim_some, hzero]
        rfl
      · rw [extended_asWritten_of_ne_zero hv hzero]
        rfl
  rw [encodedLength, encodedLength, hextended]
  rfl

end FingerView

namespace Record

variable {r : Record}

/-- A record as it is written: only ANSI has a product. -/
def asWritten (r : Record) : Record :=
  { r with
    toProduct := if r.variant = .ansi then r.toProduct else {}
    views := r.views.map (FingerView.asWritten r.variant) }

theorem headerPieces_asWritten (r : Record) : r.asWritten.headerPieces = r.headerPieces := by
  have hvariant : r.asWritten.variant = r.variant := rfl
  rw [headerPieces, headerPieces, hvariant]
  by_cases hansi : r.variant = .ansi
  · simp [asWritten, hansi]
  · simp [asWritten, hansi]

/-- A record with a header and the record as it is written have the same bytes. -/
theorem encode_asWritten (hheader : r.variant.hasHeader = true)
    (h : ∀ v ∈ r.views, ∀ b ∈ v.extended, b.blockLength = 0 → b.records = []) :
    r.asWritten.encode = r.encode := by
  have hviews : r.asWritten.views.flatMap (FingerView.pieces r.variant)
      = r.views.flatMap (FingerView.pieces r.variant) := by
    rw [asWritten, List.flatMap_map, List.flatMap_def, List.flatMap_def]
    exact congrArg List.flatten
      (List.map_congr_left fun v hv => FingerView.pieces_asWritten (h v hv))
  have hpieces : r.asWritten.pieces = r.pieces := by
    rw [pieces_of_hasHeader hheader, pieces_of_hasHeader (r := r.asWritten) hheader,
      headerPieces_asWritten, ← hviews]
    rfl
  rw [encode, encode, hpieces]

theorem computedLength_asWritten (r : Record) : r.asWritten.computedLength = r.computedLength := by
  have hbody : r.asWritten.bodyLength = r.bodyLength := by
    rw [bodyLength, bodyLength, asWritten, List.map_map]
    exact congrArg List.sum (List.map_congr_left fun v _ => v.encodedLength_asWritten)
  rw [computedLength, computedLength, hbody]
  rfl

end Record

/-! ### Nothing to change -/

/-- A list that is changed item by item, and no item is. -/
theorem map_eq_self {α : Type} {f : α → α} {as : List α} (h : ∀ a ∈ as, f a = a) :
    as.map f = as :=
  (List.map_congr_left h).trans (List.map_id as)

section

variable {variant : Variant}

theorem Landmarks.WellFormed.asWritten_eq {b : Landmarks} (h : b.WellFormed variant) :
    b.asWritten variant = b := by
  have hcores : b.cores.map (b.coreAsWritten variant) = b.cores := map_eq_self fun c hc => by
    rw [coreAsWritten, (h.cores c hc).ofList_eq]
  have hdeltas : b.deltas.map (b.deltaAsWritten variant) = b.deltas := map_eq_self fun d hd => by
    rw [deltaAsWritten, (h.deltas d hd).ofList_eq]
  rw [asWritten, hcores, hdeltas, writtenKind_eq h.coreType, writtenKind_eq h.deltaType]

theorem ExtendedRecord.WellFormed.asWritten_eq {d : ExtendedRecord} (h : d.WellFormed variant) :
    d.asWritten variant = d := by
  obtain ⟨length, payload, truncated⟩ := d
  cases payload with
  | ridgeCounts b => rfl
  | landmarks b =>
    have hlandmarks : b.asWritten variant = b := Landmarks.WellFormed.asWritten_eq h.payload
    rw [asWritten, Payload.asWritten, hlandmarks]
  | raw typeId data => rfl

theorem ExtendedBlock.WellFormed.asWritten_eq {b : ExtendedBlock} (h : b.WellFormed variant) :
    b.asWritten variant = b := by
  rw [asWritten, map_eq_self fun d hd => (h.records d hd).asWritten_eq]

theorem FingerView.WellFormed.asWritten_eq {v : FingerView} (h : v.WellFormed variant) :
    v.asWritten variant = v := by
  have hextended : (v.asWritten variant).extended = v.extended := by
    cases hv : v.extended with
    | none => exact extended_asWritten_of_none hv
    | some b =>
      have hb := h.extended b hv
      have hzero : b.blockLength ≠ 0 := by
        intro hzero
        have hpositive := hb.nonempty
        rw [← hb.length, hzero] at hpositive
        exact absurd hpositive (by decide)
      rw [extended_asWritten_of_ne_zero hv hzero, hb.asWritten_eq]
  show { v with extended := (v.asWritten variant).extended } = v
  rw [hextended]

/-- What could be read from bytes is written as it is. -/
theorem Record.HeadedWellFormed.asWritten_eq {r : Record} (h : r.HeadedWellFormed) :
    r.asWritten = r := by
  have hproduct : (if r.variant = .ansi then r.toProduct else {}) = r.toProduct := by
    split
    · rfl
    · next hansi => exact (h.product hansi).symm
  rw [asWritten, map_eq_self fun v hv => (h.views v hv).asWritten_eq, hproduct]

end

end FingerMinutiae
