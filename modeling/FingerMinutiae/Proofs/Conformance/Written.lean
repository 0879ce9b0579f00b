import FingerMinutiae.Proofs.Conformance.Conforms
import FingerMinutiae.Proofs.Encoding.AsWritten
import FingerMinutiae.Proofs.RecordLength

/-!
# Conforming records are written as they are

The writer puts down lengths and counts as they are declared, and the reader goes by them. So a
record that was built and not read is only read back if what it declares is right. Of most of what
steers the reader this is checked: the length of the record and of the blocks, the counts, the
angles, and that nothing is cut short. What does not fit its bits cannot be written.

Two things are not checked. A record of extended data may declare a length that its data does not
have, and it may keep data as it is under a type that has a reading. Nor is anything checked of
fields that are not written. So a conforming record is read back, if its extended data declares what
it takes, and it is read back as it is written.

## Main definitions

* `ExtendedRecord.Declares`, `Record.Declares`: extended data that declares what it takes.

## Main results

* `Record.Conforms.wellFormed_asWritten`: a conforming record is well formed as it is written.
* `Record.decode_encode_of_conforms`: it is read back as it is written.
* `Record.not_forall_decode_encode_same`: and not always as it is.
-/

namespace FingerMinutiae

open Layout

/-! ### What is not checked -/

/-- Data that is kept as it is has a type without a reading of its own. -/
def Payload.IsTyped : Payload → Prop
  | raw typeId _ => typeId ≠ ridgeCountsType ∧ typeId ≠ landmarksType
  | ridgeCounts _ | landmarks _ => True

instance : (p : Payload) → Decidable p.IsTyped
  | .raw typeId _ =>
    inferInstanceAs (Decidable (typeId ≠ Payload.ridgeCountsType ∧ typeId ≠ Payload.landmarksType))
  | .ridgeCounts _ | .landmarks _ => inferInstanceAs (Decidable True)

/-- A record of extended data declares the type and the length of its data. -/
@[mk_iff]
structure ExtendedRecord.Declares (variant : Variant) (d : ExtendedRecord) : Prop where
  length : d.length.toNat = headerLength + d.payloadLength variant
  payload : d.payload.IsTyped

instance (variant : Variant) (d : ExtendedRecord) : Decidable (d.Declares variant) :=
  decidable_of_iff _ (ExtendedRecord.declares_iff variant d).symm

/-- All extended data of a record declares what it takes. -/
def Record.Declares (r : Record) : Prop :=
  ∀ v ∈ r.views, ∀ b ∈ v.extended, ∀ d ∈ b.records, d.Declares r.variant

instance (r : Record) : Decidable r.Declares :=
  inferInstanceAs
    (Decidable (∀ v ∈ r.views, ∀ b ∈ v.extended, ∀ d ∈ b.records, d.Declares r.variant))

/-- What a view has in it: its header, its minutiae and its records of extended data. -/
def FingerView.contents (v : FingerView) : ViewHeader × List Minutia × List ExtendedRecord :=
  (v.toViewHeader, v.minutiae, v.extended.elim [] fun b => b.records)

/-! ### Extended data -/

theorem kindWellFormed_writtenKind {variant : Variant} {listKind : UInt8}
    (h : variant.isIsoFamily = false → listKind.toNat < 2 ^ 2) :
    Landmarks.KindWellFormed variant (writtenKind variant listKind) := by
  cases hiso : variant.isIsoFamily <;> simp_all [Landmarks.KindWellFormed, writtenKind]

/-- A landmark as it is written is within its bits if its position is, and its type under ISO. -/
theorem Landmark.wellFormed_ofList {variant : Variant} {listKind : UInt8} {l : Landmark}
    (hlist : variant.isIsoFamily = false → listKind.toNat < 2 ^ 2)
    (hfits : ((landmark variant).piece l).Fits) :
    (l.ofList variant listKind).WellFormed variant (writtenKind variant listKind) := by
  obtain ⟨hx, hy, hkind⟩ := fits_landmark_iff.mp hfits
  refine ⟨?_, hx, hy, fun hansi => ?_⟩
  · cases hiso : variant.isIsoFamily with
    | true => simpa [ofList, hiso] using hkind hiso
    | false => simpa [ofList, hiso] using hlist hiso
  · simp [ofList, writtenKind, hansi]

section Extended

variable {r : Record}

theorem Landmarks.Conforms.wellFormed_asWritten {b : Landmarks} (h : b.Conforms r)
    (hfits : Piece.AllFit (b.pieces r.variant)) :
    (b.asWritten r.variant).WellFormed r.variant := by
  obtain ⟨hcoresInfo, hcores, hdeltasInfo, hdeltas⟩ := allFit_pieces_iff.mp hfits
  obtain ⟨hnumCores, hcoreType⟩ := fits_landmarkInfo_iff.mp hcoresInfo
  obtain ⟨hnumDeltas, hdeltaType⟩ := fits_landmarkInfo_iff.mp hdeltasInfo
  exact {
    numCores := by
      rw [Landmarks.asWritten, List.length_map]
      exact h.numCores
    cores_length := by
      rw [Landmarks.asWritten, List.length_map, ← h.numCores]
      exact hnumCores
    coreType := kindWellFormed_writtenKind hcoreType
    cores := List.forall_mem_map.mpr fun c hc => Landmark.wellFormed_ofList hcoreType (hcores c hc)
    core_angle := List.forall_mem_map.mpr fun c hc => by
      rw [coreIsAngular_asWritten]
      exact (h.cores c hc).angle_isSome
    numDeltas := by
      rw [Landmarks.asWritten, List.length_map]
      exact h.numDeltas
    deltas_length := by
      rw [Landmarks.asWritten, List.length_map, ← h.numDeltas]
      exact hnumDeltas
    deltaType := kindWellFormed_writtenKind hdeltaType
    deltas := List.forall_mem_map.mpr fun d hd =>
      Landmark.wellFormed_ofList hdeltaType (hdeltas d hd)
    delta_angles := List.forall_mem_map.mpr fun d hd => by
      rw [deltaIsAngular_asWritten]
      exact (h.deltas d hd).angles_isSome }

theorem ExtendedRecord.Declares.wellFormed_asWritten {d : ExtendedRecord} {minutiae : UInt8}
    (h : d.Declares r.variant) (hwhole : d.truncated = false)
    (hconforms : d.payload.Conforms r minutiae) (hfits : Piece.AllFit (d.pieces r.variant)) :
    (d.asWritten r.variant).WellFormed r.variant where
  whole := hwhole
  length := by
    rw [payloadLength, ExtendedRecord.asWritten, Payload.encodedLength_asWritten]
    exact h.length
  payload := by
    obtain ⟨length, payload, truncated⟩ := d
    cases payload with
    | ridgeCounts b => trivial
    | landmarks b =>
      exact Landmarks.Conforms.wellFormed_asWritten hconforms (allFit_pieces_iff.mp hfits)
    | raw typeId data => exact h.payload

/-- A conforming block has records of its length, and so at least one if that is not zero. -/
theorem ExtendedBlock.Conforms.wellFormed_asWritten {b : ExtendedBlock} {minutiae : UInt8}
    (h : b.Conforms r minutiae) (hlength : b.blockLength ≠ 0)
    (hdeclares : ∀ d ∈ b.records, d.Declares r.variant)
    (hfits : Piece.AllFit (b.pieces r.variant)) :
    (b.asWritten r.variant).WellFormed r.variant where
  whole := h.whole
  length := by
    rw [recordsLength_asWritten]
    exact h.blockLength
  nonempty := by
    rw [recordsLength_asWritten, ← h.blockLength]
    exact Nat.pos_of_ne_zero fun hzero => hlength (UInt16.toNat_inj.mp hzero)
  records := List.forall_mem_map.mpr fun d hd =>
    have hd' := h.records d hd
    (hdeclares d hd).wellFormed_asWritten hd'.1 hd'.2 (allFit_pieces_iff.mp hfits d hd)

/-- A block of length zero has no record, since a record declares its own header. -/
theorem ExtendedBlock.Conforms.records_eq_nil {b : ExtendedBlock} {minutiae : UInt8}
    (h : b.Conforms r minutiae) (hlength : b.blockLength = 0)
    (hdeclares : ∀ d ∈ b.records, d.Declares r.variant) : b.records = [] := by
  have hzero : b.recordsLength = 0 := by
    rw [← h.blockLength, hlength]
    rfl
  cases hrecords : b.records with
  | nil => rfl
  | cons d ds =>
    have hd := (hdeclares d (by simp [hrecords])).length
    rw [ExtendedBlock.recordsLength, hrecords, List.map_cons, List.sum_cons, hd,
      ExtendedRecord.headerLength] at hzero
    omega

/-! ### Views and records -/

theorem FingerView.Conforms.wellFormed_asWritten {v : FingerView}
    (hheader : r.variant.hasHeader = true) (h : v.Conforms r)
    (hdeclares : ∀ b ∈ v.extended, ∀ d ∈ b.records, d.Declares r.variant)
    (hfits : Piece.AllFit (v.pieces r.variant)) :
    (v.asWritten r.variant).WellFormed r.variant := by
  obtain ⟨hviewHeader, hminutiae, hextended⟩ := allFit_pieces_iff.mp hfits
  exact {
    whole := h.whole
    header := hviewHeader
    numMinutiae := h.numMinutiae
    minutiae := fun m hm => (fits_minutia_iff hheader).mp (hminutiae m hm)
    extended := fun w hw => by
      obtain ⟨b, hb, hlength, rfl⟩ := mem_extended_asWritten.mp hw
      exact (h.extended b hb).wellFormed_asWritten hlength (hdeclares b hb) (hextended b hb) }

end Extended

namespace Record

variable {r : Record} {profile : Profile} {bytes : Bytes}

/-- A conforming record that can be written is well formed as it is written, if its extended data
declares what it takes. -/
theorem Conforms.wellFormed_asWritten (hheader : r.variant.hasHeader = true)
    (h : r.Conforms profile) (hdeclares : r.Declares) (hfits : HeadedFits r.variant r) :
    r.asWritten.HeadedWellFormed where
  product := fun hansi => if_neg hansi
  capture := by
    have hcapture := allFit_headerPieces_iff.mp hfits.header
    exact hcapture
  numViews := by
    rw [Record.asWritten, List.length_map]
    exact h.numViews
  views := List.forall_mem_map.mpr fun v hv =>
    FingerView.Conforms.wellFormed_asWritten (r := r) hheader (h.views v hv) (hdeclares v hv)
      (hfits.views v hv)

/-- **A conforming record is read back as it is written.** Behind the check and the writer only the
extended data can be at fault: where it declares what it takes, the bytes are as many as the record
declares, and what is read from them is the record but for the fields that are not written. -/
theorem decode_encode_of_conforms (hheader : r.variant.hasHeader = true)
    (hpasses : r.violations profile = []) (hdeclares : r.Declares)
    (hencode : r.encode = .ok bytes) :
    bytes.length = r.recordLength.toNat ∧
      decode r.variant bytes = .ok (.complete r.asWritten) := by
  have hconforms := conforms_of_violations hpasses
  have hfits := ((encode_eq_ok_iff_headedFits hheader).mp hencode).1
  have hwell := hconforms.wellFormed_asWritten hheader hdeclares hfits
  have hlength : r.asWritten.recordLength.toNat = r.asWritten.computedLength := by
    rw [computedLength_asWritten]
    exact hconforms.recordLength
  have hsame : r.asWritten.encode = r.encode := encode_asWritten hheader fun v hv b hb hzero =>
    ((hconforms.views v hv).extended b hb).records_eq_nil hzero (hdeclares v hv b hb)
  obtain ⟨written, hwritten, hwrittenLength, hdecode⟩ :=
    hwell.encode_of_recordLength hheader hlength
  rw [hsame, hencode, Except.ok.injEq] at hwritten
  subst hwritten
  exact ⟨hwrittenLength, hdecode⟩

/-- A conforming ANSI record of one view, in which a core has a type that its list does not have. -/
def strayTypeRecord : Record :=
  withComputedLength {
    variant := .ansi
    formatId := .finger
    specVersion := .version20
    productOwner := 259
    xImageSize := 400
    yImageSize := 500
    xResolution := 197
    yResolution := 197
    numViews := 1
    views := [{
      position := 1
      quality := 80
      extended := some {
        blockLength := 10
        records := [{
          length := 10
          payload := .landmarks {
            numCores := 1
            cores := [{ kind := 1, x := 10, y := 10 }] } }] } }] }

theorem decode_encode_of_conforms_strayTypeRecord :
    ∃ bytes, strayTypeRecord.encode = .ok bytes ∧
      bytes.length = strayTypeRecord.recordLength.toNat ∧
      decode .ansi bytes = .ok (.complete strayTypeRecord.asWritten) := by
  have hpasses : strayTypeRecord.violations .full = [] := by decide
  have hdeclares : strayTypeRecord.Declares := by decide
  obtain ⟨bytes, hencode⟩ : ∃ bytes, strayTypeRecord.encode = .ok bytes := ⟨_, by rfl⟩
  exact ⟨bytes, hencode, decode_encode_of_conforms rfl hpasses hdeclares hencode⟩

/-- Not every conforming record that can be written is read back with all that it has in it. -/
theorem not_forall_decode_encode_same : ¬ ∀ (r : Record) (bytes : Bytes),
    r.variant.hasHeader = true → r.violations .full = [] → r.encode = .ok bytes →
      bytes.length = r.recordLength.toNat ∧ ∃ s, decode r.variant bytes = .ok (.complete s) ∧
        { s with views := [] } = { r with views := [] } ∧
        s.views.map FingerView.contents = r.views.map FingerView.contents := by
  intro h
  have hwell : strayTypeRecord.asWritten.HeadedWellFormed := by decide
  have hlength : strayTypeRecord.asWritten.recordLength.toNat
      = strayTypeRecord.asWritten.computedLength := by decide
  obtain ⟨bytes, hencode, -, hread⟩ := hwell.encode_of_recordLength rfl hlength
  rw [encode_asWritten rfl (by decide)] at hencode
  obtain ⟨-, s, hread', -, hsame⟩ := h strayTypeRecord bytes rfl (by decide) hencode
  obtain rfl : s = strayTypeRecord.asWritten := by
    have heq := hread'.symm.trans hread
    cases heq
    rfl
  exact absurd hsame (by decide)

end Record

end FingerMinutiae
