import FingerMinutiae.Encoding.Write
import FingerMinutiae.Proofs.Wire.Layouts

/-!
# Records that can be written

A record can be written when every packed value of every piece fits; its bytes are then those of
the pieces in order. A well-formed record has only values that fit. The converse is false: a record
that was cut short is not well formed, and it can be written all the same.

## Main definitions

* `Piece.AllFit`, `Piece.allBytes`.

## Main results

* `Piece.emitAll_eq_ok_iff`, `Record.encode_eq_ok_iff`: when a record can be written, and as what.
* `Landmarks.allFit_pieces_iff`, `FingerView.allFit_pieces_iff`, `Record.allFit_headerPieces_iff`:
  when the pieces of a node fit.
* `FingerView.WellFormed.allFit`: what is well formed fits.
-/

namespace FingerMinutiae

open Layout

/-! ### Lists of pieces -/

namespace Piece

/-- Every packed value of every piece fits its field. -/
def AllFit (pieces : List Piece) : Prop :=
  ∀ p ∈ pieces, p.Fits

/-- The bytes of the pieces in order. -/
def allBytes (pieces : List Piece) : Bytes :=
  pieces.flatMap (·.bytes)

/-- Nothing is packed in bytes that are kept as they are. -/
theorem fits_plain (bytes : Bytes) : (plain bytes).Fits := by
  simp [Fits, plain]

@[simp] theorem allFit_nil : AllFit [] := by simp [AllFit]

@[simp] theorem allFit_cons {p : Piece} {ps : List Piece} :
    AllFit (p :: ps) ↔ p.Fits ∧ AllFit ps :=
  List.forall_mem_cons

@[simp] theorem allFit_append {ps qs : List Piece} : AllFit (ps ++ qs) ↔ AllFit ps ∧ AllFit qs :=
  List.forall_mem_append

theorem allFit_flatMap {α : Type} {as : List α} {f : α → List Piece} :
    AllFit (as.flatMap f) ↔ ∀ a ∈ as, AllFit (f a) := by
  simp only [AllFit, List.mem_flatMap]
  exact ⟨fun h a ha p hp => h p ⟨a, ha, hp⟩, fun h p ⟨a, ha, hp⟩ => h a ha p hp⟩

theorem allFit_map {α : Type} {as : List α} {f : α → Piece} :
    AllFit (as.map f) ↔ ∀ a ∈ as, (f a).Fits :=
  List.forall_mem_map

@[simp] theorem allBytes_nil : allBytes [] = [] := rfl

@[simp] theorem allBytes_cons (p : Piece) (ps : List Piece) :
    allBytes (p :: ps) = p.bytes ++ allBytes ps := rfl

@[simp] theorem allBytes_append (ps qs : List Piece) :
    allBytes (ps ++ qs) = allBytes ps ++ allBytes qs :=
  List.flatMap_append

theorem allBytes_flatMap {α : Type} (as : List α) (f : α → List Piece) :
    allBytes (as.flatMap f) = as.flatMap fun a => allBytes (f a) :=
  List.flatMap_assoc

theorem allBytes_map {α : Type} (as : List α) (f : α → Piece) :
    allBytes (as.map f) = as.flatMap fun a => (f a).bytes :=
  List.flatMap_map ..

theorem firstOverflow?_eq_none_iff {values : List FieldValue} :
    firstOverflow? values = none ↔ ∀ v ∈ values, v.Fits := by
  simp only [firstOverflow?, List.find?_eq_none, decide_eq_true_eq, Decidable.not_not]

/-- Pieces are written exactly when all of them fit. -/
theorem emitAll_eq_ok_iff {pieces : List Piece} {bytes : Bytes} :
    emitAll pieces = .ok bytes ↔ AllFit pieces ∧ bytes = allBytes pieces := by
  have hfit : firstOverflow? (pieces.flatMap (·.packed)) = none ↔ AllFit pieces := by
    rw [firstOverflow?_eq_none_iff]
    simp only [List.mem_flatMap]
    exact ⟨fun h p hp v hv => h v ⟨p, hp, hv⟩, fun h v ⟨p, hp, hv⟩ => h p hp v hv⟩
  rw [← hfit, emitAll]
  cases firstOverflow? (pieces.flatMap (·.packed)) with
  | none => simp [allBytes, eq_comm]
  | some v => simp

end Piece

open Piece

/-! ### Records -/

theorem Record.encode_eq_ok_iff {r : Record} {pieces : List Piece} (h : r.pieces = .ok pieces)
    {bytes : Bytes} : r.encode = .ok bytes ↔ AllFit pieces ∧ bytes = allBytes pieces := by
  have hencode : r.encode = (emitAll pieces).mapError .overflow := by rw [encode, h]
  rw [← emitAll_eq_ok_iff, hencode]
  cases emitAll pieces with
  | ok written =>
    show (.ok written : Except EncodeError Bytes) = .ok bytes ↔ _
    rw [Except.ok.injEq, Except.ok.injEq]
  | error =>
    constructor
    · rintro ⟨⟩
    · rintro ⟨⟩

theorem Record.pieces_of_hasHeader {r : Record} (h : r.variant.hasHeader = true) :
    r.pieces = .ok (r.headerPieces ++ r.views.flatMap (FingerView.pieces r.variant)) := by
  simp [pieces, Variant.isCard, h]

theorem Record.pieces_of_isCard {r : Record} {view : FingerView} (h : r.variant.isCard = true)
    (hview : r.views = [view]) :
    r.pieces = .ok (view.minutiae.map (minutia r.variant).piece) := by
  simp [pieces, h, hview]

/-! ### When nodes fit -/

/-- Of a core only the position words are packed. -/
theorem Landmarks.allFit_corePieces_iff {variant : Variant} {b : Landmarks} {c : Core} :
    AllFit (b.corePieces variant c) ↔ ((landmark variant).piece c.toLandmark).Fits := by
  have hangle : (byte.piece (c.angle.getD 0)).Fits := fits_of_packed_nil rfl
  rw [corePieces, allFit_cons]
  split <;> simp [hangle]

/-- Of a delta only the position words are packed. -/
theorem Landmarks.allFit_deltaPieces_iff {variant : Variant} {b : Landmarks} {d : Delta} :
    AllFit (b.deltaPieces variant d) ↔ ((landmark variant).piece d.toLandmark).Fits := by
  have hangles : (deltaAngles.piece (d.angles.getD {})).Fits := fits_of_packed_nil rfl
  rw [deltaPieces, allFit_cons]
  split <;> simp [hangles]

/-- The pieces fit exactly when the counts and the entries do, whether or not the lists are as long
as the counts say. -/
theorem Landmarks.allFit_pieces_iff {variant : Variant} {b : Landmarks} :
    AllFit (b.pieces variant) ↔
      ((coresInfo variant).piece ⟨b.coreType, b.numCores⟩).Fits ∧
      (∀ c ∈ b.cores, ((landmark variant).piece c.toLandmark).Fits) ∧
      ((deltasInfo variant).piece ⟨b.deltaType, b.numDeltas⟩).Fits ∧
      ∀ d ∈ b.deltas, ((landmark variant).piece d.toLandmark).Fits := by
  rw [pieces, allFit_append, allFit_cons, allFit_cons, allFit_flatMap, allFit_flatMap]
  simp only [allFit_corePieces_iff, allFit_deltaPieces_iff, and_assoc]

/-- Nothing is packed in ridge counts. -/
theorem RidgeCounts.allFit_pieces (b : RidgeCounts) : AllFit b.pieces :=
  allFit_cons.mpr ⟨fits_of_packed_nil rfl, allFit_map.mpr fun _ _ => fits_of_packed_nil rfl⟩

theorem ExtendedRecord.allFit_pieces_iff {variant : Variant} {d : ExtendedRecord} :
    AllFit (d.pieces variant) ↔ AllFit (d.payload.pieces variant) :=
  allFit_cons.trans (and_iff_right (fits_of_packed_nil rfl))

theorem ExtendedBlock.allFit_pieces_iff {variant : Variant} {b : ExtendedBlock} :
    AllFit (b.pieces variant) ↔ ∀ d ∈ b.records, AllFit (d.pieces variant) :=
  allFit_cons.trans ((and_iff_right (fits_of_packed_nil rfl)).trans allFit_flatMap)

/-- The pieces of a view fit exactly when those of its parts do. -/
theorem FingerView.allFit_pieces_iff {variant : Variant} {v : FingerView} :
    AllFit (v.pieces variant) ↔ v.toViewHeader.WellFormed ∧
      (∀ m ∈ v.minutiae, ((minutia variant).piece m).Fits) ∧
      ∀ b ∈ v.extended, AllFit (b.pieces variant) := by
  have hextended : AllFit (v.extended.elim [half.piece 0] (ExtendedBlock.pieces variant))
      ↔ ∀ b ∈ v.extended, AllFit (b.pieces variant) := by
    have hzero : (half.piece 0).Fits := fits_of_packed_nil rfl
    cases v.extended with
    | none => simp [hzero]
    | some b => simp
  rw [pieces, allFit_append, allFit_cons, fits_viewHeader_iff, allFit_map, hextended, and_assoc]

/-- Of a header only the capture details are packed. -/
theorem Record.allFit_headerPieces_iff {r : Record} :
    AllFit r.headerPieces ↔ r.toCapture.WellFormed := by
  have hid : (identification.piece r.toIdentification).Fits := fits_of_packed_nil rfl
  have hproduct : (product.piece r.toProduct).Fits := fits_of_packed_nil rfl
  have hlength : (word.piece r.recordLength).Fits := fits_of_packed_nil rfl
  rw [headerPieces]
  split <;> simp [hid, hproduct, hlength, fits_plain, fits_capture_iff]

/-! ### What is well formed fits -/

theorem Landmarks.allFit_pieces {variant : Variant} {b : Landmarks}
    (hcount : b.numCores.toNat < 2 ^ 4) (htype : KindWellFormed variant b.coreType)
    (hcores : ∀ c ∈ b.cores, c.toLandmark.WellFormed variant b.coreType)
    (hcount' : b.numDeltas.toNat < 2 ^ 6) (htype' : KindWellFormed variant b.deltaType)
    (hdeltas : ∀ d ∈ b.deltas, d.toLandmark.WellFormed variant b.deltaType) :
    AllFit (b.pieces variant) :=
  allFit_pieces_iff.mpr ⟨(lawful_coresInfo variant).fits _ ⟨htype, hcount⟩,
    fun c hc => (lawful_landmarkOf htype).fits c.toLandmark (hcores c hc),
    (lawful_deltasInfo variant).fits _ ⟨htype', hcount'⟩,
    fun d hd => (lawful_landmarkOf htype').fits d.toLandmark (hdeltas d hd)⟩

theorem Landmarks.WellFormed.allFit {variant : Variant} {b : Landmarks}
    (h : b.WellFormed variant) : AllFit (b.pieces variant) :=
  allFit_pieces (by rw [h.numCores]; exact h.cores_length) h.coreType h.cores
    (by rw [h.numDeltas]; exact h.deltas_length) h.deltaType h.deltas

theorem Payload.WellFormed.allFit {variant : Variant} {p : Payload} (h : p.WellFormed variant) :
    AllFit (p.pieces variant) := by
  cases p with
  | ridgeCounts b => exact b.allFit_pieces
  | landmarks b => exact Landmarks.WellFormed.allFit h
  | raw => exact allFit_cons.mpr ⟨fits_plain _, allFit_nil⟩

theorem ExtendedRecord.WellFormed.allFit {variant : Variant} {d : ExtendedRecord}
    (h : d.WellFormed variant) : AllFit (d.pieces variant) :=
  allFit_pieces_iff.mpr (Payload.WellFormed.allFit h.payload)

theorem ExtendedBlock.WellFormed.allFit {variant : Variant} {b : ExtendedBlock}
    (h : b.WellFormed variant) : AllFit (b.pieces variant) :=
  allFit_pieces_iff.mpr fun d hd => (h.records d hd).allFit

theorem FingerView.allFit_pieces {variant : Variant} {v : FingerView}
    (hheader : v.toViewHeader.WellFormed) (hminutiae : ∀ m ∈ v.minutiae, m.WellFormed variant)
    (hextended : ∀ b ∈ v.extended, AllFit (b.pieces variant)) : AllFit (v.pieces variant) :=
  allFit_pieces_iff.mpr
    ⟨hheader, fun m hm => (lawful_minutia variant).fits m (hminutiae m hm), hextended⟩

theorem FingerView.WellFormed.allFit {variant : Variant} {v : FingerView}
    (h : v.WellFormed variant) : AllFit (v.pieces variant) :=
  allFit_pieces h.header h.minutiae fun b hb => (h.extended b hb).allFit

end FingerMinutiae
