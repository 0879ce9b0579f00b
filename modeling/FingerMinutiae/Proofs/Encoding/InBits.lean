import FingerMinutiae.Proofs.Encoding.Fits

/-!
# Fields within their bits

Which values can be too wide for their fields depends on the variant: a variant without a field does
not look at its value. Here it is said field by field what has to be within how many bits for a
record to be written, and what happens otherwise. It is less than being well formed: counts and
lengths may be wrong, and fields that are not written may hold anything.

## Main definitions

* `Minutia.InBits`, `Landmark.InBits`, `Landmarks.InBits`, `Payload.InBits`, `FingerView.InBits`.
* `Record.InBits`: all fields that are written are within their bits.

## Main results

* `Record.allFit_iff_inBits`: the pieces of a record fit when its fields are within their bits.
* `Record.exists_encode_eq_overflow_iff`: writing reports a value that is too wide when one is.
-/

namespace FingerMinutiae

open Layout Piece

/-! ### Nodes -/

/-- The fields of a minutia of the compact card. It has neither quality nor reserved bits. -/
@[mk_iff]
structure Minutia.CompactInBits (m : Minutia) : Prop where
  x : m.x.toNat < 2 ^ 8
  y : m.y.toNat < 2 ^ 8
  kind : m.kind.toNat < 2 ^ 2
  angle : m.angle.toNat < 2 ^ 6

/-- The fields of a minutia that its variant packs are within their bits. -/
def Minutia.InBits (m : Minutia) : Variant → Prop
  | .ansi | .iso | .isoNormalCard => m.PositionFits
  | .isoCompactCard => m.CompactInBits

/-- The position of a landmark, and under ISO its type. -/
structure Landmark.InBits (variant : Variant) (l : Landmark) : Prop where
  x : l.x.toNat < 2 ^ 14
  y : l.y.toNat < 2 ^ 14
  kind : variant.isIsoFamily = true → l.kind.toNat < 2 ^ 2

/-- The counts of cores and deltas as they are declared, under ANSI the types of the two lists, and
the entries. -/
structure Landmarks.InBits (variant : Variant) (b : Landmarks) : Prop where
  numCores : b.numCores.toNat < 2 ^ 4
  coreType : variant.isIsoFamily = false → b.coreType.toNat < 2 ^ 2
  cores : ∀ c ∈ b.cores, c.toLandmark.InBits variant
  numDeltas : b.numDeltas.toNat < 2 ^ 6
  deltaType : variant.isIsoFamily = false → b.deltaType.toNat < 2 ^ 2
  deltas : ∀ d ∈ b.deltas, d.toLandmark.InBits variant

/-- Only the cores and deltas have fields that are packed. -/
def Payload.InBits (variant : Variant) : Payload → Prop
  | .ridgeCounts _ => True
  | .landmarks b => b.InBits variant
  | .raw _ _ => True

/-- The view number and the impression type, the minutiae, and the extended data. -/
structure FingerView.InBits (variant : Variant) (v : FingerView) : Prop where
  header : v.toViewHeader.WellFormed
  minutiae : ∀ m ∈ v.minutiae, m.InBits variant
  extended : ∀ b ∈ v.extended, ∀ d ∈ b.records, d.payload.InBits variant

/-- All fields of the record that are written are within their bits: of a card the minutiae of its
one view, of any other record the compliance flags, the scanner and the views. -/
def Record.InBits (r : Record) : Prop :=
  if r.variant.isCard then ∀ v, r.views = [v] → ∀ m ∈ v.minutiae, m.InBits r.variant
  else r.toCapture.WellFormed ∧ ∀ v ∈ r.views, v.InBits r.variant

/-! ### Pieces -/

theorem Minutia.inBits_iff_fits {variant : Variant} {m : Minutia} :
    m.InBits variant ↔ ((minutia variant).piece m).Fits := by
  cases variant with
  | ansi | iso | isoNormalCard => exact fits_positionWords_iff.symm
  | isoCompactCard =>
    show m.CompactInBits ↔ (compactMinutia.piece m).Fits
    simp [Piece.Fits, piece, compactMinutia, FieldValue.Fits, Minutia.compactInBits_iff]

theorem Landmark.inBits_iff_fits {variant : Variant} {l : Landmark} :
    l.InBits variant ↔ ((landmark variant).piece l).Fits :=
  ⟨fun h => fits_landmark_iff.mpr ⟨h.x, h.y, h.kind⟩, fun h =>
    have ⟨hx, hy, hkind⟩ := fits_landmark_iff.mp h
    ⟨hx, hy, hkind⟩⟩

theorem Landmarks.inBits_iff_allFit {variant : Variant} {b : Landmarks} :
    b.InBits variant ↔ AllFit (b.pieces variant) := by
  have hcores : ((coresInfo variant).piece ⟨b.coreType, b.numCores⟩).Fits ↔ _ :=
    fits_landmarkInfo_iff
  have hdeltas : ((deltasInfo variant).piece ⟨b.deltaType, b.numDeltas⟩).Fits ↔ _ :=
    fits_landmarkInfo_iff
  rw [allFit_pieces_iff, hcores, hdeltas]
  simp only [← Landmark.inBits_iff_fits]
  constructor
  · exact fun h =>
      ⟨⟨h.numCores, h.coreType⟩, h.cores, ⟨h.numDeltas, h.deltaType⟩, h.deltas⟩
  · exact fun ⟨⟨hcount, htype⟩, hlist, ⟨hcount', htype'⟩, hlist'⟩ =>
      ⟨hcount, htype, hlist, hcount', htype', hlist'⟩

theorem Payload.inBits_iff_allFit {variant : Variant} {p : Payload} :
    p.InBits variant ↔ AllFit (p.pieces variant) := by
  cases p with
  | ridgeCounts b => exact iff_of_true trivial b.allFit_pieces
  | landmarks b => exact Landmarks.inBits_iff_allFit
  | raw => exact iff_of_true trivial (allFit_cons.mpr ⟨fits_plain _, allFit_nil⟩)

theorem FingerView.inBits_iff_allFit {variant : Variant} {v : FingerView} :
    v.InBits variant ↔ AllFit (v.pieces variant) := by
  simp only [allFit_pieces_iff, ExtendedBlock.allFit_pieces_iff, ExtendedRecord.allFit_pieces_iff,
    ← Payload.inBits_iff_allFit, ← Minutia.inBits_iff_fits]
  exact ⟨fun h => ⟨h.header, h.minutiae, h.extended⟩, fun ⟨hheader, hminutiae, hextended⟩ =>
    ⟨hheader, hminutiae, hextended⟩⟩

/-! ### Records -/

namespace Record

variable {r : Record}

/-- A card can be written only if it has exactly one view. -/
theorem pieces_eq_error_iff {e : CardViewCount} : r.pieces = .error e ↔
    r.variant.isCard = true ∧ r.views.length ≠ 1 ∧ e = ⟨r.views.length⟩ := by
  rw [pieces]
  by_cases hcard : r.variant.isCard = true
  · rw [if_pos hcard]
    rcases hviews : r.views with _ | ⟨v, _ | ⟨v', vs⟩⟩ <;> simp [hcard, eq_comm]
  · simp [hcard]

/-- **Pieces fit when fields do.** -/
theorem allFit_iff_inBits {pieces : List Piece} (h : r.pieces = .ok pieces) :
    AllFit pieces ↔ r.InBits := by
  rw [InBits]
  by_cases hcard : r.variant.isCard = true
  · rw [if_pos hcard]
    have hone : r.views.length = 1 := Decidable.byContradiction fun hne => by
      cases h.symm.trans (pieces_eq_error_iff.mpr ⟨hcard, hne, rfl⟩)
    obtain ⟨v, hv⟩ := List.length_eq_one_iff.mp hone
    cases h.symm.trans (pieces_of_isCard hcard hv)
    rw [allFit_map, hv]
    simp only [← Minutia.inBits_iff_fits]
    constructor
    · intro hfit v' hv'
      cases hv'
      exact hfit
    · exact fun hbits => hbits v rfl
  · have hheader : r.variant.hasHeader = true := Variant.hasHeader_of_not_isCard hcard
    cases h.symm.trans (pieces_of_hasHeader hheader)
    rw [if_neg hcard, allFit_append, allFit_headerPieces_iff, allFit_flatMap]
    simp only [← FingerView.inBits_iff_allFit]

/-- **When a value is too wide.** Writing a record reports an overflow exactly when one of the
fields that are written is not within its bits. -/
theorem exists_encode_eq_overflow_iff :
    (∃ v, r.encode = .error (.overflow v)) ↔ ¬ r.InBits := by
  rcases hpieces : r.pieces with e | pieces
  · obtain ⟨hcard, hviews, -⟩ := pieces_eq_error_iff.mp hpieces
    have hencode : r.encode = .error (.cardViewCount e.found) := by rw [encode, hpieces]
    have hbits : r.InBits := by
      rw [InBits, if_pos hcard]
      intro v hv
      exact absurd (congrArg List.length hv) hviews
    rw [hencode]
    refine iff_of_false ?_ (not_not_intro hbits)
    rintro ⟨v, ⟨⟩⟩
  · have hencode : r.encode = (emitAll pieces).mapError .overflow := by rw [encode, hpieces]
    rw [← allFit_iff_inBits hpieces, hencode]
    rcases hall : emitAll pieces with v | bytes
    · refine iff_of_true ⟨v, rfl⟩ fun hfit => ?_
      cases hall.symm.trans (emitAll_eq_ok_iff.mpr ⟨hfit, rfl⟩)
    · refine iff_of_false ?_ (not_not_intro (emitAll_eq_ok_iff.mp hall).1)
      rintro ⟨v, ⟨⟩⟩

end Record

end FingerMinutiae
