import FingerMinutiae.Proofs.Decoding.RoundTrip
import FingerMinutiae.Proofs.Encoding.Lengths

/-!
# Extended data that is built

A record of extended data opens with its own length. When it is built around a payload, the length
is added up entry by entry; the writer puts down the entries one by one and adds nothing up; and the
reader checks the length against what it has used. Which entries have angles is asked in all three
places, each time of the types and never of the angles that are there.

What is written for a record of extended data is best seen on a record that is open at one block:
filled with one record less, it is written without just these bytes.

## Main definitions

* `OpenRecord`: a record that is open at the extended data of one view.
* `Payload.Consistent`: a payload is what it declares.
* `ExtendedRecord.Built`: a record was built around a consistent payload that can be written.

## Main results

* `OpenRecord.exists_own_of_encode`: the bytes of one record of extended data.
* `ExtendedRecord.ofPayload_eq_ok_iff`, `ExtendedRecord.ofPayload_eq_error_iff`: when a record is
  built.
* `Payload.Consistent.wellFormed`: consistent payloads that can be written.
* `OpenRecord.exists_encode_fill`: built records are read back.
* `ExtendedRecord.ofPayload_declares_size`: all of it together.
-/

namespace FingerMinutiae

open Layout Piece

/-! ### Open records -/

/-- A record that is open at the extended data of one view. -/
structure OpenRecord where
  /-- The record, but for its views. -/
  header : Record
  /-- The views before the open one. -/
  before : List FingerView
  /-- The open view, but for its extended data. -/
  view : FingerView
  /-- The block of the open view, but for its records. -/
  block : ExtendedBlock
  /-- The views behind the open one. -/
  after : List FingerView

namespace OpenRecord

variable (o : OpenRecord)

/-- The variant of the record. -/
def variant : Variant :=
  o.header.variant

/-- The block with these records of extended data. -/
def fillBlock (ds : List ExtendedRecord) : ExtendedBlock :=
  { o.block with records := ds }

/-- The record with these records of extended data. -/
def fill (ds : List ExtendedRecord) : Record :=
  { o.header with
    views := o.before ++ { o.view with extended := some (o.fillBlock ds) } :: o.after }

/-- The record without extended data in the open view. -/
def bare : Record :=
  { o.header with views := o.before ++ { o.view with extended := none } :: o.after }

/-- The pieces up to the records of extended data. -/
def frontPieces : List Piece :=
  o.header.headerPieces ++ o.before.flatMap (FingerView.pieces o.variant) ++
    viewHeader.piece o.view.toViewHeader :: o.view.minutiae.map (minutia o.variant).piece ++
    [half.piece o.block.blockLength]

/-- The pieces behind the records of extended data. -/
def backPieces : List Piece :=
  o.after.flatMap (FingerView.pieces o.variant)

variable {o}
variable {ds es : List ExtendedRecord} {d : ExtendedRecord} {bytes : Bytes}

/-- The records of extended data are written in a row, and nothing else depends on them. -/
theorem pieces_fill (hheader : o.variant.hasHeader = true) (ds : List ExtendedRecord) :
    (o.fill ds).pieces = .ok (o.frontPieces ++
      (ds.flatMap (ExtendedRecord.pieces o.variant) ++ o.backPieces)) := by
  have hheaderPieces : (o.fill ds).headerPieces = o.header.headerPieces := rfl
  have hview : FingerView.pieces o.variant { o.view with extended := some (o.fillBlock ds) }
      = viewHeader.piece o.view.toViewHeader :: o.view.minutiae.map (minutia o.variant).piece ++
        half.piece o.block.blockLength :: ds.flatMap (ExtendedRecord.pieces o.variant) := rfl
  rw [Record.pieces_of_hasHeader (r := o.fill ds) hheader, hheaderPieces, frontPieces, backPieces]
  show Except.ok (o.header.headerPieces ++
    (o.before ++ { o.view with extended := some (o.fillBlock ds) } :: o.after).flatMap
      (FingerView.pieces o.variant)) = _
  rw [List.flatMap_append, List.flatMap_cons, hview]
  simp only [List.append_assoc, List.cons_append, List.nil_append]

/-- What is written for one of the records can be cut out, and what is left is what is written
without the record. -/
theorem exists_own_of_encode (hheader : o.variant.hasHeader = true)
    (h : (o.fill (ds ++ d :: es)).encode = .ok bytes) :
    ∃ front own back, bytes = front ++ (own ++ back) ∧
      (o.fill (ds ++ es)).encode = .ok (front ++ back) ∧
      emitAll (d.pieces o.variant) = .ok own ∧
      own.length = ExtendedRecord.headerLength + d.payloadLength o.variant := by
  obtain ⟨hfits, hbytes⟩ := (Record.encode_eq_ok_iff (pieces_fill hheader _)).mp h
  simp only [List.flatMap_append, List.flatMap_cons, allFit_append, allBytes_append] at hfits hbytes
  obtain ⟨hfront, ⟨hds, hd, hes⟩, hback⟩ := hfits
  refine ⟨allBytes o.frontPieces ++ allBytes (ds.flatMap (ExtendedRecord.pieces o.variant)),
    allBytes (d.pieces o.variant),
    allBytes (es.flatMap (ExtendedRecord.pieces o.variant)) ++ allBytes o.backPieces, ?_, ?_,
    emitAll_eq_ok_iff.mpr ⟨hd, rfl⟩, d.length_allBytes_pieces o.variant⟩
  · simp only [hbytes, List.append_assoc]
  · refine (Record.encode_eq_ok_iff (pieces_fill hheader _)).mpr ⟨?_, ?_⟩
    · simp only [List.flatMap_append, allFit_append]
      exact ⟨hfront, ⟨hds, hes⟩, hback⟩
    · simp only [List.flatMap_append, allBytes_append, List.append_assoc]

end OpenRecord

/-! ### When a record is built -/

namespace ExtendedRecord

variable {p : Payload} {variant : Variant} {d : ExtendedRecord}

/-- A record is built when the length fits its field, and with this length. -/
theorem ofPayload_eq_ok_iff :
    ofPayload p variant = .ok d ↔
      d.payload = p ∧ d.truncated = false ∧
        d.length.toNat = headerLength + p.encodedLength variant := by
  rw [ofPayload]
  split
  · next hlt =>
    obtain ⟨length, payload, truncated⟩ := d
    rw [Except.ok.injEq, mk.injEq, ← UInt16.toNat_inj, UInt16.toNat_ofNat_of_lt' hlt]
    constructor
    · rintro ⟨hlength, rfl, rfl⟩
      exact ⟨rfl, rfl, hlength.symm⟩
    · rintro ⟨rfl, rfl, hlength⟩
      exact ⟨hlength.symm, rfl, rfl⟩
  · next hge =>
    refine iff_of_false nofun fun ⟨_, _, hlength⟩ => hge ?_
    rw [← hlength]
    exact d.length.toNat_lt

theorem ofPayload_eq_error_iff {e : FieldValue} :
    ofPayload p variant = .error e ↔
      65535 < headerLength + p.encodedLength variant ∧
        e = ⟨.extendedDataLength,
          min (headerLength + p.encodedLength variant) (2 ^ 32 - 1), 16⟩ := by
  rw [ofPayload]
  split
  · next hlt => exact iff_of_false nofun fun ⟨hgt, _⟩ => by omega
  · next hge =>
    have hgt : 65535 < headerLength + p.encodedLength variant := by omega
    rw [Except.error.injEq, eq_comm, and_iff_right hgt]

/-- The length fits or there is a report. -/
theorem exists_ofPayload_iff :
    (∃ d, ofPayload p variant = .ok d) ↔ headerLength + p.encodedLength variant ≤ 65535 := by
  cases hbuilt : ofPayload p variant with
  | ok d =>
    refine iff_of_true ⟨d, rfl⟩ ?_
    rw [← (ofPayload_eq_ok_iff.mp hbuilt).2.2]
    exact Nat.le_of_lt_succ d.length.toNat_lt
  | error e =>
    exact iff_of_false nofun (Nat.not_le.mpr (ofPayload_eq_error_iff.mp hbuilt).1)

end ExtendedRecord

/-! ### Consistent payloads -/

/-- Both lists are as long as declared, and an entry has angles exactly when its type is angular.
Under ANSI the type of an entry is that of its list; under ISO the types of the lists are zero. -/
structure Landmarks.Consistent (variant : Variant) (b : Landmarks) : Prop where
  numCores : b.numCores.toNat = b.cores.length
  coreType : variant.isIsoFamily = true → b.coreType = 0
  core_kind : variant.isIsoFamily = false → ∀ c ∈ b.cores, c.kind = b.coreType
  core_angle : ∀ c ∈ b.cores, c.angle.isSome = b.coreIsAngular variant c
  numDeltas : b.numDeltas.toNat = b.deltas.length
  deltaType : variant.isIsoFamily = true → b.deltaType = 0
  delta_kind : variant.isIsoFamily = false → ∀ d ∈ b.deltas, d.kind = b.deltaType
  delta_angles : ∀ d ∈ b.deltas, d.angles.isSome = b.deltaIsAngular variant d

/-- A payload is what it declares, and kept as it is only under a type without a reading of its
own. Whether its values fit their fields is not asked. -/
def Payload.Consistent (variant : Variant) : Payload → Prop
  | .ridgeCounts _ => True
  | .landmarks b => b.Consistent variant
  | .raw typeId _ => typeId ≠ ridgeCountsType ∧ typeId ≠ landmarksType

/-- The type of a list of landmarks is well formed if it can be written. -/
theorem Landmarks.kindWellFormed_of_fits {countField typeField : Field} {countBits : Nat}
    {variant : Variant} {i : LandmarkInfo}
    (h : ((landmarkInfo countField typeField countBits variant).piece i).Fits)
    (hzero : variant.isIsoFamily = true → i.kind = 0) : KindWellFormed variant i.kind := by
  rw [KindWellFormed]
  split
  · next hiso => exact hzero hiso
  · next hansi => exact (fits_landmarkInfo_iff.mp h).2 (by simpa using hansi)

/-- A landmark is well formed if it can be written; under ANSI its type goes by the list. -/
theorem Landmark.wellFormed_of_fits {variant : Variant} {listKind : UInt8} {l : Landmark}
    (h : ((landmark variant).piece l).Fits) (hlist : Landmarks.KindWellFormed variant listKind)
    (hkind : variant.isIsoFamily = false → l.kind = listKind) : l.WellFormed variant listKind := by
  obtain ⟨hx, hy, hbits⟩ := fits_landmark_iff.mp h
  refine ⟨?_, hx, hy, hkind⟩
  cases hiso : variant.isIsoFamily with
  | true => exact hbits hiso
  | false => simpa [Landmarks.KindWellFormed, hiso, hkind hiso] using hlist

theorem Landmarks.Consistent.wellFormed {variant : Variant} {b : Landmarks}
    (h : b.Consistent variant) (hfit : AllFit (b.pieces variant)) : b.WellFormed variant := by
  obtain ⟨hcores, hcore, hdeltas, hdelta⟩ := allFit_pieces_iff.mp hfit
  have hcoreType : KindWellFormed variant b.coreType := kindWellFormed_of_fits hcores h.coreType
  have hdeltaType : KindWellFormed variant b.deltaType := kindWellFormed_of_fits hdeltas h.deltaType
  exact
    { numCores := h.numCores
      cores_length := h.numCores ▸ (fits_landmarkInfo_iff.mp hcores).1
      coreType := hcoreType
      cores := fun c hc =>
        Landmark.wellFormed_of_fits (hcore c hc) hcoreType fun hansi => h.core_kind hansi c hc
      core_angle := h.core_angle
      numDeltas := h.numDeltas
      deltas_length := h.numDeltas ▸ (fits_landmarkInfo_iff.mp hdeltas).1
      deltaType := hdeltaType
      deltas := fun d hd =>
        Landmark.wellFormed_of_fits (hdelta d hd) hdeltaType fun hansi => h.delta_kind hansi d hd
      delta_angles := h.delta_angles }

theorem Payload.Consistent.wellFormed {variant : Variant} {p : Payload} (h : p.Consistent variant)
    (hfit : AllFit (p.pieces variant)) : p.WellFormed variant := by
  cases p with
  | ridgeCounts b => trivial
  | landmarks b => exact Landmarks.Consistent.wellFormed h hfit
  | raw typeId data => exact h

/-! ### Built records -/

/-- A record was built around a consistent payload that can be written. -/
structure ExtendedRecord.Built (variant : Variant) (d : ExtendedRecord) : Prop where
  built : ofPayload d.payload variant = .ok d
  consistent : d.payload.Consistent variant
  written : ∃ own, emitAll (d.payload.pieces variant) = .ok own

theorem ExtendedRecord.Built.wellFormed {variant : Variant} {d : ExtendedRecord}
    (h : d.Built variant) : d.WellFormed variant := by
  obtain ⟨-, hwhole, hlength⟩ := ofPayload_eq_ok_iff.mp h.built
  obtain ⟨own, hown⟩ := h.written
  exact ⟨hwhole, hlength, h.consistent.wellFormed (emitAll_eq_ok_iff.mp hown).1⟩

/-- Built records in a block that declares their lengths are written and read back. -/
theorem OpenRecord.exists_encode_fill {o : OpenRecord} {ds : List ExtendedRecord}
    (hheader : o.variant.hasHeader = true) (hbare : o.bare.HeadedWellFormed)
    (hwhole : o.block.truncated = false) (hds : ∀ d ∈ ds, d.Built o.variant)
    (hlength : o.block.blockLength.toNat = (ds.map fun d => d.length.toNat).sum)
    (hpos : 0 < (ds.map fun d => d.length.toNat).sum) :
    ∃ bytes, (o.fill ds).encode = .ok bytes ∧
      Record.decode o.variant bytes = .ok (.complete (o.fill ds)) := by
  have hblock : (o.fillBlock ds).WellFormed o.variant :=
    ⟨hwhole, hlength, hpos, fun d hd => (hds d hd).wellFormed⟩
  obtain ⟨hbefore, hbehind⟩ := List.forall_mem_append.mp hbare.views
  obtain ⟨hview, hafter⟩ := List.forall_mem_cons.mp hbehind
  have hfilled : FingerView.WellFormed o.variant
      { o.view with extended := some (o.fillBlock ds) } :=
    { hview with extended := by simpa using hblock }
  have hwell : (o.fill ds).HeadedWellFormed :=
    { product := hbare.product
      capture := hbare.capture
      numViews := by simpa [bare, fill] using hbare.numViews
      views := List.forall_mem_append.mpr ⟨hbefore, List.forall_mem_cons.mpr ⟨hfilled, hafter⟩⟩ }
  obtain ⟨bytes, hencode, hrun⟩ :=
    Record.HeadedWellFormed.exists_encode (r := o.fill ds) hheader hwell
  exact ⟨bytes, hencode, Record.decode_of_forall_run hrun⟩

/-- **Built extended data declares its true size.** What is written for a record of extended data
is four bytes and what is computed for its payload, whatever the payload declares and whichever
angles it has. A record is built exactly when so many bytes can be declared, and then declares just
these; the report of one that is not gives them, up to the largest 32-bit number. Built records of
consistent payloads, in a block that declares their lengths, are read back. -/
theorem ExtendedRecord.ofPayload_declares_size (variant : Variant)
    (hheader : variant.hasHeader = true) :
    (∀ (o : OpenRecord) ds d es bytes, o.variant = variant →
      (o.fill (ds ++ d :: es)).encode = .ok bytes →
      ∃ front own back, bytes = front ++ (own ++ back) ∧
        (o.fill (ds ++ es)).encode = .ok (front ++ back) ∧
        emitAll (d.pieces variant) = .ok own ∧
        own.length = headerLength + d.payloadLength variant) ∧
    (∀ p, (∃ d, ofPayload p variant = .ok d) ↔ headerLength + p.encodedLength variant ≤ 65535) ∧
    (∀ p d, ofPayload p variant = .ok d →
      d.payload = p ∧ d.truncated = false ∧
        d.length.toNat = headerLength + p.encodedLength variant ∧
        ∀ own, emitAll (d.pieces variant) = .ok own → own.length = d.length.toNat) ∧
    (∀ p e, ofPayload p variant = .error e →
      e = ⟨.extendedDataLength, min (headerLength + p.encodedLength variant) (2 ^ 32 - 1), 16⟩) ∧
    ∀ (o : OpenRecord) ds, o.variant = variant → o.bare.HeadedWellFormed →
      o.block.truncated = false → (∀ d ∈ ds, d.Built variant) →
      o.block.blockLength.toNat = (ds.map fun d => d.length.toNat).sum →
      0 < (ds.map fun d => d.length.toNat).sum →
      ∃ bytes, (o.fill ds).encode = .ok bytes ∧
        Record.decode variant bytes = .ok (.complete (o.fill ds)) := by
  refine ⟨?_, fun p => exists_ofPayload_iff, ?_, fun p e he => (ofPayload_eq_error_iff.mp he).2, ?_⟩
  · rintro o ds d es bytes rfl h
    exact OpenRecord.exists_own_of_encode hheader h
  · intro p d hd
    obtain ⟨rfl, hwhole, hlength⟩ := ofPayload_eq_ok_iff.mp hd
    refine ⟨rfl, hwhole, hlength, fun own hown => ?_⟩
    rw [(emitAll_eq_ok_iff.mp hown).2, d.length_allBytes_pieces variant, hlength, payloadLength]
  · rintro o ds rfl hbare hwhole hds hlength hpos
    exact OpenRecord.exists_encode_fill hheader hbare hwhole hds hlength hpos

/-- A core and a delta with their angles, and a plain core, each of its own type. -/
def mixedLandmarks : Landmarks where
  numCores := 2
  cores := [{ kind := 1, x := 5, y := 6, angle := some 7 }, { kind := 2, x := 0x3fff }]
  numDeltas := 1
  deltas := [{ kind := 1, y := 9, angles := some ⟨1, 2, 3⟩ }]

/-- An ISO record that is open at the first of its two views. -/
def openRecord : OpenRecord where
  header := { variant := .iso, numViews := 2 }
  before := []
  view := {}
  block := { blockLength := 30 }
  after := [{ viewNumber := 1 }]

theorem ExtendedRecord.ofPayload_declares_size_openRecord :
    ∃ d e, ofPayload (.landmarks mixedLandmarks) .iso = .ok d ∧
      ofPayload (.ridgeCounts { counts := [⟨1, 2, 3⟩] }) .iso = .ok e ∧
      d.length = 22 ∧ e.length = 8 ∧
      ∃ bytes, (openRecord.fill [d, e]).encode = .ok bytes ∧
        Record.decode .iso bytes = .ok (.complete (openRecord.fill [d, e])) ∧
        ∃ front own back, bytes = front ++ (own ++ back) ∧
          (openRecord.fill [e]).encode = .ok (front ++ back) ∧ own.length = 22 := by
  obtain ⟨hown, -, -, -, hread⟩ := ofPayload_declares_size .iso rfl
  have hlandmarks : Built .iso { length := 22, payload := .landmarks mixedLandmarks } :=
    { built := rfl
      consistent :=
        { numCores := rfl
          coreType := fun _ => rfl
          core_kind := nofun
          core_angle := by decide
          numDeltas := rfl
          deltaType := fun _ => rfl
          delta_kind := nofun
          delta_angles := by decide }
      written := ⟨_, rfl⟩ }
  have hcounts : Built .iso { length := 8, payload := .ridgeCounts { counts := [⟨1, 2, 3⟩] } } :=
    { built := rfl
      consistent := trivial
      written := ⟨_, rfl⟩ }
  have hbare : openRecord.bare.HeadedWellFormed := by decide
  obtain ⟨bytes, hencode, hdecode⟩ := hread openRecord _ rfl hbare rfl
    (List.forall_mem_cons.mpr ⟨hlandmarks, List.forall_mem_singleton.mpr hcounts⟩) rfl (by decide)
  obtain ⟨front, own, back, hbytes, hless, -, hlength⟩ := hown openRecord [] _ _ bytes rfl hencode
  exact ⟨_, _, hlandmarks.built, hcounts.built, rfl, rfl, bytes, hencode, hdecode, front, own, back,
    hbytes, hless, hlength⟩

end FingerMinutiae
