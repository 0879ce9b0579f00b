import FingerMinutiae.Proofs.Decoding.Cards

/-!
# Written records are read back

What is written for a well-formed node is read as that node, byte for byte and no byte more. The
counts and lengths that steer a decoder are the ones that the encoder wrote, so the two traversals
agree node by node: for every decoder there is one lemma, which says that it ends with the node
after exactly the bytes that are written for it.

## Main results

* `Decoder.ends_several`: lists of items.
* `Landmarks.ends_decoder`, `Payload.ends_decoder`, `ExtendedBlock.ends_decoder`,
  `FingerView.ends_decoder`, `Record.ends_headedDecoder`: the nodes of a record with a header.
* `Record.decode_encode`: records of any variant.
-/

namespace FingerMinutiae

open Layout

/-! ### Steps -/

namespace Decoder

variable {α β : Type} {layout : Layout α} {valid : α → Prop} {mask bytes : Bytes} {a : α}

theorem ends_readPiece_bind (h : layout.Lawful valid mask) (ha : valid a)
    {f : Portion α → Decoder β} {e : Ending β} (hf : (f (.whole a)).Ends bytes e) :
    ((readPiece layout).bind f).Ends (layout.bytes a ++ bytes) e := by
  refine .take (h.length_bytes a) ?_
  show (f (.whole (layout.parse (layout.bytes a)))).Ends bytes e
  rw [h.parse_bytes a ha]
  exact hf

theorem ends_readPieceOr (h : layout.Lawful valid mask) (ha : valid a) {draft : β}
    {next : α → Decoder (Decoded β)} {e : Ending (Decoded β)} (hnext : (next a).Ends bytes e) :
    (readPieceOr draft layout next).Ends (layout.bytes a ++ bytes) e :=
  ends_readPiece_bind h ha hnext

theorem ends_item (h : layout.Lawful valid mask) (ha : valid a) :
    (item layout).Ends (layout.bytes a) (.value (some (.complete a))) := by
  rw [← List.append_nil (layout.bytes a)]
  exact ends_readPiece_bind h ha (.done _)

/-- Items are read one after the other, behind those that are there already. -/
theorem ends_severalFrom {each : Nat → Decoder (Option (Decoded α))} {spell : α → Bytes}
    {as : List α}
    (heach : ∀ a ∈ as, ∀ index, (each index).Ends (spell a) (.value (some (.complete a))))
    (index : Nat) (got : List α) :
    (severalFrom each index as.length got).Ends (as.flatMap spell)
      (.value (.complete (got.reverse ++ as))) := by
  induction as generalizing index got with
  | nil =>
    rw [List.append_nil]
    exact .done _
  | cons a as ih =>
    obtain ⟨ha, has⟩ := List.forall_mem_cons.mp heach
    rw [List.flatMap_cons]
    refine Ends.bind (ha index) ?_
    have hrest := ih has (index + 1) (a :: got)
    rw [List.reverse_cons, List.append_assoc] at hrest
    exact hrest

theorem ends_several {each : Nat → Decoder (Option (Decoded α))} {spell : α → Bytes}
    {as : List α}
    (heach : ∀ a ∈ as, ∀ index, (each index).Ends (spell a) (.value (some (.complete a)))) :
    (several each as.length).Ends (as.flatMap spell) (.value (.complete as)) :=
  ends_severalFrom heach 0 []

end Decoder

open Decoder

/-! ### Ridge counts -/

theorem RidgeCounts.ends_decoder (place : Place) (b : RidgeCounts) :
    (RidgeCounts.decoder place (1 + 3 * b.counts.length)).Ends (Piece.allBytes b.pieces)
      (.value (.complete b)) := by
  have hlength : RidgeCounts.isLength (1 + 3 * b.counts.length) = true := by
    simp [RidgeCounts.isLength]
  have hcount : (1 + 3 * b.counts.length) / 3 = b.counts.length := by omega
  rw [RidgeCounts.decoder, if_pos hlength, hcount, pieces, Piece.allBytes_cons, Piece.allBytes_map]
  refine ends_readPieceOr lawful_byte trivial ?_
  rw [← List.append_nil (List.flatMap _ _)]
  exact Ends.bind (ends_several fun c _ _ => ends_item lawful_ridgeCount trivial) (.done _)

/-! ### Cores and deltas -/

/-- The type of the list is put into the position after it is read. -/
theorem ends_landmark_bind {β : Type} {variant : Variant} {listKind : UInt8} {l : Landmark}
    (hlist : Landmarks.KindWellFormed variant listKind) (hl : l.WellFormed variant listKind)
    {f : Portion Landmark → Decoder β} {bytes : Bytes} {e : Ending β}
    (hf : ∀ position : Landmark, position.ofList variant listKind = l →
      (f (.whole position)).Ends bytes e) :
    ((readPiece (landmark variant)).bind f).Ends ((landmark variant).bytes l ++ bytes) e :=
  .take ((lawful_landmarkOf hlist).length_bytes l)
    (hf _ ((lawful_landmarkOf hlist).parse_bytes l hl))

theorem Core.ends_decoder {variant : Variant} {b : Landmarks} {c : Core}
    (hb : Landmarks.KindWellFormed variant b.coreType)
    (hc : c.toLandmark.WellFormed variant b.coreType)
    (hangle : c.angle.isSome = b.coreIsAngular variant c) :
    (Core.decoder variant b.coreType).Ends (Piece.allBytes (b.corePieces variant c))
      (.value (some (.complete c))) := by
  have hangular := Landmarks.coreIsAngular_eq hc
  rw [Landmarks.corePieces, Piece.allBytes_cons]
  refine ends_landmark_bind hb hc ?_
  intro position hposition
  obtain ⟨l, angle⟩ := c
  dsimp only at hangular hposition ⊢
  rw [hposition, hangular]
  rw [hangular] at hangle
  cases hkind : isAngular l.kind with
  | false =>
    obtain rfl : angle = none := by simpa [hkind] using hangle
    exact .done _
  | true =>
    rw [hkind] at hangle
    obtain ⟨a, rfl⟩ := Option.isSome_iff_exists.mp hangle
    exact ends_readPiece_bind lawful_byte trivial (.done _)

theorem Delta.ends_decoder {variant : Variant} {b : Landmarks} {d : Delta}
    (hb : Landmarks.KindWellFormed variant b.deltaType)
    (hd : d.toLandmark.WellFormed variant b.deltaType)
    (hangles : d.angles.isSome = b.deltaIsAngular variant d) :
    (Delta.decoder variant b.deltaType).Ends (Piece.allBytes (b.deltaPieces variant d))
      (.value (some (.complete d))) := by
  have hangular := Landmarks.deltaIsAngular_eq hd
  rw [Landmarks.deltaPieces, Piece.allBytes_cons]
  refine ends_landmark_bind hb hd ?_
  intro position hposition
  obtain ⟨l, angles⟩ := d
  dsimp only at hangular hposition ⊢
  rw [hposition, hangular]
  rw [hangular] at hangles
  cases hkind : isAngular l.kind with
  | false =>
    obtain rfl : angles = none := by simpa [hkind] using hangles
    exact .done _
  | true =>
    rw [hkind] at hangles
    obtain ⟨a, rfl⟩ := Option.isSome_iff_exists.mp hangles
    exact ends_readPiece_bind lawful_deltaAngles trivial (.done _)

theorem Landmarks.ends_entriesDecoder {variant : Variant} {b : Landmarks}
    (h : b.WellFormed variant) :
    (Landmarks.entriesDecoder variant).Ends (Piece.allBytes (b.pieces variant))
      (.value (.complete b)) := by
  have hcores := ends_several fun c hc (_ : Nat) =>
    Core.ends_decoder h.coreType (h.cores c hc) (h.core_angle c hc)
  have hdeltas := ends_several fun d hd (_ : Nat) =>
    Delta.ends_decoder h.deltaType (h.deltas d hd) (h.delta_angles d hd)
  rw [← h.numCores] at hcores
  rw [← h.numDeltas] at hdeltas
  rw [pieces, Piece.allBytes_append, Piece.allBytes_cons, Piece.allBytes_cons,
    Piece.allBytes_flatMap, Piece.allBytes_flatMap, List.append_assoc]
  have hcoreCount : b.numCores.toNat < 2 ^ 4 := by rw [h.numCores]; exact h.cores_length
  have hdeltaCount : b.numDeltas.toNat < 2 ^ 6 := by rw [h.numDeltas]; exact h.deltas_length
  refine ends_readPieceOr (lawful_coresInfo variant) ⟨h.coreType, hcoreCount⟩ ?_
  refine Ends.bind hcores ?_
  refine ends_readPieceOr (lawful_deltasInfo variant) ⟨h.deltaType, hdeltaCount⟩ ?_
  rw [← List.append_nil (List.flatMap _ _)]
  exact Ends.bind hdeltas (.done _)

theorem Landmarks.ends_decoder {variant : Variant} {b : Landmarks} (place : Place)
    (h : b.WellFormed variant) :
    (Landmarks.decoder variant place (b.encodedLength variant)).Ends
      (Piece.allBytes (b.pieces variant)) (.value (.complete b)) := by
  rw [← List.append_nil (Piece.allBytes _)]
  refine Ends.bind (ends_entriesDecoder h) ?_
  show Ends (if b.encodedLength variant = b.encodedLength variant then _ else _) [] _
  rw [if_pos rfl]
  exact .done _

/-! ### Payloads, records and blocks -/

theorem Payload.ends_decoder {variant : Variant} {p : Payload} (place : Place)
    (h : p.WellFormed variant) :
    (Payload.decoder variant place p.typeId (p.encodedLength variant)).Ends
      (Piece.allBytes (p.pieces variant)) (.value (.complete p)) := by
  rw [Payload.decoder]
  cases p with
  | ridgeCounts b =>
    have htype : (Payload.ridgeCounts b).typeId = Payload.ridgeCountsType := rfl
    rw [if_pos htype, ← List.append_nil (Piece.allBytes _)]
    exact Ends.bind (RidgeCounts.ends_decoder place b) (.done _)
  | landmarks b =>
    have htype : (Payload.landmarks b).typeId = Payload.landmarksType := rfl
    have hother : Payload.landmarksType ≠ Payload.ridgeCountsType := by decide
    rw [if_neg (htype ▸ hother), if_pos htype, ← List.append_nil (Piece.allBytes _)]
    exact Ends.bind (Landmarks.ends_decoder place h) (.done _)
  | raw typeId data =>
    have htype : (Payload.raw typeId data).typeId = typeId := rfl
    obtain ⟨hridges, hlandmarks⟩ := h
    rw [if_neg (htype ▸ hridges), if_neg (htype ▸ hlandmarks)]
    exact .take rfl (.done _)

/-- A record that declares its length and is no longer than its block is not refused. -/
theorem ExtendedRecord.WellFormed.lengthDefect? {variant : Variant} {d : ExtendedRecord}
    (h : d.WellFormed variant) {remaining : Nat} (hle : d.length.toNat ≤ remaining) :
    ExtendedRecord.lengthDefect? d.length.toNat remaining = none := by
  have hlength := h.length
  unfold ExtendedRecord.lengthDefect? ExtendedRecord.headerLength at *
  rw [if_neg (by omega), if_neg (by omega), if_neg (by omega)]

theorem ExtendedBlock.ends_recordsDecoder {variant : Variant} (view index : Nat)
    (got ds : List ExtendedRecord) (h : ∀ d ∈ ds, d.WellFormed variant) :
    (ExtendedBlock.recordsDecoder variant view index (ds.map fun d => d.length.toNat).sum got).Ends
      (Piece.allBytes (ds.flatMap (ExtendedRecord.pieces variant)))
      (.value (.complete (got.reverse ++ ds))) := by
  induction ds generalizing index got with
  | nil =>
    rw [ExtendedBlock.recordsDecoder, List.append_nil]
    exact .done _
  | cons d ds ih =>
    obtain ⟨hd, hds⟩ := List.forall_mem_cons.mp h
    have hlength : d.length.toNat = 4 + d.payload.encodedLength variant := hd.length
    have hle : d.length.toNat ≤ ((d :: ds).map fun d => d.length.toNat).sum := by
      rw [List.map_cons, List.sum_cons]
      exact Nat.le_add_right _ _
    have hrest : ((d :: ds).map fun d => d.length.toNat).sum - d.length.toNat
        = (ds.map fun d => d.length.toNat).sum := by
      rw [List.map_cons, List.sum_cons, Nat.add_sub_cancel_left]
    rw [ExtendedBlock.recordsDecoder, if_neg (by omega), List.flatMap_cons, Piece.allBytes_append,
      ExtendedRecord.pieces, Piece.allBytes_cons, List.append_assoc]
    refine ends_readPiece_bind lawful_dataHeader trivial ?_
    dsimp only
    split
    · next hdefect =>
      rw [hd.lengthDefect? hle] at hdefect
      cases hdefect
    · have hpayload := Payload.ends_decoder (Place.data view index) hd.payload
      have hdeclared : d.length.toNat - ExtendedRecord.headerLength
          = d.payload.encodedLength variant := by
        rw [hlength]
        exact Nat.add_sub_cancel_left ..
      rw [hdeclared, hrest]
      refine Ends.bind hpayload ?_
      have hmore := ih (index + 1) (d :: got) hds
      rw [List.reverse_cons, List.append_assoc] at hmore
      obtain ⟨length, payload, truncated⟩ := d
      obtain rfl : truncated = false := hd.whole
      exact hmore

theorem ExtendedBlock.ends_decoder {variant : Variant} (view : Nat) {b : ExtendedBlock}
    (h : b.WellFormed variant) :
    (ExtendedBlock.decoder variant view b.blockLength).Ends
      (Piece.allBytes (b.records.flatMap (ExtendedRecord.pieces variant)))
      (.value (.complete b)) := by
  have hrecords := ends_recordsDecoder view 0 [] b.records h.records
  replace hlength : (b.records.map fun d => d.length.toNat).sum = b.blockLength.toNat :=
    h.length.symm
  rw [hlength] at hrecords
  rw [← List.append_nil (Piece.allBytes _)]
  refine Ends.bind hrecords ?_
  obtain ⟨blockLength, records, truncated⟩ := b
  obtain rfl : truncated = false := h.whole
  exact .done _

/-! ### Views -/

theorem FingerView.ends_decoder {variant : Variant} (index : Nat) {v : FingerView}
    (h : v.WellFormed variant) :
    (FingerView.decoder variant index).Ends (Piece.allBytes (v.pieces variant))
      (.value (some (.complete v))) := by
  have hminutiae := ends_several fun m hm (_ : Nat) => ends_item (lawful_minutia variant)
    (h.minutiae m hm)
  rw [← h.numMinutiae] at hminutiae
  obtain ⟨header, minutiae, extended, truncated⟩ := v
  obtain rfl : truncated = false := h.whole
  rw [pieces, Piece.allBytes_append, Piece.allBytes_cons, Piece.allBytes_map, List.append_assoc]
  refine ends_readPiece_bind lawful_viewHeader h.header ?_
  refine Ends.bind hminutiae ?_
  cases extended with
  | none =>
    refine ends_readPiece_bind lawful_half trivial ?_
    exact .done _
  | some b =>
    have hb := h.extended b rfl
    have hpositive : b.blockLength ≠ 0 := by
      intro hzero
      have hnonempty := hb.nonempty
      rw [← hb.length, hzero] at hnonempty
      exact absurd hnonempty (by decide)
    refine ends_readPiece_bind lawful_half trivial ?_
    show Ends _ (Piece.allBytes (b.records.flatMap (ExtendedRecord.pieces variant))) _
    dsimp only
    rw [if_neg hpositive, ← List.append_nil (Piece.allBytes _)]
    exact Ends.bind (ExtendedBlock.ends_decoder index hb) (.done _)

/-! ### Records with a header -/

namespace Record

theorem ends_lengthDecoder {draft : Record} {next : UInt32 → Decoder (Decoded Record)}
    {length : UInt32} {bytes : Bytes} {e : Ending (Decoded Record)}
    (hnext : (next length).Ends bytes e) :
    (draft.lengthDecoder next).Ends (lengthBytes draft.variant length ++ bytes) e := by
  rw [lengthDecoder, lengthBytes]
  by_cases hansi : draft.variant = .ansi
  · rw [if_pos hansi, if_pos hansi]
    obtain ⟨w, hw, rfl, hbytes⟩ | ⟨-, hbytes⟩ := ansiLengthBytes_cases length
    · rw [hbytes]
      refine ends_readPieceOr lawful_half trivial ?_
      rw [AnsiLength.ofHalf, if_neg hw]
      exact hnext
    · rw [hbytes, List.append_assoc]
      refine ends_readPieceOr (a := 0) lawful_half trivial ?_
      exact ends_readPieceOr lawful_word trivial hnext
  · rw [if_neg hansi, if_neg hansi]
    exact ends_readPieceOr lawful_word trivial hnext

theorem ends_productDecoder {draft : Record} {next : Product → Decoder (Decoded Record)}
    {p : Product} (hp : draft.variant ≠ .ansi → p = {}) {bytes : Bytes}
    {e : Ending (Decoded Record)} (hnext : (next p).Ends bytes e) :
    (draft.productDecoder next).Ends
      ((if draft.variant = .ansi then product.bytes p else []) ++ bytes) e := by
  rw [productDecoder]
  by_cases hansi : draft.variant = .ansi
  · rw [if_pos hansi, if_pos hansi]
    exact ends_readPieceOr lawful_product trivial hnext
  · rw [if_neg hansi, if_neg hansi, ← hp hansi]
    exact hnext

theorem ends_headerDecoder {r : Record} (h : r.HeadedWellFormed) :
    (headerDecoder r.variant).Ends (Piece.allBytes r.headerPieces)
      (.value (.complete { r with views := [] })) := by
  rw [allBytes_headerPieces, headerBytes]
  refine ends_readPieceOr lawful_identification trivial ?_
  refine ends_lengthDecoder ?_
  refine ends_productDecoder (p := r.toProduct) ?_ ?_
  · exact h.product
  rw [← List.append_nil (capture.bytes _)]
  exact ends_readPieceOr lawful_capture h.capture (.done _)

theorem ends_headedDecoder {r : Record} (h : r.HeadedWellFormed) :
    (headedDecoder r.variant).Ends
      (Piece.allBytes (r.headerPieces ++ r.views.flatMap (FingerView.pieces r.variant)))
      (.value (.complete r)) := by
  have hviews := ends_several fun v hv index => FingerView.ends_decoder index (h.views v hv)
  rw [← h.numViews] at hviews
  rw [Piece.allBytes_append, Piece.allBytes_flatMap]
  refine Ends.bind (ends_headerDecoder h) ?_
  rw [← List.append_nil (List.flatMap _ _)]
  exact Ends.bind hviews (.done _)

/-! ### Cards -/

/-- A well-formed card is the card of its minutiae. -/
theorem CardWellFormed.exists_eq_ofCard {r : Record} (hcard : r.variant.isCard = true)
    (h : r.CardWellFormed) : ∃ minutiae : List Minutia, r = ofCard r.variant minutiae false ∧
      minutiae.length ≤ 255 ∧ ∀ m ∈ minutiae, m.WellFormed r.variant := by
  obtain ⟨hidentification, hproduct, hcapture, minutiae, hviews, hcount, hvalid, hlength⟩ := h
  refine ⟨minutiae, ?_, hcount, hvalid⟩
  obtain ⟨identification, product, capture, variant, recordLength, views⟩ := r
  dsimp only at hidentification hproduct hcapture hviews hlength hcard
  have hencoded : FingerView.encodedLength { minutiae } variant
      = minutiae.length * variant.minutiaLength :=
    FingerView.encodedLength_of_isCard hcard _
  have hrecordLength : recordLength
      = UInt32.ofNat (FingerView.encodedLength { minutiae } variant) := by
    rw [hencoded, ← hlength, UInt32.ofNat_toNat]
  subst hidentification hproduct hcapture hviews hrecordLength
  rfl

/-- A well-formed card is written and read back. -/
theorem CardWellFormed.exists_encode {r : Record} (hcard : r.variant.isCard = true)
    (h : r.CardWellFormed) :
    ∃ bytes, r.encode = .ok bytes ∧ decode r.variant bytes = .ok (.complete r) := by
  obtain ⟨minutiae, hr, hlength, hvalid⟩ := h.exists_eq_ofCard hcard
  have hrun := run_cardDecoder_of_valid hlength hvalid
  refine ⟨minutiae.flatMap (Layout.minutia r.variant).bytes, ?_, ?_⟩
  · rw [hr]
    exact encode_ofCard hcard hvalid
  · rw [decode, decoder, if_pos hcard, hrun, ← hr]

/-- What is written for a well-formed record with a header is read back, and no byte more. -/
theorem HeadedWellFormed.exists_encode {r : Record} (hheader : r.variant.hasHeader = true)
    (h : r.HeadedWellFormed) :
    ∃ bytes, r.encode = .ok bytes ∧ ∀ rest,
      (decoder r.variant).run (Buffer.ofBytes (bytes ++ rest))
        = (.ok (.complete r), { rest, offset := bytes.length }) := by
  refine ⟨_, encode_of_headedFits hheader h.headedFits, fun rest => ?_⟩
  rw [decoder_of_hasHeader hheader, Buffer.ofBytes,
    run_append_of_ends_value (ends_headedDecoder h) rest 0, Nat.zero_add]

theorem decode_of_forall_run {r : Record} {bytes : Bytes}
    (h : ∀ rest, (decoder r.variant).run (Buffer.ofBytes (bytes ++ rest))
      = (.ok (.complete r), { rest, offset := bytes.length })) :
    decode r.variant bytes = .ok (.complete r) := by
  have hwhole := h []
  rw [List.append_nil] at hwhole
  rw [decode, hwhole]

/-! ### Records of any variant -/

/-- A well-formed record is written and read back. -/
theorem WellFormed.exists_encode {r : Record} (h : r.WellFormed) :
    ∃ bytes, r.encode = .ok bytes ∧ decode r.variant bytes = .ok (.complete r) := by
  by_cases hcard : r.variant.isCard = true
  · rw [WellFormed, if_pos hcard] at h
    exact h.exists_encode hcard
  · have hheader : r.variant.hasHeader = true := Variant.hasHeader_of_not_isCard hcard
    rw [WellFormed, if_neg hcard] at h
    obtain ⟨bytes, hencode, hrun⟩ := h.exists_encode hheader
    exact ⟨bytes, hencode, decode_of_forall_run hrun⟩

/-- **Written records are read back.** A well-formed record can be written, and what is written for
it is read as that very record. With a header, the bytes also delimit themselves: in front of
whatever other bytes, they and no others are read. -/
theorem decode_encode {r : Record} (h : r.WellFormed) :
    ∃ bytes, r.encode = .ok bytes ∧ decode r.variant bytes = .ok (.complete r) ∧
      (r.variant.hasHeader = true → ∀ rest,
        (decoder r.variant).run (Buffer.ofBytes (bytes ++ rest))
          = (.ok (.complete r), { rest, offset := bytes.length })) := by
  by_cases hcard : r.variant.isCard = true
  · obtain ⟨bytes, hencode, hdecode⟩ := h.exists_encode
    refine ⟨bytes, hencode, hdecode, fun hheader => ?_⟩
    exact absurd hcard (Variant.not_isCard_of_hasHeader hheader)
  · have hheader : r.variant.hasHeader = true := Variant.hasHeader_of_not_isCard hcard
    rw [WellFormed, if_neg hcard] at h
    obtain ⟨bytes, hencode, hrun⟩ := h.exists_encode hheader
    exact ⟨bytes, hencode, decode_of_forall_run hrun, fun _ => hrun⟩

/-- An ANSI record that uses every sort of extended data, and of which the record length is not
right. -/
def ansiRecord : Record where
  variant := .ansi
  formatId := Tag.finger
  specVersion := Tag.version20
  productOwner := 0x103
  compliance := 15
  scannerId := 0xfff
  numViews := 1
  recordLength := 0
  views := [{
    viewNumber := 15
    impression := 3
    numMinutiae := 1
    minutiae := [{ kind := 3, x := 0x3fff, y := 7, angle := 200, reserved := 2 }]
    extended := some {
      blockLength := 32
      records := [
        { length := 8, payload := .ridgeCounts { method := 9, counts := [⟨1, 2, 3⟩] } },
        { length := 18
          payload := .landmarks {
            coreType := 1
            numCores := 1
            cores := [{ kind := 1, x := 5, y := 6, angle := some 7 }]
            deltaType := 1
            numDeltas := 1
            deltas := [{ kind := 1, x := 0x3fff, angles := some ⟨1, 2, 3⟩ }] } },
        { length := 6, payload := .raw 0 [4, 5] }] } }]

theorem decode_encode_ansiRecord :
    ∃ bytes, ansiRecord.encode = .ok bytes ∧ decode .ansi bytes = .ok (.complete ansiRecord) ∧
      ∀ rest, (decoder .ansi).run (Buffer.ofBytes (bytes ++ rest))
        = (.ok (.complete ansiRecord), { rest, offset := bytes.length }) := by
  have hwell : ansiRecord.WellFormed := by
    have hheaded : ansiRecord.HeadedWellFormed := by decide
    exact hheaded
  obtain ⟨bytes, hencode, hdecode, hrun⟩ := decode_encode hwell
  exact ⟨bytes, hencode, hdecode, hrun rfl⟩

end Record

end FingerMinutiae
