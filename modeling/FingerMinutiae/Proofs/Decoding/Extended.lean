import FingerMinutiae.Proofs.Encoding.Spelling

/-!
# What is read of extended data

For every decoder of extended data: a node that it reads to its end is well formed and is spelled
by its bytes, and of a node that is cut short everything fits. The lengths and counts that a node
declares are met because its lists are read to their announced ends; the length of a record because
it is checked; the length of a block because reading stops exactly when its bytes are used up.

## Main definitions

* `Landmarks.CoreRead`, `Landmarks.DeltaRead`, `Payload.Read`, `ExtendedRecord.Read`: a node and the
  bytes it was read from.

## Main results

* `Landmarks.reads_decoder`, `Payload.reads_decoder`, `ExtendedBlock.reads_decoder`.
-/

namespace FingerMinutiae

open Decoder Layout

/-! ### Ridge counts -/

theorem readsItem_lawful_item {α : Type} {layout : Layout α} {valid : α → Prop} {mask : Bytes}
    (h : layout.Lawful valid mask) :
    (item layout).ReadsItem (fun bytes a => valid a ∧ Spells mask [layout.piece a] bytes)
      valid := by
  refine (readsItem_item layout).mono ?_ fun _ => False.elim
  rintro bytes a ⟨hlength, rfl⟩
  exact ⟨h.valid_parse bytes hlength, h.spells hlength⟩

theorem RidgeCounts.reads_decoder (place : Place) (declared : Nat) :
    (RidgeCounts.decoder place declared).Reads
      (fun bytes b => 1 + 3 * b.counts.length = declared ∧
        Spells (allBits (1 + 3 * b.counts.length)) b.pieces bytes)
      fun b => Piece.AllFit b.pieces := by
  rw [RidgeCounts.decoder]
  split
  · next hdeclared =>
    have hmod : declared % 3 = 1 := by simpa [RidgeCounts.isLength] using hdeclared
    refine reads_readPieceOr ?_ (RidgeCounts.allFit_pieces {})
    intro piece hpiece
    refine (reads_several (fun _ => readsItem_lawful_item lawful_ridgeCount)
      (fun _ _ h => h.1) _).map ?_ fun counts _ =>
        RidgeCounts.allFit_pieces ⟨byte.parse piece, counts⟩
    rintro bytes counts ⟨hlength, hcounts⟩
    refine ⟨by show 1 + 3 * counts.length = declared; omega, ?_⟩
    have hlist : Spells (counts.flatMap fun _ => allBits 3) (counts.map ridgeCount.piece) _ :=
      spells_map_of_concat (fun _ _ h => h.2) hcounts
    rw [allBits_add]
    show Spells (allBits 1 ++ allBits (3 * counts.length)) _ _
    rw [← flatMap_allBits]
    exact (lawful_byte.spells hpiece).append hlist
  · trivial

/-! ### Cores and deltas -/

/-- Whether an entry of a well-formed list is angular depends on its own type alone. -/
theorem Landmarks.coreIsAngular_eq {variant : Variant} {b : Landmarks} {c : Core}
    (h : c.toLandmark.WellFormed variant b.coreType) :
    b.coreIsAngular variant c = isAngular c.kind := by
  rw [coreIsAngular, coreKind]
  split
  · rfl
  · next hiso => rw [h.of_list (by simpa using hiso)]

theorem Landmarks.deltaIsAngular_eq {variant : Variant} {b : Landmarks} {d : Delta}
    (h : d.toLandmark.WellFormed variant b.deltaType) :
    b.deltaIsAngular variant d = isAngular d.kind := by
  rw [deltaIsAngular, deltaKind]
  split
  · rfl
  · next hiso => rw [h.of_list (by simpa using hiso)]

/-- A core of a list: it is of the list's type, has an angle when it should, and is spelled by its
bytes. -/
structure Landmarks.CoreRead (variant : Variant) (b : Landmarks) (bytes : Bytes) (c : Core) :
    Prop where
  landmark : c.toLandmark.WellFormed variant b.coreType
  angle : c.angle.isSome = b.coreIsAngular variant c
  spells : Spells (b.coreMask variant c) (b.corePieces variant c) bytes

/-- A delta of a list, likewise. -/
structure Landmarks.DeltaRead (variant : Variant) (b : Landmarks) (bytes : Bytes) (d : Delta) :
    Prop where
  landmark : d.toLandmark.WellFormed variant b.deltaType
  angles : d.angles.isSome = b.deltaIsAngular variant d
  spells : Spells (b.deltaMask variant d) (b.deltaPieces variant d) bytes

theorem Core.readsItem_decoder {variant : Variant} {b : Landmarks}
    (hb : Landmarks.KindWellFormed variant b.coreType) :
    (Core.decoder variant b.coreType).ReadsItem (b.CoreRead variant) fun _ => False := by
  have hlawful := lawful_landmarkOf hb
  refine ensures_readPiece_bind ?_ fun _ _ => ⟨none, rfl, trivial⟩
  intro piece hpiece
  have hvalid := hlawful.valid_parse piece hpiece
  have hspells := hlawful.spells hpiece
  generalize hposition : (landmarkOf variant b.coreType).parse piece = position at hvalid hspells
  replace hposition : ((landmark variant).parse piece).ofList variant b.coreType = position :=
    hposition
  simp only [hposition]
  have hangular := Landmarks.coreIsAngular_eq (c := { toLandmark := position }) hvalid
  cases hkind : isAngular position.kind with
  | false =>
    rw [hkind] at hangular
    refine ⟨hvalid, hangular.symm, ?_⟩
    rw [Landmarks.coreMask, Landmarks.corePieces, hangular]
    exact hspells.append spells_nil
  | true =>
    rw [hkind] at hangular
    refine ensures_readPiece_bind ?_ fun _ _ => ⟨none, rfl, trivial⟩
    intro piece' hpiece'
    refine ⟨hvalid, hangular.symm, ?_⟩
    rw [Landmarks.coreMask, Landmarks.corePieces]
    rw [show b.coreIsAngular variant { toLandmark := position, angle := some (byte.parse piece') }
      = true from hangular, List.append_nil]
    exact hspells.append (lawful_byte.spells hpiece')

theorem Delta.readsItem_decoder {variant : Variant} {b : Landmarks}
    (hb : Landmarks.KindWellFormed variant b.deltaType) :
    (Delta.decoder variant b.deltaType).ReadsItem (b.DeltaRead variant) fun _ => False := by
  have hlawful := lawful_landmarkOf hb
  refine ensures_readPiece_bind ?_ fun _ _ => ⟨none, rfl, trivial⟩
  intro piece hpiece
  have hvalid := hlawful.valid_parse piece hpiece
  have hspells := hlawful.spells hpiece
  generalize hposition : (landmarkOf variant b.deltaType).parse piece = position at hvalid hspells
  replace hposition : ((landmark variant).parse piece).ofList variant b.deltaType = position :=
    hposition
  simp only [hposition]
  have hangular := Landmarks.deltaIsAngular_eq (d := { toLandmark := position }) hvalid
  cases hkind : isAngular position.kind with
  | false =>
    rw [hkind] at hangular
    refine ⟨hvalid, hangular.symm, ?_⟩
    rw [Landmarks.deltaMask, Landmarks.deltaPieces, hangular]
    exact hspells.append spells_nil
  | true =>
    rw [hkind] at hangular
    refine ensures_readPiece_bind ?_ fun _ _ => ⟨none, rfl, trivial⟩
    intro piece' hpiece'
    refine ⟨hvalid, hangular.symm, ?_⟩
    rw [Landmarks.deltaMask, Landmarks.deltaPieces]
    rw [show b.deltaIsAngular variant
        { toLandmark := position, angles := some (deltaAngles.parse piece') } = true from hangular,
      List.append_nil]
    exact hspells.append (lawful_deltaAngles.spells hpiece')

namespace Landmarks

variable {variant : Variant}

/-- The deltas, behind the cores that a draft has. -/
def deltasDecoder (variant : Variant) (draft : Landmarks) : Decoder (Decoded Landmarks) :=
  readPieceOr draft (deltasInfo variant) fun info =>
    (several (fun _ => Delta.decoder variant info.kind) info.count.toNat).bind fun deltas =>
      done (deltas.map fun deltas =>
        { draft with deltaType := info.kind, numDeltas := info.count, deltas })

/-- The cores of a list and its header, as they were read from the bytes. -/
structure CoresRead (variant : Variant) (bytes : Bytes) (b : Landmarks) : Prop where
  numCores : b.numCores.toNat = b.cores.length
  numCores_lt : b.numCores.toNat < 2 ^ 4
  coreType : KindWellFormed variant b.coreType
  cores : ∀ c ∈ b.cores, c.toLandmark.WellFormed variant b.coreType
  core_angle : ∀ c ∈ b.cores, c.angle.isSome = b.coreIsAngular variant c
  spells : Spells (coresMask variant ++ b.cores.flatMap (b.coreMask variant))
    ((coresInfo variant).piece ⟨b.coreType, b.numCores⟩ :: b.cores.flatMap (b.corePieces variant))
    bytes

/-- Cores without deltas fit, whether or not they are as many as was announced. -/
theorem allFit_pieces_of_cores {coreType numCores : UInt8} {cores : List Core}
    (hcount : numCores.toNat < 2 ^ 4) (htype : KindWellFormed variant coreType)
    (hcores : ∀ c ∈ cores, c.toLandmark.WellFormed variant coreType) :
    Piece.AllFit (pieces variant { coreType, numCores, cores }) := by
  have hzero : KindWellFormed variant 0 := by
    unfold KindWellFormed
    split <;> decide
  have hnone : (0 : UInt8).toNat < 2 ^ 6 := by decide
  refine allFit_pieces hcount htype hcores hnone hzero ?_
  intro d hd
  cases hd

theorem reads_deltasDecoder {coreType numCores : UInt8} {cores : List Core} {front : Bytes}
    (h : CoresRead variant front { coreType, numCores, cores }) :
    (deltasDecoder variant { coreType, numCores, cores }).Reads
      (fun bytes b => b.WellFormed variant ∧
        Spells (b.mask variant) (b.pieces variant) (front ++ bytes))
      fun b => Piece.AllFit (b.pieces variant) := by
  refine reads_readPieceOr ?_ (allFit_pieces_of_cores h.numCores_lt h.coreType h.cores)
  intro piece hpiece
  obtain ⟨htype, hcount⟩ := (lawful_deltasInfo variant).valid_parse piece hpiece
  have hinfo := (lawful_deltasInfo variant).spells hpiece
  generalize (deltasInfo variant).parse piece = info at htype hcount hinfo
  let draft : Landmarks :=
    { coreType, numCores, cores, deltaType := info.kind, numDeltas := info.count }
  have hdecoder : ∀ _ : Nat, (Delta.decoder variant info.kind).ReadsItem (draft.DeltaRead variant)
      fun d => d.toLandmark.WellFormed variant info.kind := fun _ =>
    (Delta.readsItem_decoder (b := draft) htype).mono (fun _ _ h => h) fun _ => False.elim
  refine Reads.map (reads_several hdecoder (fun _ _ h => h.landmark) _) ?_ ?_
  · rintro bytes deltas ⟨hlength, hdeltas⟩
    refine ⟨?_, ?_⟩
    · exact
        { numCores := h.numCores
          cores_length := h.numCores ▸ h.numCores_lt
          coreType := h.coreType
          cores := h.cores
          core_angle := h.core_angle
          numDeltas := hlength.symm
          deltas_length := hlength ▸ hcount
          deltaType := htype
          deltas := hdeltas.forall fun _ _ h => h.landmark
          delta_angles := hdeltas.forall fun _ _ h => h.angles }
    · exact h.spells.append (hinfo.append (spells_of_concat (fun _ _ h => h.spells) hdeltas))
  · intro deltas hdeltas
    exact allFit_pieces h.numCores_lt h.coreType h.cores hcount htype hdeltas

theorem reads_entriesDecoder (variant : Variant) :
    (entriesDecoder variant).Reads
      (fun bytes b => b.WellFormed variant ∧ Spells (b.mask variant) (b.pieces variant) bytes)
      fun b => Piece.AllFit (b.pieces variant) := by
  have hempty : Piece.AllFit (pieces variant {}) := by
    refine allFit_pieces_of_cores (by decide) (by unfold KindWellFormed; split <;> decide) ?_
    intro c hc
    cases hc
  refine reads_readPieceOr ?_ hempty
  intro piece hpiece
  obtain ⟨htype, hcount⟩ := (lawful_coresInfo variant).valid_parse piece hpiece
  have hinfo := (lawful_coresInfo variant).spells hpiece
  generalize (coresInfo variant).parse piece = info at htype hcount hinfo
  let draft : Landmarks := { coreType := info.kind, numCores := info.count }
  have hdecoder : ∀ _ : Nat, (Core.decoder variant info.kind).ReadsItem (draft.CoreRead variant)
      fun c => c.toLandmark.WellFormed variant info.kind := fun _ =>
    (Core.readsItem_decoder (b := draft) htype).mono (fun _ _ h => h) fun _ => False.elim
  refine Reads.bind (reads_several hdecoder (fun _ _ h => h.landmark) _) ?_ ?_
  · rintro bytes cores ⟨hlength, hcores⟩
    have hread : CoresRead variant (piece ++ bytes)
        { coreType := info.kind, numCores := info.count, cores } :=
      { numCores := hlength.symm
        numCores_lt := hcount
        coreType := htype
        cores := hcores.forall fun _ _ h => h.landmark
        core_angle := hcores.forall fun _ _ h => h.angle
        spells := hinfo.append (spells_of_concat (fun _ _ h => h.spells) hcores) }
    have hdeltas := reads_deltasDecoder hread
    simp only [List.append_assoc] at hdeltas
    exact hdeltas
  · intro cores hcores
    exact ⟨_, rfl, allFit_pieces_of_cores hcount htype hcores⟩

end Landmarks

theorem Landmarks.reads_decoder (variant : Variant) (place : Place) (declared : Nat) :
    (Landmarks.decoder variant place declared).Reads
      (fun bytes b => b.WellFormed variant ∧ b.encodedLength variant = declared ∧
        Spells (b.mask variant) (b.pieces variant) bytes)
      fun b => Piece.AllFit (b.pieces variant) := by
  refine Reads.bind (Landmarks.reads_entriesDecoder variant) ?_ fun b hb => ⟨b, rfl, hb⟩
  rintro bytes b ⟨hwell, hspells⟩
  show Decoder.Reads (if b.encodedLength variant = declared then _ else _) _ _
  split
  · next hlength =>
    show _ ∧ _ ∧ Spells _ _ (bytes ++ [])
    rw [List.append_nil]
    exact ⟨hwell, hlength, hspells⟩
  · trivial

/-! ### Payloads, records and blocks -/

/-- A payload of a declared type and length that was read from the bytes. -/
structure Payload.Read (variant : Variant) (typeId : UInt16) (declared : Nat) (bytes : Bytes)
    (p : Payload) : Prop where
  wellFormed : p.WellFormed variant
  typeId : p.typeId = typeId
  length : p.encodedLength variant = declared
  spells : Spells (p.mask variant) (p.pieces variant) bytes

theorem Payload.reads_decoder (variant : Variant) (place : Place) (typeId : UInt16)
    (declared : Nat) :
    (Payload.decoder variant place typeId declared).Reads (Payload.Read variant typeId declared)
      fun p => Piece.AllFit (p.pieces variant) := by
  rw [Payload.decoder]
  split
  · next hridges =>
    refine (RidgeCounts.reads_decoder place declared).map ?_ fun _ hb => hb
    rintro bytes b ⟨hlength, hspells⟩
    exact ⟨trivial, hridges.symm, hlength, hspells⟩
  · next hridges =>
    split
    · next hlandmarks =>
      refine (Landmarks.reads_decoder variant place declared).map ?_ fun _ hb => hb
      rintro bytes b ⟨hwell, hlength, hspells⟩
      exact ⟨hwell, hlandmarks.symm, hlength, hspells⟩
    · next hlandmarks =>
      refine ⟨?_, fun bytes _ => ⟨.incomplete (.raw typeId []), rfl, ?_⟩⟩
      · intro data hdata
        show Payload.Read variant typeId declared (data ++ []) (.raw typeId data)
        rw [List.append_nil]
        exact ⟨⟨hridges, hlandmarks⟩, rfl, hdata, spells_plain data⟩
      · exact Payload.WellFormed.allFit (p := .raw typeId []) ⟨hridges, hlandmarks⟩

/-- An extended data record that was read from the bytes. -/
structure ExtendedRecord.Read (variant : Variant) (bytes : Bytes) (d : ExtendedRecord) :
    Prop where
  wellFormed : d.WellFormed variant
  spells : Spells (d.mask variant) (d.pieces variant) bytes

/-- A header that declares a possible length and the payload that it declares are a record. -/
theorem ExtendedRecord.Read.of_payload {variant : Variant} {remaining : Nat} {piece bytes : Bytes}
    {p : Payload} (hpiece : piece.length = 4)
    (hdefect : lengthDefect? (dataHeader.parse piece).length.toNat remaining = none)
    (h : Payload.Read variant (dataHeader.parse piece).typeId
      ((dataHeader.parse piece).length.toNat - 4) bytes p) :
    ExtendedRecord.Read variant (piece ++ bytes)
      { length := (dataHeader.parse piece).length, payload := p } := by
  have hheader : Spells (allBits 4) [dataHeader.piece (dataHeader.parse piece)] piece :=
    lawful_dataHeader.spells hpiece
  obtain ⟨hroom, -⟩ := bounds_of_lengthDefect? hdefect
  generalize dataHeader.parse piece = header at h hheader hroom ⊢
  refine ⟨⟨rfl, ?_, h.wellFormed⟩, ?_⟩
  · show header.length.toNat = 4 + p.encodedLength variant
    rw [h.length]
    omega
  · have hspells : Spells (allBits 4) [dataHeader.piece ⟨p.typeId, header.length⟩] piece := by
      rw [h.typeId]
      exact hheader
    exact hspells.append h.spells

/-- **Blocks stop where they should.** The records that are read declare together exactly the bytes
that the block had left. -/
theorem ExtendedBlock.reads_recordsDecoder (variant : Variant) (view index remaining : Nat)
    (got : List ExtendedRecord) :
    (ExtendedBlock.recordsDecoder variant view index remaining got).Reads
      (fun bytes ds => ∃ more, ds = got.reverse ++ more ∧
        (more.map fun d => d.length.toNat).sum = remaining ∧
        Concat (ExtendedRecord.Read variant) bytes more)
      fun ds => ∃ more, ds = got.reverse ++ more ∧ ∀ d ∈ more, Piece.AllFit (d.pieces variant) := by
  induction remaining using Nat.strongRecOn generalizing index got with
  | ind remaining ih =>
  rw [ExtendedBlock.recordsDecoder]
  split
  · next hremaining => exact ⟨[], by simp, hremaining.symm, .nil⟩
  · refine ensures_readPiece_bind ?_ fun _ _ => ⟨_, rfl, [], by simp, by simp⟩
    intro piece hpiece
    dsimp only
    split
    · trivial
    · next hdefect =>
      obtain ⟨hroom, hfits⟩ := ExtendedRecord.bounds_of_lengthDefect? hdefect
      refine Reads.bind (Payload.reads_decoder variant _ (dataHeader.parse piece).typeId _) ?_
        fun p hp => ⟨_, rfl, [_], List.reverse_cons, List.forall_mem_singleton.mpr
          (ExtendedRecord.allFit_pieces_iff.mpr hp)⟩
      intro bytes p hp
      have hread := ExtendedRecord.Read.of_payload hpiece hdefect hp
      generalize dataHeader.parse piece = header at hread hroom hfits
      refine Ensures.mono (ih _ (by omega) (index + 1) _) ?_ ?_
      · rintro bytes' (ds | ds) hds
        · obtain ⟨more, rfl, hsum, hmore⟩ := hds
          refine ⟨{ length := header.length, payload := p } :: more, by simp, ?_, ?_⟩
          · rw [List.map_cons, List.sum_cons, hsum]
            show header.length.toNat + (remaining - header.length.toNat) = remaining
            omega
          · have hall := Concat.cons hread hmore
            rw [List.append_assoc] at hall
            exact hall
        · exact hds
      · rintro bytes' (ds | ds) hds
        · exact hds
        · obtain ⟨more, rfl, hmore⟩ := hds
          exact ⟨{ length := header.length, payload := p } :: more, by simp,
            List.forall_mem_cons.mpr ⟨hread.wellFormed.allFit, hmore⟩⟩

/-- The decoder of a block is told the length, so the two bytes of the length are not among those
that it reads. -/
theorem ExtendedBlock.reads_decoder (variant : Variant) (view : Nat) {blockLength : UInt16}
    (hlength : blockLength ≠ 0) :
    (ExtendedBlock.decoder variant view blockLength).Reads
      (fun bytes b => b.WellFormed variant ∧ b.blockLength = blockLength ∧
        Spells (b.records.flatMap (ExtendedRecord.mask variant))
          (b.records.flatMap (ExtendedRecord.pieces variant)) bytes)
      fun b => Piece.AllFit (b.pieces variant) := by
  refine Reads.bind (reads_recordsDecoder variant view 0 blockLength.toNat []) ?_ ?_
  · rintro bytes ds ⟨more, rfl, hsum, hmore⟩
    have hpositive : 0 < blockLength.toNat :=
      Nat.pos_of_ne_zero fun h => hlength (UInt16.toNat_inj.mp h)
    show _ ∧ _ ∧ Spells _ _ (bytes ++ [])
    rw [List.append_nil]
    refine ⟨?_, rfl, spells_of_concat (fun _ _ h => h.spells) hmore⟩
    exact
      { whole := rfl
        length := hsum.symm
        nonempty := Nat.lt_of_lt_of_eq hpositive hsum.symm
        records := hmore.forall fun _ _ h => h.wellFormed }
  · rintro ds ⟨more, rfl, hmore⟩
    exact ⟨_, rfl, allFit_pieces_iff.mpr hmore⟩

end FingerMinutiae
