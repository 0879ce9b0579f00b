import FingerMinutiae.Proofs.Decoding.CutShort
import FingerMinutiae.Proofs.Decoding.Record

/-!
# Views that are cut short

For each node within a view, the run that is cut short in it is compared with a longer one. The node
of the first run is the truncated node of the second. The proofs follow the decoders: where the
bytes end, the first run settles for a draft, and what is to be shown of the second is only how it
fills the draft up.

## Main results

* `Landmarks.truncate_of_cutShort`, `Payload.truncate_of_cutShort`,
  `ExtendedBlock.truncate_of_cutShort`: extended data.
* `FingerView.cutsItem_decoder`: views.
-/

namespace FingerMinutiae

open Decoder Layout

variable {bytes : Bytes}

/-! ### Ridge counts -/

theorem cutsItem_item {α : Type} (layout : Layout α) :
    (item layout).CutsItem (fun _ => layout.width) (fun _ => true) fun _ _ => none :=
  cutsItem_of_readsItem (readsItem_item layout) fun _ _ h => h.1

theorem RidgeCounts.truncate_of_cutShort {place : Place} {declared : Nat}
    {x y : Decoded RidgeCounts} (h : (RidgeCounts.decoder place declared).CutShort bytes x y) :
    x = .incomplete (y.value.truncate bytes.length) := by
  rw [RidgeCounts.decoder] at h
  split at h
  · obtain ⟨hlt, rfl, -⟩ | ⟨piece, back, hpiece, rfl, hback⟩ := h.readPieceOr_cases
    · have hnone : bytes.length = 0 := Nat.lt_one_iff.mp hlt
      simp [truncate, hnone]
    · obtain ⟨counts, counts', hcut, rfl, rfl⟩ := hback.map_cases
      have hcounts := CutShort.several (fun _ => cutsItem_item ridgeCount) hcut
      have htake : truncateList (fun _ => ridgeCount.width) (fun _ => true) (fun _ _ => none)
          back.length counts'.value = counts'.value.take (back.length / 3) :=
        wholeItems_const (by decide) _ _
      have hone : piece.length = 1 := hpiece
      rw [hcounts, htake, List.length_append, hone]
      cases counts' <;> simp [truncate, Decoded.map]
  · exact absurd h not_cutShort_malformed

/-! ### Cores and deltas -/

theorem Landmarks.CoreRead.length_eq {variant : Variant} {b : Landmarks} (bytes : Bytes) (c : Core)
    (h : b.CoreRead variant bytes c) : bytes.length = b.coreLength variant c := by
  rw [← h.spells.length_mask, Landmarks.length_coreMask]

theorem Landmarks.DeltaRead.length_eq {variant : Variant} {b : Landmarks} (bytes : Bytes)
    (d : Delta) (h : b.DeltaRead variant bytes d) : bytes.length = b.deltaLength variant d := by
  rw [← h.spells.length_mask, Landmarks.length_deltaMask]

theorem Core.cutsItem_decoder {variant : Variant} {b : Landmarks}
    (hb : Landmarks.KindWellFormed variant b.coreType) :
    (Core.decoder variant b.coreType).CutsItem (b.coreLength variant) (fun _ => true)
      fun _ _ => none :=
  cutsItem_of_readsItem (Core.readsItem_decoder hb) Landmarks.CoreRead.length_eq

theorem Delta.cutsItem_decoder {variant : Variant} {b : Landmarks}
    (hb : Landmarks.KindWellFormed variant b.deltaType) :
    (Delta.decoder variant b.deltaType).CutsItem (b.deltaLength variant) (fun _ => true)
      fun _ _ => none :=
  cutsItem_of_readsItem (Delta.readsItem_decoder hb) Landmarks.DeltaRead.length_eq

namespace Landmarks

theorem gives_deltasDecoder {variant : Variant} {draft : Landmarks} {y : Decoded Landmarks}
    (h : (deltasDecoder variant draft).Gives y) :
    ∃ deltaType numDeltas deltas, y.value = { draft with deltaType, numDeltas, deltas } := by
  obtain rfl | ⟨info, hinfo⟩ := h.readPieceOr_cases
  · exact ⟨draft.deltaType, draft.numDeltas, draft.deltas, rfl⟩
  · obtain ⟨deltas | deltas, rfl⟩ := hinfo.map_cases
    · exact ⟨info.kind, info.count, deltas, rfl⟩
    · exact ⟨info.kind, info.count, deltas, rfl⟩

theorem truncate_of_cutShort_deltas {variant : Variant} {coreType numCores : UInt8}
    {cores : List Core} {x y : Decoded Landmarks}
    (h : (deltasDecoder variant { coreType, numCores, cores }).CutShort bytes x y) :
    x = .incomplete (y.value.truncate variant
      (1 + (cores.map (coreLength variant { coreType })).sum + bytes.length)) := by
  obtain ⟨deltaType, numDeltas, deltas, hy⟩ := gives_deltasDecoder h.gives
  obtain ⟨hlt, rfl, -⟩ | ⟨piece, back, hpiece, rfl, hback⟩ := h.readPieceOr_cases
  · have hnone : bytes.length = 0 := Nat.lt_one_iff.mp hlt
    have hcores : wholeItems (coreLength variant { coreType })
        (1 + (cores.map (coreLength variant { coreType })).sum - 1) cores = cores :=
      wholeItems_of_le (by omega)
    let b : Landmarks := { coreType, numCores, cores, deltaType, numDeltas, deltas }
    have htruncate : b.truncate variant (1 + (cores.map (coreLength variant { coreType })).sum)
        = { coreType, numCores, cores := wholeItems _ _ cores } :=
      truncate_of_cores variant (b := b) (Nat.le_add_right _ _) (.inl (Nat.le_refl _))
    rw [hnone, Nat.add_zero, hy]
    exact congrArg Decoded.incomplete (htruncate.trans
      (congrArg (fun cores => ({ coreType, numCores, cores } : Landmarks)) hcores)).symm
  · obtain ⟨htype, -⟩ := (lawful_deltasInfo variant).valid_parse piece hpiece
    generalize (deltasInfo variant).parse piece = info at htype hback
    obtain ⟨a, a', hcut, rfl, rfl⟩ := hback.map_cases
    have hdelta := fun _ : Nat => Delta.cutsItem_decoder (b := { deltaType := info.kind }) htype
    have hone : piece.length = 1 := hpiece
    rw [CutShort.several hdelta hcut, List.length_append, hone, ← Nat.add_assoc]
    have htruncate := truncate_of_deltas variant back.length
      { coreType, numCores, cores, deltaType := info.kind, numDeltas := info.count,
        deltas := a'.value }
    cases a' with
    | complete deltas => exact congrArg Decoded.incomplete htruncate.symm
    | incomplete deltas => exact congrArg Decoded.incomplete htruncate.symm

theorem truncate_of_cutShort_entries {variant : Variant} {x y : Decoded Landmarks}
    (h : (entriesDecoder variant).CutShort bytes x y) :
    x = .incomplete (y.value.truncate variant bytes.length) := by
  obtain ⟨hlt, rfl, -⟩ | ⟨piece, back, hpiece, rfl, hback⟩ := h.readPieceOr_cases
  · have hnone : bytes.length = 0 := Nat.lt_one_iff.mp hlt
    rw [hnone, truncate_zero]
  · obtain ⟨htype, -⟩ := (lawful_coresInfo variant).valid_parse piece hpiece
    generalize (coresInfo variant).parse piece = info at htype hback
    have hone : piece.length = 1 := hpiece
    have hreads := reads_several_length
      (fun _ : Nat => Core.readsItem_decoder (b := { coreType := info.kind }) htype)
      Landmarks.CoreRead.length_eq info.count.toNat
    obtain ⟨a, a', hcut, hx, hy⟩ | ⟨front, back', a, rfl, hvalue, hback'⟩ := hback.bind_cases
    · have hcore := fun _ : Nat => Core.cutsItem_decoder (b := { coreType := info.kind }) htype
      rw [CutShort.several hcore hcut] at hx
      cases hx
      rw [List.length_append, hone]
      rcases hcut.reads hreads with ⟨front, cores, rfl, ⟨-, hlength⟩, hlt⟩ | ⟨cores, rfl, -⟩
      · obtain ⟨deltaType, numDeltas, deltas, hy⟩ := gives_deltasDecoder hy
        have hshort : 1 + back.length
            ≤ 1 + (cores.map (coreLength variant { coreType := info.kind })).sum := by omega
        let b : Landmarks :=
          { coreType := info.kind, numCores := info.count, cores, deltaType, numDeltas, deltas }
        have htruncate := truncate_of_cores variant (b := b) (Nat.le_add_right _ _) (.inl hshort)
        rw [Nat.add_sub_cancel_left] at htruncate
        rw [hy]
        exact congrArg Decoded.incomplete htruncate.symm
      · let b : Landmarks := { coreType := info.kind, numCores := info.count, cores }
        have htruncate := truncate_of_cores variant (k := 1 + back.length) (b := b)
          (Nat.le_add_right _ _) (.inr ⟨rfl, rfl, rfl⟩)
        rw [Nat.add_sub_cancel_left] at htruncate
        rw [gives_done hy]
        exact congrArg Decoded.incomplete htruncate.symm
    · rcases a with cores | cores
      · have hlength : front.length
            = (cores.map (coreLength variant { coreType := info.kind })).sum :=
          (hreads.of_ends_value hvalue).2
        rw [List.length_append, List.length_append, hone, hlength, ← Nat.add_assoc]
        exact truncate_of_cutShort_deltas hback'
      · exact absurd hback' not_cutShort_done

/-- That the bytes declared are met is found out at the end, so it is no matter before. -/
theorem truncate_of_cutShort {variant : Variant} {place : Place} {declared : Nat}
    {x y : Decoded Landmarks} (h : (Landmarks.decoder variant place declared).CutShort bytes x y) :
    x = .incomplete (y.value.truncate variant bytes.length) := by
  obtain ⟨a, a', hcut, hx, hy⟩ | ⟨front, back, a, rfl, -, hback⟩ := h.bind_cases
  · have ha := truncate_of_cutShort_entries hcut
    subst ha
    cases hx
    cases a' with
    | incomplete b => rw [gives_done hy]
    | complete b =>
      replace hy : (if b.encodedLength variant = declared then done (.complete b)
        else malformed _ place _ : Decoder (Decoded Landmarks)).Gives y := hy
      split at hy
      · rw [gives_done hy]
      · exact absurd hy not_gives_malformed
  · cases a with
    | incomplete b => exact absurd hback not_cutShort_done
    | complete b =>
      replace hback : (if b.encodedLength variant = declared then done (.complete b)
        else malformed _ place _ : Decoder (Decoded Landmarks)).CutShort back x y := hback
      split at hback
      · exact absurd hback not_cutShort_done
      · exact absurd hback not_cutShort_malformed

end Landmarks

/-! ### Payloads, records and blocks -/

theorem Payload.truncate_of_cutShort {variant : Variant} {place : Place} {typeId : UInt16}
    {declared : Nat} {x y : Decoded Payload}
    (h : (Payload.decoder variant place typeId declared).CutShort bytes x y) :
    x = .incomplete (y.value.truncate variant bytes.length) := by
  rw [Payload.decoder] at h
  split at h
  · obtain ⟨a, a', hcut, rfl, rfl⟩ := CutShort.map_cases h
    rw [RidgeCounts.truncate_of_cutShort hcut]
    cases a' <;> rfl
  · split at h
    · obtain ⟨a, a', hcut, rfl, rfl⟩ := CutShort.map_cases h
      rw [Landmarks.truncate_of_cutShort hcut]
      cases a' <;> rfl
    · obtain ⟨-, hx, ⟨got, -, hy⟩ | ⟨data, -, hy⟩⟩ | ⟨data, back, -, -, hback⟩ := h.take_cases
      · cases hx
        rw [gives_done hy]
        rfl
      · cases hx
        rw [gives_done hy]
        rfl
      · exact absurd hback not_cutShort_done

/-- The bytes of a payload are as many as were declared for it. -/
theorem Payload.Read.length_eq {variant : Variant} {typeId : UInt16} {declared : Nat} {p : Payload}
    (h : Payload.Read variant typeId declared bytes p) : bytes.length = declared := by
  rw [← h.spells.length_mask, Payload.length_mask, h.length]

namespace ExtendedBlock

/-- The records behind a header, which come after its payload. -/
def payloadNext (variant : Variant) (view index remaining : Nat) (got : List ExtendedRecord)
    (length : UInt16) : Decoded Payload → Decoder (Decoded (List ExtendedRecord))
  | .complete payload =>
    recordsDecoder variant view (index + 1) (remaining - length.toNat) ({ length, payload } :: got)
  | .incomplete payload =>
    done (.incomplete
      (({ length, payload, truncated := true } : ExtendedRecord) :: got).reverse)

/-- The records that are given come behind those read before, and each has room for its header. -/
theorem gives_recordsDecoder {variant : Variant} {view index remaining : Nat}
    {got : List ExtendedRecord} {y : Decoded (List ExtendedRecord)}
    (h : (recordsDecoder variant view index remaining got).Gives y) :
    ∃ more, y.value = got.reverse ++ more ∧ ∀ d ∈ more, 4 ≤ d.length.toNat := by
  have hnone : ∀ got : List ExtendedRecord, ∃ more, got.reverse = got.reverse ++ more ∧
      ∀ d ∈ more, 4 ≤ d.length.toNat := by
    intro got
    exact ⟨[], by simp, by simp⟩
  induction remaining using Nat.strongRecOn generalizing index got with
  | ind remaining ih =>
  rw [recordsDecoder] at h
  split at h
  · rw [gives_done h]
    exact hnone got
  · obtain ⟨header | got', -, hheader⟩ := Gives.bind_cases h
    · dsimp only at hheader
      split at hheader
      · exact absurd hheader not_gives_malformed
      · next hdefect =>
        obtain ⟨hroom, hfits⟩ := ExtendedRecord.bounds_of_lengthDefect? hdefect
        obtain ⟨p | p, -, hp⟩ := Gives.bind_cases hheader
        · obtain ⟨more, hy, hmore⟩ := ih _ (by omega) hp
          refine ⟨{ length := header.length, payload := p } :: more, ?_,
            List.forall_mem_cons.mpr ⟨hroom, hmore⟩⟩
          rw [hy, List.reverse_cons, List.append_assoc]
          rfl
        · rw [gives_done hp]
          exact ⟨[_], List.reverse_cons, List.forall_mem_singleton.mpr hroom⟩
    · rw [gives_done hheader]
      exact hnone got

/-- The record of a payload comes first of those that are given, and is marked if the payload is
not whole. -/
theorem gives_payloadNext {variant : Variant} {view index remaining : Nat}
    {got : List ExtendedRecord} {length : UInt16} {p : Decoded Payload}
    {y : Decoded (List ExtendedRecord)}
    (h : (payloadNext variant view index remaining got length p).Gives y) :
    ∃ truncated more, (truncated = false → p = .complete p.value) ∧
      y.value = got.reverse ++ { length, payload := p.value, truncated } :: more := by
  rcases p with p | p
  · obtain ⟨more, hy, -⟩ := gives_recordsDecoder h
    refine ⟨false, more, fun _ => rfl, ?_⟩
    rw [hy, List.reverse_cons, List.append_assoc]
    rfl
  · rw [gives_done h]
    exact ⟨true, [], fun h => absurd h.symm Bool.false_ne_true, List.reverse_cons⟩

section Records

variable {variant : Variant} {view index remaining : Nat} {got : List ExtendedRecord}
  {x y : Decoded (List ExtendedRecord)}

/-- A payload that is cut short is that of the last record there is. -/
theorem truncate_of_cutShort_payload {place : Place} {typeId length : UInt16}
    {p p' : Decoded Payload}
    (hcut : (Payload.decoder variant place typeId (length.toNat - 4)).CutShort bytes p p')
    (hx : payloadNext variant view index remaining got length p = done x)
    (hy : (payloadNext variant view index remaining got length p').Gives y) :
    ∃ more, y.value = got.reverse ++ more ∧ x = .incomplete
      (got.reverse ++ ExtendedRecord.truncateAll variant (4 + bytes.length) more) := by
  obtain ⟨truncated, more, hwhole, hy⟩ := gives_payloadNext hy
  refine ⟨_, hy, ?_⟩
  have hshort : truncated = false → 4 + bytes.length < length.toNat := by
    intro htruncated
    rcases hcut.reads (Payload.reads_decoder variant _ _ _) with
      ⟨front, q, -, hread, hlt⟩ | ⟨q, rfl, -⟩
    · have hdeclared : front.length = length.toNat - 4 := hread.length_eq
      omega
    · cases hwhole htruncated
  have hpayload := Payload.truncate_of_cutShort hcut
  subst hpayload
  cases hx
  rw [ExtendedRecord.truncateAll_of_payload more hshort, List.reverse_cons]

/-- A record that is whole stays in front of what is left of those behind it. -/
theorem truncateAll_of_cons {d : ExtendedRecord} {k : Nat} (hwhole : d.truncated = false)
    (h : ∃ more, y.value = (d :: got).reverse ++ more ∧
      x = .incomplete ((d :: got).reverse ++ ExtendedRecord.truncateAll variant k more)) :
    ∃ more, y.value = got.reverse ++ more ∧ x = .incomplete
      (got.reverse ++ ExtendedRecord.truncateAll variant (d.length.toNat + k) more) := by
  obtain ⟨more, hy, hx⟩ := h
  refine ⟨d :: more, ?_, ?_⟩
  · rw [hy, List.reverse_cons, List.append_assoc]
    rfl
  · rw [ExtendedRecord.truncateAll_of_whole more hwhole, hx, List.reverse_cons, List.append_assoc]
    rfl

/-- **Blocks that are cut short.** -/
theorem truncate_of_cutShort_records
    (h : (recordsDecoder variant view index remaining got).CutShort bytes x y) :
    ∃ more, y.value = got.reverse ++ more ∧
      x = .incomplete (got.reverse ++ ExtendedRecord.truncateAll variant bytes.length more) := by
  induction remaining using Nat.strongRecOn generalizing index got bytes with
  | ind remaining ih =>
  obtain ⟨more, hy, hmore⟩ := gives_recordsDecoder h.gives
  rw [recordsDecoder] at h
  split at h
  · exact absurd h not_cutShort_done
  · obtain ⟨hlt, hx, -⟩ | ⟨piece, back, hpiece, rfl, hback⟩ := h.readPiece_cases
    · -- The header of a record is cut short, so nothing of the record is there.
      cases hx
      refine ⟨more, hy, ?_⟩
      rw [ExtendedRecord.truncateAll_of_lt hlt hmore, List.append_nil]
    · have hfour : piece.length = 4 := hpiece
      generalize dataHeader.parse piece = header at hback
      dsimp only at hback
      split at hback
      · exact absurd hback not_cutShort_malformed
      · next hdefect =>
        obtain ⟨hroom, hfits⟩ := ExtendedRecord.bounds_of_lengthDefect? hdefect
        change ((Payload.decoder variant (.data view index) header.typeId _).bind
          (payloadNext variant view index remaining got header.length)).CutShort back x y at hback
        rw [List.length_append, hfour]
        obtain ⟨a, a', hcut, hx, hp⟩ | ⟨front, back', a, rfl, hvalue, hback'⟩ := hback.bind_cases
        · exact truncate_of_cutShort_payload hcut hx hp
        · rcases a with p | p
          · have hread : Payload.Read variant header.typeId _ front p :=
              (Payload.reads_decoder variant _ _ _).of_ends_value hvalue
            have hdeclared : front.length = header.length.toNat - 4 := hread.length_eq
            have hlength : 4 + (front ++ back').length = header.length.toNat + back'.length := by
              rw [List.length_append, hdeclared, ← Nat.add_assoc, Nat.add_sub_of_le hroom]
            rw [hlength]
            exact truncateAll_of_cons rfl (ih _ (by omega) hback')
          · exact absurd hback' not_cutShort_done

end Records

theorem truncate_of_cutShort {variant : Variant} {view : Nat} {blockLength : UInt16}
    {x y : Decoded ExtendedBlock}
    (h : (ExtendedBlock.decoder variant view blockLength).CutShort bytes x y) :
    x = .incomplete (y.value.truncate variant bytes.length) := by
  obtain ⟨a, a', hcut, hx, hy⟩ | ⟨front, back, a, rfl, -, hback⟩ := h.bind_cases
  · obtain ⟨more, hmore, ha⟩ := truncate_of_cutShort_records hcut
    obtain rfl : a'.value = more := hmore
    subst ha
    cases hx
    cases a' <;> rw [gives_done hy] <;> rfl
  · cases a with
    | complete => exact absurd hback not_cutShort_done
    | incomplete => exact absurd hback not_cutShort_done

end ExtendedBlock

/-! ### Views -/

namespace FingerView

theorem gives_extendedDecoder {variant : Variant} {index : Nat} {draft : FingerView}
    {y : Option (Decoded FingerView)} (h : (extendedDecoder variant index draft).Gives y) :
    ∃ z, y = some z ∧ z.value.toViewHeader = draft.toViewHeader ∧
      z.value.minutiae = draft.minutiae := by
  obtain ⟨blockLength | got, -, hy⟩ := h.bind_cases
  · dsimp only at hy
    split at hy
    · exact ⟨_, gives_done hy, rfl, rfl⟩
    · obtain ⟨b | b, -, hb⟩ := hy.bind_cases
      · exact ⟨_, gives_done hb, rfl, rfl⟩
      · exact ⟨_, gives_done hb, rfl, rfl⟩
  · exact ⟨_, gives_done hy, rfl, rfl⟩

theorem gives_minutiaeDecoder {variant : Variant} {index : Nat} {header : ViewHeader}
    {y : Option (Decoded FingerView)} (h : (minutiaeDecoder variant index header).Gives y) :
    ∃ z, y = some z ∧ z.value.toViewHeader = header := by
  obtain ⟨minutiae | minutiae, -, hy⟩ := h.bind_cases
  · obtain ⟨z, hz, hheader, -⟩ := gives_extendedDecoder hy
    exact ⟨z, hz, hheader⟩
  · exact ⟨_, gives_done hy, rfl⟩

theorem truncate_of_cutShort_extended {variant : Variant} {index : Nat} {header : ViewHeader}
    {minutiae : List Minutia} {x y : Option (Decoded FingerView)}
    (hwidth : 0 < variant.minutiaLength)
    (h : (extendedDecoder variant index { toViewHeader := header, minutiae }).CutShort bytes x y) :
    x.map Decoded.value = y.bind fun z => z.value.truncate variant
      (4 + (minutiae.length * variant.minutiaLength + bytes.length)) := by
  obtain ⟨hlt, hx, -⟩ | ⟨piece, back, hpiece, rfl, hback⟩ := h.readPiece_cases
  · cases hx
    obtain ⟨z, rfl, hheader, hminutiae⟩ := gives_extendedDecoder h.gives
    replace hlt : bytes.length < 2 := hlt
    have hall : minutiae.take ((minutiae.length * variant.minutiaLength + bytes.length)
        / variant.minutiaLength) = minutiae := by
      apply List.take_of_length_le
      rw [Nat.le_div_iff_mul_le hwidth]
      exact Nat.le_add_right _ _
    rw [Option.bind_some, truncate_of_minutiae (.inl ?_), hheader, hminutiae]
    · dsimp only
      rw [hall]
      rfl
    · rw [hminutiae]
      exact Nat.add_lt_add_left hlt _
  · have htwo : piece.length = 2 := hpiece
    dsimp only at hback
    split at hback
    · exact absurd hback not_cutShort_done
    · obtain ⟨a, a', hcut, hx, hy⟩ | ⟨front, back', a, rfl, -, hback'⟩ := hback.bind_cases
      · have hblock := ExtendedBlock.truncate_of_cutShort hcut
        subst hblock
        cases hx
        rw [List.length_append, htwo]
        cases a' with
        | complete b =>
          let v : FingerView := { toViewHeader := header, minutiae, extended := some b }
          rw [gives_done hy]
          exact (truncate_of_block hwidth back.length v).symm
        | incomplete b =>
          let v : FingerView :=
            { toViewHeader := header, minutiae, extended := some b, truncated := true }
          rw [gives_done hy]
          exact (truncate_of_block hwidth back.length v).symm
      · cases a with
        | complete => exact absurd hback' not_cutShort_done
        | incomplete => exact absurd hback' not_cutShort_done

theorem reads_minutiae_length (variant : Variant) (count : Nat) :
    (several (fun _ => item (minutia variant)) count).Reads
      (fun bytes minutiae => minutiae.length = count ∧
        bytes.length = minutiae.length * variant.minutiaLength) fun _ => True := by
  refine (reads_several_length (fun _ => readsItem_item (minutia variant))
    (fun _ _ h => h.1) count).mono ?_ fun _ _ => trivial
  rintro bytes minutiae ⟨hcount, hlength⟩
  refine ⟨hcount, ?_⟩
  rw [hlength, width_minutia, List.map_const', List.sum_replicate_nat]

theorem truncate_of_cutShort_minutiae {variant : Variant} {index : Nat} {header : ViewHeader}
    {x y : Option (Decoded FingerView)} (hwidth : 0 < variant.minutiaLength)
    (h : (minutiaeDecoder variant index header).CutShort bytes x y) :
    x.map Decoded.value = y.bind fun z => z.value.truncate variant (4 + bytes.length) := by
  have hreads := reads_minutiae_length variant header.numMinutiae.toNat
  obtain ⟨a, a', hcut, hx, hy⟩ | ⟨front, back, a, rfl, hvalue, hback⟩ := h.bind_cases
  · have htake : truncateList (fun _ => (minutia variant).width) (fun _ => true) (fun _ _ => none)
        bytes.length a'.value = a'.value.take (bytes.length / variant.minutiaLength) := by
      rw [width_minutia]
      exact wholeItems_const hwidth _ _
    rw [CutShort.several (fun _ => cutsItem_item (minutia variant)) hcut, htake] at hx
    cases hx
    rcases hcut.reads hreads with ⟨front, minutiae, rfl, ⟨-, hlength⟩, hlt⟩ | ⟨minutiae, rfl, -⟩
    · obtain ⟨z, rfl, hheader, hminutiae⟩ := gives_extendedDecoder hy
      rw [Option.bind_some, truncate_of_minutiae (.inl ?_), hheader, hminutiae]
      · rfl
      · rw [hminutiae]
        show bytes.length < minutiae.length * variant.minutiaLength + 2
        omega
    · rw [gives_done hy]
      exact (truncate_of_minutiae (v := { toViewHeader := header, minutiae, truncated := true })
        (.inr rfl)).symm
  · cases a with
    | complete minutiae =>
      have hlength : front.length = minutiae.length * variant.minutiaLength :=
        (hreads.of_ends_value hvalue).2
      rw [List.length_append, hlength]
      exact truncate_of_cutShort_extended hwidth hback
    | incomplete => exact absurd hback not_cutShort_done

theorem truncate_of_cutShort {variant : Variant} {index : Nat}
    {x y : Option (Decoded FingerView)} (hwidth : 0 < variant.minutiaLength)
    (h : (FingerView.decoder variant index).CutShort bytes x y) :
    x.map Decoded.value = y.bind fun z => z.value.truncate variant bytes.length := by
  obtain ⟨hlt, hx, hy⟩ | ⟨piece, back, hpiece, rfl, hback⟩ := h.readPiece_cases
  · replace hlt : bytes.length < 4 := hlt
    cases hgot : bytes.length with
    | zero =>
      rw [hgot] at hx
      cases hx
      cases y <;> rfl
    | succ got =>
      have hz : ∃ z, y = some z := by
        obtain ⟨got', hle, hy⟩ | ⟨header, hy⟩ := hy
        · obtain ⟨n, rfl⟩ := Nat.exists_eq_add_of_le hle
          rw [hgot, Nat.add_right_comm] at hy
          exact ⟨_, gives_done hy⟩
        · obtain ⟨z, hz, -⟩ := gives_minutiaeDecoder hy
          exact ⟨z, hz⟩
      obtain ⟨z, rfl⟩ := hz
      rw [hgot] at hx
      cases hx
      rw [Option.bind_some, truncate_of_lt (Nat.succ_pos got) (by omega)]
      rfl
  · have hfour : piece.length = 4 := hpiece
    rw [List.length_append, hfour]
    exact truncate_of_cutShort_minutiae hwidth hback

/-- A view of a record with a header takes the bytes that are computed for it. -/
theorem Read.length_eq {variant : Variant} (hheader : variant.hasHeader = true) (bytes : Bytes)
    (v : FingerView) (h : FingerView.Read variant bytes v) :
    bytes.length = v.encodedLength variant := by
  rw [← h.spells.length_mask, length_mask hheader h.wellFormed]

/-- **Views that are cut short.** -/
theorem cutsItem_decoder {variant : Variant} (hheader : variant.hasHeader = true) (index : Nat) :
    (FingerView.decoder variant index).CutsItem (fun v => v.encodedLength variant)
      (fun v => !v.truncated) (FingerView.truncate variant) where
  prompt := (readsItem_decoder variant index).mono (fun _ _ _ => trivial) fun _ _ => trivial
  value bytes v hv := by
    have hread : FingerView.Read variant bytes v :=
      (readsItem_decoder variant index).of_ends_value hv
    refine ⟨?_, hread.length_eq hheader⟩
    rw [hread.wellFormed.whole]
    rfl
  short bytes x y h := truncate_of_cutShort (by cases variant <;> decide) h
  size_lt bytes x y h v hv hwhole := by
    cases hv
    obtain ⟨-, ⟨front, hy, hlt⟩ | ⟨longer, hy⟩⟩ := h.ensures (readsItem_decoder variant index)
    · cases v with
      | complete v => exact Nat.lt_of_lt_of_eq hlt (Read.length_eq hheader front v hy)
      | incomplete v => exact hy.elim
    · cases v with
      | complete v => exact hy.elim
      | incomplete v =>
        rw [Decoded.value_incomplete, hy.1] at hwhole
        cases hwhole

end FingerView

end FingerMinutiae
