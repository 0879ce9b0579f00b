import FingerMinutiae.Proofs.Decoding.Image
import FingerMinutiae.Proofs.Decoding.WholeBlocks
import FingerMinutiae.Proofs.LengthsInWords

/-!
# What is read was announced

Every list of a record is read by a count or a length that stands before it in the bytes, and
reading it stops at the latest when as much has come as was announced. So the lists of a record are
no longer than its counts and lengths can say, whether the record is whole or was cut short. For
nodes that are whole this is part of being well formed; here it is shown for both at once, since a
node that was cut short has whole nodes in it.

## Main definitions

* `Decoder.ReadsOnly`: what is true of a node, whole or not.

## Main results

* `Record.announceable_of_decode`: whatever is read, whole or not, was announced.
-/

namespace FingerMinutiae

open Decoder Layout

variable {variant : Variant}

namespace Decoder

variable {α β : Type}

/-- A node of which the condition holds, whole or not. -/
abbrev ReadsOnly (d : Decoder (Decoded α)) (P : α → Prop) : Prop :=
  d.Reads (fun _ => P) P

theorem ReadsOnly.map {d : Decoder (Decoded α)} {P : α → Prop} {Q : β → Prop} {g : α → β}
    (hd : d.ReadsOnly P) (h : ∀ a, P a → Q (g a)) :
    (d.bind fun x => done (x.map g)).ReadsOnly Q :=
  Reads.map hd (fun _ a => h a) h

theorem ReadsOnly.run_ok {d : Decoder (Decoded α)} {P : α → Prop} (hd : d.ReadsOnly P)
    {s s' : Buffer} {a : Decoded α} (h : d.run s = (.ok a, s')) : P a.value := by
  have hvalue : d.Ensures (fun _ a => P a.value) fun _ a => P a.value := by
    refine Ensures.mono hd ?_ ?_
    · rintro bytes (a | a) ha
      · exact ha
      · exact ha.elim
    · rintro bytes (a | a) ha
      · exact ha.elim
      · exact ha
  exact hvalue.run_ok h

/-- No more items are read than were asked for. -/
theorem readsOnly_several {each : Nat → Decoder (Option (Decoded α))} {P : α → Prop}
    (heach : ∀ index, (each index).ReadsItem (fun _ => P) P) (count : Nat) :
    (several each count).ReadsOnly fun as => as.length ≤ count ∧ ∀ a ∈ as, P a := by
  refine (reads_several_cut heach (fun _ _ h => h) (fun _ h => h) count).mono ?_ ?_
  · rintro bytes as ⟨hlength, has⟩
    exact ⟨Nat.le_of_eq hlength, has.forall fun _ _ h => h⟩
  · rintro as ⟨hlength, has, -⟩
    exact ⟨hlength, has⟩

theorem readsItem_true_item (layout : Layout α) :
    (item layout).ReadsItem (fun _ _ => True) fun _ => True :=
  (readsItem_item layout).mono (fun _ _ _ => trivial) fun _ => False.elim

end Decoder

/-! ### Payloads -/

theorem RidgeCounts.readsOnly_decoder (place : Place) (declared : Nat) :
    (RidgeCounts.decoder place declared).ReadsOnly fun b => b.counts.length ≤ declared := by
  rw [RidgeCounts.decoder]
  split
  · refine reads_readPieceOr ?_ (Nat.zero_le declared)
    intro piece _
    refine (readsOnly_several (fun _ => readsItem_true_item ridgeCount) _).map ?_
    rintro counts ⟨hlength, -⟩
    exact Nat.le_trans hlength (Nat.div_le_self declared 3)
  · trivial

/-- The counts of cores and deltas have four and six bits. -/
theorem Landmarks.readsOnly_entriesDecoder (variant : Variant) :
    (entriesDecoder variant).ReadsOnly fun b => b.cores.length ≤ 15 ∧ b.deltas.length ≤ 63 := by
  have hcore : ∀ (kind : UInt8) (_ : Nat), (Core.decoder variant kind).ReadsItem
      (fun _ _ => True) fun _ => True := fun kind _ =>
    (Core.readsItem_announced variant kind).mono (fun _ _ _ => trivial) fun _ h => h
  have hdelta : ∀ (kind : UInt8) (_ : Nat), (Delta.decoder variant kind).ReadsItem
      (fun _ _ => True) fun _ => True := fun kind _ =>
    (Delta.readsItem_announced variant kind).mono (fun _ _ _ => trivial) fun _ h => h
  refine reads_readPieceOr ?_ ⟨by decide, by decide⟩
  intro piece hpiece
  have hcores := count_le_of_coresInfo variant hpiece
  refine Reads.bind (readsOnly_several (hcore _) _) ?_ ?_
  · rintro _ cores ⟨hlength, -⟩
    refine reads_readPieceOr ?_ ⟨Nat.le_trans hlength hcores, Nat.zero_le 63⟩
    intro piece' hpiece'
    have hdeltas := count_le_of_deltasInfo variant hpiece'
    refine (readsOnly_several (hdelta _) _).map ?_
    rintro deltas ⟨hlength', -⟩
    exact ⟨Nat.le_trans hlength hcores, Nat.le_trans hlength' hdeltas⟩
  · rintro cores ⟨hlength, -⟩
    exact ⟨_, rfl, Nat.le_trans hlength hcores, Nat.zero_le 63⟩

theorem Landmarks.readsOnly_decoder (variant : Variant) (place : Place) (declared : Nat) :
    (Landmarks.decoder variant place declared).ReadsOnly
      fun b => b.cores.length ≤ 15 ∧ b.deltas.length ≤ 63 := by
  refine Reads.bind (readsOnly_entriesDecoder variant) ?_ fun b hb => ⟨b, rfl, hb⟩
  intro _ b hb
  dsimp only
  split
  · exact hb
  · trivial

theorem Payload.readsOnly_decoder (variant : Variant) (place : Place) (typeId : UInt16)
    {declared : Nat} (hdeclared : declared < 2 ^ 16) :
    (Payload.decoder variant place typeId declared).ReadsOnly Payload.Announceable := by
  rw [Payload.decoder]
  split
  · exact (RidgeCounts.readsOnly_decoder place declared).map fun _ hb =>
      Nat.lt_of_le_of_lt hb hdeclared
  · split
    · exact (Landmarks.readsOnly_decoder variant place declared).map fun _ hb => hb
    · refine ⟨?_, fun bytes _ => ⟨.incomplete (.raw typeId []), rfl, Nat.two_pow_pos 16⟩⟩
      intro data hdata
      show data.length < 2 ^ 16
      rw [hdata]
      exact hdeclared

/-! ### Blocks -/

namespace ExtendedBlock

/-- Records that were read, last first, in file order. -/
theorem announced_reverse {remaining most : Nat} {got : List ExtendedRecord}
    (hroom : (got.map fun d => d.length.toNat).sum + remaining ≤ most)
    (hgot : ∀ d ∈ got, d.payload.Announceable) :
    (got.reverse.map fun d => d.length.toNat).sum ≤ most ∧
      ∀ d ∈ got.reverse, d.payload.Announceable := by
  rw [List.map_reverse, List.sum_reverse]
  exact ⟨Nat.le_of_add_right_le hroom, fun d hd => hgot d (List.mem_reverse.mp hd)⟩

/-- **Blocks.** A record is read only if its block has room for the length that it declares, so what
was read before and what is left never come to more than the length of the block. -/
theorem readsOnly_recordsDecoder (variant : Variant) (view index remaining : Nat)
    {blockLength : UInt16} {got : List ExtendedRecord}
    (hroom : (got.map fun d => d.length.toNat).sum + remaining ≤ blockLength.toNat)
    (hgot : ∀ d ∈ got, d.payload.Announceable) :
    (recordsDecoder variant view index remaining got).ReadsOnly fun records =>
      (records.map fun d => d.length.toNat).sum ≤ blockLength.toNat ∧
        ∀ d ∈ records, d.payload.Announceable := by
  induction remaining using Nat.strongRecOn generalizing index got with
  | ind remaining ih =>
  rw [recordsDecoder]
  split
  · exact announced_reverse hroom hgot
  · refine ensures_readPiece_bind ?_ fun _ _ => ⟨_, rfl, announced_reverse hroom hgot⟩
    intro piece _
    dsimp only
    split
    · trivial
    · next hdefect =>
      obtain ⟨hheader, hfits⟩ := ExtendedRecord.bounds_of_lengthDefect? hdefect
      generalize dataHeader.parse piece = header at hheader hfits
      have hdeclared : header.length.toNat - ExtendedRecord.headerLength < 2 ^ 16 :=
        Nat.lt_of_le_of_lt (Nat.sub_le _ _) header.length.toNat_lt
      -- Whatever was read of the payload, the record is pushed with the length that it declares.
      have hpushed (payload : Payload) (truncated : Bool) :
          (({ length := header.length, payload, truncated } :: got).map fun d =>
            d.length.toNat).sum + (remaining - header.length.toNat) ≤ blockLength.toNat := by
        rw [List.map_cons, List.sum_cons]
        dsimp only
        omega
      refine Reads.bind (Payload.readsOnly_decoder variant _ header.typeId hdeclared) ?_ ?_
      · intro _ payload hpayload
        have hall : ∀ d ∈ { length := header.length, payload } :: got, d.payload.Announceable :=
          List.forall_mem_cons.mpr ⟨hpayload, hgot⟩
        exact ih _ (by omega) (index + 1) (hpushed payload false) hall
      · intro payload hpayload
        exact ⟨_, rfl, announced_reverse (hpushed payload true)
          (List.forall_mem_cons.mpr ⟨hpayload, hgot⟩)⟩

theorem readsOnly_decoder (variant : Variant) (view : Nat) (blockLength : UInt16) :
    (ExtendedBlock.decoder variant view blockLength).ReadsOnly Announceable := by
  have hroom : (([] : List ExtendedRecord).map fun d => d.length.toNat).sum + blockLength.toNat
      ≤ blockLength.toNat := Nat.le_of_eq (Nat.zero_add _)
  have hnone : ∀ d ∈ ([] : List ExtendedRecord), d.payload.Announceable := by
    intro d hd
    cases hd
  refine Reads.bind (readsOnly_recordsDecoder variant view 0 _ hroom hnone) ?_ ?_
  · rintro _ records ⟨hlength, hpayloads⟩
    exact ⟨hlength, hpayloads⟩
  · rintro records ⟨hlength, hpayloads⟩
    exact ⟨_, rfl, hlength, hpayloads⟩

end ExtendedBlock

/-! ### Views -/

namespace FingerView

/-- Whatever is read behind the minutiae, these are as many as a byte can count. -/
theorem readsItem_announceable_extendedDecoder (index : Nat) {draft : FingerView}
    (hlength : draft.minutiae.length ≤ 255) (hbare : draft.extended = none) :
    (extendedDecoder variant index draft).ReadsItem (fun _ => Announceable) Announceable := by
  have hdraft : Announceable { draft with truncated := true } :=
    announceable_of_bare hlength hbare
  refine ensures_readPiece_bind ?_ fun _ _ => ⟨_, rfl, hdraft⟩
  intro piece _
  dsimp only
  split
  · exact announceable_of_bare hlength hbare
  · have hblock : ∀ b truncated, ExtendedBlock.Announceable b →
        Announceable { draft with extended := some b, truncated } := by
      intro b truncated hb
      refine ⟨hlength, ?_⟩
      intro b' hb'
      cases hb'
      exact hb
    refine Reads.bind_item (ExtendedBlock.readsOnly_decoder variant index _) ?_ ?_
    · exact fun _ b hb => hblock b draft.truncated hb
    · exact fun b hb => ⟨_, rfl, hblock b true hb⟩

/-- **Views.** The minutiae are read by a count of one byte. -/
theorem readsItem_announceable_decoder (variant : Variant) (index : Nat) :
    (FingerView.decoder variant index).ReadsItem (fun _ => Announceable) Announceable := by
  refine ensures_readPiece_bind ?_ ?_
  · intro piece _
    generalize viewHeader.parse piece = header
    have hcount : header.numMinutiae.toNat ≤ 255 := Nat.le_of_lt_succ header.numMinutiae.toNat_lt
    refine Reads.bind_item
      (readsOnly_several (fun _ => readsItem_true_item (minutia variant)) _) ?_ ?_
    · rintro _ minutiae ⟨hlength, -⟩
      exact readsItem_announceable_extendedDecoder index (Nat.le_trans hlength hcount) rfl
    · rintro minutiae ⟨hlength, -⟩
      exact ⟨_, rfl, announceable_of_bare (Nat.le_trans hlength hcount) rfl⟩
  · rintro bytes -
    cases hgot : bytes.length with
    | zero => exact ⟨none, rfl, trivial⟩
    | succ got =>
      have hempty : Announceable { truncated := true } := announceable_of_bare (Nat.zero_le _) rfl
      exact ⟨some (.incomplete { truncated := true }), rfl, hempty⟩

end FingerView

/-! ### Records -/

namespace Record

theorem readsOnly_headedDecoder (variant : Variant) :
    (headedDecoder variant).ReadsOnly Announceable := by
  refine Reads.bind (reads_headerDecoder variant) ?_ ?_
  · intro _ r _
    have hcount : r.numViews.toNat ≤ 255 := Nat.le_of_lt_succ r.numViews.toNat_lt
    refine (readsOnly_several (FingerView.readsItem_announceable_decoder variant) _).map ?_
    rintro views ⟨hlength, hviews⟩
    exact ⟨Nat.le_trans hlength hcount, hviews⟩
  · intro r hr
    refine ⟨r, rfl, ?_⟩
    constructor
    · rw [hr.views]
      exact Nat.zero_le _
    · intro v hv
      rw [hr.views] at hv
      cases hv

theorem announceable_ofCard {minutiae : List Minutia} (h : minutiae.length ≤ 255)
    (truncated : Bool) : (ofCard variant minutiae truncated).Announceable where
  views_length := Nat.succ_le_succ (Nat.zero_le _)
  views := List.forall_mem_singleton.mpr (FingerView.announceable_of_bare h rfl)

/-- **Whatever is read, whole or not, was announced.** -/
theorem announceable_of_decode {bytes : Bytes} {d : Decoded Record}
    (h : decode variant bytes = .ok d) : d.value.Announceable := by
  by_cases hcard : variant.isCard = true
  · obtain ⟨minutiae, hlength, -, rfl | rfl⟩ := exists_ofCard_of_decode hcard h
    · exact announceable_ofCard hlength false
    · exact announceable_ofCard hlength true
  · obtain ⟨s, hrun⟩ := exists_run_of_decode h
    rw [decoder_of_hasHeader (Variant.hasHeader_of_not_isCard hcard)] at hrun
    exact (readsOnly_headedDecoder variant).run_ok hrun

end Record

end FingerMinutiae
