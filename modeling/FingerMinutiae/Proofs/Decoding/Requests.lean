import FingerMinutiae.Proofs.Decoding.Record
import FingerMinutiae.Proofs.Stream.Simulation

/-!
# What decoders ask for

A decoder asks for pieces of fixed size and for payloads of a declared length. Neither is ever as
long as `2 ^ 16` bytes, since a length is declared in two. A record with a header announces
everything it has, so its decoder never looks for the end of the stream; only that of a card does.

Most decoders find no defect either. A defect is found in a block of extended data, by the length
that one of its records declares, and in a card that has too many minutiae.

## Main results

* `Decoder.LimitedTo.bind`, `Decoder.limitedTo_several`: the rules by which a decoder is limited to
  what its parts are limited to.
* `Record.limitedTo_headedDecoder`, `Record.limitedTo_decoder`.
-/

namespace FingerMinutiae

namespace Decoder

variable {α β : Type} {allowed : Request → Prop} {faulty : Prop}

theorem LimitedTo.bind {d : Decoder α} {f : α → Decoder β} (hd : d.LimitedTo allowed faulty)
    (hf : ∀ a, (f a).LimitedTo allowed faulty) : (d.bind f).LimitedTo allowed faulty := by
  induction d with
  | done a => exact hf a
  | malformed => exact hd
  | take n next ih => exact ⟨hd.1, fun answer => ih answer (hd.2 answer)⟩
  | atEnd next ih => exact ⟨hd.1, fun answer => ih answer (hd.2 answer)⟩

theorem LimitedTo.mono {allowed' : Request → Prop} {faulty' : Prop} {d : Decoder α}
    (hd : d.LimitedTo allowed faulty) (hallowed : ∀ q, allowed q → allowed' q)
    (hfaulty : faulty → faulty') : d.LimitedTo allowed' faulty' := by
  induction d with
  | done => trivial
  | malformed => exact hfaulty hd
  | take n next ih => exact ⟨hallowed _ hd.1, fun answer => ih answer (hd.2 answer)⟩
  | atEnd next ih => exact ⟨hallowed _ hd.1, fun answer => ih answer (hd.2 answer)⟩

/-- A decoder that is not faulty finds no defect. -/
theorem LimitedTo.not_ends_defect {d : Decoder α} (hd : d.LimitedTo allowed False) {bytes : Bytes}
    {back : Nat} {place : Place} {defect : Defect} :
    ¬ d.Ends bytes (.defect back place defect) := by
  intro h
  generalize he : Ending.defect back place defect = e at h
  induction h with
  | done => cases he
  | malformed => exact hd
  | short => cases he
  | take enough more ih => exact ih (hd.2 _) he

theorem limitedTo_readPiece {layout : Layout α} (hwidth : allowed (.take layout.width)) :
    (readPiece layout).LimitedTo allowed faulty :=
  ⟨hwidth, fun _ => trivial⟩

theorem limitedTo_readPieceOr {layout : Layout α} {draft : β} {next : α → Decoder (Decoded β)}
    (hwidth : allowed (.take layout.width)) (hnext : ∀ a, (next a).LimitedTo allowed faulty) :
    (readPieceOr draft layout next).LimitedTo allowed faulty := by
  refine LimitedTo.bind (limitedTo_readPiece hwidth) ?_
  rintro (a | got)
  · exact hnext a
  · trivial

theorem limitedTo_item {layout : Layout α} (hwidth : allowed (.take layout.width)) :
    (item layout).LimitedTo allowed faulty := by
  refine LimitedTo.bind (limitedTo_readPiece hwidth) ?_
  rintro (a | got)
  · trivial
  · trivial

/-- A list does what its items do. -/
theorem limitedTo_severalFrom {each : Nat → Decoder (Option (Decoded α))}
    (heach : ∀ index, (each index).LimitedTo allowed faulty) (index count : Nat) (got : List α) :
    (severalFrom each index count got).LimitedTo allowed faulty := by
  induction count generalizing index got with
  | zero => trivial
  | succ count ih =>
    refine LimitedTo.bind (heach index) ?_
    rintro (_ | a | a)
    · trivial
    · exact ih (index + 1) (a :: got)
    · trivial

theorem limitedTo_several {each : Nat → Decoder (Option (Decoded α))}
    (heach : ∀ index, (each index).LimitedTo allowed faulty) (count : Nat) :
    (several each count).LimitedTo allowed faulty :=
  limitedTo_severalFrom heach 0 count []

end Decoder

open Decoder Layout

variable {faulty : Prop}

/-! ### Extended data -/

/-- A landmark has its four bytes in every variant. -/
theorem short_landmark (variant : Variant) : Request.Short (.take (landmark variant).width) := by
  show 4 < 2 ^ 16
  decide

/-- The byte that opens a list of landmarks is one in every variant. -/
theorem short_landmarkInfo (countField typeField : Field) (countBits : Nat) (variant : Variant) :
    Request.Short (.take (landmarkInfo countField typeField countBits variant).width) := by
  show 1 < 2 ^ 16
  decide

/-- Only the length of ridge counts can be wrong. -/
theorem RidgeCounts.limitedTo_decoder (place : Place) {declared : Nat}
    (h : ¬ RidgeCounts.isLength declared = true → faulty) :
    (RidgeCounts.decoder place declared).LimitedTo Request.Short faulty := by
  rw [RidgeCounts.decoder]
  split
  · refine limitedTo_readPieceOr (by decide) fun method => ?_
    exact LimitedTo.bind (limitedTo_several (fun _ => limitedTo_item (by decide)) _)
      fun counts => trivial
  · next hlength => exact h hlength

theorem Core.limitedTo_decoder (variant : Variant) (listKind : UInt8) :
    (Core.decoder variant listKind).LimitedTo Request.Short faulty := by
  refine LimitedTo.bind (limitedTo_readPiece (short_landmark variant)) ?_
  rintro (position | got)
  · dsimp only
    split
    · refine LimitedTo.bind (limitedTo_readPiece (by decide)) ?_
      rintro (angle | got)
      · trivial
      · trivial
    · trivial
  · trivial

theorem Delta.limitedTo_decoder (variant : Variant) (listKind : UInt8) :
    (Delta.decoder variant listKind).LimitedTo Request.Short faulty := by
  refine LimitedTo.bind (limitedTo_readPiece (short_landmark variant)) ?_
  rintro (position | got)
  · dsimp only
    split
    · refine LimitedTo.bind (limitedTo_readPiece (by decide)) ?_
      rintro (angles | got)
      · trivial
      · trivial
    · trivial
  · trivial

theorem Landmarks.limitedTo_entriesDecoder (variant : Variant) :
    (Landmarks.entriesDecoder variant).LimitedTo Request.Short faulty := by
  refine limitedTo_readPieceOr (short_landmarkInfo _ _ _ variant) fun info => ?_
  refine LimitedTo.bind (limitedTo_several (fun _ => Core.limitedTo_decoder variant info.kind) _) ?_
  rintro (cores | cores)
  · refine limitedTo_readPieceOr (short_landmarkInfo _ _ _ variant) fun info => ?_
    exact LimitedTo.bind (limitedTo_several (fun _ => Delta.limitedTo_decoder variant info.kind) _)
      fun deltas => trivial
  · trivial

theorem Landmarks.limitedTo_decoder (variant : Variant) (place : Place) (declared : Nat) :
    (Landmarks.decoder variant place declared).LimitedTo Request.Short True := by
  refine LimitedTo.bind (Landmarks.limitedTo_entriesDecoder variant) ?_
  rintro (b | b)
  · dsimp only
    split
    · trivial
    · trivial
  · trivial

theorem Payload.limitedTo_decoder (variant : Variant) (place : Place) (typeId : UInt16)
    {declared : Nat} (hdeclared : declared < 2 ^ 16) :
    (Payload.decoder variant place typeId declared).LimitedTo Request.Short True := by
  rw [Payload.decoder]
  split
  · exact LimitedTo.bind (RidgeCounts.limitedTo_decoder place fun _ => trivial) fun _ => trivial
  · split
    · exact LimitedTo.bind (Landmarks.limitedTo_decoder variant place declared) fun _ => trivial
    · refine ⟨hdeclared, ?_⟩
      rintro (data | got)
      · trivial
      · trivial

/-- A length is declared in two bytes, so no payload is longer than these can say. -/
theorem ExtendedBlock.limitedTo_recordsDecoder (variant : Variant) (view index remaining : Nat)
    (got : List ExtendedRecord) :
    (ExtendedBlock.recordsDecoder variant view index remaining got).LimitedTo Request.Short
      True := by
  induction remaining using Nat.strongRecOn generalizing index got with
  | ind remaining ih =>
  rw [ExtendedBlock.recordsDecoder]
  split
  · trivial
  · next hremaining =>
    refine LimitedTo.bind (limitedTo_readPiece (by decide)) ?_
    rintro (header | got')
    · dsimp only
      split
      · trivial
      · next hdefect =>
        obtain ⟨hroom, hfits⟩ := ExtendedRecord.bounds_of_lengthDefect? hdefect
        have hdeclared := header.length.toNat_lt
        refine LimitedTo.bind (Payload.limitedTo_decoder variant _ _ (by omega)) ?_
        rintro (payload | payload)
        · exact ih _ (by omega) _ _
        · trivial
    · trivial

theorem ExtendedBlock.limitedTo_decoder (variant : Variant) (view : Nat) (blockLength : UInt16) :
    (ExtendedBlock.decoder variant view blockLength).LimitedTo Request.Short True := by
  refine LimitedTo.bind (ExtendedBlock.limitedTo_recordsDecoder variant view 0 _ []) ?_
  rintro (records | records)
  · trivial
  · trivial

/-! ### Views and records -/

/-- Minutiae are short in every variant. -/
theorem short_minutia (variant : Variant) : Request.Short (.take (minutia variant).width) := by
  cases variant <;> decide

theorem FingerView.limitedTo_decoder (variant : Variant) (index : Nat) :
    (FingerView.decoder variant index).LimitedTo Request.Short True := by
  refine LimitedTo.bind (limitedTo_readPiece (by decide)) ?_
  rintro (header | _ | got)
  · refine LimitedTo.bind (limitedTo_several (fun _ => limitedTo_item (short_minutia variant)) _) ?_
    rintro (minutiae | minutiae)
    · refine LimitedTo.bind (limitedTo_readPiece (by decide)) ?_
      rintro (blockLength | got)
      · dsimp only
        split
        · trivial
        · refine LimitedTo.bind (ExtendedBlock.limitedTo_decoder variant index blockLength) ?_
          rintro (block | block)
          · trivial
          · trivial
      · trivial
    · trivial
  · trivial
  · trivial

namespace Record

theorem limitedTo_headerDecoder (variant : Variant) :
    (headerDecoder variant).LimitedTo Request.Short faulty := by
  refine limitedTo_readPieceOr (by decide) fun identification => ?_
  have hcapture : ∀ draft : Record,
      (readPieceOr draft capture fun c =>
        done (.complete { draft with toCapture := c })).LimitedTo Request.Short faulty :=
    fun draft => limitedTo_readPieceOr (by decide) fun _ => trivial
  have hproduct : ∀ draft : Record, (draft.productDecoder fun product =>
      readPieceOr { draft with toProduct := product } capture fun c =>
        done (.complete { draft with toProduct := product, toCapture := c })).LimitedTo
      Request.Short faulty := by
    intro draft
    rw [productDecoder]
    split
    · exact limitedTo_readPieceOr (by decide) fun _ => hcapture _
    · exact hcapture _
  rw [lengthDecoder]
  split
  · refine limitedTo_readPieceOr (by decide) fun w => ?_
    dsimp only
    split
    · exact hproduct _
    · exact limitedTo_readPieceOr (by decide) fun _ => hproduct _
  · exact limitedTo_readPieceOr (by decide) fun _ => hproduct _

/-- **Records with a header.** Their decoder only takes, and never looks for the end. -/
theorem limitedTo_headedDecoder (variant : Variant) :
    (headedDecoder variant).LimitedTo Request.Short True := by
  refine LimitedTo.bind (limitedTo_headerDecoder variant) ?_
  rintro (r | r)
  · exact LimitedTo.bind (limitedTo_several (FingerView.limitedTo_decoder variant) _)
      fun _ => trivial
  · trivial

theorem limitedTo_cardMinutiaeDecoder (variant : Variant) (room : Nat) (got : List Minutia) :
    (cardMinutiaeDecoder (minutia variant) room got).LimitedTo Request.Reservable True := by
  induction room generalizing got with
  | zero =>
    refine ⟨trivial, ?_⟩
    rintro (_ | _)
    · trivial
    · trivial
  | succ room ih =>
    refine ⟨trivial, ?_⟩
    rintro (_ | _)
    · refine LimitedTo.bind (limitedTo_readPiece (short_minutia variant).reservable) ?_
      rintro (m | k)
      · exact ih (m :: got)
      · trivial
    · trivial

/-- **Records of any variant.** No decoder asks for more than a buffer can hold. -/
theorem limitedTo_decoder (variant : Variant) :
    (decoder variant).LimitedTo Request.Reservable True := by
  rw [decoder]
  split
  · refine LimitedTo.bind (limitedTo_cardMinutiaeDecoder variant 255 []) ?_
    rintro (minutiae | minutiae)
    · trivial
    · trivial
  · exact (limitedTo_headedDecoder variant).mono (fun _ h => h.reservable) fun h => h

end Record

end FingerMinutiae
