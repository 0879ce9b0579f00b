import FingerMinutiae.Proofs.Decoding.Cards

/-!
# The image of the decoder

Bytes come from anywhere, and a record that is read from them is well formed all the same. Nothing
has to be checked on a record that was read whole: its counts and lengths are right, no node of it
is cut short, and every packed field is within its bits. A record that was cut short may have counts
and lengths that are wrong, but everything in it still fits, so it can be written.

## Main results

* `Record.decode_image`: what is read is well formed, and whatever is read can be written.
-/

namespace FingerMinutiae

open Decoder Layout

namespace Record

/-! ### Cards -/

/-- The card of at most 255 minutiae that are within their bits is well formed. -/
theorem cardWellFormed_ofCard {variant : Variant} {minutiae : List Minutia}
    (hcard : variant.isCard = true) (hlength : minutiae.length ≤ 255)
    (hminutiae : ∀ m ∈ minutiae, m.WellFormed variant) :
    (ofCard variant minutiae false).CardWellFormed where
  identification := rfl
  product := rfl
  capture := rfl
  views := ⟨minutiae, rfl, hlength, hminutiae, recordLength_ofCard hcard hlength false⟩

/-- The view of a card that is all there. -/
theorem view_wellFormed_ofCard {variant : Variant} {minutiae : List Minutia}
    (hlength : minutiae.length ≤ 255) (hminutiae : ∀ m ∈ minutiae, m.WellFormed variant) :
    FingerView.WellFormed variant { numMinutiae := UInt8.ofNat minutiae.length, minutiae } where
  whole := rfl
  header := ViewHeader.wellFormed_of_zero rfl rfl
  numMinutiae := UInt8.toNat_ofNat_of_lt' (Nat.lt_succ_of_le hlength)
  minutiae := hminutiae
  extended := by
    intro b hb
    cases hb

theorem bounded_ofCard {variant : Variant} {minutiae : List Minutia} {truncated : Bool}
    (hlength : minutiae.length ≤ 255) (hminutiae : ∀ m ∈ minutiae, m.WellFormed variant) :
    (ofCard variant minutiae truncated).Bounded where
  product _ := rfl
  capture := Capture.wellFormed_of_zero rfl rfl
  views_length := Nat.succ_le_succ (Nat.zero_le _)
  views := List.forall_mem_singleton.mpr
    ⟨ViewHeader.wellFormed_of_zero rfl rfl, hlength, hminutiae⟩

/-! ### Records of any variant -/

/-- Whatever is read, whole or not, is within its bits, and no list is longer than its count can
say. -/
theorem bounded_of_decode {variant : Variant} {bytes : Bytes} {d : Decoded Record}
    (h : decode variant bytes = .ok d) : d.value.variant = variant ∧ d.value.Bounded := by
  by_cases hcard : variant.isCard = true
  · obtain ⟨minutiae, hlength, hvalid, rfl | rfl⟩ := exists_ofCard_of_decode hcard h
    · exact ⟨rfl, bounded_ofCard hlength hvalid⟩
    · exact ⟨rfl, bounded_ofCard hlength hvalid⟩
  · have hheader : variant.hasHeader = true := Variant.hasHeader_of_not_isCard hcard
    rcases d with r | r
    · obtain ⟨front, rest, -, -, hread⟩ := exists_headedRead_of_decode hheader h
      exact ⟨hread.variant_eq, hread.wellFormed.bounded⟩
    · have hcut := headedCut_of_decode hheader h
      exact ⟨hcut.variant_eq, hcut.bounded⟩

/-- In a record that is read whole all views are, and they are as many as declared. -/
theorem views_wellFormed_of_decode {variant : Variant} {bytes : Bytes} {r : Record}
    (h : decode variant bytes = .ok (.complete r)) :
    r.variant = variant ∧ r.numViews.toNat = r.views.length ∧
      ∀ v ∈ r.views, v.WellFormed r.variant := by
  by_cases hcard : variant.isCard = true
  · obtain ⟨minutiae, hlength, hvalid, hd | hd⟩ := exists_ofCard_of_decode hcard h
    · cases hd
      exact ⟨rfl, rfl, List.forall_mem_singleton.mpr (view_wellFormed_ofCard hlength hvalid)⟩
    · cases hd
  · have hheader : variant.hasHeader = true := Variant.hasHeader_of_not_isCard hcard
    obtain ⟨front, rest, -, -, hread⟩ := exists_headedRead_of_decode hheader h
    exact ⟨hread.variant_eq, hread.wellFormed.numViews, hread.wellFormed.views⟩

/-- A run for a record with a header gives a well-formed record, or one of which everything fits. -/
theorem run_headedDecoder {variant : Variant} {s s' : Buffer} {d : Decoded Record}
    (hrun : (headedDecoder variant).run s = (.ok d, s')) :
    (∃ r, d = .complete r ∧ r.variant = variant ∧ r.HeadedWellFormed) ∨
      ∃ r, d = .incomplete r ∧ HeadedFits variant r := by
  rcases (reads_headedDecoder variant).of_run hrun with ⟨front, -, -, hends⟩ | ⟨-, hends⟩
  · have hpost := (reads_headedDecoder variant).of_ends_value hends
    rcases d with r | r
    · exact .inl ⟨r, rfl, hpost.variant_eq, hpost.wellFormed⟩
    · exact hpost.elim
  · have hpost := (reads_headedDecoder variant).of_ends_short hends
    rcases d with r | r
    · exact hpost.elim
    · exact .inr ⟨r, rfl, HeadedCut.toHeadedFits hpost⟩

/-- What is read whole is well formed. -/
theorem wellFormed_of_decode {variant : Variant} {bytes : Bytes} {r : Record}
    (h : decode variant bytes = .ok (.complete r)) : r.variant = variant ∧ r.WellFormed := by
  obtain ⟨s, hrun⟩ := exists_run_of_decode h
  by_cases hcard : variant.isCard = true
  · rw [decoder, if_pos hcard] at hrun
    obtain ⟨minutiae, hlength, hvalid, hd | hd⟩ := run_cardDecoder hrun
    · cases hd
      refine ⟨rfl, ?_⟩
      rw [WellFormed, if_pos (by exact hcard)]
      exact cardWellFormed_ofCard hcard hlength hvalid
    · cases hd
  · have hheader : variant.hasHeader = true := Variant.hasHeader_of_not_isCard hcard
    rw [decoder_of_hasHeader hheader] at hrun
    obtain ⟨r', hd, hvariant, hwell⟩ | ⟨r', hd, -⟩ := run_headedDecoder hrun
    · cases hd
      refine ⟨hvariant, ?_⟩
      rw [WellFormed, hvariant, if_neg hcard]
      exact hwell
    · cases hd

/-- What is read, whole or not, can be written. -/
theorem exists_encode_of_decode {variant : Variant} {bytes : Bytes} {d : Decoded Record}
    (h : decode variant bytes = .ok d) : ∃ encoded, d.value.encode = .ok encoded := by
  obtain ⟨s, hrun⟩ := exists_run_of_decode h
  by_cases hcard : variant.isCard = true
  · rw [decoder, if_pos hcard] at hrun
    obtain ⟨minutiae, -, hvalid, rfl | rfl⟩ := run_cardDecoder hrun
    · exact ⟨_, encode_ofCard hcard hvalid⟩
    · exact ⟨_, encode_ofCard hcard hvalid⟩
  · have hheader : variant.hasHeader = true := Variant.hasHeader_of_not_isCard hcard
    rw [decoder_of_hasHeader hheader] at hrun
    obtain ⟨r, rfl, hvariant, hwell⟩ | ⟨r, rfl, hfits⟩ := run_headedDecoder hrun
    · subst hvariant
      exact ⟨_, encode_of_headedFits hheader hwell.headedFits⟩
    · exact ⟨_, encode_of_headedFits hheader hfits⟩

/-- **The image of the decoder.** A record that is read whole from any bytes is a well-formed
record of the variant, and a record that is read from any bytes, whole or not, can be written. -/
theorem decode_image (variant : Variant) (bytes : Bytes) :
    (∀ r, decode variant bytes = .ok (.complete r) → r.variant = variant ∧ r.WellFormed) ∧
      ∀ d, decode variant bytes = .ok d → ∃ encoded, d.value.encode = .ok encoded :=
  ⟨fun _ => wellFormed_of_decode, fun _ => exists_encode_of_decode⟩

/-- The bytes of an ISO record of one view, which has a minutia, a core with its angle and a delta
without. -/
def landmarkBytes : Bytes :=
  [0x46, 0x4d, 0x52, 0, 0x20, 0x32, 0x30, 0, 0, 0, 0, 51, 0, 0, 1, 0, 1, 0, 0, 197, 0, 197, 1, 0,
    1, 0, 80, 1, 0x40, 10, 0, 10, 5, 60,
    0, 15, 0, 2, 0, 15, 1, 0x40, 1, 0, 2, 7, 1, 0, 1, 0, 2]

theorem decode_image_landmarkBytes :
    (∃ r, decode .iso landmarkBytes = .ok (.complete r) ∧ r.variant = .iso ∧ r.WellFormed) ∧
      ∃ p encoded, decode .iso (landmarkBytes.take 45) = .ok (.incomplete p) ∧
        p.encode = .ok encoded := by
  constructor
  · have hwhole : (whole? (decode .iso landmarkBytes)).isSome = true := by decide +kernel
    obtain ⟨r, hr⟩ := Option.isSome_iff_exists.mp hwhole
    rw [whole?_eq_some_iff] at hr
    exact ⟨r, hr, (decode_image .iso landmarkBytes).1 r hr⟩
  · have hshort : (short? (decode .iso (landmarkBytes.take 45))).isSome = true := by
      decide +kernel
    obtain ⟨p, hp⟩ := Option.isSome_iff_exists.mp hshort
    rw [short?_eq_some_iff] at hp
    obtain ⟨encoded, hencoded⟩ := (decode_image .iso (landmarkBytes.take 45)).2 _ hp
    exact ⟨p, encoded, hp, hencoded⟩

end Record

end FingerMinutiae
