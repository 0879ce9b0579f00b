import FingerMinutiae.Proofs.Decoding.CutShortViews
import FingerMinutiae.Proofs.TruncatedNodes

/-!
# More bytes change nothing that was read

Decoding is monotone. Once a record is whole or found malformed, no byte that follows has a part in
it. Until then what is read is what is left of the record that more bytes would give, whatever
these are. So the record that the bytes belong to need not be known, and its nodes may be used as
they arrive.

## Main results

* `Record.truncate_of_cutShort`: a run that is cut short and a longer one.
* `Record.decode_truncation`: decoding.
-/

namespace FingerMinutiae

open Decoder Layout

variable {bytes : Bytes}

/-! ### Record headers -/

namespace Record

/-- The capture details, behind the fields that a draft has. -/
def captureDecoder (draft : Record) : Decoder (Decoded Record) :=
  readPieceOr draft Layout.capture fun capture =>
    done (.complete { draft with toCapture := capture })

/-- The product identifier and what follows it. -/
def afterLengthDecoder (draft : Record) : Decoder (Decoded Record) :=
  draft.productDecoder fun product => captureDecoder { draft with toProduct := product }

/-- The record length and what follows it. -/
def afterIdentificationDecoder (draft : Record) : Decoder (Decoded Record) :=
  draft.lengthDecoder fun recordLength => afterLengthDecoder { draft with recordLength }

theorem gives_captureDecoder {draft : Record} {y : Decoded Record}
    (h : (captureDecoder draft).Gives y) :
    ∃ capture, y.value = { draft with toCapture := capture } := by
  obtain rfl | ⟨capture, hy⟩ := h.readPieceOr_cases
  · exact ⟨draft.toCapture, rfl⟩
  · exact ⟨capture, by rw [gives_done hy]; rfl⟩

theorem gives_afterLengthDecoder {draft : Record} {y : Decoded Record}
    (h : (afterLengthDecoder draft).Gives y) :
    ∃ product capture, y.value = { draft with toProduct := product, toCapture := capture } := by
  rw [afterLengthDecoder, productDecoder] at h
  split at h
  · obtain rfl | ⟨product, hy⟩ := h.readPieceOr_cases
    · exact ⟨draft.toProduct, draft.toCapture, rfl⟩
    · obtain ⟨capture, hy⟩ := gives_captureDecoder hy
      exact ⟨product, capture, hy⟩
  · obtain ⟨capture, hy⟩ := gives_captureDecoder h
    exact ⟨{}, capture, hy⟩

theorem gives_afterIdentificationDecoder {draft : Record} {y : Decoded Record}
    (h : (afterIdentificationDecoder draft).Gives y) :
    ∃ recordLength product capture,
      y.value = { draft with recordLength, toProduct := product, toCapture := capture } := by
  have hdraft : ∃ recordLength product capture, (Decoded.incomplete draft).value
      = { draft with recordLength, toProduct := product, toCapture := capture } :=
    ⟨draft.recordLength, draft.toProduct, draft.toCapture, rfl⟩
  have hnext : ∀ recordLength, (afterLengthDecoder { draft with recordLength }).Gives y →
      ∃ recordLength product capture,
        y.value = { draft with recordLength, toProduct := product, toCapture := capture } := by
    intro recordLength hy
    obtain ⟨product, capture, hy⟩ := gives_afterLengthDecoder hy
    exact ⟨recordLength, product, capture, hy⟩
  rw [afterIdentificationDecoder, lengthDecoder] at h
  split at h
  · obtain rfl | ⟨w, hy⟩ := h.readPieceOr_cases
    · exact hdraft
    · cases hw : AnsiLength.ofHalf w with
      | short length =>
        rw [hw] at hy
        exact hnext length hy
      | long =>
        rw [hw] at hy
        obtain rfl | ⟨length, hy⟩ := hy.readPieceOr_cases
        · exact hdraft
        · exact hnext length hy
  · obtain rfl | ⟨length, hy⟩ := h.readPieceOr_cases
    · exact hdraft
    · exact hnext length hy

theorem gives_headerDecoder {variant : Variant} {y : Decoded Record}
    (h : (headerDecoder variant).Gives y) : y.value.variant = variant ∧ y.value.views = [] := by
  refine Gives.reads (P := fun r => r.variant = variant ∧ r.views = []) ?_ h
  refine (reads_headerDecoder variant).mono ?_ ?_
  · rintro bytes r ⟨hread, hviews⟩
    exact ⟨hread.variant_eq, hviews⟩
  · rintro r ⟨hvariant, hviews, -⟩
    exact ⟨hvariant, hviews⟩

/-- The record length has two bytes or six under ANSI, and four under ISO. -/
theorem lengthEnd_headerLengthIn (variant : Variant) {id : Bytes} (hid : id.length = 8)
    (bytes : Bytes) :
    lengthEnd variant (headerLengthIn variant (id ++ bytes))
      = id.length + (if variant = .ansi then if bytes.take 2 = [0, 0] then 6 else 2 else 4) := by
  rw [lengthEnd, headerLengthIn, List.drop_left' hid, hid]
  by_cases hansi : variant = .ansi
  · simp only [if_pos hansi]
    split <;> rfl
  · simp only [if_neg hansi]
    rfl

/-- Where the bytes end that end within or behind a record length. The identification that stands
before it counts for how long the header is. -/
theorem cutShort_lengthDecoder {draft : Record} {next : UInt32 → Decoder (Decoded Record)}
    {id : Bytes} (hid : id.length = 8) {x y : Decoded Record}
    (h : (draft.lengthDecoder next).CutShort bytes x y) :
    (x = .incomplete draft ∧ (id ++ bytes).length
        < lengthEnd draft.variant (headerLengthIn draft.variant (id ++ bytes))) ∨
      ∃ length front back, LengthRead draft.variant length front ∧ bytes = front ++ back ∧
        (next length).CutShort back x y := by
  rw [lengthEnd_headerLengthIn _ hid, List.length_append, Nat.add_lt_add_iff_left]
  rw [lengthDecoder] at h
  split at h
  · next hansi =>
    rw [if_pos hansi]
    obtain ⟨hlt, rfl, -⟩ | ⟨piece, back, hpiece, rfl, hback⟩ := h.readPieceOr_cases
    · refine .inl ⟨rfl, Nat.lt_of_lt_of_le hlt ?_⟩
      split <;> decide
    · have hhalf : bytes16 (half.parse piece) = piece := lawful_half.bytes_parse_eq hpiece
      generalize half.parse piece = w at hhalf hback
      subst hhalf
      by_cases hw : w = 0
      · subst hw
        have hzero : bytes16 0 = [0, 0] := by decide
        obtain ⟨hlt, rfl, -⟩ | ⟨piece, back, hpiece', rfl, hback'⟩ := hback.readPieceOr_cases
        · have hlong : (bytes16 0 ++ back).take 2 = [0, 0] := by
            rw [hzero]
            rfl
          refine .inl ⟨rfl, ?_⟩
          rw [if_pos hlong, List.length_append, length_bytes16]
          exact Nat.add_lt_add_left hlt 2
        · have hread := lengthRead_long hansi (word.parse piece)
          have hword : bytes32 (word.parse piece) = piece := lawful_word.bytes_parse_eq hpiece'
          rw [hword, ← hzero] at hread
          exact .inr ⟨word.parse piece, _, back, hread, (List.append_assoc ..).symm, hback'⟩
      · rw [AnsiLength.ofHalf, if_neg hw] at hback
        exact .inr ⟨w.toUInt32, bytes16 w, back, lengthRead_half hansi hw, rfl, hback⟩
  · next hiso =>
    rw [if_neg hiso]
    obtain ⟨hlt, rfl, -⟩ | ⟨piece, back, hpiece, rfl, hback⟩ := h.readPieceOr_cases
    · exact .inl ⟨rfl, hlt⟩
    · have hread := lengthRead_word hiso (word.parse piece)
      have hword : bytes32 (word.parse piece) = piece := lawful_word.bytes_parse_eq hpiece
      rw [hword] at hread
      exact .inr ⟨word.parse piece, piece, back, hread, rfl, hback⟩

theorem cutShort_productDecoder {draft : Record} {next : Product → Decoder (Decoded Record)}
    {x y : Decoded Record} (h : (draft.productDecoder next).CutShort bytes x y) :
    (bytes.length < 4 ∧ draft.variant = .ansi ∧ x = .incomplete draft) ∨
      ∃ p front back, front.length = (if draft.variant = .ansi then 4 else 0) ∧
        bytes = front ++ back ∧ (next p).CutShort back x y := by
  rw [productDecoder] at h
  split at h
  · next hansi =>
    obtain ⟨hlt, rfl, -⟩ | ⟨piece, back, hpiece, rfl, hback⟩ := h.readPieceOr_cases
    · exact .inl ⟨hlt, hansi, rfl⟩
    · exact .inr ⟨_, piece, back, by rw [if_pos hansi]; exact hpiece, rfl, hback⟩
  · next hiso => exact .inr ⟨{}, [], bytes, by rw [if_neg hiso]; rfl, rfl, h⟩

/-- The bytes end behind the record length, within the header. -/
theorem truncate_of_cutShort_afterLength {draft : Record} {headerLength k : Nat}
    {x y : Decoded Record} (hviews : draft.views = []) (hproduct : draft.toProduct = {})
    (hcapture : draft.toCapture = {}) (hk : 8 ≤ k)
    (hheader : headerLength = k + (if draft.variant = .ansi then 4 else 0) + 12)
    (h : (afterLengthDecoder draft).CutShort bytes x y) :
    k + bytes.length < headerLength ∧
      x = .incomplete (y.value.truncate headerLength (k + bytes.length)) := by
  obtain ⟨hlt, hansi, rfl⟩ | ⟨p, front, back, hfront, rfl, hback⟩ := cutShort_productDecoder h
  · obtain ⟨product, capture, hy⟩ := gives_afterLengthDecoder h.gives
    rw [if_pos hansi] at hheader
    have hlength : lengthEnd y.value.variant headerLength ≤ k + bytes.length := by
      rw [hy, lengthEnd, if_pos hansi]
      omega
    refine ⟨by omega, ?_⟩
    rw [truncate_of_product (by omega) hlength (by omega) (by rw [hy]; exact hviews), hy]
    cases draft
    simp_all
  · obtain ⟨hlt, rfl, -⟩ | ⟨piece, back, hpiece, rfl, hback'⟩ := hback.readPieceOr_cases
    · obtain ⟨capture, hy⟩ := gives_captureDecoder hback.gives
      replace hlt : back.length < 12 := hlt
      rw [← hfront] at hheader
      rw [List.length_append]
      refine ⟨by omega, ?_⟩
      rw [truncate_of_capture (by omega) (by omega) (by omega) (by rw [hy]; exact hviews), hy]
      cases draft
      simp_all
    · exact absurd hback' not_cutShort_done

/-- The bytes end behind the identification, within the header. -/
theorem truncate_of_cutShort_afterIdentification {variant : Variant} {id : Identification}
    {idBytes : Bytes} (hid : idBytes.length = 8) {x y : Decoded Record}
    (h : (afterIdentificationDecoder { variant, toIdentification := id }).CutShort bytes x y) :
    (idBytes ++ bytes).length < headerLengthIn variant (idBytes ++ bytes) ∧
      x = .incomplete (y.value.truncate (headerLengthIn variant (idBytes ++ bytes))
        (idBytes ++ bytes).length) := by
  have hk : ∀ rest : Bytes, 8 ≤ (idBytes ++ rest).length := by
    intro rest
    rw [List.length_append, hid]
    exact Nat.le_add_right _ _
  obtain ⟨rfl, hlt⟩ | ⟨length, front, back, hlength, rfl, hback⟩ := cutShort_lengthDecoder hid h
  · obtain ⟨recordLength, product, capture, hy⟩ := gives_afterIdentificationDecoder h.gives
    have hle := lengthEnd_le variant (headerLengthIn variant (idBytes ++ bytes))
    dsimp only at hlt hy
    refine ⟨by omega, ?_⟩
    rw [hy, truncate_of_length (hk _) hlt rfl]
  · rw [← List.append_assoc, List.length_append]
    refine truncate_of_cutShort_afterLength rfl rfl rfl (hk front) ?_ hback
    rw [List.append_assoc, headerLengthIn_append hlength hid, List.length_append, hid]

/-- **Headers that are cut short.** -/
theorem truncate_of_cutShort_header {variant : Variant} {x y : Decoded Record}
    (h : (headerDecoder variant).CutShort bytes x y) :
    bytes.length < headerLengthIn variant bytes ∧
      x = .incomplete (y.value.truncate (headerLengthIn variant bytes) bytes.length) := by
  obtain ⟨hvariant, hviews⟩ := gives_headerDecoder h.gives
  have hle := isoHeaderLength_le_headerLengthIn variant bytes
  obtain ⟨hlt, rfl, -⟩ | ⟨piece, back, hpiece, rfl, hback⟩ := h.readPieceOr_cases
  · replace hlt : bytes.length < 8 := hlt
    refine ⟨by rw [isoHeaderLength] at hle; omega, ?_⟩
    rw [truncate_of_identification hlt hle hviews, hvariant]
  · exact truncate_of_cutShort_afterIdentification hpiece hback

/-- **Records with a header that are cut short.** -/
theorem truncate_of_cutShort {variant : Variant} (hheader : variant.hasHeader = true)
    {x y : Decoded Record} (h : (headedDecoder variant).CutShort bytes x y) :
    x = .incomplete (y.value.truncate (headerLengthIn variant bytes) bytes.length) := by
  obtain ⟨a, a', hcut, hx, hy⟩ | ⟨front, back, a, rfl, hvalue, hback⟩ := h.bind_cases
  · obtain ⟨hlt, ha⟩ := truncate_of_cutShort_header hcut
    obtain ⟨hvariant, hviews⟩ := gives_headerDecoder hcut.gives
    subst ha
    cases hx
    rcases a' with r | r
    · obtain ⟨views, rfl⟩ := hy.map_cases
      rw [Decoded.value_complete] at hvariant hviews
      have hwithout : ({ r with views := [] } : Record) = r := by rw [← hviews]
      have hrest : ∀ views,
          truncate (headerLengthIn variant bytes) bytes.length { r with views }
            = truncate (headerLengthIn variant bytes) bytes.length r := by
        intro views
        rw [truncate_with_views (by rw [hvariant]; exact hheader) hlt, hwithout]
      rcases views with views | views
      · exact congrArg Decoded.incomplete (hrest views).symm
      · exact congrArg Decoded.incomplete (hrest views).symm
    · rw [gives_done hy]
  · rcases a with r | r
    · obtain ⟨hread, -⟩ : HeaderRead variant front r ∧ r.views = [] :=
        (reads_headerDecoder variant).of_ends_value hvalue
      obtain ⟨views, views', hcut, rfl, rfl⟩ := hback.map_cases
      have hitems := CutShort.several (FingerView.cutsItem_decoder hheader) hcut
      have hle := isoHeaderLength_le_headerLengthIn variant (front ++ back)
      rw [hread.headerLengthIn_eq] at hle ⊢
      rw [hitems, List.length_append,
        truncate_of_views (Nat.le_trans (by decide) (Nat.le_add_right_of_le hle))
          (Nat.le_add_right _ _), Nat.add_sub_cancel_left]
      obtain rfl := hread.variant_eq
      cases views' <;> rfl
    · exact absurd hback not_cutShort_done

/-! ### Decoding -/

theorem gives_headedDecoder {variant : Variant} {y : Decoded Record}
    (h : (headedDecoder variant).Gives y) : y.value.variant = variant := by
  refine Gives.reads (P := fun r => r.variant = variant) ?_ h
  exact (reads_headedDecoder variant).mono (fun _ _ hr => hr.variant_eq) fun _ hr => hr.variant_eq

/-- Nothing that follows a whole record or a defect has been looked at. -/
theorem decode_append {variant : Variant} (hheader : variant.hasHeader = true) (bytes more : Bytes)
    (h : ∀ p, decode variant bytes ≠ .ok (.incomplete p)) :
    decode variant (bytes ++ more) = decode variant bytes ∧
      consumed variant (bytes ++ more) = consumed variant bytes := by
  have hreads := reads_headedDecoder variant
  simp only [decode, consumed, decoder_of_hasHeader hheader, Buffer.ofBytes] at h ⊢
  rcases hreads.exists_ends bytes with
    ⟨front, rest, d, rfl, hends⟩ | ⟨front, rest, back, place, defect, rfl, hends⟩ | ⟨d, hends⟩
  · rw [List.append_assoc, run_append_of_ends_value hends, run_append_of_ends_value hends]
    exact ⟨rfl, rfl⟩
  · rw [List.append_assoc, run_append_of_ends_defect hends, run_append_of_ends_defect hends]
    exact ⟨rfl, rfl⟩
  · rcases d with r | p
    · exact (hreads.of_ends_short hends).elim
    · rw [run_of_ends_short hends] at h
      exact absurd rfl (h p)

/-- What was read before the bytes ran out is what is left of the record that more bytes give. -/
theorem truncate_of_decode_append {variant : Variant} (hheader : variant.hasHeader = true)
    {bytes more : Bytes} {p : Record} {d : Decoded Record}
    (h : decode variant bytes = .ok (.incomplete p))
    (hmore : decode variant (bytes ++ more) = .ok d) :
    p = d.value.truncate (headerLengthIn variant bytes) bytes.length ∧ p.Truncates d.value := by
  obtain ⟨s, hrun⟩ := exists_run_of_decode h
  obtain ⟨s', hrun'⟩ := exists_run_of_decode hmore
  rw [decoder_of_hasHeader hheader] at hrun hrun'
  have hreads := reads_headedDecoder variant
  rcases hreads.of_run hrun with ⟨front, -, -, hends⟩ | ⟨-, hends⟩
  · exact (hreads.of_ends_value hends).elim
  · have hcut : (headedDecoder variant).CutShort bytes (.incomplete p) d :=
      ⟨hends, more, 0, s', hrun'⟩
    have hvariant := gives_headedDecoder hcut.gives
    have hp := truncate_of_cutShort hheader hcut
    cases hp
    exact ⟨rfl, truncates_truncate (by rw [hvariant]; exact hheader)
      (isoHeaderLength_le_headerLengthIn variant bytes) _⟩

/-- **Decoding is monotone.** A whole record and a failure are final: with more bytes the answer is
the same. A record that the bytes end in is what is left of the one that more bytes give. So every
string of bytes that ends within a whole record gives what is left of that record. -/
theorem decode_truncation {variant : Variant} (hheader : variant.hasHeader = true)
    (bytes more : Bytes) :
    (∀ r, decode variant bytes = .ok (.complete r) →
        decode variant (bytes ++ more) = .ok (.complete r) ∧
          consumed variant (bytes ++ more) = consumed variant bytes) ∧
      (∀ e, decode variant bytes = .error e → decode variant (bytes ++ more) = .error e) ∧
      (∀ p d, decode variant bytes = .ok (.incomplete p) →
        decode variant (bytes ++ more) = .ok d →
        p = d.value.truncate (headerLengthIn variant bytes) bytes.length ∧ p.Truncates d.value) ∧
      ∀ r, decode variant bytes = .ok (.complete r) → ∀ k < consumed variant bytes,
        ∃ p, decode variant (bytes.take k) = .ok (.incomplete p) ∧
          p = r.truncate (headerLengthIn variant (bytes.take k)) k ∧ p.Truncates r := by
  refine ⟨?_, ?_, fun p d => truncate_of_decode_append hheader, ?_⟩
  · intro r h
    obtain ⟨hdecode, hconsumed⟩ := decode_append hheader bytes more (by simp [h])
    exact ⟨hdecode.trans h, hconsumed⟩
  · intro e h
    obtain ⟨hdecode, -⟩ := decode_append hheader bytes more (by simp [h])
    exact hdecode.trans h
  · intro r h k hk
    obtain ⟨front, rest, hbytes, hlength, -⟩ := exists_headedRead_of_decode hheader h
    have hkept : (bytes.take k).length = k := by
      apply List.length_take_of_le
      rw [hbytes, List.length_append]
      omega
    -- A shorter string that gave a whole record or a failure would have decided the answer.
    have hfinal := decode_append hheader (bytes.take k) (bytes.drop k)
    rw [List.take_append_drop, h] at hfinal
    rcases hdecode : decode variant (bytes.take k) with e | r' | p
    · have habsurd := (hfinal (by simp [hdecode])).1
      rw [hdecode] at habsurd
      cases habsurd
    · obtain ⟨front', rest', hbytes', hlength', -⟩ := exists_headedRead_of_decode hheader hdecode
      have hconsumed := (hfinal (by simp [hdecode])).2
      have hle := congrArg List.length hbytes'
      rw [hkept, List.length_append] at hle
      omega
    · refine ⟨p, rfl, ?_⟩
      have hmore : decode variant (bytes.take k ++ bytes.drop k) = .ok (.complete r) := by
        rw [List.take_append_drop]
        exact h
      have hp := truncate_of_decode_append hheader hdecode hmore
      rwa [hkept] at hp

/-- The bytes of an ISO record with two ridge counts, and a byte that is not part of the record. -/
def ridgeBytes : Bytes :=
  [0x46, 0x4d, 0x52, 0, 0x20, 0x32, 0x30, 0, 0, 0, 0, 41, 0, 0, 1, 0, 1, 0, 0, 197, 0, 197, 1, 0, 1,
    0, 80, 0, 0, 11, 0, 1, 0, 11, 1, 0, 1, 2, 1, 2, 3, 9]

theorem decode_truncation_ridgeBytes :
    ∃ r p, decode .iso ridgeBytes = .ok (.complete r) ∧
      decode .iso (ridgeBytes.take 39) = .ok (.incomplete p) ∧
      p = r.truncate 24 39 ∧ p ≠ r ∧ p.Truncates r := by
  have hridge : (whole? (decode .iso ridgeBytes)).any fun r =>
      decide (consumed .iso ridgeBytes = 41 ∧ r.truncate 24 39 ≠ r) := by decide +kernel
  obtain ⟨r, hr, hridge⟩ := Option.any_eq_true _ _ |>.mp hridge
  rw [whole?_eq_some_iff] at hr
  obtain ⟨hconsumed, hne⟩ := of_decide_eq_true hridge
  obtain ⟨-, -, -, hcut⟩ := decode_truncation (rfl : Variant.iso.hasHeader = true) ridgeBytes []
  obtain ⟨p, hdecode, rfl, hp⟩ := hcut r hr 39 (by rw [hconsumed]; decide)
  exact ⟨r, _, hr, hdecode, rfl, hne, hp⟩

end Record

end FingerMinutiae
