import FingerMinutiae.Proofs.ComputedLength
import FingerMinutiae.Proofs.Decoding.Record

/-!
# Cards

A card is nothing but minutiae, all of one width, up to where the bytes end. Any bytes are the
minutiae that go into them and a rest in which there is no room for another, and every bit of a
minutia is one of its fields. So the number of bytes alone decides what is made of them: a whole
card if there is no rest, a card that was cut short if there is one, and an error if the minutiae
are more than a view can count. What is written for a card is its minutiae again.

## Main results

* `Record.encode_of_isCard`: what is written for a card.
* `Layout.Lawful.exists_flatMap_append`: bytes as minutiae and a rest.
* `Record.run_cardDecoder_append`, `Record.run_cardDecoder_of_gt`: what a run makes of bytes.
* `Record.consumed_of_decode_card`: a card that is read whole takes all bytes.
-/

namespace FingerMinutiae

open Decoder Layout

/-- Where a layout reads all bits, any bytes are values of it and a rest too short for another. -/
theorem Layout.Lawful.exists_flatMap_append {α : Type} {layout : Layout α}
    {valid : α → Prop} {n : Nat} (h : layout.Lawful valid (allBits n)) (hwidth : 0 < layout.width)
    (bytes : Bytes) :
    ∃ (as : List α) (tail : Bytes), bytes = as.flatMap layout.bytes ++ tail ∧
      tail.length < layout.width ∧ ∀ a ∈ as, valid a := by
  rcases Nat.lt_or_ge bytes.length layout.width with hlt | hge
  · exact ⟨[], bytes, rfl, hlt, by simp⟩
  · have hpiece : (bytes.take layout.width).length = layout.width := List.length_take_of_le hge
    have hdecreasing : (bytes.drop layout.width).length < bytes.length := by
      rw [List.length_drop]
      omega
    obtain ⟨as, tail, hdrop, htail, has⟩ :=
      exists_flatMap_append h hwidth (bytes.drop layout.width)
    refine ⟨layout.parse (bytes.take layout.width) :: as, tail, ?_, htail, ?_⟩
    · rw [List.flatMap_cons, h.bytes_parse_eq hpiece, List.append_assoc, ← hdrop,
        List.take_append_drop]
    · exact List.forall_mem_cons.mpr ⟨h.valid_parse _ hpiece, has⟩
termination_by bytes.length

namespace Record

/-! ### Written cards -/

/-- A card can be written as soon as its minutiae are within their bits. -/
theorem encode_of_isCard {r : Record} {v : FingerView} (hcard : r.variant.isCard = true)
    (hviews : r.views = [v]) (hminutiae : ∀ m ∈ v.minutiae, m.WellFormed r.variant) :
    r.encode = .ok (v.minutiae.flatMap (Layout.minutia r.variant).bytes) := by
  refine (encode_eq_ok_iff (pieces_of_isCard hcard hviews)).mpr ⟨?_, ?_⟩
  · exact Piece.allFit_map.mpr fun m hm => (lawful_minutia r.variant).fits m (hminutiae m hm)
  · exact (Piece.allBytes_map v.minutiae (Layout.minutia r.variant).piece).symm

theorem encode_ofCard {variant : Variant} {minutiae : List Minutia} {truncated : Bool}
    (hcard : variant.isCard = true) (hminutiae : ∀ m ∈ minutiae, m.WellFormed variant) :
    (ofCard variant minutiae truncated).encode
      = .ok (minutiae.flatMap (Layout.minutia variant).bytes) :=
  encode_of_isCard (r := ofCard variant minutiae truncated) hcard rfl hminutiae

/-! ### Runs -/

/-- Minutiae and a rest too short for another are read to the end, if there is room for them. Only
without a rest do the minutiae end where the bytes do. -/
theorem run_cardMinutiaeDecoder_append {layout : Layout Minutia} {valid : Minutia → Prop}
    {mask : Bytes} (h : layout.Lawful valid mask) {tail : Bytes}
    (htail : tail.length < layout.width) (room offset : Nat) (got ms : List Minutia)
    (hroom : (ms.flatMap layout.bytes ++ tail).length ≤ room * layout.width)
    (hms : ∀ m ∈ ms, valid m) :
    (cardMinutiaeDecoder layout room got).run (Buffer.mk (ms.flatMap layout.bytes ++ tail) offset)
      = (.ok (if tail.isEmpty then .complete (got.reverse ++ ms)
            else .incomplete (got.reverse ++ ms)),
          ⟨[], offset + (ms.flatMap layout.bytes ++ tail).length⟩) := by
  induction ms generalizing room offset got with
  | nil =>
    rw [List.flatMap_nil, List.nil_append, List.append_nil] at *
    cases htail' : tail with
    | nil => cases room <;> rfl
    | cons b bs =>
      subst htail'
      cases room with
      | zero => simp at hroom
      | succ room =>
        rw [cardMinutiaeDecoder, run_atEnd]
        exact run_take_of_lt _ htail offset
  | cons m ms ih =>
    obtain ⟨hm, hms⟩ := List.forall_mem_cons.mp hms
    rw [List.flatMap_cons, List.append_assoc] at *
    have hlength : (layout.bytes m ++ (ms.flatMap layout.bytes ++ tail)).length
        = layout.width + (ms.flatMap layout.bytes ++ tail).length := by
      rw [List.length_append, h.length_bytes]
    cases room with
    | zero => omega
    | succ room =>
      rw [Nat.succ_mul] at hroom
      have hnonempty : (layout.bytes m ++ (ms.flatMap layout.bytes ++ tail)).isEmpty = false := by
        rw [List.isEmpty_eq_false_iff, ← List.length_pos_iff]
        omega
      rw [cardMinutiaeDecoder, run_atEnd, hnonempty]
      refine (run_take_append _ (h.length_bytes m) _ offset).trans ?_
      show (cardMinutiaeDecoder layout room (layout.parse (layout.bytes m) :: got)).run _ = _
      rw [h.parse_bytes m hm, ih room _ _ (by omega) hms, hlength, List.reverse_cons,
        List.append_assoc, Nat.add_assoc]
      rfl

/-- More bytes than there is room for are too many. -/
theorem run_cardMinutiaeDecoder_of_gt {layout : Layout Minutia} (room offset : Nat)
    (got : List Minutia) {bytes : Bytes} (h : room * layout.width < bytes.length) :
    ((cardMinutiaeDecoder layout room got).run (Buffer.mk bytes offset)).1
      = .error (.malformed (offset + room * layout.width) (.view 0) .tooManyMinutiae) := by
  have hnonempty : bytes.isEmpty = false := by
    rw [List.isEmpty_eq_false_iff, ← List.length_pos_iff]
    omega
  induction room generalizing offset got bytes with
  | zero =>
    rw [cardMinutiaeDecoder, run_atEnd, hnonempty, Nat.zero_mul, Nat.add_zero]
    rfl
  | succ room ih =>
    rw [Nat.succ_mul] at h
    have hpiece : (bytes.take layout.width).length = layout.width :=
      List.length_take_of_le (by omega)
    have hrest : room * layout.width < (bytes.drop layout.width).length := by
      rw [List.length_drop]
      omega
    rw [cardMinutiaeDecoder, run_atEnd, hnonempty, ← List.take_append_drop layout.width bytes]
    refine (congrArg Prod.fst (run_take_append _ hpiece _ offset)).trans ?_
    refine (ih _ _ hrest ?_).trans ?_
    · rw [List.isEmpty_eq_false_iff, ← List.length_pos_iff]
      omega
    · rw [Nat.succ_mul, Nat.add_assoc, Nat.add_comm layout.width]

variable {variant : Variant}

theorem minutiaLength_pos : 0 < variant.minutiaLength := by
  cases variant <;> decide

/-- The bytes of some minutiae and of a rest too short for another are a card, whole if there is no
rest. -/
theorem run_cardDecoder_append {ms : List Minutia} {tail : Bytes}
    (htail : tail.length < variant.minutiaLength)
    (hlength : (ms.flatMap (Layout.minutia variant).bytes ++ tail).length
      ≤ 255 * variant.minutiaLength)
    (hms : ∀ m ∈ ms, m.WellFormed variant) (offset : Nat) :
    (cardDecoder variant).run
        (Buffer.mk (ms.flatMap (Layout.minutia variant).bytes ++ tail) offset)
      = (.ok (if tail.isEmpty then .complete (ofCard variant ms false)
            else .incomplete (ofCard variant ms true)),
          ⟨[], offset + (ms.flatMap (Layout.minutia variant).bytes ++ tail).length⟩) := by
  rw [← width_minutia] at htail hlength
  have hrun := run_cardMinutiaeDecoder_append (lawful_minutia variant) htail 255 offset [] ms
    hlength hms
  refine (run_bind (cardMinutiaeDecoder (Layout.minutia variant) 255 []) _ _).trans ?_
  rw [hrun]
  cases tail <;> rfl

/-- The bytes of at most 255 minutiae are a whole card. -/
theorem run_cardDecoder_of_valid {minutiae : List Minutia} (hlength : minutiae.length ≤ 255)
    (hvalid : ∀ m ∈ minutiae, m.WellFormed variant) :
    ((cardDecoder variant).run (Buffer.ofBytes (minutiae.flatMap (Layout.minutia variant).bytes))).1
      = .ok (.complete (ofCard variant minutiae false)) := by
  have hbytes : (minutiae.flatMap (Layout.minutia variant).bytes ++ []).length
      ≤ 255 * variant.minutiaLength := by
    rw [List.append_nil, (lawful_minutia variant).length_flatMap_bytes, width_minutia]
    exact Nat.mul_le_mul_right _ hlength
  have hrun := run_cardDecoder_append (by exact minutiaLength_pos) hbytes hvalid 0
  rw [List.append_nil] at hrun
  rw [Buffer.ofBytes, hrun]
  rfl

/-- More bytes than 255 minutiae take are no card. -/
theorem run_cardDecoder_of_gt {bytes : Bytes} (h : 255 * variant.minutiaLength < bytes.length)
    (offset : Nat) :
    ((cardDecoder variant).run (Buffer.mk bytes offset)).1
      = .error (.malformed (offset + 255 * variant.minutiaLength) (.view 0) .tooManyMinutiae) := by
  rw [← width_minutia] at h ⊢
  have hrun := run_cardMinutiaeDecoder_of_gt 255 offset [] h
  refine (congrArg Prod.fst
    (run_bind (cardMinutiaeDecoder (Layout.minutia variant) 255 []) _ _)).trans ?_
  rcases hms : (cardMinutiaeDecoder (Layout.minutia variant) 255 []).run
    (Buffer.mk bytes offset) with ⟨result, s⟩
  rw [hms] at hrun
  subst hrun
  rfl

/-- Bytes that are no more than 255 minutiae take are some minutiae and a rest. -/
theorem exists_minutiae_of_length_le {bytes : Bytes}
    (h : bytes.length ≤ 255 * variant.minutiaLength) :
    ∃ (ms : List Minutia) (tail : Bytes),
      bytes = ms.flatMap (Layout.minutia variant).bytes ++ tail ∧
        bytes.length = ms.length * variant.minutiaLength + tail.length ∧
        tail.length < variant.minutiaLength ∧ ms.length ≤ 255 ∧
        ∀ m ∈ ms, m.WellFormed variant := by
  have hwidth : 0 < (Layout.minutia variant).width := by
    rw [width_minutia]
    exact minutiaLength_pos
  obtain ⟨ms, tail, rfl, htail, hms⟩ :=
    (lawful_minutia variant).exists_flatMap_append hwidth bytes
  rw [width_minutia] at htail
  have hlength := (lawful_minutia variant).length_flatMap_bytes ms
  rw [width_minutia] at hlength
  rw [List.length_append, hlength] at h ⊢
  exact ⟨ms, tail, rfl, rfl, htail,
    Nat.le_of_mul_le_mul_right (Nat.le_of_add_right_le h) minutiaLength_pos, hms⟩

/-- What a run that gives a card has read: the minutiae of it and a rest, to the last byte. -/
theorem exists_minutiae_of_run {bytes : Bytes} {offset : Nat} {d : Decoded Record} {s : Buffer}
    (hrun : (cardDecoder variant).run (Buffer.mk bytes offset) = (.ok d, s)) :
    ∃ (ms : List Minutia) (tail : Bytes),
      bytes.length = ms.length * variant.minutiaLength + tail.length ∧
        ms.length ≤ 255 ∧ (∀ m ∈ ms, m.WellFormed variant) ∧
        d = (if tail.isEmpty then .complete (ofCard variant ms false)
          else .incomplete (ofCard variant ms true)) ∧
        s = ⟨[], offset + bytes.length⟩ := by
  rcases Nat.lt_or_ge (255 * variant.minutiaLength) bytes.length with hgt | hle
  · have herror := run_cardDecoder_of_gt hgt offset
    rw [hrun] at herror
    cases herror
  · obtain ⟨ms, tail, rfl, hlength, htail, hcount, hms⟩ := exists_minutiae_of_length_le hle
    rw [run_cardDecoder_append htail hle hms offset] at hrun
    cases hrun
    exact ⟨ms, tail, hlength, hcount, hms, rfl, rfl⟩

/-- A run for a card gives the card of some minutiae. -/
theorem run_cardDecoder {s s' : Buffer} {d : Decoded Record}
    (hrun : (cardDecoder variant).run s = (.ok d, s')) :
    ∃ minutiae : List Minutia, minutiae.length ≤ 255 ∧ (∀ m ∈ minutiae, m.WellFormed variant) ∧
      (d = .complete (ofCard variant minutiae false) ∨
        d = .incomplete (ofCard variant minutiae true)) := by
  obtain ⟨ms, tail, -, hcount, hms, rfl, -⟩ := exists_minutiae_of_run hrun
  refine ⟨ms, hcount, hms, ?_⟩
  cases tail with
  | nil => exact .inl rfl
  | cons b bs => exact .inr rfl

/-! ### Bytes -/

/-- The length of a card is that of its minutiae. -/
theorem recordLength_ofCard (hcard : variant.isCard = true) {minutiae : List Minutia}
    (hlength : minutiae.length ≤ 255) (truncated : Bool) :
    (ofCard variant minutiae truncated).recordLength.toNat
      = minutiae.length * variant.minutiaLength := by
  have hwidth : variant.minutiaLength ≤ 6 := by cases variant <;> decide
  have hbound : minutiae.length * variant.minutiaLength < 2 ^ 32 :=
    Nat.lt_of_le_of_lt (Nat.mul_le_mul hlength hwidth) (by decide)
  rw [ofCard, FingerView.encodedLength_of_isCard hcard]
  exact UInt32.toNat_ofNat_of_lt' hbound

variable {bytes : Bytes}

/-- What is read of a card is the card of some minutiae. -/
theorem exists_ofCard_of_decode {d : Decoded Record} (hcard : variant.isCard = true)
    (h : decode variant bytes = .ok d) :
    ∃ minutiae : List Minutia, minutiae.length ≤ 255 ∧ (∀ m ∈ minutiae, m.WellFormed variant) ∧
      (d = .complete (ofCard variant minutiae false) ∨
        d = .incomplete (ofCard variant minutiae true)) := by
  obtain ⟨s, hrun⟩ := exists_run_of_decode h
  rw [decoder, if_pos hcard] at hrun
  exact run_cardDecoder hrun

/-- A card that is read whole is the card of its minutiae, and these take all of the bytes. -/
theorem consumed_of_decode_card {r : Record} (hcard : variant.isCard = true)
    (h : decode variant bytes = .ok (.complete r)) :
    consumed variant bytes = bytes.length ∧ ∃ minutiae : List Minutia,
      r = ofCard variant minutiae false ∧ minutiae.length ≤ 255 ∧
        (∀ m ∈ minutiae, m.WellFormed variant) ∧
        bytes.length = minutiae.length * variant.minutiaLength := by
  obtain ⟨s, hrun⟩ := exists_run_of_decode h
  have hconsumed : consumed variant bytes = s.offset := by rw [consumed, hrun]
  rw [decoder, if_pos hcard] at hrun
  obtain ⟨ms, tail, hlength, hcount, hms, hd, rfl⟩ := exists_minutiae_of_run hrun
  refine ⟨hconsumed.trans (Nat.zero_add _), ms, ?_⟩
  cases tail with
  | nil =>
    cases hd
    exact ⟨rfl, hcount, hms, hlength⟩
  | cons b bs => cases hd

/-- Bytes that end within a minutia are a card that was cut short, if they are not too many. -/
theorem exists_incomplete_of_mod_ne_zero (hcard : variant.isCard = true)
    (hlength : bytes.length ≤ 255 * variant.minutiaLength)
    (hmod : bytes.length % variant.minutiaLength ≠ 0) :
    ∃ p, decode variant bytes = .ok (.incomplete p) := by
  obtain ⟨ms, tail, hbytes, hcount, htail, -, hms⟩ := exists_minutiae_of_length_le hlength
  have hnonempty : tail.isEmpty = false := by
    cases tail with
    | nil => simp [hcount] at hmod
    | cons b bs => rfl
  subst hbytes
  refine ⟨ofCard variant ms true, ?_⟩
  rw [decode, decoder, if_pos hcard, Buffer.ofBytes, run_cardDecoder_append htail hlength hms,
    hnonempty]
  rfl

end Record

end FingerMinutiae
