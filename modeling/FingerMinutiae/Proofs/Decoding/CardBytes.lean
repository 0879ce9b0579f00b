import FingerMinutiae.Proofs.Decoding.Cards

/-!
# Cards and their bytes

What is made of the bytes of a card depends on their number alone: a card that was read whole, one
that was cut short, or an error. Of a card that was read, whole or not, the view has a minutia for
every piece of the bytes that is long enough for one, and these pieces are what is written for the
card. So whole cards and bytes of the right number are the same thing in two forms, and the first
minutiae of a card are a card.

## Main definitions

* `Record.CardOf`: a record and its view, in terms of the bytes of a card.
* `Record.takeMinutiae`: a card with only its first minutiae.

## Main results

* `Record.exists_cardOf_of_decode`: a card that was read is the card of the bytes.
* `Record.decode_take_of_decode_card`: a card that is cut off at a minutia boundary.
* `Record.decode_card_by_length`: what is made of bytes, and that it is written as it was read.
-/

namespace FingerMinutiae

open Layout

/-- Values written one after the other are found again where they stand. -/
theorem Layout.Lawful.parse_take_drop {α : Type} {layout : Layout α} {valid : α → Prop}
    {mask : Bytes} (h : layout.Lawful valid mask) {as : List α} (hvalid : ∀ a ∈ as, valid a)
    (tail : Bytes) {i : Nat} (hi : i < as.length) :
    layout.parse (((as.flatMap layout.bytes ++ tail).drop (i * layout.width)).take layout.width)
      = as[i] := by
  induction as generalizing i with
  | nil => exact absurd hi (Nat.not_lt_zero i)
  | cons a as ih =>
    obtain ⟨ha, has⟩ := List.forall_mem_cons.mp hvalid
    rw [List.flatMap_cons, List.append_assoc]
    cases i with
    | zero =>
      rw [Nat.zero_mul, List.drop_zero, List.take_left' (h.length_bytes a), h.parse_bytes a ha]
      rfl
    | succ i =>
      have hskip : (i + 1) * layout.width = layout.width + i * layout.width := by
        rw [Nat.succ_mul, Nat.add_comm]
      rw [hskip, ← List.drop_drop, List.drop_left' (h.length_bytes a)]
      exact ih has (Nat.lt_of_succ_lt_succ hi)

namespace Record

variable {variant : Variant} {bytes : Bytes}

/-- The record is the card of the bytes, and has the view `v`: a minutia for each piece of the bytes
that is as long as one. What is left behind these pieces does not show in it. -/
structure CardOf (variant : Variant) (bytes : Bytes) (v : FingerView) (r : Record) : Prop where
  variant_eq : r.variant = variant
  views : r.views = [v]
  /-- There are as many minutiae as there is room for. -/
  length_minutiae : v.minutiae.length = bytes.length / variant.minutiaLength
  /-- Each minutia is read from the piece of bytes at its place. -/
  minutiae : ∀ (i : Nat) (h : i < v.minutiae.length), v.minutiae[i] = (minutia variant).parse
    ((bytes.drop (i * variant.minutiaLength)).take variant.minutiaLength)
  numMinutiae : v.numMinutiae.toNat = v.minutiae.length
  recordLength : r.recordLength.toNat = v.minutiae.length * variant.minutiaLength
  /-- The pieces are what is written. -/
  encode : r.encode = .ok (bytes.take (v.minutiae.length * variant.minutiaLength))

/-- The card of minutiae that are written in front of a rest is the card of the bytes. -/
theorem cardOf_ofCard (hcard : variant.isCard = true) {ms : List Minutia} {tail : Bytes}
    (hms : ∀ m ∈ ms, m.WellFormed variant) (hcount : ms.length ≤ 255)
    (htail : tail.length < variant.minutiaLength) (truncated : Bool) :
    CardOf variant (ms.flatMap (minutia variant).bytes ++ tail)
      { numMinutiae := UInt8.ofNat ms.length, minutiae := ms, truncated }
      (ofCard variant ms truncated) := by
  have hlength := (lawful_minutia variant).length_flatMap_bytes ms
  rw [width_minutia] at hlength
  refine ⟨rfl, rfl, ?_, ?_, ?_, recordLength_ofCard hcard hcount truncated, ?_⟩
  · show ms.length = _
    rw [List.length_append, hlength, Nat.mul_comm, Nat.mul_add_div minutiaLength_pos,
      Nat.div_eq_of_lt htail, Nat.add_zero]
  · intro i hi
    have hpiece := (lawful_minutia variant).parse_take_drop hms tail hi
    rw [width_minutia] at hpiece
    exact hpiece.symm
  · exact UInt8.toNat_ofNat_of_lt' (Nat.lt_succ_of_le hcount)
  · rw [encode_ofCard hcard hms, List.take_left' hlength]

/-- **Bytes that are not too many** are a card, whole if no bytes are left behind its minutiae. -/
theorem exists_cardOf_of_length_le (hcard : variant.isCard = true)
    (h : bytes.length ≤ 255 * variant.minutiaLength) :
    ∃ v r, CardOf variant bytes v r ∧
      (bytes.length % variant.minutiaLength = 0 ∧ v.truncated = false ∧
          decode variant bytes = .ok (.complete r) ∨
        bytes.length % variant.minutiaLength ≠ 0 ∧ v.truncated = true ∧
          decode variant bytes = .ok (.incomplete r)) := by
  obtain ⟨ms, tail, rfl, hlength, htail, hcount, hms⟩ := exists_minutiae_of_length_le h
  have hrun := run_cardDecoder_append htail h hms 0
  have hmod : (ms.length * variant.minutiaLength + tail.length) % variant.minutiaLength
      = tail.length := by
    rw [Nat.mul_comm, Nat.mul_add_mod, Nat.mod_eq_of_lt htail]
  have hdecode : decode variant (ms.flatMap (minutia variant).bytes ++ tail)
      = .ok (if tail.isEmpty then .complete (ofCard variant ms false)
          else .incomplete (ofCard variant ms true)) := by
    rw [decode, decoder, if_pos hcard, Buffer.ofBytes, hrun]
  rw [hlength, hmod]
  cases tail with
  | nil =>
    exact ⟨_, _, cardOf_ofCard hcard hms hcount htail false, .inl ⟨rfl, rfl, hdecode⟩⟩
  | cons b bs =>
    exact ⟨_, _, cardOf_ofCard hcard hms hcount htail true,
      .inr ⟨Nat.succ_ne_zero _, rfl, hdecode⟩⟩

/-- **Too many bytes** are an error, which is found behind the last minutia that counts. -/
theorem decode_card_of_lt_length (hcard : variant.isCard = true)
    (h : 255 * variant.minutiaLength < bytes.length) :
    decode variant bytes
      = .error (.malformed (255 * variant.minutiaLength) (.view 0) .tooManyMinutiae) := by
  rw [decode, decoder, if_pos hcard, Buffer.ofBytes, run_cardDecoder_of_gt h, Nat.zero_add]

/-- What is read of a card is the card of the bytes, and its view shows whether it was cut short. -/
theorem exists_cardOf_of_decode (hcard : variant.isCard = true) {d : Decoded Record}
    (h : decode variant bytes = .ok d) :
    ∃ v, CardOf variant bytes v d.value ∧ v.truncated = !d.isComplete := by
  rcases Nat.lt_or_ge (255 * variant.minutiaLength) bytes.length with hgt | hle
  · cases (decode_card_of_lt_length hcard hgt).symm.trans h
  · obtain ⟨v, r, hcardOf, ⟨-, htruncated, hdecode⟩ | ⟨-, htruncated, hdecode⟩⟩ :=
      exists_cardOf_of_length_le hcard hle
    · cases hdecode.symm.trans h
      exact ⟨v, hcardOf, htruncated⟩
    · cases hdecode.symm.trans h
      exact ⟨v, hcardOf, htruncated⟩

/-- The card of bytes that leave nothing over is written as these bytes. -/
theorem CardOf.encode_of_mod_eq_zero {v : FingerView} {r : Record} (h : CardOf variant bytes v r)
    (hmod : bytes.length % variant.minutiaLength = 0) : r.encode = .ok bytes := by
  have hall : v.minutiae.length * variant.minutiaLength = bytes.length := by
    rw [h.length_minutiae, Nat.div_mul_cancel (Nat.dvd_of_mod_eq_zero hmod)]
  rw [h.encode, hall, List.take_length]

/-- Bytes are a whole card if they are at most 255 minutiae and nothing is left over. -/
theorem exists_complete_iff_of_isCard (hcard : variant.isCard = true) :
    (∃ r, decode variant bytes = .ok (.complete r)) ↔
      bytes.length % variant.minutiaLength = 0 ∧ bytes.length ≤ 255 * variant.minutiaLength := by
  constructor
  · rintro ⟨r, hr⟩
    obtain ⟨-, ms, -, hcount, -, hlength⟩ := consumed_of_decode_card hcard hr
    rw [hlength]
    exact ⟨Nat.mul_mod_left _ _, Nat.mul_le_mul_right _ hcount⟩
  · rintro ⟨hmod, hle⟩
    obtain ⟨v, r, -, ⟨-, -, hr⟩ | ⟨hne, -⟩⟩ := exists_cardOf_of_length_le hcard hle
    · exact ⟨r, hr⟩
    · exact absurd hmod hne

/-- They are a card that was cut short if something is left over. -/
theorem exists_incomplete_iff_of_isCard (hcard : variant.isCard = true) :
    (∃ r, decode variant bytes = .ok (.incomplete r)) ↔
      bytes.length % variant.minutiaLength ≠ 0 ∧ bytes.length ≤ 255 * variant.minutiaLength := by
  constructor
  · rintro ⟨p, hp⟩
    rcases Nat.lt_or_ge (255 * variant.minutiaLength) bytes.length with hgt | hle
    · cases (decode_card_of_lt_length hcard hgt).symm.trans hp
    · obtain ⟨v, r, -, ⟨-, -, hr⟩ | ⟨hne, -⟩⟩ := exists_cardOf_of_length_le hcard hle
      · cases hr.symm.trans hp
      · exact ⟨hne, hle⟩
  · exact fun ⟨hne, hle⟩ => exists_incomplete_of_mod_ne_zero hcard hle hne

/-- They are too many otherwise. -/
theorem decode_card_eq_tooManyMinutiae_iff (hcard : variant.isCard = true) :
    decode variant bytes
        = .error (.malformed (255 * variant.minutiaLength) (.view 0) .tooManyMinutiae) ↔
      255 * variant.minutiaLength < bytes.length := by
  refine ⟨fun h => ?_, decode_card_of_lt_length hcard⟩
  by_contra hle
  obtain ⟨v, r, -, ⟨-, -, hr⟩ | ⟨-, -, hr⟩⟩ :=
    exists_cardOf_of_length_le hcard (Nat.le_of_not_lt hle)
  · cases hr.symm.trans h
  · cases hr.symm.trans h

/-- A whole card is written as the very bytes that it was read from. -/
theorem encode_of_decode_card (hcard : variant.isCard = true) {r : Record}
    (h : decode variant bytes = .ok (.complete r)) : r.encode = .ok bytes := by
  obtain ⟨v, hcardOf, -⟩ := exists_cardOf_of_decode hcard h
  exact hcardOf.encode_of_mod_eq_zero ((exists_complete_iff_of_isCard hcard).mp ⟨r, h⟩).1

/-- The record of a card with only the first `n` of its minutiae. -/
def takeMinutiae (r : Record) (n : Nat) : Record :=
  { r with
    recordLength := UInt32.ofNat (n * r.variant.minutiaLength)
    views := r.views.map fun v =>
      { v with numMinutiae := UInt8.ofNat n, minutiae := v.minutiae.take n } }

theorem takeMinutiae_ofCard (hcard : variant.isCard = true) {ms : List Minutia} {n : Nat}
    (hn : n ≤ ms.length) (truncated : Bool) :
    (ofCard variant ms truncated).takeMinutiae n = ofCard variant (ms.take n) truncated := by
  have hlength : (ms.take n).length = n := List.length_take_of_le hn
  rw [ofCard, FingerView.encodedLength_of_isCard hcard, ofCard,
    FingerView.encodedLength_of_isCard hcard, hlength]
  rfl

/-- **A card that is cut off behind any number of its minutiae** is the card of these. -/
theorem decode_take_of_decode_card (hcard : variant.isCard = true) {r : Record}
    (h : decode variant bytes = .ok (.complete r)) {n : Nat}
    (hn : n * variant.minutiaLength ≤ bytes.length) :
    decode variant (bytes.take (n * variant.minutiaLength))
      = .ok (.complete (r.takeMinutiae n)) := by
  obtain ⟨-, ms, rfl, hcount, hms, hlength⟩ := consumed_of_decode_card hcard h
  have hle : n ≤ ms.length := Nat.le_of_mul_le_mul_right (hlength ▸ hn) minutiaLength_pos
  have hbytes : bytes = ms.flatMap (minutia variant).bytes :=
    Except.ok.inj ((encode_of_decode_card hcard h).symm.trans (encode_ofCard hcard hms))
  have hfirst : ((ms.take n).flatMap (minutia variant).bytes).length
      = n * variant.minutiaLength := by
    rw [(lawful_minutia variant).length_flatMap_bytes, width_minutia, List.length_take_of_le hle]
  have htake : bytes.take (n * variant.minutiaLength)
      = (ms.take n).flatMap (minutia variant).bytes := by
    rw [hbytes, ← List.take_append_drop n ms, List.flatMap_append, List.take_left' hfirst,
      List.take_append_drop]
  rw [htake, takeMinutiae_ofCard hcard hle, decode, decoder, if_pos hcard]
  exact run_cardDecoder_of_valid ((List.length_take_of_le hle).trans_le (hle.trans hcount))
    fun m hm => hms m (List.mem_of_mem_take hm)

/-- Bytes are of the right number when they are at most 255 pieces. -/
theorem exists_length_eq_iff : (∃ k ≤ 255, bytes.length = k * variant.minutiaLength) ↔
    bytes.length % variant.minutiaLength = 0 ∧ bytes.length ≤ 255 * variant.minutiaLength := by
  constructor
  · rintro ⟨k, hk, hlength⟩
    rw [hlength]
    exact ⟨Nat.mul_mod_left _ _, Nat.mul_le_mul_right _ hk⟩
  · rintro ⟨hmod, hle⟩
    have hcancel := Nat.div_mul_cancel (Nat.dvd_of_mod_eq_zero hmod)
    refine ⟨bytes.length / variant.minutiaLength, ?_, hcancel.symm⟩
    exact Nat.div_le_of_le_mul (Nat.mul_comm 255 _ ▸ hle)

/-- **Cards are classified by their length.** Bytes are a whole card if they are at most 255
minutiae and nothing is left over, a card that was cut short if something is left over, and too
many for a card otherwise. Whatever was read is the card of the bytes, and is written as those of
them that its minutiae were read from. So reading and writing are inverse to each other between the
bytes of at most 255 minutiae and the cards that are read whole. -/
theorem decode_card_by_length (hcard : variant.isCard = true) (bytes : Bytes) :
    ((∃ r, decode variant bytes = .ok (.complete r)) ↔
        bytes.length % variant.minutiaLength = 0 ∧ bytes.length ≤ 255 * variant.minutiaLength) ∧
      (decode variant bytes
          = .error (.malformed (255 * variant.minutiaLength) (.view 0) .tooManyMinutiae) ↔
        255 * variant.minutiaLength < bytes.length) ∧
      ((∃ r, decode variant bytes = .ok (.incomplete r)) ↔
        bytes.length % variant.minutiaLength ≠ 0 ∧ bytes.length ≤ 255 * variant.minutiaLength) ∧
      (∀ d, decode variant bytes = .ok d →
        ∃ v, CardOf variant bytes v d.value ∧ v.truncated = !d.isComplete) ∧
      ((∃ k ≤ 255, bytes.length = k * variant.minutiaLength) →
        ∃ r, decode variant bytes = .ok (.complete r) ∧ r.encode = .ok bytes) ∧
      ∀ r, decode variant bytes = .ok (.complete r) →
        ∃ written, r.encode = .ok written ∧
          (∃ k ≤ 255, written.length = k * variant.minutiaLength) ∧
          decode variant written = .ok (.complete r) := by
  refine ⟨exists_complete_iff_of_isCard hcard, decode_card_eq_tooManyMinutiae_iff hcard,
    exists_incomplete_iff_of_isCard hcard, fun d => exists_cardOf_of_decode hcard, ?_, ?_⟩
  · intro hlength
    obtain ⟨r, hr⟩ := (exists_complete_iff_of_isCard hcard).mpr (exists_length_eq_iff.mp hlength)
    exact ⟨r, hr, encode_of_decode_card hcard hr⟩
  · intro r hr
    refine ⟨bytes, encode_of_decode_card hcard hr, ?_, hr⟩
    exact exists_length_eq_iff.mpr ((exists_complete_iff_of_isCard hcard).mp ⟨r, hr⟩)

/-- Two minutiae of a compact card and a byte of the next. -/
def compactBytes : Bytes :=
  [10, 20, 0x45, 30, 40, 0x86, 50]

theorem decode_card_by_length_compactBytes :
    (∃ p v, decode .isoCompactCard compactBytes = .ok (.incomplete p) ∧ p.views = [v] ∧
        v.truncated = true ∧ v.minutiae.length = 2 ∧
        p.encode = .ok [10, 20, 0x45, 30, 40, 0x86]) ∧
      ∃ r, decode .isoCompactCard (compactBytes.take 6) = .ok (.complete r) ∧
        r.encode = .ok (compactBytes.take 6) := by
  have hcard : Variant.isoCompactCard.isCard = true := rfl
  obtain ⟨-, -, hincomplete, hread, -, -⟩ := decode_card_by_length hcard compactBytes
  obtain ⟨-, -, -, -, hwhole, -⟩ := decode_card_by_length hcard (compactBytes.take 6)
  obtain ⟨p, hp⟩ := hincomplete.mpr (by decide)
  obtain ⟨v, hcardOf, htruncated⟩ := hread _ hp
  have hlength : v.minutiae.length = 2 := hcardOf.length_minutiae
  have hencode : p.encode = _ := hcardOf.encode
  rw [hlength] at hencode
  exact ⟨⟨p, v, hp, hcardOf.views, htruncated, hlength, hencode⟩, hwhole ⟨2, by decide, rfl⟩⟩

end Record

end FingerMinutiae
