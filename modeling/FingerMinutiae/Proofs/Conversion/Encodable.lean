import FingerMinutiae.Proofs.Conversion.Convert
import FingerMinutiae.Proofs.Decoding.Image
import FingerMinutiae.Proofs.RecordLength

/-!
# Converted records are written and read back

What was read from bytes fits its variant, whether or not all of it was there, and a conversion
makes a well-formed record out of whatever fits. Counts and lengths are made anew, so it does not
matter that those of a record that was cut short may be wrong. Hence every converted record can be
written, it takes as many bytes as it declares, and it is read back from them. A card keeps only its
minutiae, and these are what is read back of it.

## Main results

* `Record.Bounded.encode_of_convert_card`: a card that comes out of a conversion.
* `Record.convert_decode`: conversions of decoded records.
-/

namespace FingerMinutiae

namespace Record

variable {r c : Record} {target : Variant} {asked : Option Resolution}

/-- A card that comes out of a conversion is written and read back as a card with its minutiae. -/
theorem Bounded.encode_of_convert_card (h : r.Bounded) (hcard : target.isCard = true)
    (hc : r.convert target asked = .ok c) :
    ∃ encoded s v w, c.encode = .ok encoded ∧ encoded.length = c.recordLength.toNat ∧
      decode target encoded = .ok (.complete s) ∧ c.views = [v] ∧ s.views = [w] ∧
      w.minutiae = v.minutiae ∧ w.numMinutiae = v.numMinutiae ∧
      s.recordLength = c.recordLength := by
  obtain ⟨rfl, hwell, hlength, hone⟩ := h.convert hc
  obtain ⟨v, hviews⟩ := hone hcard
  have hv : v.WellFormed c.variant := hwell.views v (by simp [hviews])
  have hcount := hv.bounded.minutiae_length
  have hcomputed := computedLength_of_isCard hcard hviews
  have hencoded := (Layout.lawful_minutia c.variant).length_flatMap_bytes v.minutiae
  rw [Layout.width_minutia] at hencoded
  have hrun := run_cardDecoder_of_valid hcount hv.minutiae
  refine ⟨_, ofCard c.variant v.minutiae false, v, _, encode_of_isCard hcard hviews hv.minutiae, ?_,
    ?_, hviews, rfl, rfl, ?_, ?_⟩
  · rw [hencoded, hlength, hcomputed]
  · rw [decode, decoder, if_pos hcard, hrun]
  · show UInt8.ofNat v.minutiae.length = v.numMinutiae
    rw [← hv.numMinutiae, UInt8.ofNat_toNat]
  · apply UInt32.toNat_inj.mp
    rw [recordLength_ofCard hcard hcount, hlength, hcomputed]

/-- **Converted records are written and read back.** Whatever is read from some bytes, whole or not:
a record that it is converted to declares its computed length, it is written in as many bytes, and
with a header it is read back from them. A card is read back as a card of the same length with the
same minutiae. And between records with a header every conversion that there is succeeds. -/
theorem convert_decode {source : Variant} {bytes : Bytes} {d : Decoded Record}
    (h : decode source bytes = .ok d) (target : Variant) (asked : Option Resolution) :
    (∀ c, d.value.convert target asked = .ok c →
      c.recordLength.toNat = c.computedLength ∧ ∃ encoded, c.encode = .ok encoded ∧
        encoded.length = c.recordLength.toNat ∧
        (target.hasHeader = true → decode target encoded = .ok (.complete c)) ∧
        (target.isCard = true → ∃ s v w, decode target encoded = .ok (.complete s) ∧
          c.views = [v] ∧ s.views = [w] ∧ w.minutiae = v.minutiae ∧
          w.numMinutiae = v.numMinutiae ∧ s.recordLength = c.recordLength)) ∧
      (source.hasHeader = true → target.hasHeader = true → source = .ansi ∨ target = .ansi →
        ∃ c, d.value.convert target asked = .ok c) := by
  obtain ⟨rfl, hbounded⟩ := bounded_of_decode h
  refine ⟨?_, fun hsource htarget hpair => hbounded.exists_convert_eq_ok hsource htarget hpair⟩
  intro c hc
  obtain ⟨rfl, hwell, hlength, -⟩ := hbounded.convert hc
  refine ⟨hlength, ?_⟩
  by_cases hcard : c.variant.isCard = true
  · obtain ⟨encoded, s, v, w, hencode, hencoded, hread⟩ := hbounded.encode_of_convert_card hcard hc
    refine ⟨encoded, hencode, hencoded, fun hheader => ?_, fun _ => ⟨s, v, w, hread⟩⟩
    exact absurd hcard (Variant.not_isCard_of_hasHeader hheader)
  · have hheader : c.variant.hasHeader = true := Variant.hasHeader_of_not_isCard hcard
    obtain ⟨encoded, hencode, hencoded, hread⟩ := hwell.encode_of_recordLength hheader hlength
    exact ⟨encoded, hencode, hencoded, fun _ => hread, fun hcard' => absurd hcard' hcard⟩

/-- The bytes of an ANSI record of one view without minutiae. -/
def bareViewBytes : Bytes :=
  [0x46, 0x4d, 0x52, 0, 0x20, 0x32, 0x30, 0, 0, 32, 1, 3, 0, 0,
    0, 0, 1, 144, 1, 244, 0, 197, 0, 197, 1, 0, 1, 0, 80, 0, 0, 0]

theorem convert_decode_landmarkBytes :
    (∃ p c encoded, decode .iso (landmarkBytes.take 45) = .ok (.incomplete p) ∧
        p.convert .ansi none = .ok c ∧ c.encode = .ok encoded ∧
        encoded.length = c.recordLength.toNat ∧ decode .ansi encoded = .ok (.complete c)) ∧
      ∃ r c encoded s, decode .ansi bareViewBytes = .ok (.complete r) ∧
        r.convert .isoNormalCard none = .ok c ∧ c.encode = .ok encoded ∧
        decode .isoNormalCard encoded = .ok (.complete s) ∧ s.recordLength = c.recordLength := by
  constructor
  · have hshort : (short? (decode .iso (landmarkBytes.take 45))).isSome = true := by
      decide +kernel
    obtain ⟨p, hp⟩ := Option.isSome_iff_exists.mp hshort
    rw [short?_eq_some_iff] at hp
    obtain ⟨hconverted, hexists⟩ := convert_decode hp .ansi none
    obtain ⟨c, hc⟩ := hexists rfl rfl (.inr rfl)
    obtain ⟨-, encoded, hencode, hlength, hread, -⟩ := hconverted c hc
    exact ⟨p, c, encoded, hp, hc, hencode, hlength, hread rfl⟩
  · have hwhole : ∃ r, whole? (decode .ansi bareViewBytes) = some r ∧
        ∃ c, r.convert .isoNormalCard none = .ok c := ⟨_, by rfl, _, by rfl⟩
    obtain ⟨r, hr, c, hc⟩ := hwhole
    rw [whole?_eq_some_iff] at hr
    obtain ⟨-, encoded, hencode, -, -, hcard⟩ := (convert_decode hr .isoNormalCard none).1 c hc
    obtain ⟨s, v, w, hs, -, -, -, -, hlength⟩ := hcard rfl
    exact ⟨r, c, encoded, s, hr, hc, hencode, hs, hlength⟩

end Record

end FingerMinutiae
