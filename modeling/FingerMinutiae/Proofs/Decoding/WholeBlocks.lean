import FingerMinutiae.Proofs.Decoding.Malformed

/-!
# Blocks that are all there

The records of a block are checked against the bytes that the block has left, but not everything is
that is read of them: the header of a record may begin so close to the end of the block that it goes
beyond it, and cores and deltas are read as they announce themselves before it is seen whether they
take what is declared. So a block can be all there and the decoder still run out of bytes, which it
then takes for a record that is cut short.

How far it can go beyond the end of a block is bounded by what cores and deltas can announce. And
such a block was never right: whatever bytes follow, the record does not become whole, and once
enough of them follow it is found malformed.

## Main definitions

* `Landmarks.maxLength`: the most bytes that cores and deltas can take.
* `Decoder.Within`: a bound on what a decoder reads.

## Main results

* `ExtendedBlock.length_lt_of_ends_short`: how far beyond its end a block is read.
* `Record.decode_of_block_present`: a block that is all there and cut short.
* `Record.not_forall_length_lt_declaredEnd`: there are such blocks.
-/

namespace FingerMinutiae

open Decoder Layout

variable {α β : Type} {variant : Variant} {bytes : Bytes}

/-! ### Bounded reading -/

/-- The decoder reads at most `n` bytes, and there are fewer when it is cut short. -/
structure Decoder.Within (n : Nat) (d : Decoder α) : Prop where
  value : ∀ {bytes a}, d.Ends bytes (.value a) → bytes.length ≤ n
  short : ∀ {bytes a}, d.Ends bytes (.short a) → bytes.length < n

namespace Decoder

theorem within_done (n : Nat) (a : α) : (done a).Within n where
  value h := by
    cases h
    exact Nat.zero_le n
  short h := by cases h

theorem within_malformed (n back : Nat) (place : Place) (defect : Defect) :
    (malformed back place defect : Decoder α).Within n where
  value h := by cases h
  short h := by cases h

theorem Within.bind {m n : Nat} {d : Decoder α} {f : α → Decoder β} (hd : d.Within m)
    (hf : ∀ a, (f a).Within n) : (d.bind f).Within (m + n) where
  value h := by
    rcases h.bind_cases with ⟨front, back, a, rfl, ha, hback⟩ | ⟨_, -, ⟨⟩⟩
    rw [List.length_append]
    exact Nat.add_le_add (hd.value ha) ((hf a).value hback)
  short h := by
    rcases h.bind_cases with ⟨front, back, a, rfl, ha, hback⟩ | ⟨_, ha, ⟨_⟩⟩
    · rw [List.length_append]
      exact Nat.add_lt_add_of_le_of_lt (hd.value ha) ((hf a).short hback)
    · exact Nat.lt_add_right n (hd.short ha)

/-- What a piece means may bound what follows it. -/
theorem within_readPiece_bind {m n : Nat} {layout : Layout α} {f : Portion α → Decoder β}
    (hn : layout.width + m ≤ n)
    (hwhole : ∀ piece : Bytes, piece.length = layout.width →
      (f (.whole (layout.parse piece))).Within m) :
    ((readPiece layout).bind f).Within n where
  value h := by
    rcases h.readPiece_cases with ⟨piece, back, rfl, hpiece, hback⟩ | ⟨_, _, _, ⟨⟩⟩
    have hm := (hwhole piece hpiece).value hback
    rw [List.length_append]
    omega
  short h := by
    rcases h.readPiece_cases with ⟨piece, back, rfl, hpiece, hback⟩ | ⟨hlt, -⟩
    · have hm := (hwhole piece hpiece).short hback
      rw [List.length_append]
      omega
    · omega

theorem within_item (layout : Layout α) : (item layout).Within layout.width :=
  within_readPiece_bind (Nat.le_refl _) fun _ _ => within_done 0 _

theorem Within.mono {m n : Nat} {d : Decoder α} (hd : d.Within m) (h : m ≤ n) : d.Within n where
  value hends := Nat.le_trans (hd.value hends) h
  short hends := Nat.lt_of_lt_of_le (hd.short hends) h

theorem within_severalFrom {n : Nat} {each : Nat → Decoder (Option (Decoded α))}
    (heach : ∀ index, (each index).Within n) (index count : Nat) (got : List α) :
    (severalFrom each index count got).Within (count * n) := by
  induction count generalizing index got with
  | zero => exact within_done _ _
  | succ count ih =>
    rw [severalFrom_succ, Nat.succ_mul, Nat.add_comm]
    refine (heach index).bind ?_
    rintro (_ | a | a)
    · exact within_done _ _
    · exact ih (index + 1) (a :: got)
    · exact within_done _ _

/-- A list takes at most as many times what an item takes. -/
theorem within_several {n most count : Nat} {each : Nat → Decoder (Option (Decoded α))}
    (heach : ∀ index, (each index).Within n) (hcount : count ≤ most) :
    (several each count).Within (most * n) :=
  (within_severalFrom heach 0 count []).mono (Nat.mul_le_mul_right n hcount)

end Decoder

/-! ### Payloads -/

theorem Landmark.within_entryDecoder {γ : Type} (variant : Variant) (listKind : UInt8)
    (angles : Layout γ) (make : Landmark → Option γ → α) :
    (entryDecoder variant listKind angles make).Within (4 + angles.width) := by
  refine within_readPiece_bind (Nat.le_refl (4 + angles.width)) fun piece _ => ?_
  dsimp only
  split
  · exact within_readPiece_bind (Nat.le_refl angles.width) fun _ _ => within_done 0 _
  · exact within_done _ _

theorem Core.within_decoder (variant : Variant) (listKind : UInt8) :
    (Core.decoder variant listKind).Within 5 := by
  rw [Core.decoder_eq]
  exact Landmark.within_entryDecoder variant listKind byte _

theorem Delta.within_decoder (variant : Variant) (listKind : UInt8) :
    (Delta.decoder variant listKind).Within 7 := by
  rw [Delta.decoder_eq]
  exact Landmark.within_entryDecoder variant listKind deltaAngles _

namespace Landmarks

/-- The most bytes that cores and deltas take: there can be fifteen cores of five bytes and
sixty-three deltas of seven, and a byte opens each list. -/
def maxLength : Nat :=
  (1 + 15 * 5) + (1 + 63 * 7)

theorem count_le_of_coresInfo (variant : Variant) {piece : Bytes} (hpiece : piece.length = 1) :
    ((coresInfo variant).parse piece).count.toNat ≤ 15 :=
  Nat.le_of_lt_succ ((lawful_coresInfo variant).valid_parse piece hpiece).2

theorem count_le_of_deltasInfo (variant : Variant) {piece : Bytes} (hpiece : piece.length = 1) :
    ((deltasInfo variant).parse piece).count.toNat ≤ 63 :=
  Nat.le_of_lt_succ ((lawful_deltasInfo variant).valid_parse piece hpiece).2

theorem within_entriesDecoder (variant : Variant) :
    (entriesDecoder variant).Within maxLength := by
  have hmost : 1 + (15 * 5 + (1 + 63 * 7)) ≤ maxLength := by decide
  refine within_readPiece_bind hmost fun piece hpiece => ?_
  refine (within_several (fun _ => Core.within_decoder variant _)
    (count_le_of_coresInfo variant hpiece)).bind ?_
  rintro (cores | cores)
  · refine within_readPiece_bind (m := 63 * 7) (Nat.le_refl 442) fun piece' hpiece' => ?_
    exact (within_several (fun _ => Delta.within_decoder variant _)
      (count_le_of_deltasInfo variant hpiece')).bind fun _ => within_done 0 _
  · exact within_done _ _

theorem within_decoder (variant : Variant) (place : Place) (declared : Nat) :
    (Landmarks.decoder variant place declared).Within maxLength := by
  refine (within_entriesDecoder variant).bind (n := 0) ?_
  rintro (b | b)
  · dsimp only
    split
    · exact within_done _ _
    · exact within_malformed _ _ _ _
  · exact within_done _ _

end Landmarks

theorem RidgeCounts.within_decoder (place : Place) (declared : Nat) :
    (RidgeCounts.decoder place declared).Within declared := by
  rw [RidgeCounts.decoder]
  split
  · next hlength =>
    have hmod : declared % 3 = 1 := by simpa [isLength] using hlength
    have hcounts : 1 + declared / 3 * 3 ≤ declared := by omega
    refine within_readPiece_bind hcounts fun _ _ => ?_
    exact (within_several (fun _ => within_item ridgeCount) (Nat.le_refl _)).bind
      fun _ => within_done 0 _
  · exact within_malformed _ _ _ _

/-- Only cores and deltas go beyond what is declared for them, since that is compared when they have
been read. -/
theorem Payload.length_lt_of_ends_short {place : Place} {typeId : UInt16} {declared : Nat}
    {p : Decoded Payload}
    (h : (Payload.decoder variant place typeId declared).Ends bytes (.short p)) :
    bytes.length < declared + Landmarks.maxLength := by
  rw [Payload.decoder] at h
  split at h
  · obtain ⟨b, hb, -⟩ := h.short_of_map
    exact Nat.lt_add_right _ ((RidgeCounts.within_decoder place declared).short hb)
  · split at h
    · obtain ⟨b, hb, -⟩ := h.short_of_map
      exact Nat.lt_add_left _ ((Landmarks.within_decoder variant place declared).short hb)
    · cases h with
      | short few _ => exact Nat.lt_add_right _ few
      | take _ hdone => cases hdone

/-! ### Blocks -/

namespace ExtendedBlock

/-- A block that is accepted takes exactly the bytes that it declares. -/
theorem length_of_ends_value {view : Nat} {blockLength : UInt16} {b : Decoded ExtendedBlock}
    (h : (ExtendedBlock.decoder variant view blockLength).Ends bytes (.value b)) :
    bytes.length = blockLength.toNat := by
  rcases h.bind_cases with ⟨front, later, ds, rfl, hds, hlater⟩ | ⟨_, -, ⟨⟩⟩
  have hread := (reads_recordsDecoder variant view 0 blockLength.toNat []).of_ends_value hds
  rcases ds with ds | ds
  · obtain ⟨more, -, hsum, hmore⟩ := hread
    have hlength := hmore.length_eq fun _ d hd =>
      hd.spells.length_mask.symm.trans (ExtendedRecord.length_mask hd.wellFormed)
    cases hlater
    rw [List.append_nil, hlength, hsum]
  · exact hread.elim

theorem length_lt_of_ends_short_records {view index remaining : Nat} {got : List ExtendedRecord}
    {ds : Decoded (List ExtendedRecord)}
    (h : (recordsDecoder variant view index remaining got).Ends bytes (.short ds)) :
    bytes.length < remaining + Landmarks.maxLength := by
  induction remaining using Nat.strongRecOn generalizing index got bytes with
  | ind remaining ih =>
  rcases recordsDecoder_cases h with ⟨-, -, ⟨⟩⟩ |
    ⟨hremaining, ⟨hlt, -⟩ | ⟨-, _, ⟨⟩, -⟩ | ⟨piece, later, rfl, hpiece, hlength, hlater⟩⟩
  · -- The header of a record may begin in the last bytes of the block.
    have hmost : 4 ≤ Landmarks.maxLength := by decide
    omega
  · obtain ⟨hroom, hfits⟩ := ExtendedRecord.bounds_of_lengthDefect? hlength
    rw [List.length_append, hpiece]
    rcases hlater.bind_cases with ⟨front, back, p, rfl, hp, hback⟩ | ⟨_, hp, ⟨_⟩⟩
    · have hread := (Payload.reads_decoder variant _ _ _).of_ends_value hp
      rcases p with p | p
      · have hfront := Payload.Read.length_eq hread
        have hmore := ih _ (by omega) hback
        rw [List.length_append]
        omega
      · exact hread.elim
    · have hlt := Payload.length_lt_of_ends_short hp
      omega

/-- **How far beyond its end a block is read.** -/
theorem length_lt_of_ends_short {view : Nat} {blockLength : UInt16} {b : Decoded ExtendedBlock}
    (h : (ExtendedBlock.decoder variant view blockLength).Ends bytes (.short b)) :
    bytes.length < blockLength.toNat + Landmarks.maxLength ∧
      ∃ records, b = .incomplete { blockLength, records, truncated := true } := by
  rcases h.bind_cases with ⟨_, _, ds, rfl, -, hlater⟩ | ⟨_, hds, @⟨ds, _, hsettled⟩⟩
  · rcases ds with ds | ds
    · cases hlater
    · cases hlater
  · have hcut := (reads_recordsDecoder variant view 0 blockLength.toNat []).of_ends_short hds
    rcases ds with ds | ds
    · exact hcut.elim
    · cases hsettled
      exact ⟨length_lt_of_ends_short_records hds, ds, rfl⟩

/-- A block that is all there and still cut short is not accepted whatever bytes follow. -/
theorem ends_append_of_ends_short {view : Nat} {blockLength : UInt16} (hnonzero : blockLength ≠ 0)
    {b : Decoded ExtendedBlock}
    (h : (ExtendedBlock.decoder variant view blockLength).Ends bytes (.short b))
    (hall : blockLength.toNat ≤ bytes.length) (more : Bytes) :
    (∃ front rest back j defect, bytes ++ more = front ++ rest ∧
        (ExtendedBlock.decoder variant view blockLength).Ends front
          (.defect back (.data view j) defect)) ∨
      ∃ b', (ExtendedBlock.decoder variant view blockLength).Ends (bytes ++ more) (.short b') := by
  rcases Ensures.exists_ends (reads_decoder variant view hnonzero) (bytes ++ more) with
    ⟨front, rest, b', hbytes, hends⟩ | ⟨front, rest, back, place, defect, hbytes, hends⟩ | hshort
  · have hlt := h.length_lt hends hbytes
    have hlength := length_of_ends_value hends
    omega
  · obtain ⟨_, _, ds, rfl, -, hflaw⟩ :=
      exists_flaw_of_ends_defect (ends_recordsDecoder_of_defect hends)
    obtain rfl := hflaw.place_eq
    exact .inl ⟨_, rest, back, _, defect, hbytes, hends⟩
  · exact .inr hshort

end ExtendedBlock

/-! ### Records -/

namespace Record

/-- Where the views of a record end in its bytes, by the lengths that they declare. -/
def declaredEnd (variant : Variant) (bytes : Bytes) (r : Record) : Nat :=
  headerLengthIn variant bytes + (r.views.map fun v => v.encodedLength variant).sum

/-- The block in which a record is cut short: it begins behind some bytes and ends, if it is all
there, where the views do. -/
theorem exists_block_of_decode (hheader : variant.hasHeader = true) {r : Record} {v : FingerView}
    {b : ExtendedBlock} (h : decode variant bytes = .ok (.incomplete r))
    (hlast : r.views.getLast? = some v) (htruncated : v.truncated = true)
    (hextended : v.extended = some b) :
    ∃ front back r₀ left draft, bytes = front ++ back ∧
      ReachesBlock variant front r₀ left draft b.blockLength ∧
      (ExtendedBlock.decoder variant r₀.views.length b.blockLength).Ends back
        (.short (.incomplete b)) ∧
      r.views.length = r₀.views.length + 1 ∧
      declaredEnd variant bytes r = front.length + b.blockLength.toNat := by
  obtain ⟨s, hrun⟩ := exists_run_of_decode h
  rw [decoder_of_hasHeader hheader] at hrun
  rcases Ensures.of_run (reads_headedDecoder variant) hrun with
    ⟨front, -, -, hends⟩ | ⟨-, hends⟩
  · exact (Ensures.of_ends_value (reads_headedDecoder variant) hends).elim
  · have hin : EndsInBlock (.short (.incomplete r)) :=
      ⟨r, v, rfl, hlast, htruncated, by rw [hextended]; rfl⟩
    obtain ⟨front, back, r₀, left, draft, blockLength, _, rfl, hblock, he, @⟨_, _, hsettled⟩⟩ :=
      exists_reachesBlock_of_ends hheader hends hin
    obtain ⟨-, records, rfl⟩ := ExtendedBlock.length_lt_of_ends_short he
    rw [withBlock_incomplete] at hsettled
    cases hsettled
    rw [List.getLast?_concat] at hlast
    cases hlast
    cases hextended
    refine ⟨front, back, r₀, left, draft, rfl, hblock, he, List.length_append, ?_⟩
    have hview : ∀ v : FingerView, v.encodedLength variant = FingerView.frameLength
        + v.minutiae.length * variant.minutiaLength
        + v.extended.elim 0 fun b => b.blockLength.toNat := by
      intro v
      rw [FingerView.encodedLength, if_neg (Variant.not_isCard_of_hasHeader hheader)]
    rw [declaredEnd, List.map_append, List.sum_append, List.map_singleton, List.sum_singleton,
      hview { draft with extended := some _, truncated := true }, hblock.length back]
    simp only [Option.elim_some]
    omega

/-- **Blocks that are all there.** A record may be cut short within a block although the block is
all there. Then only a few bytes follow the block, no more than cores and deltas can take. And with
whatever bytes behind it the record never becomes whole: it stays cut short as long as they are few,
and otherwise an extended data record of that block is malformed. -/
theorem decode_of_block_present (hheader : variant.hasHeader = true) {r : Record} {v : FingerView}
    {b : ExtendedBlock} (h : decode variant bytes = .ok (.incomplete r))
    (hlast : r.views.getLast? = some v) (htruncated : v.truncated = true)
    (hextended : v.extended = some b) :
    bytes.length < declaredEnd variant bytes r + Landmarks.maxLength ∧
      (declaredEnd variant bytes r ≤ bytes.length → ∀ more : Bytes,
        (∃ offset j defect, decode variant (bytes ++ more)
            = .error (.malformed offset (.data (r.views.length - 1) j) defect)) ∨
          ((bytes ++ more).length < declaredEnd variant bytes r + Landmarks.maxLength ∧
            ∃ r', decode variant (bytes ++ more) = .ok (.incomplete r'))) := by
  obtain ⟨front, back, r₀, left, draft, rfl, hblock, hends, hviews, hend⟩ :=
    exists_block_of_decode hheader h hlast htruncated hextended
  rw [hend, List.length_append]
  constructor
  · have hlt := (ExtendedBlock.length_lt_of_ends_short hends).1
    omega
  · intro hall more
    rw [hviews, Nat.add_sub_cancel, List.append_assoc]
    rcases ExtendedBlock.ends_append_of_ends_short hblock.nonzero hends (by omega) more with
      ⟨front', rest, back', j, defect, hbytes, hdefect⟩ | ⟨b', hshort⟩
    · have hall := hblock.reaches.ends (hdefect.bind_passes (.defect back' _ defect))
      rw [hbytes, ← List.append_assoc]
      exact .inl ⟨_, j, defect, decode_append_of_ends_defect hheader hall rest⟩
    · obtain ⟨hlt, records, rfl⟩ := ExtendedBlock.length_lt_of_ends_short hshort
      have hall := hblock.reaches.ends
        (hshort.bind_passes (.short (withBlock_incomplete r₀ left draft _)))
      refine .inr ⟨?_, _, decode_of_ends_short hheader hall⟩
      rw [List.length_append]
      omega

/-- The bytes of an ANSI record of which the only block is all there. Its record has two bytes of
payload, which announce a delta of four more. -/
def deltalessBytes : Bytes :=
  [0x46, 0x4d, 0x52, 0, 0x20, 0x32, 0x30, 0, 0, 38, 0, 15, 0, 1, 129, 35, 1, 144, 1, 244, 0, 197, 0,
    197, 1, 0, 1, 0, 80, 0, 0, 6, 0, 2, 0, 6, 0, 1]

/-- The record is cut short within its block, and nothing of the block is missing. -/
theorem exists_decode_deltalessBytes :
    ∃ r v b, decode .ansi deltalessBytes = .ok (.incomplete r) ∧ r.views.getLast? = some v ∧
      v.truncated = true ∧ v.extended = some b ∧ r.views.length = 1 ∧
      declaredEnd .ansi deltalessBytes r = deltalessBytes.length := by
  have hcheck : (short? (decode .ansi deltalessBytes)).any (fun r =>
      r.views.getLast?.any (fun v => v.truncated && v.extended.isSome) &&
        decide (r.views.length = 1 ∧ declaredEnd .ansi deltalessBytes r = deltalessBytes.length))
          = true := by decide +kernel
  obtain ⟨r, hr, hcheck⟩ := Option.any_eq_true _ _ |>.mp hcheck
  rw [short?_eq_some_iff] at hr
  obtain ⟨hview, hlengths⟩ := Bool.and_eq_true_iff.mp hcheck
  obtain ⟨v, hv, hview⟩ := Option.any_eq_true _ _ |>.mp hview
  obtain ⟨htruncated, hextended⟩ := Bool.and_eq_true_iff.mp hview
  obtain ⟨b, hb⟩ := Option.isSome_iff_exists.mp hextended
  obtain ⟨hone, hend⟩ := of_decide_eq_true hlengths
  exact ⟨r, v, b, hr, hv, htruncated, hb, hone, hend⟩

theorem decode_of_block_present_deltalessBytes :
    ∃ r, decode .ansi deltalessBytes = .ok (.incomplete r) ∧
      declaredEnd .ansi deltalessBytes r = deltalessBytes.length ∧
      ∀ more : Bytes, Landmarks.maxLength ≤ more.length → ∃ offset j defect,
        decode .ansi (deltalessBytes ++ more) = .error (.malformed offset (.data 0 j) defect) := by
  obtain ⟨r, v, b, hr, hv, htruncated, hb, hone, hend⟩ := exists_decode_deltalessBytes
  refine ⟨r, hr, hend, fun more hmore => ?_⟩
  obtain ⟨-, hmalformed⟩ :=
    decode_of_block_present (rfl : Variant.ansi.hasHeader = true) hr hv htruncated hb
  rcases hmalformed (Nat.le_of_eq hend) more with ⟨offset, j, defect, hdecode⟩ | ⟨hlt, -⟩
  · rw [hone] at hdecode
    exact ⟨offset, j, defect, hdecode⟩
  · rw [List.length_append, hend] at hlt
    omega

/-- That a record is cut short within a block does not say that any of the block is missing. -/
theorem not_forall_length_lt_declaredEnd :
    ¬ ∀ (bytes : Bytes) (r : Record) (v : FingerView) (b : ExtendedBlock),
      decode .ansi bytes = .ok (.incomplete r) → r.views.getLast? = some v → v.truncated = true →
        v.extended = some b → bytes.length < declaredEnd .ansi bytes r := by
  intro hall
  obtain ⟨r, v, b, hr, hv, htruncated, hb, -, hend⟩ := exists_decode_deltalessBytes
  have hlt := hall deltalessBytes r v b hr hv htruncated hb
  rw [hend] at hlt
  exact absurd hlt (Nat.lt_irrefl _)

end Record

end FingerMinutiae
