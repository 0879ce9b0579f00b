import FingerMinutiae.Decoding.Extended
import FingerMinutiae.Proofs.WellFormed
import FingerMinutiae.Proofs.Wire.Words
import FingerMinutiae.Wire.Header
import FingerMinutiae.Wire.View

/-!
# The laws of the layouts

Every layout is read and written without loss, up to two reservations. Only some values can be
written: those of which every packed field is within its bits and every field without a place is
zero. And only some bits are read: a layout may leave bits of its bytes without a meaning, and
these come out as zero when the value is written again.

`Layout.Lawful` says both at once. It names the values that can be written and the bits that are
read, and then reading and writing are inverse to each other between the two.

## Main definitions

* `clearOutside`, `ZeroOutside`: bytes with the bits outside a mask cleared, and bytes in which
  they are zero.
* `Layout.Lawful`: the values a layout writes, the bits it reads, and that nothing else is lost.
* `Layout.coresMask`, `Layout.deltasMask`, `Layout.landmarkMask`: the three layouts that leave
  bits unread.

## Main results

* One `lawful` theorem for each layout, such as `Layout.lawful_capture`, `Layout.lawful_minutia`.
* `Layout.fits_capture_iff`, `Layout.fits_minutia_iff` and the like, for the layouts with packed
  fields: what is within its bits.
-/

namespace FingerMinutiae

/-! ### Masks -/

/-- The bytes with every bit cleared that the mask does not have. -/
def clearOutside (mask bytes : Bytes) : Bytes :=
  List.zipWith (· &&& ·) mask bytes

/-- The mask that has all bits of `n` bytes. -/
def allBits (n : Nat) : Bytes :=
  List.replicate n 0xff

@[simp] theorem length_allBits (n : Nat) : (allBits n).length = n :=
  List.length_replicate

theorem allBits_add (m n : Nat) : allBits (m + n) = allBits m ++ allBits n :=
  List.replicate_append_replicate.symm

theorem all_and (b : UInt8) : 0xff &&& b = b := by
  apply UInt8.toNat_inj.mp
  rw [UInt8.toNat_and, Nat.and_comm]
  exact Nat.and_two_pow_sub_one_of_lt_two_pow b.toNat_lt

@[simp] theorem clearOutside_allBits (bytes : Bytes) :
    clearOutside (allBits bytes.length) bytes = bytes := by
  induction bytes with
  | nil => rfl
  | cons b bytes ih =>
    rw [List.length_cons, allBits, List.replicate_succ, clearOutside, List.zipWith_cons_cons,
      all_and]
    exact congrArg (b :: ·) ih

theorem clearOutside_append {mask mask' bytes bytes' : Bytes} (h : mask.length = bytes.length) :
    clearOutside (mask ++ mask') (bytes ++ bytes')
      = clearOutside mask bytes ++ clearOutside mask' bytes' :=
  List.zipWith_append h

theorem length_clearOutside {mask bytes : Bytes} (h : mask.length = bytes.length) :
    (clearOutside mask bytes).length = bytes.length := by
  rw [clearOutside, List.length_zipWith, h, Nat.min_self]

/-- Every bit of the bytes that the mask does not have is zero. -/
def ZeroOutside (mask bytes : Bytes) : Prop :=
  ∀ p ∈ mask.zip bytes, p.2 &&& ~~~p.1 = 0

instance (mask bytes : Bytes) : Decidable (ZeroOutside mask bytes) :=
  List.decidableBAll (fun p : UInt8 × UInt8 => p.2 &&& ~~~p.1 = 0) (mask.zip bytes)

theorem and_eq_right_iff (m b : UInt8) : m &&& b = b ↔ b &&& ~~~m = 0 := by
  rw [← UInt8.toBitVec_inj, ← UInt8.toBitVec_inj]
  constructor
  · intro h
    have hbit : ∀ i (_ : i < 8), (m.toBitVec &&& b.toBitVec)[i] = b.toBitVec[i] := by
      intro i _
      exact congrArg (fun v : BitVec 8 => v[i]) h
    ext i hi
    have := hbit i hi
    simp at this ⊢
    grind
  · intro h
    have hbit : ∀ i (_ : i < 8), (b.toBitVec &&& ~~~m.toBitVec)[i] = (0 : BitVec 8)[i] := by
      intro i _
      exact congrArg (fun v : BitVec 8 => v[i]) h
    ext i hi
    have := hbit i hi
    simp at this ⊢
    grind

/-- Clearing the bits outside a mask changes nothing exactly when they are zero. -/
theorem clearOutside_eq_self_iff {mask bytes : Bytes} (h : mask.length = bytes.length) :
    clearOutside mask bytes = bytes ↔ ZeroOutside mask bytes := by
  induction mask generalizing bytes with
  | nil =>
    obtain rfl : bytes = [] := List.length_eq_zero_iff.mp h.symm
    exact ⟨fun _ _ hp => absurd hp List.not_mem_nil, fun _ => rfl⟩
  | cons m mask ih =>
    cases bytes with
    | nil => cases h
    | cons b bytes =>
      have htail := ih (Nat.succ.inj h)
      rw [clearOutside, List.zipWith_cons_cons, List.cons.injEq, and_eq_right_iff, ZeroOutside,
        List.zip_cons_cons, List.forall_mem_cons]
      exact and_congr_right fun _ => htail

/-! ### What a layout keeps -/

namespace Layout

variable {α : Type}

/-- A layout writes the values that are `valid` and reads the bits of its `mask`. Between these
reading and writing are inverse to each other. -/
structure Lawful (layout : Layout α) (valid : α → Prop) (mask : Bytes) : Prop where
  /-- The mask covers the bytes. -/
  length_mask : mask.length = layout.width
  /-- Whatever is written has the width of the layout. -/
  length_bytes : ∀ a, (layout.bytes a).length = layout.width
  /-- A valid value overflows none of its fields. -/
  fits : ∀ a, valid a → (layout.piece a).Fits
  /-- Whatever is read is valid. -/
  valid_parse : ∀ bytes : Bytes, bytes.length = layout.width → valid (layout.parse bytes)
  /-- A valid value is read back as it was written. -/
  parse_bytes : ∀ a, valid a → layout.parse (layout.bytes a) = a
  /-- Bytes are written back as they were read, less the bits that are not read. -/
  bytes_parse : ∀ bytes : Bytes, bytes.length = layout.width →
    layout.bytes (layout.parse bytes) = clearOutside mask bytes

/-- A layout that reads every bit writes back the very bytes that it read. -/
theorem bytes_parse_of_allBits {layout : Layout α} {bytes : Bytes}
    (h : bytes.length = layout.width) (eq : layout.bytes (layout.parse bytes) = bytes) :
    layout.bytes (layout.parse bytes) = clearOutside (allBits layout.width) bytes := by
  rw [eq, ← h, clearOutside_allBits]

/-- A layout that reads every bit loses nothing of the bytes. -/
theorem Lawful.bytes_parse_eq {layout : Layout α} {valid : α → Prop} {n : Nat}
    (h : layout.Lawful valid (allBits n)) {bytes : Bytes} (hbytes : bytes.length = layout.width) :
    layout.bytes (layout.parse bytes) = bytes := by
  have hwidth : n = layout.width := (length_allBits n).symm.trans h.length_mask
  rw [h.bytes_parse bytes hbytes, hwidth, ← hbytes, clearOutside_allBits]

/-- Values of one layout take its width each. -/
theorem Lawful.length_flatMap_bytes {layout : Layout α} {valid : α → Prop} {mask : Bytes}
    (h : layout.Lawful valid mask) (as : List α) :
    (as.flatMap layout.bytes).length = as.length * layout.width := by
  simp only [List.length_flatMap, h.length_bytes, List.map_const', List.sum_replicate_nat]

theorem fits_of_packed_nil {layout : Layout α} {a : α} (h : layout.packed a = []) :
    (layout.piece a).Fits := by
  intro v hv
  rw [piece, h] at hv
  exact absurd hv List.not_mem_nil

/-! ### Plain words -/

theorem lawful_byte : Lawful byte (fun _ => True) (allBits 1) where
  length_mask := rfl
  length_bytes _ := rfl
  fits _ _ := fits_of_packed_nil rfl
  valid_parse _ _ := trivial
  parse_bytes _ _ := rfl
  bytes_parse
    | [_], h => bytes_parse_of_allBits h rfl

theorem lawful_half : Lawful half (fun _ => True) (allBits 2) where
  length_mask := rfl
  length_bytes _ := rfl
  fits _ _ := fits_of_packed_nil rfl
  valid_parse _ _ := trivial
  parse_bytes w _ := word16_bytes16 w
  bytes_parse
    | [a, b], h => bytes_parse_of_allBits h (bytes16_word16 a b)

theorem lawful_word : Lawful word (fun _ => True) (allBits 4) where
  length_mask := rfl
  length_bytes _ := rfl
  fits _ _ := fits_of_packed_nil rfl
  valid_parse _ _ := trivial
  parse_bytes w _ := word32_bytes32 w
  bytes_parse
    | [a, b, c, d], h => bytes_parse_of_allBits h (bytes32_word32 a b c d)

/-! ### The record header -/

theorem lawful_identification : Lawful identification (fun _ => True) (allBits 8) where
  length_mask := rfl
  length_bytes _ := rfl
  fits _ _ := fits_of_packed_nil rfl
  valid_parse _ _ := trivial
  parse_bytes _ _ := rfl
  bytes_parse
    | [_, _, _, _, _, _, _, _], h => bytes_parse_of_allBits h rfl

theorem lawful_product : Lawful product (fun _ => True) (allBits 4) where
  length_mask := rfl
  length_bytes _ := rfl
  fits _ _ := fits_of_packed_nil rfl
  valid_parse _ _ := trivial
  parse_bytes p _ := by
    show Product.mk (word16 _ _) (word16 _ _) = p
    rw [word16_bytes16, word16_bytes16]
  bytes_parse
    | [a, b, c, d], h => bytes_parse_of_allBits h (by
        show bytes16 (word16 a b) ++ bytes16 (word16 c d) = [a, b, c, d]
        rw [bytes16_word16, bytes16_word16]
        rfl)

theorem fits_capture_iff {c : Capture} : (capture.piece c).Fits ↔ c.WellFormed := by
  simp [Piece.Fits, piece, capture, FieldValue.Fits, Capture.wellFormed_iff]

theorem lawful_capture : Lawful capture Capture.WellFormed (allBits 12) where
  length_mask := rfl
  length_bytes _ := rfl
  fits _ := fits_capture_iff.mpr
  valid_parse
    | [_, _, _, _, _, _, _, _, _, _, _, _], _ =>
      ⟨highBits16_lt (by decide) (by decide) _, lowBits16_lt _ _⟩
  parse_bytes c hc := by
    have hhigh := highBits16_join16 (k := 12) (by decide) hc.compliance hc.scannerId
    have hlow := lowBits16_join16 (k := 12) (by decide) hc.compliance hc.scannerId
    simp only [capture, bytes16, List.cons_append, List.nil_append, word16_bytes16, hhigh, hlow]
  bytes_parse
    | [a, b, c, d, e, f, g, h, i, j, k, l], hl => bytes_parse_of_allBits hl (by
        simp only [capture, join16_split (k := 12) (by decide), bytes16_word16, List.cons_append,
          List.nil_append])

/-! ### Views and minutiae -/

theorem fits_viewHeader_iff {h : ViewHeader} : (viewHeader.piece h).Fits ↔ h.WellFormed := by
  simp [Piece.Fits, piece, viewHeader, FieldValue.Fits, ViewHeader.wellFormed_iff]

theorem lawful_viewHeader : Lawful viewHeader ViewHeader.WellFormed (allBits 4) where
  length_mask := rfl
  length_bytes _ := rfl
  fits _ := fits_viewHeader_iff.mpr
  valid_parse
    | [_, b, _, _], _ => ⟨highBits8_lt (by decide) b, lowBits8_lt 4 b⟩
  parse_bytes h hh := by
    have hhigh := highBits8_join8 (k := 4) (by decide) hh.viewNumber hh.impression
    have hlow := lowBits8_join8 (k := 4) (by decide) (Nat.le_refl 4) hh.viewNumber hh.impression
    simp only [viewHeader, hhigh, hlow]
  bytes_parse
    | [_, b, _, _], h => bytes_parse_of_allBits h (by simp only [viewHeader, join8_split])

theorem fits_positionWords_iff {m : Minutia} :
    (∀ v ∈ positionWords m, v.Fits) ↔ m.PositionFits := by
  simp [positionWords, FieldValue.Fits, Minutia.positionFits_iff]

theorem lawful_recordMinutia : Lawful recordMinutia Minutia.PositionFits (allBits 6) where
  length_mask := rfl
  length_bytes _ := rfl
  fits _ := fits_positionWords_iff.mpr
  valid_parse
    | [_, _, _, _, _, _], _ =>
      { kind := highBits16_lt (by decide) (by decide) _
        x := lowBits16_lt _ _
        reserved := highBits16_lt (by decide) (by decide) _
        y := lowBits16_lt _ _ }
  parse_bytes m hm := by
    have hkind := highBits16_join16 (k := 14) (by decide) hm.kind hm.x
    have hx := lowBits16_join16 (k := 14) (by decide) hm.kind hm.x
    have hreserved := highBits16_join16 (k := 14) (by decide) hm.reserved hm.y
    have hy := lowBits16_join16 (k := 14) (by decide) hm.reserved hm.y
    simp only [recordMinutia, bytes16, List.cons_append, List.nil_append, word16_bytes16, hkind, hx,
      hreserved, hy]
  bytes_parse
    | [_, _, _, _, _, _], h => bytes_parse_of_allBits h (by
        simp only [recordMinutia, join16_split (k := 14) (by decide), bytes16_word16,
          List.cons_append, List.nil_append])

theorem lawful_normalMinutia :
    Lawful normalMinutia (fun m => m.PositionFits ∧ m.quality = 0) (allBits 5) where
  length_mask := rfl
  length_bytes _ := rfl
  fits _ hm := fits_positionWords_iff.mpr hm.1
  valid_parse
    | [_, _, _, _, _], _ =>
      ⟨{ kind := highBits16_lt (by decide) (by decide) _
         x := lowBits16_lt _ _
         reserved := highBits16_lt (by decide) (by decide) _
         y := lowBits16_lt _ _ }, rfl⟩
  parse_bytes m hm := by
    obtain ⟨hm, hquality⟩ := hm
    have hkind := highBits16_join16 (k := 14) (by decide) hm.kind hm.x
    have hx := lowBits16_join16 (k := 14) (by decide) hm.kind hm.x
    have hreserved := highBits16_join16 (k := 14) (by decide) hm.reserved hm.y
    have hy := lowBits16_join16 (k := 14) (by decide) hm.reserved hm.y
    simp only [normalMinutia, bytes16, List.cons_append, List.nil_append, word16_bytes16, hkind, hx,
      hreserved, hy, ← hquality]
  bytes_parse
    | [_, _, _, _, _], h => bytes_parse_of_allBits h (by
        simp only [normalMinutia, join16_split (k := 14) (by decide), bytes16_word16,
          List.cons_append, List.nil_append])

theorem lawful_compactMinutia : Lawful compactMinutia Minutia.CompactWellFormed (allBits 3) where
  length_mask := rfl
  length_bytes _ := rfl
  fits m hm := by
    intro v hv
    simp only [piece, compactMinutia, List.mem_cons, List.not_mem_nil, or_false] at hv
    rcases hv with rfl | rfl | rfl | rfl
    · exact hm.x
    · exact hm.y
    · exact hm.kind
    · exact hm.angle
  valid_parse
    | [x, y, b], _ =>
      { kind := highBits8_lt (by decide) b
        x := x.toNat_lt
        y := y.toNat_lt
        angle := lowBits8_lt 6 b
        quality := rfl
        reserved := rfl }
  parse_bytes m hm := by
    have hx : m.x.toUInt8.toUInt16 = m.x := by
      apply UInt16.toNat_inj.mp
      simpa using hm.x
    have hy : m.y.toUInt8.toUInt16 = m.y := by
      apply UInt16.toNat_inj.mp
      simpa using hm.y
    have hkind := highBits8_join8 (k := 6) (by decide) hm.kind hm.angle
    have hangle := lowBits8_join8 (k := 6) (by decide) (Nat.le_refl 6) hm.kind hm.angle
    obtain ⟨kind, x, y, angle, quality, reserved⟩ := m
    obtain rfl : quality = 0 := hm.quality
    obtain rfl : reserved = 0 := hm.reserved
    simp only [compactMinutia, hx, hy, hkind, hangle]
  bytes_parse
    | [x, y, b], h => bytes_parse_of_allBits h (by
        simp only [compactMinutia, join8_split, UInt8.toUInt8_toUInt16])

theorem lawful_minutia (variant : Variant) :
    Lawful (minutia variant) (·.WellFormed variant) (allBits variant.minutiaLength) := by
  cases variant with
  | ansi => exact lawful_recordMinutia
  | iso => exact lawful_recordMinutia
  | isoNormalCard => exact lawful_normalMinutia
  | isoCompactCard => exact lawful_compactMinutia

/-- A record format writes all of a minutia. -/
theorem fits_minutia_iff {variant : Variant} (hheader : variant.hasHeader = true) {m : Minutia} :
    ((minutia variant).piece m).Fits ↔ m.WellFormed variant := by
  cases variant with
  | ansi | iso => exact fits_positionWords_iff
  | isoNormalCard | isoCompactCard => cases hheader

theorem width_minutia (variant : Variant) : (minutia variant).width = variant.minutiaLength := by
  rw [← (lawful_minutia variant).length_mask, length_allBits]

/-! ### Extended data -/

theorem lawful_dataHeader : Lawful dataHeader (fun _ => True) (allBits 4) where
  length_mask := rfl
  length_bytes _ := rfl
  fits _ _ := fits_of_packed_nil rfl
  valid_parse _ _ := trivial
  parse_bytes h _ := by
    show DataHeader.mk (word16 _ _) (word16 _ _) = h
    rw [word16_bytes16, word16_bytes16]
  bytes_parse
    | [a, b, c, d], h => bytes_parse_of_allBits h (by
        show bytes16 (word16 a b) ++ bytes16 (word16 c d) = [a, b, c, d]
        rw [bytes16_word16, bytes16_word16]
        rfl)

theorem lawful_ridgeCount : Lawful ridgeCount (fun _ => True) (allBits 3) where
  length_mask := rfl
  length_bytes _ := rfl
  fits _ _ := fits_of_packed_nil rfl
  valid_parse _ _ := trivial
  parse_bytes _ _ := rfl
  bytes_parse
    | [_, _, _], h => bytes_parse_of_allBits h rfl

theorem lawful_deltaAngles : Lawful deltaAngles (fun _ => True) (allBits 3) where
  length_mask := rfl
  length_bytes _ := rfl
  fits _ _ := fits_of_packed_nil rfl
  valid_parse _ _ := trivial
  parse_bytes _ _ := rfl
  bytes_parse
    | [_, _, _], h => bytes_parse_of_allBits h rfl

theorem fits_landmarkInfo_iff {countField typeField : Field} {countBits : Nat} {variant : Variant}
    {i : LandmarkInfo} : ((landmarkInfo countField typeField countBits variant).piece i).Fits ↔
      i.count.toNat < 2 ^ countBits ∧ (variant.isIsoFamily = false → i.kind.toNat < 2 ^ 2) := by
  cases hiso : variant.isIsoFamily <;>
    simp [Piece.Fits, piece, landmarkInfo, FieldValue.Fits, hiso]

/-- A count of `countBits` bits and, under ANSI, a type above it. The mask says what is read under
ANSI; under ISO it is the count alone. -/
theorem lawful_landmarkInfo {countField typeField : Field} {countBits : Nat} (hbits : countBits ≤ 6)
    {ansiMask : UInt8}
    (hmask : ∀ b, join8 6 (highBits8 6 b) (lowBits8 countBits b) = ansiMask &&& b)
    (variant : Variant) :
    Lawful (landmarkInfo countField typeField countBits variant)
      (fun i => Landmarks.KindWellFormed variant i.kind ∧ i.count.toNat < 2 ^ countBits)
      [if variant.isIsoFamily then UInt8.ofNat (2 ^ countBits - 1) else ansiMask] where
  length_mask := rfl
  length_bytes _ := rfl
  fits i hi := by
    refine fits_landmarkInfo_iff.mpr ⟨hi.2, fun hiso => ?_⟩
    simpa [Landmarks.KindWellFormed, hiso] using hi.1
  valid_parse
    | [b], _ => by
      refine ⟨?_, lowBits8_lt countBits b⟩
      cases hiso : variant.isIsoFamily with
      | true => simp [Landmarks.KindWellFormed, landmarkInfo, hiso]
      | false =>
        have hkind : (highBits8 6 b).toNat < 4 := highBits8_lt (by decide) b
        simpa [Landmarks.KindWellFormed, landmarkInfo, hiso] using hkind
  parse_bytes i hi := by
    obtain ⟨hkind, hcount⟩ := hi
    obtain ⟨kind, count⟩ := i
    cases hiso : variant.isIsoFamily with
    | true =>
      obtain rfl : kind = 0 := by simpa [Landmarks.KindWellFormed, hiso] using hkind
      simp only [landmarkInfo, hiso, if_true, lowBits8_of_lt hcount]
    | false =>
      have hkind : kind.toNat < 2 ^ 2 := by simpa [Landmarks.KindWellFormed, hiso] using hkind
      have hcount' : count.toNat < 2 ^ 6 :=
        Nat.lt_of_lt_of_le hcount (Nat.pow_le_pow_right (by decide) hbits)
      simp only [landmarkInfo, hiso, Bool.false_eq_true, if_false,
        highBits8_join8 (k := 6) (by decide) hkind hcount',
        lowBits8_join8 (k := 6) (by decide) hbits hkind hcount]
  bytes_parse
    | [b], _ => by
      cases hiso : variant.isIsoFamily with
      | true =>
        simp only [landmarkInfo, hiso, if_true, clearOutside, List.zipWith_cons_cons,
          List.zipWith_nil_left, lowBits8_eq_and countBits (by omega) b]
        rw [UInt8.and_comm]
      | false =>
        simp only [landmarkInfo, hiso, Bool.false_eq_true, if_false, clearOutside,
          List.zipWith_cons_cons, List.zipWith_nil_left, hmask]

/-- The bits read of the byte that opens the cores: bits 4 and 5 mean nothing, and under ISO
neither do bits 6 and 7. -/
def coresMask (variant : Variant) : Bytes :=
  [if variant.isIsoFamily then 0x0f else 0xcf]

/-- The bits read of the byte that opens the deltas: under ISO bits 6 and 7 mean nothing. -/
def deltasMask (variant : Variant) : Bytes :=
  [if variant.isIsoFamily then 0x3f else 0xff]

/-- The bits read of the position words of a landmark: the top two bits of the y word mean nothing,
and under ANSI neither do those of the x word. -/
def landmarkMask (variant : Variant) : Bytes :=
  [if variant.isIsoFamily then 0xff else 0x3f, 0xff, 0x3f, 0xff]

theorem join_four_low_bits (b : UInt8) :
    join8 6 (highBits8 6 b) (lowBits8 4 b) = 0xcf &&& b := by
  have table : ∀ n : Nat, n < 256 →
      join8 6 (highBits8 6 (UInt8.ofNat n)) (lowBits8 4 (UInt8.ofNat n))
        = 0xcf &&& UInt8.ofNat n := by
    decide +kernel
  simpa using table b.toNat b.toNat_lt

theorem lawful_coresInfo (variant : Variant) :
    Lawful (coresInfo variant)
      (fun i => Landmarks.KindWellFormed variant i.kind ∧ i.count.toNat < 2 ^ 4)
      (coresMask variant) :=
  lawful_landmarkInfo (by decide) join_four_low_bits variant

theorem lawful_deltasInfo (variant : Variant) :
    Lawful (deltasInfo variant)
      (fun i => Landmarks.KindWellFormed variant i.kind ∧ i.count.toNat < 2 ^ 6)
      (deltasMask variant) :=
  lawful_landmarkInfo (Nat.le_refl 6) (fun b => by rw [join8_split, all_and]) variant

theorem fits_landmark_iff {variant : Variant} {l : Landmark} : ((landmark variant).piece l).Fits ↔
    l.x.toNat < 2 ^ 14 ∧ l.y.toNat < 2 ^ 14 ∧
      (variant.isIsoFamily = true → l.kind.toNat < 2 ^ 2) := by
  cases hiso : variant.isIsoFamily <;>
    simp [Piece.Fits, piece, landmark, FieldValue.Fits, hiso]

/-- The position words of a landmark as they are read in a list of which `listKind` is the type. -/
def landmarkOf (variant : Variant) (listKind : UInt8) : Layout Landmark :=
  { landmark variant with
    parse := fun bytes => ((landmark variant).parse bytes).ofList variant listKind }

theorem lawful_landmarkOf {variant : Variant} {listKind : UInt8}
    (hlist : Landmarks.KindWellFormed variant listKind) :
    Lawful (landmarkOf variant listKind) (Landmark.WellFormed variant listKind)
      (landmarkMask variant) where
  length_mask := rfl
  length_bytes _ := rfl
  fits _ hl := fits_landmark_iff.mpr ⟨hl.x, hl.y, fun _ => hl.kind⟩
  valid_parse
    | [a, b, c, d], _ =>
      { kind := by
          cases hiso : variant.isIsoFamily with
          | true =>
            simp only [landmarkOf, landmark, Landmark.ofList, hiso, if_true]
            exact highBits16_lt (by decide) (by decide) _
          | false =>
            simpa [landmarkOf, landmark, Landmark.ofList, Landmarks.KindWellFormed, hiso]
              using hlist
        x := lowBits16_lt 14 _
        y := lowBits16_lt 14 _
        of_list := fun hiso => by simp [landmarkOf, landmark, Landmark.ofList, hiso] }
  parse_bytes l hl := by
    cases hiso : variant.isIsoFamily with
    | true =>
      have hkind := highBits16_join16 (k := 14) (by decide) hl.kind hl.x
      have hx := lowBits16_join16 (k := 14) (by decide) hl.kind hl.x
      simp only [landmarkOf, landmark, Landmark.ofList, hiso, if_true, bytes16, List.cons_append,
        List.nil_append, word16_bytes16, hkind, hx, lowBits16_of_lt hl.y]
    | false =>
      simp only [landmarkOf, landmark, Landmark.ofList, hiso, Bool.false_eq_true, if_false, bytes16,
        List.cons_append, List.nil_append, word16_bytes16, lowBits16_of_lt hl.x,
        lowBits16_of_lt hl.y, ← hl.of_list hiso]
  bytes_parse
    | [a, b, c, d], _ => by
      cases hiso : variant.isIsoFamily with
      | true =>
        simp only [landmarkOf, landmark, Landmark.ofList, landmarkMask, hiso, if_true,
          join16_split (k := 14) (by decide), bytes16_word16, bytes16_lowBits16, clearOutside,
          List.cons_append, List.nil_append, List.zipWith_cons_cons, List.zipWith_nil_left, all_and]
        rw [UInt8.and_comm]
      | false =>
        simp only [landmarkOf, landmark, Landmark.ofList, landmarkMask, hiso, Bool.false_eq_true,
          if_false, bytes16_lowBits16, clearOutside, List.cons_append, List.nil_append,
          List.zipWith_cons_cons, List.zipWith_nil_left, all_and]
        rw [UInt8.and_comm a, UInt8.and_comm c]

end Layout

end FingerMinutiae
