import FingerMinutiae.Proofs.ComputedLength
import FingerMinutiae.Proofs.Decoding.Record
import FingerMinutiae.Proofs.Encoding.Lengths
import Mathlib.Data.Set.Card

/-!
# The length that a record has to declare

The bytes of a record have their own number among them. Under ANSI this number takes two bytes or
six, as its value asks for, so a length is right or wrong only for the record that declares it, and
to look for a right one is to look for a fixed point. A short header with its views must have fewer
than 65536 bytes and a long one at least as many. The long header has four bytes more, so there is
always a header that will do, and for four lengths of the views either will.

The computed length is the smaller of the two. Where extended data is not what its block declares,
nothing of this holds, since the blocks are written out and their lengths are only declared.

## Main definitions

* `Record.declaring`: a record with another record length.
* `Record.IsLength`: a right length.
* `Record.BlocksDeclare`: the blocks of a record declare the bytes of their records.

## Main results

* `Record.length_of_encode`: how many bytes are written.
* `Record.isLength_iff_of_ansi`, `Record.isLength_iff_of_iso`, `Record.isLength_iff_of_isCard`: the
  right lengths.
* `Record.computedLength_isLeast`: the computed length is right, and it is the least.
-/

namespace FingerMinutiae

open Layout

namespace Record

variable {r : Record} {length : UInt32} {bytes : Bytes}

/-- The record with another record length. -/
def declaring (r : Record) (length : UInt32) : Record :=
  { r with recordLength := length }

/-- The record that declares this length is written in as many bytes. -/
def IsLength (r : Record) (length : UInt32) : Prop :=
  ∃ bytes, (r.declaring length).encode = .ok bytes ∧ bytes.length = length.toNat

/-- Every block declares the bytes that its records take, whatever these declare. -/
def BlocksDeclare (r : Record) : Prop :=
  ∀ v ∈ r.views, ∀ b ∈ v.extended, b.blockLength.toNat
    = (b.records.map fun d => ExtendedRecord.headerLength + d.payloadLength r.variant).sum

/-! ### Written bytes -/

/-- The views are written in as many bytes as are computed for them. -/
theorem length_allBytes_views (hheader : r.variant.hasHeader = true) (hblocks : r.BlocksDeclare) :
    (Piece.allBytes (r.views.flatMap (FingerView.pieces r.variant))).length = r.bodyLength := by
  rw [Piece.allBytes_flatMap, List.length_flatMap, bodyLength]
  refine congrArg List.sum (List.map_congr_left fun v hv => ?_)
  exact FingerView.length_allBytes_pieces hheader (hblocks v hv)

theorem length_ansiLengthBytes (length : UInt32) :
    (ansiLengthBytes length).length
      = if 0 < length.toNat ∧ length.toNat < 2 ^ 16 then 2 else 6 := by
  rw [ansiLengthBytes]
  split <;> rfl

/-- The bytes of a header that declares a length. -/
def headerLengthFor (variant : Variant) (length : UInt32) : Nat :=
  if variant = .ansi then
    if 0 < length.toNat ∧ length.toNat < 2 ^ 16 then ansiHeaderLength else ansiLongHeaderLength
  else isoHeaderLength

theorem length_allBytes_headerPieces (r : Record) :
    (Piece.allBytes r.headerPieces).length = headerLengthFor r.variant r.recordLength := by
  rw [allBytes_headerPieces, length_headerBytes, lengthBytes, headerLengthFor]
  by_cases hansi : r.variant = .ansi
  · simp only [if_pos hansi, length_ansiLengthBytes]
    split <;> rfl
  · simp only [if_neg hansi, length_bytes32]
    rfl

/-- A record with a header is written as its header and its views. -/
theorem length_of_encode (hheader : r.variant.hasHeader = true) (hblocks : r.BlocksDeclare)
    (h : r.encode = .ok bytes) :
    bytes.length = headerLengthFor r.variant r.recordLength + r.bodyLength := by
  obtain ⟨-, rfl⟩ := (encode_eq_ok_iff_headedFits hheader).mp h
  rw [Piece.allBytes_append, List.length_append, length_allBytes_headerPieces,
    length_allBytes_views hheader hblocks]

/-- Behind the header there are the views. -/
theorem length_drop_headerLengthIn (hheader : r.variant.hasHeader = true)
    (hblocks : r.BlocksDeclare) (h : r.encode = .ok bytes) :
    (bytes.drop (headerLengthIn r.variant bytes)).length = r.bodyLength := by
  obtain ⟨-, rfl⟩ := (encode_eq_ok_iff_headedFits hheader).mp h
  rw [Piece.allBytes_append, allBytes_headerPieces, headerLengthIn_headerBytes .written,
    List.drop_left, length_allBytes_views hheader hblocks]

/-- A card that can be written has one view, and its minutiae are within their bits. -/
theorem exists_view_of_encode (hcard : r.variant.isCard = true) (h : r.encode = .ok bytes) :
    ∃ v, r.views = [v] ∧ ∀ m ∈ v.minutiae, ((minutia r.variant).piece m).Fits := by
  cases hpieces : r.pieces with
  | error e =>
    rw [encode, hpieces] at h
    cases h
  | ok pieces =>
    have hfit := ((encode_eq_ok_iff hpieces).mp h).1
    rw [Record.pieces, if_pos hcard] at hpieces
    split at hpieces
    · next v hviews =>
      cases hpieces
      exact ⟨v, hviews, Piece.allFit_map.mp hfit⟩
    · cases hpieces

/-- A card is written in as many bytes as are computed for it, whatever it declares. -/
theorem length_of_encode_of_isCard (hcard : r.variant.isCard = true) (h : r.encode = .ok bytes) :
    bytes.length = r.computedLength := by
  obtain ⟨v, hviews, -⟩ := exists_view_of_encode hcard h
  obtain ⟨-, rfl⟩ := (encode_eq_ok_iff (pieces_of_isCard hcard hviews)).mp h
  rw [computedLength_of_isCard hcard hviews, Piece.allBytes_map, ← width_minutia]
  exact (lawful_minutia r.variant).length_flatMap_bytes v.minutiae

/-! ### Right lengths -/

/-- Whether a record can be written does not depend on the length that it declares. -/
theorem exists_encode_declaring (h : r.encode = .ok bytes) (length : UInt32) :
    ∃ encoded, (r.declaring length).encode = .ok encoded := by
  by_cases hcard : r.variant.isCard = true
  · obtain ⟨v, hviews, hfits⟩ := exists_view_of_encode hcard h
    have hpieces := pieces_of_isCard (r := r.declaring length) hcard hviews
    exact ⟨_, (encode_eq_ok_iff hpieces).mpr ⟨Piece.allFit_map.mpr hfits, rfl⟩⟩
  · have hheader : r.variant.hasHeader = true := Variant.hasHeader_of_not_isCard hcard
    have hfits := ((encode_eq_ok_iff_headedFits hheader).mp h).1
    have hcapture := allFit_headerPieces_iff.mp hfits.header
    have hdeclaring : HeadedFits r.variant (r.declaring length) :=
      ⟨rfl, allFit_headerPieces_iff.mpr hcapture, hfits.views⟩
    exact ⟨_, encode_of_headedFits hheader hdeclaring⟩

/-- A length is right for a record with a header if it counts the header that it asks for. -/
theorem isLength_iff_of_hasHeader (hheader : r.variant.hasHeader = true)
    (hblocks : r.BlocksDeclare) (h : r.encode = .ok bytes) :
    r.IsLength length ↔ headerLengthFor r.variant length + r.bodyLength = length.toNat := by
  obtain ⟨encoded, hencoded⟩ := exists_encode_declaring h length
  have hlength : encoded.length = headerLengthFor r.variant length + r.bodyLength :=
    length_of_encode (r := r.declaring length) hheader hblocks hencoded
  rw [← hlength]
  constructor
  · rintro ⟨encoded', hencoded', hright⟩
    rw [hencoded, Except.ok.injEq] at hencoded'
    rwa [hencoded']
  · exact fun hright => ⟨encoded, hencoded, hright⟩

/-- Under ANSI a right length is that with a short header, if it fits two bytes, and that with a
long one, if it does not. -/
theorem isLength_iff_of_ansi (hansi : r.variant = .ansi) (hblocks : r.BlocksDeclare)
    (h : r.encode = .ok bytes) : r.IsLength length ↔
      length.toNat = ansiHeaderLength + r.bodyLength ∧ length.toNat < 2 ^ 16 ∨
        length.toNat = ansiLongHeaderLength + r.bodyLength ∧ 2 ^ 16 ≤ length.toNat := by
  have hheader : r.variant.hasHeader = true := by rw [hansi]; rfl
  rw [isLength_iff_of_hasHeader hheader hblocks h, headerLengthFor, if_pos hansi, ansiHeaderLength,
    ansiLongHeaderLength]
  split <;> omega

theorem isLength_iff_of_iso (hiso : r.variant = .iso) (hblocks : r.BlocksDeclare)
    (h : r.encode = .ok bytes) :
    r.IsLength length ↔ length.toNat = isoHeaderLength + r.bodyLength := by
  have hheader : r.variant.hasHeader = true := by rw [hiso]; rfl
  rw [isLength_iff_of_hasHeader hheader hblocks h, headerLengthFor, if_neg (by simp [hiso])]
  exact eq_comm

theorem isLength_iff_of_isCard (hcard : r.variant.isCard = true) (h : r.encode = .ok bytes) :
    r.IsLength length ↔ length.toNat = r.computedLength := by
  obtain ⟨encoded, hencoded⟩ := exists_encode_declaring h length
  have hlength : encoded.length = r.computedLength :=
    length_of_encode_of_isCard (r := r.declaring length) hcard hencoded
  constructor
  · rintro ⟨encoded', hencoded', hright⟩
    rw [hencoded, Except.ok.injEq] at hencoded'
    rw [← hright, ← hencoded', hlength]
  · exact fun hright => ⟨encoded, hencoded, hlength.trans hright.symm⟩

/-- The lengths that are right for a record are no less than the computed one. -/
theorem IsLength.computedLength_le (hblocks : r.BlocksDeclare) (h : r.encode = .ok bytes)
    (hlength : r.IsLength length) : r.computedLength ≤ length.toNat := by
  cases hvariant : r.variant with
  | ansi =>
    rw [isLength_iff_of_ansi hvariant hblocks h, ansiHeaderLength, ansiLongHeaderLength] at hlength
    rw [computedLength_of_ansi hvariant, ansiHeaderLength, ansiLongHeaderLength]
    split <;> omega
  | iso =>
    rw [isLength_iff_of_iso hvariant hblocks h] at hlength
    rw [computedLength, hvariant, hlength]
  | isoNormalCard | isoCompactCard =>
    rw [isLength_iff_of_isCard (by rw [hvariant]; rfl) h] at hlength
    rw [hlength]

/-- The computed length is right, if it fits the record length. -/
theorem isLength_computedLength (hblocks : r.BlocksDeclare) (h : r.encode = .ok bytes)
    (hlt : r.computedLength < 2 ^ 32) : r.IsLength (UInt32.ofNat r.computedLength) := by
  have htoNat : (UInt32.ofNat r.computedLength).toNat = r.computedLength :=
    UInt32.toNat_ofNat_of_lt' hlt
  cases hvariant : r.variant with
  | ansi =>
    rw [isLength_iff_of_ansi hvariant hblocks h, htoNat, computedLength_of_ansi hvariant,
      ansiHeaderLength, ansiLongHeaderLength]
    split <;> omega
  | iso =>
    rw [isLength_iff_of_iso hvariant hblocks h, htoNat, computedLength, hvariant]
  | isoNormalCard | isoCompactCard =>
    rw [isLength_iff_of_isCard (by rw [hvariant]; rfl) h, htoNat]

/-- A record that declares the computed length is written in as many bytes. -/
theorem length_eq_recordLength_of_encode (hblocks : r.BlocksDeclare) (h : r.encode = .ok bytes)
    (hlength : r.recordLength.toNat = r.computedLength) :
    bytes.length = r.recordLength.toNat := by
  have hlt : r.computedLength < 2 ^ 32 := hlength ▸ r.recordLength.toNat_lt
  have hright := isLength_computedLength hblocks h hlt
  rw [← hlength, UInt32.ofNat_toNat] at hright
  obtain ⟨encoded, hencoded, hright⟩ := hright
  have hsame : r.declaring r.recordLength = r := rfl
  rw [hsame, h, Except.ok.injEq] at hencoded
  rw [hencoded, hright]

/-! ### How many lengths are right -/

theorem toNat_eq_iff_eq_ofNat {n : Nat} (hn : n < 2 ^ 32) :
    length.toNat = n ↔ length = UInt32.ofNat n := by
  rw [← UInt32.toNat_inj, UInt32.toNat_ofNat_of_lt' hn]

/-- One number that fits the record length is one right length. -/
theorem ncard_isLength_of_forall_iff {n : Nat} (hn : n < 2 ^ 32)
    (h : ∀ length, r.IsLength length ↔ length.toNat = n) :
    {length | r.IsLength length}.ncard = 1 := by
  have hset : {length | r.IsLength length} = {UInt32.ofNat n} := by
    ext length
    exact (h length).trans (toNat_eq_iff_eq_ofNat hn)
  rw [hset, Set.ncard_singleton]

/-- Under ANSI there are two right lengths where either header will do, and otherwise one. -/
theorem ncard_isLength_of_ansi (hansi : r.variant = .ansi) (hblocks : r.BlocksDeclare)
    (h : r.encode = .ok bytes) (hlt : ansiLongHeaderLength + r.bodyLength < 2 ^ 32) :
    {length | r.IsLength length}.ncard
      = if 65506 ≤ r.bodyLength ∧ r.bodyLength ≤ 65509 then 2 else 1 := by
  have hright : ∀ length, r.IsLength length ↔ _ := fun _ => isLength_iff_of_ansi hansi hblocks h
  simp only [ansiHeaderLength, ansiLongHeaderLength] at hlt hright
  split
  · next hboth =>
    have hshort : 26 + r.bodyLength < 2 ^ 32 := by omega
    have hset : {length | r.IsLength length}
        = {UInt32.ofNat (26 + r.bodyLength), UInt32.ofNat (30 + r.bodyLength)} := by
      ext length
      rw [Set.mem_insert_iff, Set.mem_singleton_iff, ← toNat_eq_iff_eq_ofNat hshort,
        ← toNat_eq_iff_eq_ofNat hlt]
      refine (hright length).trans ?_
      omega
    have hne : UInt32.ofNat (26 + r.bodyLength) ≠ UInt32.ofNat (30 + r.bodyLength) := by
      rw [Ne, ← toNat_eq_iff_eq_ofNat hlt, UInt32.toNat_ofNat_of_lt' hshort]
      omega
    rw [hset, Set.ncard_pair hne]
  · next hone =>
    have hcomputed := r.computedLength_le
    rw [ansiLongHeaderLength] at hcomputed
    refine ncard_isLength_of_forall_iff (n := r.computedLength) (by omega) fun length => ?_
    rw [hright length, computedLength_of_ansi hansi, ansiHeaderLength, ansiLongHeaderLength]
    split <;> omega

/-! ### The computed length -/

/-- No header is longer than that of the length zero. -/
theorem computedLength_le_headerLengthFor_zero (hheader : r.variant.hasHeader = true) :
    r.computedLength ≤ headerLengthFor r.variant 0 + r.bodyLength := by
  cases hvariant : r.variant with
  | ansi => exact r.computedLength_le
  | iso =>
    rw [computedLength, hvariant]
    exact Nat.le_refl _
  | isoNormalCard => simp [hvariant, Variant.hasHeader] at hheader
  | isoCompactCard => simp [hvariant, Variant.hasHeader] at hheader

/-- **The computed length is the one to declare.** A record that can be written, and of which the
blocks declare what is in them, is written in as many bytes as it declares when this is the computed
length, if with no length that it may declare it gets too long to be counted. With a header there is
no smaller length of which this is true, and there is another one only under ANSI and for four
lengths of what is behind the header. -/
theorem computedLength_isLeast (h : r.encode = .ok bytes) (hblocks : r.BlocksDeclare)
    (hsize : ∀ length encoded,
      (r.declaring length).encode = .ok encoded → encoded.length < 2 ^ 32) :
    r.withComputedLength.recordLength.toNat = r.computedLength ∧
      (∃ encoded, r.withComputedLength.encode = .ok encoded ∧
        encoded.length = r.withComputedLength.recordLength.toNat) ∧
      (r.variant.hasHeader = true →
        IsLeast {length | r.IsLength length} r.withComputedLength.recordLength ∧
        {length | r.IsLength length}.ncard
          = if r.variant = .ansi ∧ 65506 ≤ (bytes.drop (headerLengthIn r.variant bytes)).length ∧
              (bytes.drop (headerLengthIn r.variant bytes)).length ≤ 65509 then 2 else 1) := by
  obtain ⟨encoded, hencoded⟩ := exists_encode_declaring h 0
  have hlongest := hsize 0 encoded hencoded
  have hlt : r.computedLength < 2 ^ 32 := by
    by_cases hcard : r.variant.isCard = true
    · rwa [length_of_encode_of_isCard (r := r.declaring 0) hcard hencoded] at hlongest
    · have hheader : r.variant.hasHeader = true := Variant.hasHeader_of_not_isCard hcard
      rw [length_of_encode (r := r.declaring 0) hheader hblocks hencoded] at hlongest
      exact Nat.lt_of_le_of_lt (computedLength_le_headerLengthFor_zero hheader) hlongest
  have htoNat : r.withComputedLength.recordLength.toNat = r.computedLength :=
    UInt32.toNat_ofNat_of_lt' hlt
  have hright := isLength_computedLength hblocks h hlt
  refine ⟨htoNat, hright, fun hheader => ⟨⟨hright, fun length hlength => ?_⟩, ?_⟩⟩
  · rw [UInt32.le_iff_toNat_le, htoNat]
    exact IsLength.computedLength_le hblocks h hlength
  · rw [length_drop_headerLengthIn hheader hblocks h]
    cases hvariant : r.variant with
    | ansi =>
      rw [length_of_encode (r := r.declaring 0) hheader hblocks hencoded] at hlongest
      have hlong : headerLengthFor r.variant 0 = ansiLongHeaderLength := by rw [hvariant]; rfl
      simpa using ncard_isLength_of_ansi hvariant hblocks h (hlong ▸ hlongest)
    | iso =>
      rw [if_neg (by simp)]
      refine ncard_isLength_of_forall_iff hlt fun length => ?_
      rw [isLength_iff_of_iso hvariant hblocks h, computedLength, hvariant]
    | isoNormalCard => simp [hvariant, Variant.hasHeader] at hheader
    | isoCompactCard => simp [hvariant, Variant.hasHeader] at hheader

/-- An ANSI record of one view, which has 65496 bytes of extended data. -/
def paddedRecord (data : Bytes) : Record where
  variant := .ansi
  numViews := 1
  views := [{
    extended := some {
      blockLength := 65500
      records := [{ length := 65500, payload := .raw 9 data }] } }]

theorem computedLength_isLeast_paddedRecord :
    let r := paddedRecord (List.replicate 65496 0)
    (∃ bytes, r.encode = .ok bytes) ∧ r.BlocksDeclare ∧
      r.withComputedLength.recordLength = 65532 ∧ IsLeast {length | r.IsLength length} 65532 ∧
      {length | r.IsLength length}.ncard = 2 := by
  have hdata : (List.replicate 65496 (0 : UInt8)).length = 65496 := List.length_replicate
  -- Of the data only the length matters.
  generalize List.replicate 65496 (0 : UInt8) = data at hdata
  have hbody : (paddedRecord data).bodyLength = 65506 := rfl
  have hlength : (paddedRecord data).withComputedLength.recordLength = 65532 := by
    rw [withComputedLength, computedLength_of_ansi rfl, hbody]
    rfl
  have hfits : HeadedFits .ansi (paddedRecord data) := by
    refine ⟨rfl, allFit_headerPieces_iff.mpr (Capture.wellFormed_of_zero rfl rfl), ?_⟩
    have hheader : ViewHeader.WellFormed {} := ViewHeader.wellFormed_of_zero rfl rfl
    refine List.forall_mem_singleton.mpr (FingerView.allFit_pieces_iff.mpr ⟨hheader, nofun, ?_⟩)
    simp [ExtendedBlock.allFit_pieces_iff, ExtendedRecord.allFit_pieces_iff, Payload.pieces,
      Piece.fits_plain]
  have hencode := encode_of_headedFits rfl hfits
  have hblocks : (paddedRecord data).BlocksDeclare := by
    simp [BlocksDeclare, paddedRecord, ExtendedRecord.payloadLength, Payload.encodedLength,
      ExtendedRecord.headerLength, hdata]
  have hsize : ∀ length encoded,
      ((paddedRecord data).declaring length).encode = .ok encoded → encoded.length < 2 ^ 32 := by
    intro length encoded hencoded
    have htotal : encoded.length
        = headerLengthFor .ansi length + (paddedRecord data).bodyLength :=
      length_of_encode (r := (paddedRecord data).declaring length) rfl hblocks hencoded
    have hheader : headerLengthFor .ansi length ≤ 30 := by
      rw [headerLengthFor, if_pos rfl]
      split <;> decide
    omega
  obtain ⟨-, -, hheaded⟩ := computedLength_isLeast hencode hblocks hsize
  obtain ⟨hleast, hcount⟩ := hheaded rfl
  rw [length_drop_headerLengthIn rfl hblocks hencode, hbody,
    if_pos ⟨rfl, Nat.le_refl _, by decide⟩] at hcount
  rw [hlength] at hleast
  exact ⟨⟨_, hencode⟩, hblocks, hlength, hleast, hcount⟩

end Record

end FingerMinutiae
