import FingerMinutiae.Decoding.Record
import FingerMinutiae.Proofs.Decoding.Extended

/-!
# What is read of views and records

A view that is read to its end is well formed and is spelled by its bytes, and so is a record. For a
record two things have to be kept apart. The bytes of its header do not follow from the record,
since an ANSI length that fits two bytes may have been written in six; and a card has no announced
end, so it is not described here.

## Main definitions

* `FingerView.Read`, `Record.HeaderRead`, `Record.HeadedRead`: a node and the bytes it was read
  from.
* `FingerView.Cut`, `Record.HeaderCut`, `Record.HeadedCut`: what there is of a node that the bytes
  end in.
* `Record.headerLengthIn`: how long a header is, from its bytes.
* `Record.consumed`: how many bytes decoding reads.

## Main results

* `FingerView.readsItem_decoder`, `Record.reads_headerDecoder`, `Record.reads_headedDecoder`.
* `Record.exists_headedRead_of_decode`: what a whole record was read from.
-/

namespace FingerMinutiae

open Decoder Layout

/-! ### Views -/

theorem Decoder.Reads.bind_item {α β : Type} {P : Bytes → α → Prop} {Q : α → Prop}
    {P' : Bytes → β → Prop} {Q' : β → Prop} {d : Decoder (Decoded α)}
    {f : Decoded α → Decoder (Option (Decoded β))} (hd : d.Reads P Q)
    (hf : ∀ bytes a, P bytes a →
      (f (.complete a)).ReadsItem (fun bytes' => P' (bytes ++ bytes')) Q')
    (hcut : ∀ a, Q a → ∃ b, f (.incomplete a) = done (some (.incomplete b)) ∧ Q' b) :
    (d.bind f).ReadsItem P' Q' := by
  refine Ensures.bind hd ?_ ?_
  · rintro bytes (a | a) hx
    · exact hf bytes a hx
    · exact hx.elim
  · rintro bytes (a | a) hx
    · exact hx.elim
    · obtain ⟨b, hb, hQ⟩ := hcut a hx
      exact ⟨some (.incomplete b), hb, hQ⟩

/-- A view that was read from the bytes. -/
structure FingerView.Read (variant : Variant) (bytes : Bytes) (v : FingerView) : Prop where
  wellFormed : v.WellFormed variant
  spells : Spells (v.mask variant) (v.pieces variant) bytes

namespace FingerView

variable {variant : Variant}

/-- The block length and the block, behind the minutiae that a draft has. -/
def extendedDecoder (variant : Variant) (index : Nat) (draft : FingerView) :
    Decoder (Option (Decoded FingerView)) :=
  (readPiece half).bind fun
    | .short _ => done (some (.incomplete { draft with truncated := true }))
    | .whole blockLength =>
      if blockLength = 0 then
        done (some (.complete draft))
      else
        (ExtendedBlock.decoder variant index blockLength).bind fun
          | .complete block => done (some (.complete { draft with extended := some block }))
          | .incomplete block =>
            done (some (.incomplete { draft with extended := some block, truncated := true }))

/-- The minutiae that a header announces, and what follows them. -/
def minutiaeDecoder (variant : Variant) (index : Nat) (header : ViewHeader) :
    Decoder (Option (Decoded FingerView)) :=
  (several (fun _ => item (minutia variant)) header.numMinutiae.toNat).bind fun
    | .incomplete minutiae =>
      done (some (.incomplete { toViewHeader := header, minutiae, truncated := true }))
    | .complete minutiae => extendedDecoder variant index { toViewHeader := header, minutiae }

/-- What there is of a view that was cut short: it is marked, and everything in it fits. -/
structure Cut (variant : Variant) (v : FingerView) : Prop where
  truncated : v.truncated = true
  bounded : v.Bounded variant
  fits : Piece.AllFit (v.pieces variant)

theorem cut_of_minutiae {header : ViewHeader} {minutiae : List Minutia}
    (hheader : header.WellFormed) (hcount : minutiae.length ≤ header.numMinutiae.toNat)
    (hminutiae : ∀ m ∈ minutiae, m.WellFormed variant) :
    Cut variant { toViewHeader := header, minutiae, truncated := true } where
  truncated := rfl
  bounded :=
    ⟨hheader, Nat.le_trans hcount (Nat.le_of_lt_succ header.numMinutiae.toNat_lt), hminutiae⟩
  fits := by
    refine allFit_pieces hheader hminutiae ?_
    intro b hb
    cases hb

theorem readsItem_extendedDecoder (index : Nat) {header : ViewHeader} {minutiae : List Minutia}
    {front : Bytes} (hheader : header.WellFormed)
    (hcount : header.numMinutiae.toNat = minutiae.length)
    (hminutiae : ∀ m ∈ minutiae, m.WellFormed variant)
    (hfront : Spells (allBits 4 ++ minutiae.flatMap fun _ => allBits variant.minutiaLength)
      (viewHeader.piece header :: minutiae.map (minutia variant).piece) front) :
    (extendedDecoder variant index { toViewHeader := header, minutiae }).ReadsItem
      (fun bytes => FingerView.Read variant (front ++ bytes)) (Cut variant) := by
  have hcut : Cut variant _ := cut_of_minutiae hheader (Nat.le_of_eq hcount.symm) hminutiae
  refine ensures_readPiece_bind ?_ fun _ _ => ⟨_, rfl, hcut⟩
  intro piece hpiece
  have hlength := lawful_half.spells hpiece
  generalize half.parse piece = blockLength at hlength
  dsimp only
  split
  · next hzero =>
    subst hzero
    refine ⟨⟨rfl, hheader, hcount, hminutiae, ?_⟩, ?_⟩
    · intro b hb
      cases hb
    · show Spells _ _ (front ++ (piece ++ []))
      rw [List.append_nil]
      exact hfront.append hlength
  · next hpositive =>
    refine Reads.bind_item (ExtendedBlock.reads_decoder variant index hpositive) ?_ ?_
    · rintro blockBytes b ⟨hb, rfl, hspells⟩
      refine ⟨⟨rfl, hheader, hcount, hminutiae, ?_⟩, ?_⟩
      · intro b' hb'
        cases hb'
        exact hb
      · show Spells _ _ (front ++ (piece ++ (blockBytes ++ [])))
        rw [List.append_nil]
        exact hfront.append (hlength.append hspells)
    · intro b hb
      refine ⟨_, rfl, rfl, ⟨hheader, hcut.bounded.minutiae_length, hminutiae⟩,
        allFit_pieces hheader hminutiae ?_⟩
      intro b' hb'
      cases hb'
      exact hb

/-- **Views.** Of a view that is cut short everything fits. -/
theorem readsItem_decoder (variant : Variant) (index : Nat) :
    (FingerView.decoder variant index).ReadsItem (FingerView.Read variant) (Cut variant) := by
  refine ensures_readPiece_bind ?_ ?_
  · intro piece hpiece
    have hvalid := lawful_viewHeader.valid_parse piece hpiece
    have hheader := lawful_viewHeader.spells hpiece
    generalize viewHeader.parse piece = header at hvalid hheader
    have hminutia := fun _ : Nat => readsItem_lawful_item (lawful_minutia variant)
    refine Reads.bind_item (reads_several_cut hminutia (fun _ _ h => h.1) (fun _ h => h) _) ?_ ?_
    · rintro bytes minutiae ⟨hcount, hminutiae⟩
      have hfront := hheader.append (spells_map_of_concat (fun _ _ h => h.2) hminutiae)
      have hextended := readsItem_extendedDecoder index hvalid hcount.symm
        (hminutiae.forall fun _ _ h => h.1) hfront
      simp only [List.append_assoc] at hextended
      exact hextended
    · rintro minutiae ⟨hcount, hminutiae, -⟩
      exact ⟨_, rfl, cut_of_minutiae hvalid hcount hminutiae⟩
  · rintro bytes -
    cases hgot : bytes.length with
    | zero => exact ⟨none, rfl, trivial⟩
    | succ got =>
      have hempty : Cut variant { truncated := true } :=
        cut_of_minutiae (ViewHeader.wellFormed_of_zero rfl rfl) (Nat.zero_le _) (by simp)
      exact ⟨some (.incomplete { truncated := true }), rfl, hempty⟩

end FingerView

/-! ### Record headers -/

namespace Record

/-- A record length as a variant writes it. -/
def lengthBytes (variant : Variant) (length : UInt32) : Bytes :=
  if variant = .ansi then ansiLengthBytes length else bytes32 length

/-- The bytes of a record header around those of the record length. -/
def headerBytes (r : Record) (length : Bytes) : Bytes :=
  identification.bytes r.toIdentification ++
    (length ++
      ((if r.variant = .ansi then product.bytes r.toProduct else []) ++
        capture.bytes r.toCapture))

theorem allBytes_headerPieces (r : Record) :
    Piece.allBytes r.headerPieces = r.headerBytes (lengthBytes r.variant r.recordLength) := by
  rw [headerPieces, headerBytes, lengthBytes]
  by_cases hansi : r.variant = .ansi
  · simp [hansi, piece, Piece.plain]
  · simp [hansi, piece, word]

/-- A record length and bytes that are read as it. They are those that are written for it, except
that under ANSI a length that fits two bytes may stand in six. -/
inductive LengthRead (variant : Variant) (length : UInt32) : Bytes → Prop where
  | written : LengthRead variant length (lengthBytes variant length)
  | padded (ansi : variant = .ansi) (pos : 0 < length.toNat) (lt : length.toNat < 2 ^ 16) :
    LengthRead variant length ([0, 0] ++ bytes32 length)

/-- A record header that was read from the bytes. -/
structure HeaderRead (variant : Variant) (bytes : Bytes) (r : Record) : Prop where
  variant_eq : r.variant = variant
  product : variant ≠ .ansi → r.toProduct = {}
  capture : r.toCapture.WellFormed
  bytes_eq : ∃ length, LengthRead variant r.recordLength length ∧ bytes = r.headerBytes length

/-- A length that fits two bytes is written in two. -/
theorem ansiLengthBytes_toUInt32 {w : UInt16} (hw : w ≠ 0) :
    ansiLengthBytes w.toUInt32 = bytes16 w := by
  have hpos : 0 < w.toNat := Nat.pos_of_ne_zero fun h => hw (UInt16.toNat_inj.mp h)
  rw [ansiLengthBytes, if_pos ⟨hpos, w.toNat_lt⟩, UInt16.toUInt16_toUInt32]

/-- The two forms of an ANSI record length. -/
theorem ansiLengthBytes_cases (length : UInt32) :
    (∃ w : UInt16, w ≠ 0 ∧ length = w.toUInt32 ∧ ansiLengthBytes length = bytes16 w) ∨
      (¬(0 < length.toNat ∧ length.toNat < 2 ^ 16) ∧
        ansiLengthBytes length = [0, 0] ++ bytes32 length) := by
  by_cases hshort : 0 < length.toNat ∧ length.toNat < 2 ^ 16
  · have hround : length.toUInt16.toUInt32 = length := by
      apply UInt32.toNat_inj.mp
      rw [UInt16.toNat_toUInt32, UInt32.toNat_toUInt16, Nat.mod_eq_of_lt hshort.2]
    have hnonzero : length.toUInt16 ≠ 0 := by
      intro hzero
      rw [hzero] at hround
      rw [← hround] at hshort
      exact absurd hshort.1 (by decide)
    refine .inl ⟨length.toUInt16, hnonzero, hround.symm, ?_⟩
    rw [ansiLengthBytes, if_pos hshort]
  · refine .inr ⟨hshort, ?_⟩
    rw [ansiLengthBytes, if_neg hshort]

theorem lengthRead_half {variant : Variant} (hansi : variant = .ansi) {w : UInt16} (hw : w ≠ 0) :
    LengthRead variant w.toUInt32 (bytes16 w) := by
  have hwritten : LengthRead variant w.toUInt32 _ := .written
  rwa [lengthBytes, if_pos hansi, ansiLengthBytes_toUInt32 hw] at hwritten

theorem lengthRead_long {variant : Variant} (hansi : variant = .ansi) (length : UInt32) :
    LengthRead variant length ([0, 0] ++ bytes32 length) := by
  by_cases hshort : 0 < length.toNat ∧ length.toNat < 2 ^ 16
  · exact .padded hansi hshort.1 hshort.2
  · have hwritten : LengthRead variant length _ := .written
    rwa [lengthBytes, if_pos hansi, ansiLengthBytes, if_neg hshort] at hwritten

theorem lengthRead_word {variant : Variant} (hiso : variant ≠ .ansi) (length : UInt32) :
    LengthRead variant length (bytes32 length) := by
  have hwritten : LengthRead variant length _ := .written
  rwa [lengthBytes, if_neg hiso] at hwritten

theorem bytes16_ne_zero {w : UInt16} (hw : w ≠ 0) : bytes16 w ≠ [0, 0] := by
  intro h
  have hround := word16_bytes16 w
  rw [bytes16, List.cons.injEq, List.cons.injEq] at h
  rw [h.1, h.2.1] at hround
  exact hw hround.symm

/-- The bytes of the header at the front of some bytes. Under ANSI a record length that opens with
two zero bytes has six. -/
def headerLengthIn (variant : Variant) (bytes : Bytes) : Nat :=
  if variant = .ansi then
    if (bytes.drop 8).take 2 = [0, 0] then ansiLongHeaderLength else ansiHeaderLength
  else isoHeaderLength

/-- A header is at least as long as one that ISO has. -/
theorem isoHeaderLength_le_headerLengthIn (variant : Variant) (bytes : Bytes) :
    isoHeaderLength ≤ headerLengthIn variant bytes := by
  rw [headerLengthIn]
  split
  · split <;> decide
  · exact Nat.le_refl _

/-- How long a header is shows as soon as its record length is there. -/
theorem headerLengthIn_append {variant : Variant} {length : UInt32} {bytes id : Bytes}
    (h : LengthRead variant length bytes) (hid : id.length = 8) (rest : Bytes) :
    headerLengthIn variant (id ++ (bytes ++ rest))
      = 8 + bytes.length + (if variant = .ansi then 4 else 0) + 12 := by
  rw [headerLengthIn, List.drop_left' hid]
  cases h with
  | written =>
    rw [lengthBytes]
    by_cases hansi : variant = .ansi
    · simp only [if_pos hansi]
      obtain ⟨w, hw, -, hbytes⟩ | ⟨-, hbytes⟩ := ansiLengthBytes_cases length
      · have htake : (bytes16 w ++ rest).take 2 ≠ [0, 0] := by
          rw [List.take_left' (length_bytes16 w)]
          exact bytes16_ne_zero hw
        rw [hbytes, if_neg htake, length_bytes16, ansiHeaderLength]
      · rw [hbytes]
        rfl
    · simp only [if_neg hansi]
      rfl
  | padded hansi =>
    simp only [if_pos hansi]
    rfl

theorem length_headerBytes (r : Record) (length : Bytes) :
    (r.headerBytes length).length
      = 8 + length.length + (if r.variant = .ansi then 4 else 0) + 12 := by
  have hid := lawful_identification.length_bytes r.toIdentification
  have hcapture := lawful_capture.length_bytes r.toCapture
  have hproduct := lawful_product.length_bytes r.toProduct
  rw [headerBytes, List.length_append, List.length_append, List.length_append, hid, hcapture]
  by_cases hansi : r.variant = .ansi
  · rw [if_pos hansi, if_pos hansi, hproduct]
    simp only [identification, product, capture]
    omega
  · rw [if_neg hansi, if_neg hansi]
    simp only [identification, capture, List.length_nil]
    omega

/-- A header is as long as its bytes say. -/
theorem headerLengthIn_headerBytes {r : Record} {length : Bytes}
    (h : LengthRead r.variant r.recordLength length) (rest : Bytes) :
    headerLengthIn r.variant (r.headerBytes length ++ rest) = (r.headerBytes length).length := by
  have hid : (identification.bytes r.toIdentification).length = 8 :=
    lawful_identification.length_bytes r.toIdentification
  rw [length_headerBytes, headerBytes, List.append_assoc, List.append_assoc,
    headerLengthIn_append h hid]

/-- A header that was read is as long as its bytes say. -/
theorem HeaderRead.headerLengthIn_eq {variant : Variant} {bytes : Bytes} {r : Record}
    (h : HeaderRead variant bytes r) (rest : Bytes) :
    headerLengthIn variant (bytes ++ rest) = bytes.length := by
  obtain ⟨rfl, -, -, length, hlength, rfl⟩ := h
  exact headerLengthIn_headerBytes hlength rest

section

variable {draft : Record} {whole cut : Bytes → Decoded Record → Prop}

/-- A record length takes at most six bytes. -/
theorem ensures_lengthDecoder {next : UInt32 → Decoder (Decoded Record)}
    (hnext : ∀ length bytes, LengthRead draft.variant length bytes →
      (next length).Ensures (fun bytes' => whole (bytes ++ bytes'))
        fun bytes' => cut (bytes ++ bytes'))
    (hdraft : ∀ bytes : Bytes, bytes.length < 6 → cut bytes (.incomplete draft)) :
    (draft.lengthDecoder next).Ensures whole cut := by
  rw [lengthDecoder]
  split
  · next hansi =>
    refine ensures_readPieceOr ?_ fun bytes hfew => hdraft bytes (Nat.lt_trans hfew (by decide))
    intro piece hpiece
    have hhalf : bytes16 (half.parse piece) = piece := lawful_half.bytes_parse_eq hpiece
    generalize half.parse piece = w at hhalf
    subst hhalf
    by_cases hw : w = 0
    · subst hw
      refine ensures_readPieceOr ?_ fun bytes hfew => hdraft _ ?_
      · intro piece' hpiece'
        have hword : bytes32 (word.parse piece') = piece' := lawful_word.bytes_parse_eq hpiece'
        generalize word.parse piece' = length at hword
        subst hword
        have hread := lengthRead_long hansi length
        have hzero : bytes16 0 = [0, 0] := by decide
        simpa only [List.append_assoc, hzero] using hnext length _ hread
      · rw [List.length_append]
        exact Nat.add_lt_add_left hfew 2
    · have hshort : AnsiLength.ofHalf w = .short w.toUInt32 := by rw [AnsiLength.ofHalf, if_neg hw]
      rw [hshort]
      exact hnext w.toUInt32 (bytes16 w) (lengthRead_half hansi hw)
  · next hiso =>
    refine ensures_readPieceOr ?_ fun bytes hfew => hdraft bytes (Nat.lt_trans hfew (by decide))
    intro piece hpiece
    have hword : bytes32 (word.parse piece) = piece := lawful_word.bytes_parse_eq hpiece
    generalize word.parse piece = length at hword
    subst hword
    exact hnext length (bytes32 length) (lengthRead_word hiso length)

theorem ensures_productDecoder {next : Product → Decoder (Decoded Record)}
    (hnext : ∀ p : Product, (draft.variant ≠ .ansi → p = {}) →
      (next p).Ensures
        (fun bytes' => whole ((if draft.variant = .ansi then product.bytes p else []) ++ bytes'))
        fun bytes' => cut ((if draft.variant = .ansi then product.bytes p else []) ++ bytes'))
    (hdraft : ∀ bytes : Bytes, bytes.length < 4 → cut bytes (.incomplete draft)) :
    (draft.productDecoder next).Ensures whole cut := by
  rw [productDecoder]
  split
  · next hansi =>
    refine ensures_readPieceOr ?_ hdraft
    intro piece hpiece
    have hbytes := lawful_product.bytes_parse_eq hpiece
    have hread := hnext (Layout.product.parse piece) fun h => absurd hansi h
    rwa [if_pos hansi, hbytes] at hread
  · next hiso =>
    have hread := hnext {} fun _ => rfl
    rwa [if_neg hiso] at hread

end

/-- What there is of a header that was cut short. The capture details close a header, so they are
not there. -/
structure HeaderCut (variant : Variant) (r : Record) : Prop where
  variant_eq : r.variant = variant
  views : r.views = []
  product : variant ≠ .ansi → r.toProduct = {}
  capture : r.toCapture = {}

theorem HeaderCut.capture_wellFormed {variant : Variant} {r : Record} (h : HeaderCut variant r) :
    r.toCapture.WellFormed := by
  rw [h.capture]
  exact Capture.wellFormed_of_zero rfl rfl

/-- **Record headers.** The bytes of a header are determined by the record up to those of an ANSI
record length. -/
theorem reads_headerDecoder (variant : Variant) :
    (headerDecoder variant).Reads
      (fun bytes r => HeaderRead variant bytes r ∧ r.views = []) (HeaderCut variant) := by
  refine reads_readPieceOr ?_ ⟨rfl, rfl, fun _ => rfl, rfl⟩
  intro idBytes hid
  have hidBytes := lawful_identification.bytes_parse_eq hid
  generalize identification.parse idBytes = id at hidBytes
  subst hidBytes
  refine ensures_lengthDecoder ?_ fun _ _ => ⟨rfl, rfl, fun _ => rfl, rfl⟩
  intro length lengthBytes hlength
  refine ensures_productDecoder ?_ fun _ _ => ⟨rfl, rfl, fun _ => rfl, rfl⟩
  intro product hproduct
  refine reads_readPieceOr ?_ ⟨rfl, rfl, hproduct, rfl⟩
  intro captureBytes hcapture
  have hvalid := lawful_capture.valid_parse captureBytes hcapture
  have hcaptureBytes : capture.bytes (capture.parse captureBytes) = captureBytes :=
    lawful_capture.bytes_parse_eq hcapture
  generalize Layout.capture.parse captureBytes = capture at hvalid hcaptureBytes
  subst hcaptureBytes
  refine ⟨⟨rfl, hproduct, hvalid, lengthBytes, hlength, ?_⟩, rfl⟩
  show _ ++ (_ ++ (_ ++ (Layout.capture.bytes capture ++ []))) = _
  rw [List.append_nil]
  rfl

/-! ### Records with a header -/

/-- A record with a header that was read from the bytes. -/
structure HeadedRead (variant : Variant) (bytes : Bytes) (r : Record) : Prop where
  variant_eq : r.variant = variant
  wellFormed : r.HeadedWellFormed
  bytes_eq : ∃ header body, bytes = header ++ body ∧ HeaderRead variant header r ∧
    Spells (r.views.flatMap (FingerView.mask variant)) (r.views.flatMap (FingerView.pieces variant))
      body

/-- Whatever was read of a record with a header can be written. -/
structure HeadedFits (variant : Variant) (r : Record) : Prop where
  variant_eq : r.variant = variant
  header : Piece.AllFit r.headerPieces
  views : ∀ v ∈ r.views, Piece.AllFit (v.pieces variant)

/-- A record with a header is written exactly when all of its pieces fit, and then as these. -/
theorem encode_eq_ok_iff_headedFits {r : Record} (hheader : r.variant.hasHeader = true)
    {bytes : Bytes} : r.encode = .ok bytes ↔ HeadedFits r.variant r ∧
      bytes = Piece.allBytes (r.headerPieces ++ r.views.flatMap (FingerView.pieces r.variant)) := by
  rw [encode_eq_ok_iff (pieces_of_hasHeader hheader), Piece.allFit_append, Piece.allFit_flatMap]
  exact and_congr_left fun _ => ⟨fun ⟨hheader, hviews⟩ => ⟨rfl, hheader, hviews⟩,
    fun h => ⟨h.header, h.views⟩⟩

theorem encode_of_headedFits {variant : Variant} {r : Record} (hheader : variant.hasHeader = true)
    (h : HeadedFits variant r) :
    r.encode
      = .ok (Piece.allBytes (r.headerPieces ++ r.views.flatMap (FingerView.pieces variant))) := by
  obtain rfl := h.variant_eq
  exact (encode_eq_ok_iff_headedFits hheader).mpr ⟨h, rfl⟩

/-- What a well-formed record with a header consists of fits. -/
theorem HeadedWellFormed.headedFits {r : Record} (h : r.HeadedWellFormed) :
    HeadedFits r.variant r :=
  ⟨rfl, allFit_headerPieces_iff.mpr h.capture, fun v hv => (h.views v hv).allFit⟩

/-- What there is of a record with a header that was cut short. It shows that it was: the capture
details are not there, or there are fewer views than announced, or a view is marked. -/
structure HeadedCut (variant : Variant) (r : Record) : Prop extends HeadedFits variant r where
  bounded : r.Bounded
  shows : r.toCapture = {} ∨ r.views.length < r.numViews.toNat ∨ ∃ v ∈ r.views, v.truncated = true

/-- **Records with a header.** -/
theorem reads_headedDecoder (variant : Variant) :
    (headedDecoder variant).Reads (HeadedRead variant) (HeadedCut variant) := by
  refine Reads.bind (reads_headerDecoder variant) ?_ ?_
  · rintro header r ⟨hr, -⟩
    -- Of a view it matters here that it fits and is bounded, whether or not it is all there.
    have hviews := reads_several_cut (FingerView.readsItem_decoder variant)
      (R := fun v => Piece.AllFit (v.pieces variant) ∧ v.Bounded variant)
      (fun _ _ h => ⟨h.wellFormed.allFit, h.wellFormed.bounded⟩) (fun _ h => ⟨h.fits, h.bounded⟩)
      r.numViews.toNat
    refine Reads.map hviews ?_ ?_
    · rintro body views ⟨hcount, hviews⟩
      refine ⟨hr.variant_eq, ⟨?_, hr.capture, hcount.symm, ?_⟩, header, body, rfl,
        ⟨hr.variant_eq, hr.product, hr.capture, hr.bytes_eq⟩, ?_⟩
      · intro hvariant
        exact hr.product (hr.variant_eq ▸ hvariant)
      · intro v hv
        have hwell := hviews.forall (fun _ _ h => h.wellFormed) v hv
        show v.WellFormed r.variant
        rw [hr.variant_eq]
        exact hwell
      · exact spells_of_concat (fun _ _ h => h.spells) hviews
    · rintro views ⟨hlength, hviews, hcut⟩
      refine ⟨⟨hr.variant_eq, allFit_headerPieces_iff.mpr hr.capture, fun v hv => (hviews v hv).1⟩,
        ⟨?_, hr.capture, ?_, ?_⟩, .inr ?_⟩
      · intro hvariant
        exact hr.product (hr.variant_eq ▸ hvariant)
      · exact Nat.le_trans hlength (Nat.le_of_lt_succ r.numViews.toNat_lt)
      · intro v hv
        show v.Bounded r.variant
        rw [hr.variant_eq]
        exact (hviews v hv).2
      · exact hcut.imp id fun ⟨v, hv, hvcut⟩ => ⟨v, hv, hvcut.truncated⟩
  · intro r hr
    have hnone : ∀ v ∈ r.views, False := by
      intro v hv
      rw [hr.views] at hv
      cases hv
    refine ⟨r, rfl, ⟨hr.variant_eq, allFit_headerPieces_iff.mpr hr.capture_wellFormed, ?_⟩,
      ⟨?_, hr.capture_wellFormed, ?_, ?_⟩, .inl hr.capture⟩
    · exact fun v hv => (hnone v hv).elim
    · exact fun hvariant => hr.product (hr.variant_eq ▸ hvariant)
    · rw [hr.views]
      exact Nat.zero_le _
    · exact fun v hv => (hnone v hv).elim

/-- The record, when all of it was read. -/
def whole? : Except DecodeError (Decoded Record) → Option Record
  | .ok (.complete r) => some r
  | _ => none

/-- The record, when the bytes ended within it. -/
def short? : Except DecodeError (Decoded Record) → Option Record
  | .ok (.incomplete r) => some r
  | _ => none

/-- The failure, when nothing could be made of the bytes. -/
def failure? : Except DecodeError (Decoded Record) → Option DecodeError
  | .error e => some e
  | .ok _ => none

@[simp] theorem whole?_eq_some_iff {answer : Except DecodeError (Decoded Record)} {r : Record} :
    whole? answer = some r ↔ answer = .ok (.complete r) := by
  rcases answer with e | a | a <;> simp [whole?]

@[simp] theorem short?_eq_some_iff {answer : Except DecodeError (Decoded Record)} {r : Record} :
    short? answer = some r ↔ answer = .ok (.incomplete r) := by
  rcases answer with e | a | a <;> simp [short?]

@[simp] theorem failure?_eq_some_iff {answer : Except DecodeError (Decoded Record)}
    {e : DecodeError} : failure? answer = some e ↔ answer = .error e := by
  rcases answer with e | a <;> simp [failure?]

/-- How many bytes are read when a string of bytes is decoded. -/
def consumed (variant : Variant) (bytes : Bytes) : Nat :=
  ((decoder variant).run (Buffer.ofBytes bytes)).2.offset

/-- The run that decoding a string of bytes is. -/
theorem exists_run_of_decode {variant : Variant} {bytes : Bytes} {d : Decoded Record}
    (h : decode variant bytes = .ok d) :
    ∃ s, (decoder variant).run (Buffer.ofBytes bytes) = (.ok d, s) := by
  refine ⟨((decoder variant).run (Buffer.ofBytes bytes)).2, ?_⟩
  rw [← h]
  rfl

theorem decoder_of_hasHeader {variant : Variant} (h : variant.hasHeader = true) :
    decoder variant = headedDecoder variant := by
  rw [decoder, if_neg (Variant.not_isCard_of_hasHeader h)]

/-- Bytes that cut a record short give what is there of it. -/
theorem decode_of_ends_short {variant : Variant} {bytes : Bytes} {d : Decoded Record}
    (hheader : variant.hasHeader = true) (h : (headedDecoder variant).Ends bytes (.short d)) :
    decode variant bytes = .ok d := by
  rw [decode, decoder_of_hasHeader hheader, Buffer.ofBytes, run_of_ends_short h]

/-- A record is read from the bytes that make it up, whatever follows. -/
theorem decode_append_of_ends_value {variant : Variant} {bytes : Bytes} {d : Decoded Record}
    (hheader : variant.hasHeader = true) (h : (headedDecoder variant).Ends bytes (.value d))
    (rest : Bytes) : decode variant (bytes ++ rest) = .ok d := by
  rw [decode, decoder_of_hasHeader hheader, Buffer.ofBytes, run_append_of_ends_value h]

/-- A defect is found in the bytes that have it, whatever follows. -/
theorem decode_append_of_ends_defect {variant : Variant} {bytes : Bytes} {back : Nat}
    {place : Place} {defect : Defect} (hheader : variant.hasHeader = true)
    (h : (headedDecoder variant).Ends bytes (.defect back place defect)) (rest : Bytes) :
    decode variant (bytes ++ rest) = .error (.malformed (bytes.length - back) place defect) := by
  rw [decode, decoder_of_hasHeader hheader, Buffer.ofBytes, run_append_of_ends_defect h,
    Nat.zero_add]

/-- The front of the bytes that a whole record was read from. -/
theorem exists_headedRead_of_decode {variant : Variant} {bytes : Bytes} {r : Record}
    (hheader : variant.hasHeader = true) (h : decode variant bytes = .ok (.complete r)) :
    ∃ front rest, bytes = front ++ rest ∧ consumed variant bytes = front.length ∧
      HeadedRead variant front r := by
  obtain ⟨s, hrun⟩ := exists_run_of_decode h
  have hconsumed : consumed variant bytes = s.offset := by rw [consumed, hrun]
  rw [decoder_of_hasHeader hheader] at hrun
  rcases (reads_headedDecoder variant).of_run hrun with ⟨front, hbytes, hoffset, hends⟩ | ⟨-, hends⟩
  · refine ⟨front, s.rest, hbytes, ?_, (reads_headedDecoder variant).of_ends_value hends⟩
    rw [hconsumed, hoffset, Nat.zero_add]
  · exact ((reads_headedDecoder variant).of_ends_short hends).elim

/-- What there is of a record that the bytes end in. -/
theorem headedCut_of_decode {variant : Variant} {bytes : Bytes} {r : Record}
    (hheader : variant.hasHeader = true) (h : decode variant bytes = .ok (.incomplete r)) :
    HeadedCut variant r := by
  obtain ⟨s, hrun⟩ := exists_run_of_decode h
  rw [decoder_of_hasHeader hheader] at hrun
  rcases (reads_headedDecoder variant).of_run hrun with ⟨front, -, -, hends⟩ | ⟨-, hends⟩
  · exact ((reads_headedDecoder variant).of_ends_value hends).elim
  · exact (reads_headedDecoder variant).of_ends_short hends

/-- Bytes that are too few for the record they open end within it. -/
theorem exists_incomplete_of_lt_consumed {variant : Variant} {bytes : Bytes} {r : Record}
    (hheader : variant.hasHeader = true) (h : decode variant bytes = .ok (.complete r)) {k : Nat}
    (hk : k < consumed variant bytes) :
    ∃ p, decode variant (bytes.take k) = .ok (.incomplete p) := by
  rcases (reads_headedDecoder variant).exists_ends (bytes.take k) with
    ⟨front, rest, d, heq, hends⟩ | ⟨front, rest, back, place, defect, heq, hends⟩ | ⟨d, hends⟩
  · -- A record that ends among the first `k` bytes would be the one that is read of all of them.
    have hrun := run_append_of_ends_value hends (rest ++ bytes.drop k) 0
    rw [← List.append_assoc, ← heq, List.take_append_drop, Nat.zero_add] at hrun
    have hconsumed : consumed variant bytes = front.length := by
      rw [consumed, decoder_of_hasHeader hheader, Buffer.ofBytes, hrun]
    have hlength := congrArg List.length heq
    rw [List.length_append, List.length_take] at hlength
    omega
  · have herror := decode_append_of_ends_defect hheader hends (rest ++ bytes.drop k)
    rw [← List.append_assoc, ← heq, List.take_append_drop, h] at herror
    cases herror
  · rcases d with r' | p
    · exact ((reads_headedDecoder variant).of_ends_short hends).elim
    · exact ⟨p, decode_of_ends_short hheader hends⟩

end Record

end FingerMinutiae
