import FingerMinutiae.Proofs.Decoding.Record

/-!
# When a record is written as it was read

A record that was read whole can be written, but not always as the bytes that it was read from.
There are two ways in which bytes may differ from what is written for their record, and no others.
An ANSI record length that fits two bytes may stand in six, and then what is written is four bytes
shorter. And bits that mean nothing may be set; they are cleared in what is written, which is
otherwise the same.

## Main definitions

* `Record.PaddedLength`: the record length stands in more bytes than it needs.

## Main results

* `Record.encode_decode`: what is written for a record that was read.
-/

namespace FingerMinutiae

open Decoder Layout

namespace Record

/-! ### Header lengths -/

/-- The record length, which follows the eight bytes of the identification, stands in six bytes and
would fit two. -/
def PaddedLength (variant : Variant) (bytes : Bytes) (r : Record) : Prop :=
  variant = .ansi ∧ (bytes.drop 8).take 2 = [0, 0] ∧
    1 ≤ r.recordLength.toNat ∧ r.recordLength.toNat ≤ 0xffff

instance (variant : Variant) (bytes : Bytes) (r : Record) :
    Decidable (PaddedLength variant bytes r) :=
  inferInstanceAs (Decidable (_ ∧ _ ∧ _ ∧ _))

/-- The record length is what stands after the identification. -/
theorem drop_headerBytes (r : Record) (length rest : Bytes) :
    ∃ more, (r.headerBytes length ++ rest).drop 8 = length ++ more := by
  refine ⟨((if r.variant = .ansi then product.bytes r.toProduct else []) ++
    capture.bytes r.toCapture) ++ rest, ?_⟩
  have hid : (identification.bytes r.toIdentification).length = 8 :=
    lawful_identification.length_bytes r.toIdentification
  rw [headerBytes, List.append_assoc, List.drop_left' hid, List.append_assoc]

/-- A record length that stands as it is written is not padded. -/
theorem not_paddedLength_written (r : Record) (rest : Bytes) :
    ¬ PaddedLength r.variant (r.headerBytes (lengthBytes r.variant r.recordLength) ++ rest) r := by
  obtain ⟨more, hdrop⟩ := drop_headerBytes r (lengthBytes r.variant r.recordLength) rest
  rw [PaddedLength, hdrop, lengthBytes]
  rintro ⟨hansi, htake, hpos, hle⟩
  rw [if_pos hansi] at htake
  obtain ⟨w, hw, -, hbytes⟩ | ⟨hlong, -⟩ := ansiLengthBytes_cases r.recordLength
  · rw [hbytes, List.take_left' (length_bytes16 w)] at htake
    exact bytes16_ne_zero hw htake
  · exact hlong ⟨hpos, Nat.lt_succ_of_le hle⟩

/-- A header of which the record length is padded is four bytes longer than what is written. -/
theorem length_headerBytes_padded {r : Record} (hansi : r.variant = .ansi)
    (hpos : 0 < r.recordLength.toNat) (hlt : r.recordLength.toNat < 2 ^ 16) (rest : Bytes) :
    (r.headerBytes ([0, 0] ++ bytes32 r.recordLength)).length
        = (r.headerBytes (lengthBytes r.variant r.recordLength)).length + 4 ∧
      PaddedLength r.variant (r.headerBytes ([0, 0] ++ bytes32 r.recordLength) ++ rest) r := by
  obtain ⟨more, hdrop⟩ := drop_headerBytes r ([0, 0] ++ bytes32 r.recordLength) rest
  rw [PaddedLength, hdrop, length_headerBytes, length_headerBytes, lengthBytes, if_pos hansi,
    if_pos hansi]
  refine ⟨?_, hansi, rfl, hpos, Nat.le_of_lt_succ hlt⟩
  rw [ansiLengthBytes, if_pos (And.intro hpos hlt), List.length_append, length_bytes16,
    length_bytes32]
  simp only [List.length_cons, List.length_nil]

/-! ### What is written -/

/-- **What is written for a record that was read.** A record with a header is written as the bytes
that it was read from exactly if its length was not padded and no bit was set that means nothing.
Whenever the length was not padded, as many bytes are written as were read, and they are those that
were read with the bits that mean nothing cleared. -/
theorem encode_decode {variant : Variant} {bytes : Bytes} {r : Record}
    (hheader : variant.hasHeader = true) (h : decode variant bytes = .ok (.complete r)) :
    (r.encode = .ok (bytes.take (consumed variant bytes)) ↔
      ¬ PaddedLength variant bytes r ∧
        ZeroOutside (r.mask (headerLengthIn variant bytes))
          (bytes.take (consumed variant bytes))) ∧
      (¬ PaddedLength variant bytes r → ∃ written, r.encode = .ok written ∧
        written.length = consumed variant bytes ∧
        written = clearOutside (r.mask (headerLengthIn variant bytes))
          (bytes.take (consumed variant bytes))) := by
  obtain ⟨front, rest, rfl, hconsumed, hread⟩ := exists_headedRead_of_decode hheader h
  obtain ⟨rfl, hwell, header, body, rfl, hheaderRead, hbody⟩ := hread
  obtain ⟨length, hlength, rfl⟩ := hheaderRead.bytes_eq
  rw [hconsumed, List.take_left, encode_of_headedFits hheader hwell.headedFits,
    Piece.allBytes_append, allBytes_headerPieces, List.append_assoc]
  cases hlength with
  | written =>
    have hin := headerLengthIn_headerBytes (r := r) .written (body ++ rest)
    have hpadded := not_paddedLength_written r (body ++ rest)
    generalize r.headerBytes (lengthBytes r.variant r.recordLength) = header at *
    have hspells : Spells (r.mask (headerLengthIn r.variant (header ++ (body ++ rest))))
        (Piece.plain header :: r.views.flatMap (FingerView.pieces r.variant)) (header ++ body) := by
      rw [mask, hin]
      exact (spells_plain header).append hbody
    refine ⟨?_, fun _ => ⟨_, rfl, hspells.length_allBytes, hspells.written⟩⟩
    rw [← clearOutside_eq_self_iff hspells.length_mask, ← hspells.written, Except.ok.injEq]
    exact ⟨fun h => ⟨hpadded, h⟩, fun h => h.2⟩
  | padded hansi hpos hlt =>
    obtain ⟨hin, hpadded⟩ := length_headerBytes_padded hansi hpos hlt (body ++ rest)
    have hspelled := hbody.length_allBytes
    refine ⟨⟨?_, fun hzero => absurd hpadded hzero.1⟩, fun hzero => absurd hpadded hzero⟩
    intro heq
    have hbytes := congrArg List.length (Except.ok.inj heq)
    rw [List.length_append, List.length_append, hin, hspelled] at hbytes
    omega

/-- The bytes of an ANSI record with a core, of which all bits are set that mean nothing, and a byte
that is not part of the record. -/
def strayBytes : Bytes :=
  [0x46, 0x4d, 0x52, 0, 0x20, 0x32, 0x30, 0, 0, 43, 0, 0, 0, 0, 0, 0, 1, 0, 1, 0, 0, 197, 0, 197, 1,
    0, 1, 0, 80, 0, 0, 11, 0, 2, 0, 11, 0x71, 0xc1, 0, 0xc0, 2, 7, 0x40, 9]

theorem encode_decode_strayBytes :
    ∃ r, decode .ansi strayBytes = .ok (.complete r) ∧
      r.encode ≠ .ok (strayBytes.take (consumed .ansi strayBytes)) ∧
      ∃ written, r.encode = .ok written ∧ written.length = consumed .ansi strayBytes := by
  have hstray : (whole? (decode .ansi strayBytes)).any fun r =>
      decide (¬ PaddedLength .ansi strayBytes r ∧
        ¬ ZeroOutside (r.mask (headerLengthIn .ansi strayBytes))
          (strayBytes.take (consumed .ansi strayBytes))) := by decide +kernel
  obtain ⟨r, hr, hstray⟩ := Option.any_eq_true _ _ |>.mp hstray
  rw [whole?_eq_some_iff] at hr
  obtain ⟨hpadded, hzero⟩ := of_decide_eq_true hstray
  obtain ⟨hiff, hclear⟩ := encode_decode rfl hr
  obtain ⟨written, hwritten, hlength, -⟩ := hclear hpadded
  exact ⟨r, hr, fun h => hzero (hiff.mp h).2, written, hwritten, hlength⟩

end Record

end FingerMinutiae
