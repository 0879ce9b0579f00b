import FingerMinutiae.Proofs.Decoding.WholeBlocks

/-!
# How far payloads go

A payload takes as many bytes as are declared for it, except that cores and deltas take as many as
they announce. When the bytes end within a payload they are fewer than that, and this can be told
from them: what they announce before they end is already more than there are.

## Main definitions

* `Payload.extentIn`: the bytes that a payload takes at the front of some bytes.

## Main results

* `Payload.length_lt_extentIn`: bytes that end within a payload are fewer than it takes.
-/

namespace FingerMinutiae

open Decoder Layout

variable {variant : Variant} {bytes : Bytes}

/-! ### Cores and deltas -/

/-- Bytes that end within an entry are fewer than it announces. -/
theorem Landmark.length_lt_announcedEntry {α γ : Type} {listKind : UInt8} {angles : Layout γ}
    {make : Landmark → Option γ → α} {a : Option (Decoded α)}
    (h : (entryDecoder variant listKind angles make).Ends bytes (.short a)) :
    bytes.length < Landmarks.announcedEntry variant angles.width listKind.toNat bytes := by
  have hfour : ∀ bytes, 4 ≤ Landmarks.announcedEntry variant angles.width listKind.toNat bytes := by
    intro bytes
    rw [Landmarks.announcedEntry]
    split <;> omega
  rcases h.readPiece_cases with ⟨piece, back, rfl, hpiece, hback⟩ | ⟨hlt, -⟩
  · dsimp only at hback
    split at hback
    · next hkind =>
      rcases hback.readPiece_cases with ⟨piece', back, rfl, -, hdone⟩ | ⟨hlt, -⟩
      · cases hdone
      · have hangular := (Landmarks.isAngular_iff_announcedKind listKind hpiece back).mp hkind
        have hfourth : piece.length = 4 := hpiece
        rw [Landmarks.announcedEntry, if_pos hangular, List.length_append, hfourth]
        exact Nat.add_lt_add_left hlt 4
    · cases hback
  · exact Nat.lt_of_lt_of_le hlt (hfour bytes)

namespace Landmarks

/-- The entries behind the first. -/
theorem announcedEntry_le_announcedEntries (angles listKind left : Nat) (bytes : Bytes) :
    announcedEntry variant angles listKind bytes
      ≤ announcedEntries variant angles listKind (left + 1) bytes :=
  Nat.le_add_right _ _

/-- Bytes that end within a list of entries are fewer than these announce. -/
theorem length_lt_announcedEntries {α γ : Type} {listKind : UInt8} {angles : Layout γ}
    {make : Landmark → Option γ → α} {index count : Nat} {got : List α} {as : Decoded (List α)}
    (h : (severalFrom (fun _ => Landmark.entryDecoder variant listKind angles make) index count
      got).Ends bytes (.short as)) :
    bytes.length < announcedEntries variant angles.width listKind.toNat count bytes := by
  induction count generalizing index got bytes with
  | zero => cases h
  | succ left ih =>
    rw [severalFrom_succ] at h
    rcases h.bind_cases with ⟨front, back, a, rfl, ha, hback⟩ | ⟨_, ha, ⟨_⟩⟩
    · have hentry := (Landmark.readsItem_entryDecoder variant listKind angles make).of_ends_value ha
      rcases a with _ | a | a
      · exact hentry.elim
      · rw [announcedEntries, hentry back, List.drop_left, List.length_append]
        exact Nat.add_lt_add_left (ih hback) _
      · exact hentry.elim
    · exact Nat.lt_of_lt_of_le (Landmark.length_lt_announcedEntry ha)
        (announcedEntry_le_announcedEntries _ _ left bytes)

/-- Bytes that end within a list are fewer than it announces. -/
theorem length_lt_announcedList {α γ : Type} {countField typeField : Field} {countBits : Nat}
    {angles : Layout γ} {make : Landmark → Option γ → α} {info : Bytes} (hinfo : info.length = 1)
    {as : Decoded (List α)}
    (h : (several (fun _ => Landmark.entryDecoder variant
      ((landmarkInfo countField typeField countBits variant).parse info).kind angles make)
      ((landmarkInfo countField typeField countBits variant).parse info).count.toNat).Ends bytes
        (.short as)) :
    (info ++ bytes).length < announcedList variant countBits angles.width (info ++ bytes) := by
  rw [announcedList_append hinfo, List.length_append, hinfo]
  exact Nat.add_lt_add_left (length_lt_announcedEntries h) 1

/-- The byte that opens a list is announced in any case. -/
theorem announcedList_pos (countBits angles : Nat) (bytes : Bytes) :
    0 < announcedList variant countBits angles bytes :=
  Nat.add_pos_left Nat.one_pos _

/-- Bytes that end within cores and deltas are fewer than these announce. -/
theorem length_lt_announcedLength {b : Decoded Landmarks}
    (h : (entriesDecoder variant).Ends bytes (.short b)) :
    bytes.length < announcedLength variant bytes := by
  have hcores : announcedList variant 4 1 bytes ≤ announcedLength variant bytes :=
    Nat.le_add_right _ _
  rcases h.readPiece_cases with ⟨info, back, rfl, hinfo, hback⟩ | ⟨hlt, -⟩
  · rcases hback.bind_cases with ⟨front, back, cores, rfl, hends, hback⟩ | ⟨_, hends, ⟨_⟩⟩
    · have hread := (reads_several (fun _ => Core.readsItem_announced variant _)
        (fun _ _ _ => trivial) _).of_ends_value hends
      rcases cores with cores | cores
      · obtain ⟨hcount, hconcat⟩ := hread
        -- The cores are whole, so the deltas begin where the cores announce their end.
        have hfront :
            announcedList variant 4 1 (info ++ (front ++ back)) = (info ++ front).length :=
          announcedList_of_concat hinfo hcount hconcat back
        have hdeltas : back.length < announcedList variant 6 3 back := by
          rcases hback.readPiece_cases with ⟨info', back, rfl, hinfo', hback⟩ | ⟨hlt, -⟩
          · obtain ⟨deltas, hends', -⟩ := hback.short_of_map
            simp only [Delta.decoder_eq] at hends'
            exact length_lt_announcedList hinfo' hends'
          · exact Nat.lt_of_lt_of_le hlt (announcedList_pos 6 3 back)
        rw [announcedLength, hfront, ← List.append_assoc, List.drop_left, List.length_append]
        exact Nat.add_lt_add_left hdeltas _
      · exact hread.elim
    · simp only [Core.decoder_eq] at hends
      exact Nat.lt_of_lt_of_le (length_lt_announcedList hinfo hends) hcores
  · exact Nat.lt_of_lt_of_le (Nat.lt_of_lt_of_le hlt (announcedList_pos 4 1 bytes)) hcores

/-- What cores and deltas are compared with does not make the bytes run out. -/
theorem ends_entriesDecoder_of_short {place : Place} {declared : Nat} {b : Decoded Landmarks}
    (h : (Landmarks.decoder variant place declared).Ends bytes (.short b)) :
    ∃ b', (entriesDecoder variant).Ends bytes (.short b') := by
  rcases h.bind_cases with ⟨_, back, b', rfl, -, hback⟩ | ⟨_, hb, @⟨b', _, _⟩⟩
  · rcases b' with b' | b'
    · dsimp only at hback
      split at hback
      · cases hback
      · cases hback
    · cases hback
  · exact ⟨b', hb⟩

end Landmarks

/-! ### Payloads -/

namespace Payload

/-- The bytes that a payload takes at the front of some bytes, when so many are declared for it:
these, but cores and deltas take what they announce. -/
def extentIn (variant : Variant) (typeId : UInt16) (declared : Nat) (bytes : Bytes) : Nat :=
  if typeId = landmarksType then Landmarks.announcedLength variant bytes else declared

/-- **Bytes that end within a payload** are fewer than it takes, and what there is of the payload is
of its type. -/
theorem length_lt_extentIn {place : Place} {typeId : UInt16} {declared : Nat} {p : Decoded Payload}
    (h : (Payload.decoder variant place typeId declared).Ends bytes (.short p)) :
    bytes.length < extentIn variant typeId declared bytes ∧
      ∃ payload, p = .incomplete payload ∧ payload.typeId = typeId := by
  rw [Payload.decoder] at h
  split at h
  · next hridges =>
    obtain ⟨b, hb, rfl⟩ := h.short_of_map
    have hother : typeId ≠ landmarksType := by
      rw [hridges]
      decide
    have hcut := (RidgeCounts.reads_decoder place declared).of_ends_short hb
    rw [extentIn, if_neg hother]
    rcases b with b | b
    · exact hcut.elim
    · exact ⟨(RidgeCounts.within_decoder place declared).short hb, _, rfl, hridges.symm⟩
  · split at h
    · next hlandmarks =>
      obtain ⟨b, hb, rfl⟩ := h.short_of_map
      have hcut := (Landmarks.reads_decoder variant place declared).of_ends_short hb
      rw [extentIn, if_pos hlandmarks]
      rcases b with b | b
      · exact hcut.elim
      · obtain ⟨_, hentries⟩ := Landmarks.ends_entriesDecoder_of_short hb
        exact ⟨Landmarks.length_lt_announcedLength hentries, _, rfl, hlandmarks.symm⟩
    · next hother =>
      rw [extentIn, if_neg hother]
      cases h with
      | short few hdone =>
        cases hdone
        exact ⟨few, _, rfl, rfl⟩
      | take _ hdone => cases hdone

end Payload

end FingerMinutiae
