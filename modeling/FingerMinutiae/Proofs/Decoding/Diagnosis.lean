import FingerMinutiae.Proofs.Decoding.CutShortViews
import FingerMinutiae.Proofs.Decoding.Reaching
import FingerMinutiae.Proofs.Decoding.Requests

/-!
# What is wrong with an extended data record

The defect of an extended data record can be told from its bytes and from how many bytes its block
has left, without decoding it: from the declared length first, and then from the type and what the
payload announces about itself. Here it is told that way, and the decoder of a block is shown to
find just this defect, in the first record that has one, while the bytes up to that record are whole
records.

## Main definitions

* `Landmarks.announcedLength`: the bytes that cores and deltas take, as they announce themselves.
* `Landmark.entryDecoder`: what cores and deltas have in common.
* `ExtendedRecord.diagnosis?`: the defect of the extended data record at the front of some bytes.
* `ExtendedBlock.Flaw`: a record with a defect, behind whole ones.

## Main results

* `Landmarks.reads_entriesDecoder_announced`: cores and deltas take the bytes that they announce.
* `ExtendedBlock.recordsDecoder_cases`: what a block does about its next record.
* `ExtendedBlock.exists_flaw_of_ends_defect`: the record that has the defect of a block.
-/

namespace FingerMinutiae

open Decoder Layout

variable {variant : Variant} {bytes : Bytes}

/-! ### Announced lengths -/

namespace Landmarks

/-- The type of the entry at the front of some bytes: under ISO it stands in the top bits of the
entry, and under ANSI it is that of the list. -/
def announcedKind (variant : Variant) (listKind : Nat) (bytes : Bytes) : Nat :=
  if variant.isIsoFamily then (bytes.headD 0).toNat / 2 ^ 6 else listKind

/-- The bytes of the entry at the front of some bytes, when an entry of the angular type has so many
angles. -/
def announcedEntry (variant : Variant) (angles listKind : Nat) (bytes : Bytes) : Nat :=
  if announcedKind variant listKind bytes = 1 then 4 + angles else 4

/-- The bytes of as many entries. -/
def announcedEntries (variant : Variant) (angles listKind : Nat) : (count : Nat) → Bytes → Nat
  | 0, _ => 0
  | count + 1, bytes =>
    let length := announcedEntry variant angles listKind bytes
    length + announcedEntries variant angles listKind count (bytes.drop length)

/-- The bytes of the list at the front of some bytes. Its first byte has the type in the top bits
and the count in so many of the others. -/
def announcedList (variant : Variant) (countBits angles : Nat) (bytes : Bytes) : Nat :=
  let info := (bytes.headD 0).toNat
  1 + announcedEntries variant angles (info / 2 ^ 6) (info % 2 ^ countBits) (bytes.drop 1)

/-- The bytes that cores and deltas take at the front of some bytes. -/
def announcedLength (variant : Variant) (bytes : Bytes) : Nat :=
  let cores := announcedList variant 4 1 bytes
  cores + announcedList variant 6 3 (bytes.drop cores)

theorem announcedEntries_congr {angles k k' : Nat} (h : variant.isIsoFamily = false → k = k')
    (count : Nat) (bytes : Bytes) :
    announcedEntries variant angles k count bytes
      = announcedEntries variant angles k' count bytes := by
  have hkind : announcedEntry variant angles k = announcedEntry variant angles k' := by
    funext bytes
    rw [announcedEntry, announcedEntry, announcedKind, announcedKind]
    cases hiso : variant.isIsoFamily with
    | true => rfl
    | false => rw [h hiso]
  induction count generalizing bytes with
  | zero => rfl
  | succ count ih => rw [announcedEntries, announcedEntries, hkind, ih]

/-- Whether an entry is angular shows in its first four bytes. -/
theorem isAngular_iff_announcedKind (listKind : UInt8) {piece : Bytes} (hpiece : piece.length = 4)
    (rest : Bytes) :
    isAngular (((landmark variant).parse piece).ofList variant listKind).kind = true
      ↔ announcedKind variant listKind.toNat (piece ++ rest) = 1 := by
  obtain ⟨a, b, c, d, rfl⟩ : ∃ a b c d, piece = [a, b, c, d] := by
    match piece, hpiece with
    | [a, b, c, d], _ => exact ⟨a, b, c, d, rfl⟩
  have hb := b.toNat_lt
  rw [isAngular, beq_iff_eq, Landmark.ofList, announcedKind]
  cases variant.isIsoFamily with
  | false =>
    show listKind = 1 ↔ listKind.toNat = 1
    exact UInt8.toNat_inj.symm
  | true =>
    show highBits16 14 (word16 a b) = 1 ↔ a.toNat / 2 ^ 6 = 1
    rw [← UInt8.toNat_inj, toNat_highBits16 (by decide), toNat_word16]
    show (a.toNat * 2 ^ 8 + b.toNat) / 2 ^ 14 = 1 ↔ a.toNat / 2 ^ 6 = 1
    omega

theorem announcedEntry_of_angular {listKind : UInt8} {piece : Bytes} (angleBytes : Bytes)
    (hpiece : piece.length = 4)
    (hkind : isAngular (((landmark variant).parse piece).ofList variant listKind).kind = true)
    (rest : Bytes) :
    announcedEntry variant angleBytes.length listKind.toNat ((piece ++ angleBytes) ++ rest)
      = (piece ++ angleBytes).length := by
  have hangular := (isAngular_iff_announcedKind listKind hpiece (angleBytes ++ rest)).mp hkind
  rw [List.append_assoc, announcedEntry, if_pos hangular, List.length_append, hpiece]

theorem announcedEntry_of_not_angular {listKind : UInt8} {piece : Bytes} (angles : Nat)
    (hpiece : piece.length = 4)
    (hkind : ¬ isAngular (((landmark variant).parse piece).ofList variant listKind).kind = true)
    (rest : Bytes) :
    announcedEntry variant angles listKind.toNat (piece ++ rest) = piece.length := by
  have hplain := hkind ∘ (isAngular_iff_announcedKind listKind hpiece rest).mpr
  rw [announcedEntry, if_neg hplain, hpiece]

/-- Entries one after the other take the bytes that they announce one by one. -/
theorem announcedEntries_of_concat {α : Type} {angles listKind : Nat} {as : List α}
    (h : Concat (fun bytes _ => ∀ rest,
      announcedEntry variant angles listKind (bytes ++ rest) = bytes.length) bytes as)
    (rest : Bytes) :
    announcedEntries variant angles listKind as.length (bytes ++ rest) = bytes.length := by
  induction h with
  | nil => rfl
  | cons head tail ih =>
    rw [List.length_cons, announcedEntries, List.append_assoc, head, List.drop_left, ih,
      List.length_append]

end Landmarks

/-! ### Entries of a list -/

namespace Landmark

variable {α γ : Type}

/-- An entry of a list: a landmark, with its angles if its type is angular. There is nothing of it
unless the angles it should have are there too. -/
def entryDecoder (variant : Variant) (listKind : UInt8) (angles : Layout γ)
    (make : Landmark → Option γ → α) : Decoder (Option (Decoded α)) :=
  (readPiece (landmark variant)).bind fun
    | .short _ => done none
    | .whole position =>
      if isAngular (position.ofList variant listKind).kind then
        (readPiece angles).bind fun
          | .short _ => done none
          | .whole a => done (some (.complete (make (position.ofList variant listKind) (some a))))
      else
        done (some (.complete (make (position.ofList variant listKind) none)))

/-- An entry takes the bytes that it announces. -/
theorem readsItem_entryDecoder (variant : Variant) (listKind : UInt8) (angles : Layout γ)
    (make : Landmark → Option γ → α) :
    (entryDecoder variant listKind angles make).ReadsItem
      (fun bytes _ => ∀ rest, Landmarks.announcedEntry variant angles.width listKind.toNat
        (bytes ++ rest) = bytes.length)
      fun _ => True := by
  refine ensures_readPiece_bind ?_ fun _ _ => ⟨none, rfl, trivial⟩
  intro piece hpiece
  dsimp only
  split
  · next hkind =>
    refine ensures_readPiece_bind ?_ fun _ _ => ⟨none, rfl, trivial⟩
    intro angleBytes hangles
    have hentry := Landmarks.announcedEntry_of_angular angleBytes hpiece hkind
    rw [hangles, ← List.append_nil angleBytes] at hentry
    exact hentry
  · next hkind =>
    have hentry := Landmarks.announcedEntry_of_not_angular angles.width hpiece hkind
    rw [← List.append_nil piece] at hentry
    exact hentry

end Landmark

theorem Core.decoder_eq (variant : Variant) (listKind : UInt8) :
    Core.decoder variant listKind = Landmark.entryDecoder variant listKind byte
      fun l angle => { toLandmark := l, angle } := by
  refine congrArg (readPiece (landmark variant)).bind (funext ?_)
  rintro (position | got)
  · refine congrArg (fun d => if isAngular _ then d else _) ?_
    refine congrArg (readPiece byte).bind (funext ?_)
    rintro (angle | got)
    · rfl
    · rfl
  · rfl

theorem Delta.decoder_eq (variant : Variant) (listKind : UInt8) :
    Delta.decoder variant listKind = Landmark.entryDecoder variant listKind deltaAngles
      fun l angles => { toLandmark := l, angles } := by
  refine congrArg (readPiece (landmark variant)).bind (funext ?_)
  rintro (position | got)
  · refine congrArg (fun d => if isAngular _ then d else _) ?_
    refine congrArg (readPiece deltaAngles).bind (funext ?_)
    rintro (angles | got)
    · rfl
    · rfl
  · rfl

theorem Core.readsItem_announced (variant : Variant) (listKind : UInt8) :
    (Core.decoder variant listKind).ReadsItem
      (fun bytes _ => ∀ rest,
        Landmarks.announcedEntry variant 1 listKind.toNat (bytes ++ rest) = bytes.length)
      fun _ => True := by
  rw [Core.decoder_eq]
  exact Landmark.readsItem_entryDecoder variant listKind byte _

theorem Delta.readsItem_announced (variant : Variant) (listKind : UInt8) :
    (Delta.decoder variant listKind).ReadsItem
      (fun bytes _ => ∀ rest,
        Landmarks.announcedEntry variant 3 listKind.toNat (bytes ++ rest) = bytes.length)
      fun _ => True := by
  rw [Delta.decoder_eq]
  exact Landmark.readsItem_entryDecoder variant listKind deltaAngles _

namespace Landmarks

/-- The byte that opens a list announces its entries. -/
theorem announcedList_append {countField typeField : Field} {countBits : Nat} {info : Bytes}
    (hinfo : info.length = 1) (angles : Nat) (bytes : Bytes) :
    announcedList variant countBits angles (info ++ bytes) = 1 + announcedEntries variant angles
      ((landmarkInfo countField typeField countBits variant).parse info).kind.toNat
      ((landmarkInfo countField typeField countBits variant).parse info).count.toNat bytes := by
  obtain ⟨b, rfl⟩ : ∃ b, info = [b] := List.length_eq_one_iff.mp hinfo
  have hkind : variant.isIsoFamily = false → b.toNat / 2 ^ 6
      = ((landmarkInfo countField typeField countBits variant).parse [b]).kind.toNat := by
    intro hansi
    show _ = (if variant.isIsoFamily then 0 else highBits8 6 b).toNat
    rw [if_neg (by simp [hansi]), toNat_highBits8]
  have hcount : b.toNat % 2 ^ countBits
      = ((landmarkInfo countField typeField countBits variant).parse [b]).count.toNat :=
    (toNat_lowBits8 countBits b).symm
  show 1 + announcedEntries variant angles (b.toNat / 2 ^ 6) (b.toNat % 2 ^ countBits) bytes = _
  rw [announcedEntries_congr hkind, hcount]

/-- A list behind the byte that opens it. -/
theorem announcedList_of_concat {α : Type} {countField typeField : Field} {countBits angles : Nat}
    {info : Bytes} (hinfo : info.length = 1) {as : List α}
    (hcount : as.length
      = ((landmarkInfo countField typeField countBits variant).parse info).count.toNat)
    (h : Concat (fun bytes _ => ∀ rest, announcedEntry variant angles
      ((landmarkInfo countField typeField countBits variant).parse info).kind.toNat (bytes ++ rest)
        = bytes.length) bytes as) (rest : Bytes) :
    announcedList variant countBits angles (info ++ (bytes ++ rest))
      = (info ++ bytes).length := by
  rw [announcedList_append hinfo, ← hcount, announcedEntries_of_concat h rest, List.length_append,
    hinfo]

/-- **Cores and deltas take the bytes that they announce.** -/
theorem reads_entriesDecoder_announced (variant : Variant) :
    (entriesDecoder variant).Reads
      (fun bytes _ => ∀ rest, announcedLength variant (bytes ++ rest) = bytes.length)
      fun _ => True := by
  refine reads_readPieceOr ?_ trivial
  intro piece hpiece
  refine Reads.bind (reads_several (fun _ => Core.readsItem_announced variant _)
    (fun _ _ _ => trivial) _) ?_ fun cores _ => ⟨_, rfl, trivial⟩
  rintro coreBytes cores ⟨hcores, hconcat⟩
  refine reads_readPieceOr ?_ trivial
  intro piece' hpiece'
  refine Reads.map (reads_several (fun _ => Delta.readsItem_announced variant _)
    (fun _ _ _ => trivial) _) ?_ fun _ _ => trivial
  rintro deltaBytes deltas ⟨hdeltas, hconcat'⟩ rest
  have hfront := announcedList_of_concat hpiece hcores hconcat (piece' ++ (deltaBytes ++ rest))
  have hback := announcedList_of_concat hpiece' hdeltas hconcat' rest
  have hsplit : (piece ++ (coreBytes ++ (piece' ++ deltaBytes))) ++ rest
      = (piece ++ coreBytes) ++ (piece' ++ (deltaBytes ++ rest)) := by simp only [List.append_assoc]
  rw [← List.append_assoc] at hfront
  rw [hsplit, announcedLength, hfront, List.drop_left, hback]
  simp only [List.length_append]
  omega

end Landmarks

/-! ### Payloads -/

/-- What is wrong with the payload at the front of some bytes, when so many are declared for it.
Data that is kept as it is cannot be wrong. -/
def Payload.diagnosis? (variant : Variant) (typeId declared : Nat) (bytes : Bytes) :
    Option Defect :=
  if typeId = 1 then
    if declared % 3 = 1 then none else some .ridgeCountLength
  else if typeId = 2 then
    let consumed := Landmarks.announcedLength variant bytes
    if consumed = declared then none else some (.landmarksLength declared consumed)
  else none

/-- Ridge counts have their defect before anything of them is read. -/
theorem RidgeCounts.eq_of_ends_defect {place place' : Place} {declared back : Nat} {defect : Defect}
    (h : (RidgeCounts.decoder place declared).Ends bytes (.defect back place' defect)) :
    declared % 3 ≠ 1 ∧ bytes = [] ∧ back = 4 ∧ place' = place ∧ defect = .ridgeCountLength := by
  by_cases hlength : isLength declared = true
  · have hfaultless : (RidgeCounts.decoder place declared).LimitedTo Request.Short False :=
      limitedTo_decoder place fun hwrong => absurd hlength hwrong
    exact absurd h hfaultless.not_ends_defect
  · rw [RidgeCounts.decoder, if_neg hlength] at h
    cases h
    exact ⟨by simpa [isLength] using hlength, rfl, rfl, rfl, rfl⟩

/-- Cores and deltas have their defect when all of them are read. -/
theorem Landmarks.eq_of_ends_defect {place place' : Place} {declared back : Nat} {defect : Defect}
    (h : (Landmarks.decoder variant place declared).Ends bytes (.defect back place' defect)) :
    back = 4 + bytes.length ∧ place' = place ∧ bytes.length ≠ declared ∧
      (∀ rest, announcedLength variant (bytes ++ rest) = bytes.length) ∧
      defect = .landmarksLength declared bytes.length := by
  rcases h.bind_cases with ⟨front, later, b, rfl, hb, hlater⟩ | ⟨_, hb, ⟨⟩⟩
  · have hannounced := (reads_entriesDecoder_announced variant).of_ends_value hb
    have hspelled := (reads_entriesDecoder variant).of_ends_value hb
    rcases b with b | b
    · have hconsumed : b.encodedLength variant = front.length := by
        rw [← hspelled.2.length_mask, Landmarks.length_mask]
      change Ends (if b.encodedLength variant = declared then _ else _) _ _ at hlater
      split at hlater
      · cases hlater
      · next hne =>
        cases hlater
        rw [List.append_nil]
        rw [hconsumed] at hne ⊢
        exact ⟨rfl, rfl, hne, hannounced, rfl⟩
    · exact hannounced.elim
  · exact absurd hb (Landmarks.limitedTo_entriesDecoder variant).not_ends_defect

theorem Payload.diagnosis?_of_ends_defect {place place' : Place} {typeId : UInt16}
    {declared back : Nat} {defect : Defect}
    (h : (Payload.decoder variant place typeId declared).Ends bytes (.defect back place' defect)) :
    back = 4 + bytes.length ∧ place' = place ∧
      ∀ rest, diagnosis? variant typeId.toNat declared (bytes ++ rest) = some defect := by
  rw [Payload.decoder] at h
  split at h
  · next hridges =>
    obtain ⟨hlength, rfl, rfl, rfl, rfl⟩ := RidgeCounts.eq_of_ends_defect h.defect_of_map
    refine ⟨rfl, rfl, fun rest => ?_⟩
    subst hridges
    exact if_neg hlength
  · split at h
    · next hlandmarks =>
      obtain ⟨rfl, rfl, hlength, hannounced, rfl⟩ := Landmarks.eq_of_ends_defect h.defect_of_map
      refine ⟨rfl, rfl, fun rest => ?_⟩
      subst hlandmarks
      show (if Landmarks.announcedLength variant (bytes ++ rest) = declared then none
        else some (Defect.landmarksLength declared (Landmarks.announcedLength variant
          (bytes ++ rest)))) = _
      rw [hannounced rest, if_neg hlength]
    · cases h with
      | take _ hdone => cases hdone

/-! ### Records of a block -/

/-- The number in the two bytes at an index. -/
def numberAt (bytes : Bytes) (index : Nat) : Nat :=
  (bytes.getD index 0).toNat * 2 ^ 8 + (bytes.getD (index + 1) 0).toNat

/-- What is wrong with the extended data record at the front of some bytes, when its block has
`remaining` bytes left. -/
def ExtendedRecord.diagnosis? (variant : Variant) (remaining : Nat) (bytes : Bytes) :
    Option Defect :=
  let typeId := numberAt bytes 0
  let length := numberAt bytes 2
  if length = 0 then some .zeroLength
  else if remaining < length then some (.overrun length remaining)
  else if length < 4 then some .tooShort
  else Payload.diagnosis? variant typeId (length - 4) (bytes.drop 4)

theorem numberAt_dataHeader {piece : Bytes} (hpiece : piece.length = 4) (rest : Bytes) :
    numberAt (piece ++ rest) 0 = (dataHeader.parse piece).typeId.toNat ∧
      numberAt (piece ++ rest) 2 = (dataHeader.parse piece).length.toNat := by
  match piece, hpiece with
  | [a, b, c, d], _ => exact ⟨(toNat_word16 a b).symm, (toNat_word16 c d).symm⟩

/-- A declared length in which something is wrong has that defect. -/
theorem ExtendedRecord.diagnosis?_of_lengthDefect? {remaining : Nat} {piece : Bytes}
    (hpiece : piece.length = 4) {defect : Defect}
    (h : lengthDefect? (dataHeader.parse piece).length.toNat remaining = some defect)
    (rest : Bytes) : diagnosis? variant remaining (piece ++ rest) = some defect := by
  rw [diagnosis?, (numberAt_dataHeader hpiece rest).2]
  rw [lengthDefect?, headerLength] at h
  split
  · next hzero => rwa [if_pos hzero] at h
  · next hzero =>
    rw [if_neg hzero] at h
    split
    · next hlt => rwa [if_pos hlt] at h
    · next hlt =>
      rw [if_neg hlt] at h
      split
      · next hshort => rwa [if_pos hshort] at h
      · next hshort =>
        rw [if_neg hshort] at h
        cases h

/-- When the declared length is right, what is wrong is wrong in the payload. -/
theorem ExtendedRecord.diagnosis?_of_payload {remaining : Nat} {piece : Bytes}
    (hpiece : piece.length = 4)
    (h : lengthDefect? (dataHeader.parse piece).length.toNat remaining = none) (rest : Bytes) :
    diagnosis? variant remaining (piece ++ rest)
      = Payload.diagnosis? variant (dataHeader.parse piece).typeId.toNat
        ((dataHeader.parse piece).length.toNat - 4) rest := by
  obtain ⟨hroom, hfits⟩ := bounds_of_lengthDefect? h
  rw [diagnosis?, (numberAt_dataHeader hpiece rest).1, (numberAt_dataHeader hpiece rest).2]
  rw [if_neg (by omega), if_neg (by omega), if_neg (by omega), List.drop_left' hpiece]

namespace ExtendedBlock

variable {view index remaining : Nat} {got : List ExtendedRecord}

/-- A block that has bytes left goes on to the payload of the next record, unless the length that
this declares is wrong. -/
theorem reaches_recordsDecoder {piece : Bytes} (hpiece : piece.length = 4)
    (h : ExtendedRecord.lengthDefect? (dataHeader.parse piece).length.toNat remaining = none) :
    (recordsDecoder variant view index remaining got).Reaches piece
      ((Payload.decoder variant (.data view index) (dataHeader.parse piece).typeId
        ((dataHeader.parse piece).length.toNat - 4)).bind
          (payloadNext variant view index remaining got (dataHeader.parse piece).length)) := by
  have hbounds := ExtendedRecord.bounds_of_lengthDefect? h
  rw [recordsDecoder, if_neg (by omega)]
  have hwidth : piece.length = dataHeader.width := hpiece
  refine Eq.mp (congrArg (Reaches _ piece) ?_) (reaches_readPiece_bind hwidth)
  dsimp only
  split
  · next hdefect =>
    rw [h] at hdefect
    cases hdefect
  · rfl

/-- **What a block does about its next record.** There is none, or its header is cut short, or the
length that it declares is wrong, or its payload follows. -/
theorem recordsDecoder_cases {e : Ending (Decoded (List ExtendedRecord))}
    (h : (recordsDecoder variant view index remaining got).Ends bytes e) :
    (remaining = 0 ∧ bytes = [] ∧ e = .value (.complete got.reverse)) ∨
      remaining ≠ 0 ∧
        ((bytes.length < 4 ∧ e = .short (.incomplete got.reverse)) ∨
          (bytes.length = 4 ∧ ∃ defect, e = .defect 4 (.data view index) defect ∧
            ExtendedRecord.lengthDefect? (dataHeader.parse bytes).length.toNat remaining
              = some defect) ∨
          ∃ piece back, bytes = piece ++ back ∧ piece.length = 4 ∧
            ExtendedRecord.lengthDefect? (dataHeader.parse piece).length.toNat remaining = none ∧
            ((Payload.decoder variant (.data view index) (dataHeader.parse piece).typeId
              ((dataHeader.parse piece).length.toNat - 4)).bind (payloadNext variant view index
                remaining got (dataHeader.parse piece).length)).Ends back e) := by
  rw [recordsDecoder] at h
  split at h
  · next hremaining =>
    cases h
    exact .inl ⟨hremaining, rfl, rfl⟩
  · next hremaining =>
    refine .inr ⟨hremaining, ?_⟩
    rcases h.readPiece_cases with ⟨piece, back, rfl, hpiece, hback⟩ | ⟨hlt, _, hdone, rfl⟩
    · dsimp only at hback
      split at hback
      · next defect hdefect =>
        cases hback
        rw [List.append_nil]
        exact .inr (.inl ⟨hpiece, defect, rfl, hdefect⟩)
      · next hdefect => exact .inr (.inr ⟨piece, back, rfl, hpiece, hdefect, hback⟩)
    · cases hdone
      exact .inl ⟨hlt, rfl⟩

/-- Where the bytes end in front of a record, that is how a block that is not used up ends. -/
theorem ends_recordsDecoder_nil (hremaining : remaining ≠ 0) :
    (recordsDecoder variant view index remaining got).Ends []
      (.short (.incomplete got.reverse)) := by
  rw [recordsDecoder, if_neg hremaining]
  exact .short (by decide) rfl

/-- Behind the bytes `before`, which are the whole records `ds` of a block, stands a record with the
bytes `after` that has a defect: the one that is told from its bytes, at the place that it has. -/
structure Flaw (variant : Variant) (view index remaining : Nat) (got : List ExtendedRecord)
    (before after : Bytes) (ds : List ExtendedRecord) (place : Place) (defect : Defect) : Prop where
  before_ends : (recordsDecoder variant view index remaining got).Ends before
    (.short (.incomplete (got.reverse ++ ds)))
  whole : ∀ d ∈ ds, d.truncated = false
  room : (ds.map fun d => d.length.toNat).sum < remaining
  place_eq : place = .data view (index + ds.length)
  header : 4 ≤ after.length
  diagnosis : ∀ rest, ExtendedRecord.diagnosis? variant
    (remaining - (ds.map fun d => d.length.toNat).sum) (after ++ rest) = some defect

/-- A record that is wrong has nothing before it when it is the first. -/
theorem flaw_nil (hremaining : remaining ≠ 0) {after : Bytes} {defect : Defect}
    (hheader : 4 ≤ after.length)
    (h : ∀ rest, ExtendedRecord.diagnosis? variant remaining (after ++ rest) = some defect) :
    Flaw variant view index remaining got [] after [] (.data view index) defect where
  before_ends := by
    rw [List.append_nil]
    exact ends_recordsDecoder_nil hremaining
  whole := by simp
  room := Nat.pos_of_ne_zero hremaining
  place_eq := rfl
  header := hheader
  diagnosis := h

/-- A whole record comes before what follows it. -/
theorem Flaw.cons {piece front before after : Bytes} {ds : List ExtendedRecord} {payload : Payload}
    {place : Place} {defect : Defect} (hpiece : piece.length = 4)
    (hdefect : ExtendedRecord.lengthDefect? (dataHeader.parse piece).length.toNat remaining = none)
    (hpayload : (Payload.decoder variant (.data view index) (dataHeader.parse piece).typeId
      ((dataHeader.parse piece).length.toNat - 4)).Ends front (.value (.complete payload)))
    (h : Flaw variant view (index + 1) (remaining - (dataHeader.parse piece).length.toNat)
      ({ length := (dataHeader.parse piece).length, payload } :: got) before after ds place
      defect) :
    Flaw variant view index remaining got (piece ++ (front ++ before)) after
      ({ length := (dataHeader.parse piece).length, payload } :: ds) place defect where
  before_ends := by
    have hends := (reaches_recordsDecoder hpiece hdefect).ends (hpayload.bind h.before_ends)
    rwa [List.reverse_cons, List.append_assoc] at hends
  whole := List.forall_mem_cons.mpr ⟨rfl, h.whole⟩
  room := by
    have hroom := h.room
    rw [List.map_cons, List.sum_cons]
    show (dataHeader.parse piece).length.toNat + _ < remaining
    omega
  place_eq := by
    rw [h.place_eq, List.length_cons, Nat.add_assoc, Nat.add_comm 1]
  header := h.header
  diagnosis rest := by
    rw [List.map_cons, List.sum_cons, ← Nat.sub_sub]
    exact h.diagnosis rest

/-- **The record that has the defect of a block.** -/
theorem exists_flaw_of_ends_defect {back : Nat} {place : Place} {defect : Defect}
    (h : (recordsDecoder variant view index remaining got).Ends bytes (.defect back place defect)) :
    ∃ before after ds, bytes = before ++ after ∧ back = after.length ∧
      Flaw variant view index remaining got before after ds place defect := by
  -- Each record that is accepted leaves the block fewer bytes and moves what follows one index on.
  induction remaining using Nat.strongRecOn generalizing index got bytes with
  | ind remaining ih =>
  rcases recordsDecoder_cases h with ⟨-, -, hvalue⟩ |
    ⟨hremaining, ⟨-, hshort⟩ | ⟨hfour, defect', hdefect', hlength⟩ |
      ⟨piece, later, rfl, hpiece, hlength, hlater⟩⟩
  · cases hvalue
  · cases hshort
  · cases hdefect'
    refine ⟨[], bytes, [], rfl, hfour.symm, flaw_nil hremaining (Nat.le_of_eq hfour.symm) ?_⟩
    exact ExtendedRecord.diagnosis?_of_lengthDefect? hfour hlength
  · obtain ⟨hroom, hfits⟩ := ExtendedRecord.bounds_of_lengthDefect? hlength
    rcases hlater.bind_cases with ⟨front, later, p, rfl, hp, hmore⟩ | ⟨_, hp, ⟨⟩⟩
    · rcases p with p | p
      · obtain ⟨before, after, ds, rfl, rfl, hflaw⟩ := ih _ (by omega) hmore
        refine ⟨piece ++ (front ++ before), after, _, ?_, rfl, .cons hpiece hlength hp hflaw⟩
        simp only [List.append_assoc]
      · exact ((Payload.reads_decoder variant _ _ _).of_ends_value hp).elim
    · obtain ⟨rfl, rfl, hdiagnosis⟩ := Payload.diagnosis?_of_ends_defect hp
      refine ⟨[], piece ++ later, [], rfl, ?_, flaw_nil hremaining ?_ ?_⟩
      · rw [List.length_append, hpiece]
      · rw [List.length_append, hpiece]
        exact Nat.le_add_right _ _
      · intro rest
        rw [List.append_assoc, ExtendedRecord.diagnosis?_of_payload hpiece hlength]
        exact hdiagnosis rest

end ExtendedBlock

end FingerMinutiae
