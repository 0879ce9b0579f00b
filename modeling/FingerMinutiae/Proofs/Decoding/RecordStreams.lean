import FingerMinutiae.Decoding.Records
import FingerMinutiae.Proofs.Decoding.Malformed
import FingerMinutiae.Proofs.Decoding.RoundTrip

/-!
# Streams of records

Records with a header follow each other without anything between them: where one ends the next one
begins, and the stream is over when it ends there too. `Record.ItemsFrom` says so, in terms of
decoding what is left of the bytes. A failure then has to be moved to where it is in the stream.

Every record takes bytes, so there are no more items than bytes, and after the last one there are
none. A card goes to the end of the stream.

## Main definitions

* `DecodeError.shift`: a failure in bytes that begin further on.
* `Record.ItemsFrom`: the items of a string of bytes from an offset on.

## Main results

* `Record.run_decoder_at`: decoding in the middle of a stream.
* `Record.ItemsFrom.unique`: the items are determined.
* `Record.decodeAll_partitions`: what reading a stream of records gives.
-/

namespace FingerMinutiae

open Decoder

/-- The failure of bytes that begin at an offset. -/
def DecodeError.shift (offset : Nat) : DecodeError → DecodeError
  | read e => read e
  | malformed inner place defect => malformed (offset + inner) place defect

namespace Record

variable {variant : Variant} {bytes rest : Bytes} {offset : Nat}

/-! ### Where records begin -/

/-- The items of a string of bytes from an offset on. There are none at the end. Before it, what is
left is decoded, and the next item begins where a whole record ends; anything else is the last
item. -/
inductive ItemsFrom (variant : Variant) (bytes : Bytes) : Nat → List RecordItem → Prop where
  | atEnd : ItemsFrom variant bytes bytes.length []
  | whole {offset : Nat} {r : Record} {items : List RecordItem} (lt : offset < bytes.length)
    (decoded : decode variant (bytes.drop offset) = .ok (.complete r))
    (more : ItemsFrom variant bytes (offset + consumed variant (bytes.drop offset)) items) :
    ItemsFrom variant bytes offset (.ok (.complete r) :: items)
  | last {offset : Nat} (lt : offset < bytes.length)
    (decoded : ∀ r, decode variant (bytes.drop offset) ≠ .ok (.complete r)) :
    ItemsFrom variant bytes offset
      [(decode variant (bytes.drop offset)).mapError (DecodeError.shift offset)]

/-- The items from an offset on are determined. -/
theorem ItemsFrom.unique {items items' : List RecordItem} (h : ItemsFrom variant bytes offset items)
    (h' : ItemsFrom variant bytes offset items') : items = items' := by
  induction h generalizing items' with
  | atEnd =>
    cases h' with
    | atEnd => rfl
    | whole lt => exact absurd lt (Nat.lt_irrefl _)
    | last lt => exact absurd lt (Nat.lt_irrefl _)
  | whole lt decoded more ih =>
    cases h' with
    | atEnd => exact absurd lt (Nat.lt_irrefl _)
    | whole _ decoded' more' =>
      cases decoded.symm.trans decoded'
      rw [ih more']
    | last _ decoded' => exact absurd decoded (decoded' _)
  | last lt decoded =>
    cases h' with
    | atEnd => exact absurd lt (Nat.lt_irrefl _)
    | whole _ decoded' => exact absurd decoded' (decoded _)
    | last => rfl

/-- Every item but the last is a whole record. -/
theorem ItemsFrom.forall_dropLast {items : List RecordItem}
    (h : ItemsFrom variant bytes offset items) :
    ∀ item ∈ items.dropLast, ∃ r, item = .ok (.complete r) := by
  induction h with
  | atEnd => simp
  | last => simp
  | @whole _ r items _ _ more ih =>
    intro item hitem
    cases items with
    | nil => simp at hitem
    | cons next items =>
      rw [List.dropLast_cons_cons] at hitem
      rcases List.mem_cons.mp hitem with rfl | hitem
      · exact ⟨r, rfl⟩
      · exact ih item hitem

/-! ### Decoding in the middle of a stream -/

/-- A defect is not before the bytes of its record, so further on it is as much further on. -/
theorem run_decoder_at (hheader : variant.hasHeader = true) (rest : Bytes) (offset : Nat) :
    (decoder variant).run (Buffer.mk rest offset)
      = ((decode variant rest).mapError (DecodeError.shift offset),
          ⟨rest.drop (consumed variant rest), offset + consumed variant rest⟩) := by
  rw [decode, consumed, decoder_of_hasHeader hheader, Buffer.ofBytes]
  rcases Ensures.exists_ends (reads_headedDecoder variant) rest with
    ⟨front, back, r, rfl, hends⟩ | ⟨front, rest, back, place, defect, rfl, hends⟩ | ⟨r, hends⟩
  · rw [run_append_of_ends_value hends, run_append_of_ends_value hends]
    dsimp only
    rw [Nat.zero_add, List.drop_left]
    rfl
  · obtain ⟨before, after, -, -, -, -, rfl, rfl, -⟩ :=
      exists_stopsBefore_of_ends_defect hheader hends
    rw [run_append_of_ends_defect hends, run_append_of_ends_defect hends]
    dsimp only
    rw [Nat.zero_add, List.drop_left]
    have hoffset : offset + (before ++ after).length - after.length
        = offset + ((before ++ after).length - after.length) := by
      rw [List.length_append]
      omega
    rw [hoffset]
    rfl
  · rw [run_of_ends_short hends, run_of_ends_short hends]
    dsimp only
    rw [Nat.zero_add, List.drop_of_length_le (Nat.le_refl _)]
    rfl

/-- A whole record takes bytes, and no more than there are. -/
theorem consumed_pos (hheader : variant.hasHeader = true) {r : Record}
    (h : decode variant bytes = .ok (.complete r)) :
    0 < consumed variant bytes ∧ consumed variant bytes ≤ bytes.length := by
  obtain ⟨front, rest, rfl, hconsumed, hread⟩ := exists_headedRead_of_decode hheader h
  obtain ⟨header, body, rfl, ⟨-, -, -, length, -, rfl⟩, -⟩ := hread.bytes_eq
  rw [hconsumed]
  simp only [List.length_append, length_headerBytes]
  omega

end Record

namespace Records

variable {variant : Variant} {bytes rest : Bytes} {offset : Nat}

/-! ### Calls for the next record -/

section Calls

variable {σ : Type} [Source σ]

/-- Nothing comes from a stream that is finished. -/
theorem answer_of_finished (k : Nat) {rs : Records σ} (h : rs.finished = true) :
    answer k rs = none := by
  have hnext : rs.next? = (none, rs) := by rw [next?, if_pos h]
  induction k with
  | zero => rw [answer, hnext]
  | succ k ih =>
    rw [answer, hnext]
    exact ih

/-- A stream is finished when it has no next record. -/
theorem finished_of_next? {rs rs' : Records σ} (h : rs.next? = (none, rs')) :
    rs'.finished = true := by
  rw [next?] at h
  split at h
  · next hfinished =>
    cases h
    exact hfinished
  · split at h
    · cases h
    · cases h
      rfl
    · cases h

/-- The calls give the items one by one. -/
theorem answer_eq_getElem? {k n : Nat} (h : k < n) (rs : Records σ) :
    answer k rs = (upTo n rs).1[k]? := by
  induction n generalizing k rs with
  | zero => exact absurd h (Nat.not_lt_zero k)
  | succ n ih =>
    rw [upTo]
    rcases hnext : rs.next? with ⟨_ | item, rs'⟩
    · cases k with
      | zero => rw [answer, hnext]; rfl
      | succ k =>
        rw [answer, hnext]
        exact answer_of_finished k (finished_of_next? hnext)
    · cases k with
      | zero => rw [answer, hnext]; rfl
      | succ k =>
        rw [answer, hnext]
        exact ih (Nat.lt_of_succ_lt_succ h) rs'

theorem upTo_of_finished (n : Nat) {rs : Records σ} (h : rs.finished = true) :
    (upTo n rs).1 = [] := by
  cases n with
  | zero => rfl
  | succ n => rw [upTo, next?, if_pos h]

end Calls

/-! ### Records with a header -/

theorem next?_of_ne_nil (hheader : variant.hasHeader = true) (h : rest ≠ []) :
    next? ⟨Buffer.mk rest offset, variant, false⟩
      = (some ((Record.decode variant rest).mapError (DecodeError.shift offset)),
          ⟨⟨rest.drop (Record.consumed variant rest), offset + Record.consumed variant rest⟩,
            variant, (Record.whole? (Record.decode variant rest)).isNone⟩) := by
  obtain ⟨b, rest, rfl⟩ := List.exists_cons_of_ne_nil h
  show (some ((Record.decoder variant).run (Buffer.mk (b :: rest) offset)).1,
    (⟨((Record.decoder variant).run (Buffer.mk (b :: rest) offset)).2, variant,
      !RecordItem.goesOn variant ((Record.decoder variant).run (Buffer.mk (b :: rest) offset)).1⟩
        : Records Buffer)) = _
  rw [Record.run_decoder_at hheader]
  rcases Record.decode variant (b :: rest) with e | r | r
  · rfl
  · show (_, (⟨_, variant, !variant.hasHeader⟩ : Records Buffer)) = _
    rw [hheader]
    rfl
  · rfl

/-- **The items of a stream.** Each call takes bytes, so the calls come to the last item. -/
theorem itemsFrom_upTo (hheader : variant.hasHeader = true) {n : Nat}
    (hle : offset ≤ bytes.length) (hn : bytes.length - offset < n) :
    Record.ItemsFrom variant bytes offset
      (upTo n ⟨Buffer.mk (bytes.drop offset) offset, variant, false⟩).1 := by
  -- There are more calls left than bytes, since a whole record takes some.
  induction n generalizing offset with
  | zero => exact absurd hn (Nat.not_lt_zero _)
  | succ n ih =>
    rw [upTo]
    rcases Nat.eq_or_lt_of_le hle with rfl | hlt
    · rw [List.drop_of_length_le (Nat.le_refl _)]
      exact .atEnd
    · have hne : bytes.drop offset ≠ [] := by
        rw [Ne, List.drop_eq_nil_iff]
        exact Nat.not_le_of_lt hlt
      rw [next?_of_ne_nil hheader hne]
      dsimp only
      by_cases hwhole : ∃ r, Record.decode variant (bytes.drop offset) = .ok (.complete r)
      · obtain ⟨r, hr⟩ := hwhole
        obtain ⟨hpos, hfits⟩ := Record.consumed_pos hheader hr
        rw [List.length_drop] at hfits
        rw [hr]
        refine .whole hlt hr ?_
        rw [List.drop_drop]
        exact ih (by omega) (by omega)
      · have hdecoded := not_exists.mp hwhole
        have hnone : (Record.whole? (Record.decode variant (bytes.drop offset))).isNone = true := by
          rw [Option.isNone_iff_eq_none, Option.eq_none_iff_forall_ne_some]
          intro r hr
          exact hdecoded r (Record.whole?_eq_some_iff.mp hr)
        rw [upTo_of_finished n hnone]
        exact .last hlt hdecoded

/-! ### Cards -/

/-- A card is the only item, and there is none when there are no bytes. -/
theorem upTo_of_isCard (hcard : variant.isCard = true) (n : Nat) (bytes : Bytes) :
    (upTo (n + 1) ⟨Buffer.ofBytes bytes, variant, false⟩).1
      = if bytes = [] then [] else [Record.decode variant bytes] := by
  cases bytes with
  | nil => rfl
  | cons b rest =>
    have hgoesOn : RecordItem.goesOn variant (Record.decode variant (b :: rest)) = false := by
      rcases Record.decode variant (b :: rest) with e | r | r
      · rfl
      · simpa [RecordItem.goesOn, Variant.isCard] using hcard
      · rfl
    rw [if_neg (List.cons_ne_nil b rest)]
    show Record.decode variant (b :: rest) :: (upTo n (⟨_, variant,
      !RecordItem.goesOn variant (Record.decode variant (b :: rest))⟩ : Records Buffer)).1 = _
    rw [hgoesOn, upTo_of_finished n rfl]

end Records

namespace Record

variable {variant : Variant}

/-- The first calls give all items, however many calls more there are. -/
theorem upTo_eq_decodeAll (variant : Variant) (bytes : Bytes) {n : Nat} (h : bytes.length < n) :
    (Records.upTo n ⟨Buffer.ofBytes bytes, variant, false⟩).1 = decodeAll variant bytes := by
  by_cases hcard : variant.isCard = true
  · obtain ⟨n, rfl⟩ := Nat.exists_eq_add_of_lt (Nat.zero_lt_of_lt h)
    rw [decodeAll, Records.upTo_of_isCard hcard, Records.upTo_of_isCard hcard]
  · have hheader : variant.hasHeader = true := Variant.hasHeader_of_not_isCard hcard
    have hitems : ∀ m, bytes.length < m → ItemsFrom variant bytes 0
        (Records.upTo m ⟨Buffer.ofBytes bytes, variant, false⟩).1 := fun m hm =>
      Records.itemsFrom_upTo hheader (Nat.zero_le _) hm
    exact (hitems n h).unique (hitems _ (Nat.lt_succ_self _))

/-! ### Records written one after the other -/

/-- Behind any bytes, what is written for a list of records is read as the list. -/
theorem exists_encodings (hheader : variant.hasHeader = true) (records : List Record)
    (h : ∀ r ∈ records, r.variant = variant ∧ r.WellFormed) :
    ∃ encodings : List Bytes, records.map encode = encodings.map .ok ∧
      ∀ front : Bytes, ItemsFrom variant (front ++ encodings.flatten) front.length
        (records.map fun r => .ok (.complete r)) := by
  induction records with
  | nil =>
    refine ⟨[], rfl, fun front => ?_⟩
    have hend : ItemsFrom variant front front.length [] := .atEnd
    rwa [List.flatten_nil, List.append_nil]
  | cons r rs ih =>
    obtain ⟨⟨rfl, hwell⟩, hrs⟩ := List.forall_mem_cons.mp h
    obtain ⟨encodings, hencodings, hitems⟩ := ih hrs
    rw [WellFormed, if_neg (Variant.not_isCard_of_hasHeader hheader)] at hwell
    obtain ⟨bytes, hencode, hruns⟩ := hwell.exists_encode hheader
    have hrun := hruns encodings.flatten
    have hdecode : decode r.variant (bytes ++ encodings.flatten) = .ok (.complete r) := by
      rw [decode, hrun]
    have hconsumed : consumed r.variant (bytes ++ encodings.flatten) = bytes.length := by
      rw [consumed, hrun]
    have hpos := (consumed_pos hheader hdecode).1
    refine ⟨bytes :: encodings, by rw [List.map_cons, List.map_cons, hencode, hencodings], ?_⟩
    intro front
    have hdrop : (front ++ (bytes ++ encodings.flatten)).drop front.length
        = bytes ++ encodings.flatten := List.drop_left
    rw [List.flatten_cons]
    refine .whole ?_ ?_ ?_
    · rw [List.length_append, List.length_append]
      omega
    · rw [hdrop]
      exact hdecode
    · rw [hdrop, hconsumed, ← List.append_assoc, ← List.length_append]
      exact hitems (front ++ bytes)

/-- The items of a stream from its first byte on are those that the calls give. -/
theorem itemsFrom_zero_iff (hheader : variant.hasHeader = true) {bytes : Bytes}
    {items : List RecordItem} :
    ItemsFrom variant bytes 0 items ↔ items = decodeAll variant bytes := by
  have hitems : ItemsFrom variant bytes 0 (decodeAll variant bytes) :=
    Records.itemsFrom_upTo hheader (Nat.zero_le _) (Nat.lt_succ_self _)
  constructor
  · exact fun h => h.unique hitems
  · rintro rfl
    exact hitems

/-- **Streams of records.** The calls for the next record give the items one by one and then nothing
any more. The items of records with a header follow each other from the first byte on, so only the
last can be something else than a whole record, and records that are written one after the other
are read as they were. A card is the only item. -/
theorem decodeAll_partitions (variant : Variant) (bytes : Bytes) :
    (∀ k, Records.answer k ⟨Buffer.ofBytes bytes, variant, false⟩
        = (decodeAll variant bytes)[k]?) ∧
      (variant.hasHeader = true →
        (∀ items, ItemsFrom variant bytes 0 items ↔ items = decodeAll variant bytes) ∧
          (∀ item ∈ (decodeAll variant bytes).dropLast, ∃ r, item = .ok (.complete r)) ∧
          ∀ records : List Record, (∀ r ∈ records, r.variant = variant ∧ r.WellFormed) →
            ∃ encodings : List Bytes, records.map encode = encodings.map .ok ∧
              decodeAll variant encodings.flatten = records.map fun r => .ok (.complete r)) ∧
      (variant.isCard = true →
        decodeAll variant bytes = if bytes = [] then [] else [decode variant bytes]) := by
  refine ⟨?_, fun hheader => ⟨fun items => itemsFrom_zero_iff hheader, ?_, ?_⟩, ?_⟩
  · intro k
    rw [← upTo_eq_decodeAll variant bytes (Nat.lt_add_right k (Nat.lt_succ_self bytes.length))]
    exact Records.answer_eq_getElem? (by omega) _
  · exact ((itemsFrom_zero_iff hheader).mpr rfl).forall_dropLast
  · intro records hrecords
    obtain ⟨encodings, hencodings, hall⟩ := exists_encodings hheader records hrecords
    exact ⟨encodings, hencodings, ((itemsFrom_zero_iff hheader).mp (hall [])).symm⟩
  · exact fun hcard => Records.upTo_of_isCard hcard _ bytes

/-- An ISO record with one ridge count. -/
def ridgeRecord : Record where
  variant := .iso
  formatId := Tag.finger
  specVersion := Tag.version20
  recordLength := 38
  numViews := 1
  views := [{
    extended := some {
      blockLength := 8
      records := [
        { length := 8, payload := .ridgeCounts { method := 1, counts := [⟨1, 2, 3⟩] } }] } }]

theorem decodeAll_partitions_ridgeRecord :
    ridgeRecord.WellFormed ∧ ∃ encodings : List Bytes,
      [ridgeRecord, ridgeRecord].map encode = encodings.map .ok ∧
        decodeAll .iso encodings.flatten
          = [.ok (.complete ridgeRecord), .ok (.complete ridgeRecord)] ∧
        ItemsFrom .iso encodings.flatten 0 (decodeAll .iso encodings.flatten) := by
  have hwell : ridgeRecord.WellFormed := by
    have hheaded : ridgeRecord.HeadedWellFormed := by decide
    exact hheaded
  have hheader : Variant.iso.hasHeader = true := rfl
  obtain ⟨-, -, hwritten⟩ := (decodeAll_partitions .iso []).2.1 hheader
  obtain ⟨encodings, hencodings, hdecoded⟩ := hwritten [ridgeRecord, ridgeRecord] (by
    simp only [List.forall_mem_cons]
    exact ⟨⟨rfl, hwell⟩, ⟨rfl, hwell⟩, List.forall_mem_nil _⟩)
  have hitems := (decodeAll_partitions .iso encodings.flatten).2.1 hheader
  exact ⟨hwell, encodings, hencodings, hdecoded, (hitems.1 _).mpr rfl⟩

end Record

end FingerMinutiae
