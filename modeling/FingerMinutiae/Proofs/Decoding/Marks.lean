import FingerMinutiae.Proofs.Decoding.Extents

/-!
# Which nodes are marked

When the bytes end within a record, the nodes that they end in are marked: a view, the block of that
view, an extended data record of that block. No other node is. A view is kept from its first byte
on. A block and an extended data record are kept from the point on where what opens them is there,
the length of the one and the header of the other; of fewer bytes nothing is kept, and the node
around them is marked all the same.

What is said of the marks here is said for any such points, and then shown for those that there are.
No earlier ones would do.

## Main definitions

* `EndsIn`: bytes that end in an item of a list.
* `Openings`: how much there has to be of a block and of an extended data record.
* `ExtendedRecord.CutBy`, `ExtendedBlock.CutBy`, `FingerView.CutBy`, `Record.CutBy`: a node that
  bytes end in, with the marks that it has.

## Main results

* `Record.cutBy_of_decode`: the marks of a record that is cut short.
* `Record.le_of_forall_cutBy`: how much of a node is needed.
-/

namespace FingerMinutiae

open Decoder Layout

variable {variant : Variant} {bytes : Bytes}

/-! ### The item that bytes end in -/

/-- The bytes are those of items one after the other and end in the next, for which there was `Room`
behind the others. It is in the list from its byte `opening` on. -/
inductive EndsIn {α : Type} (opening : Nat) (Whole Cut : Bytes → α → Prop) (Room : List α → Prop) :
    Bytes → List α → Prop where
  | unopened {front tail : Bytes} {as : List α} (whole : Concat Whole front as) (room : Room as)
    (few : tail.length < opening) : EndsIn opening Whole Cut Room (front ++ tail) as
  | within {front tail : Bytes} {as : List α} {a : α} (whole : Concat Whole front as)
    (room : Room as) (enough : opening ≤ tail.length) (cut : Cut tail a) :
    EndsIn opening Whole Cut Room (front ++ tail) (as ++ [a])

namespace EndsIn

variable {α : Type} {opening : Nat} {Whole Cut : Bytes → α → Prop} {Room Room' : List α → Prop}
  {a : α} {as : List α}

/-- The first item is not there yet. -/
theorem unopened_first (room : Room []) (few : bytes.length < opening) :
    EndsIn opening Whole Cut Room bytes [] :=
  .unopened .nil room few

/-- The bytes end in the first item. -/
theorem within_first (room : Room []) (enough : opening ≤ bytes.length) (cut : Cut bytes a) :
    EndsIn opening Whole Cut Room bytes [a] :=
  .within .nil room enough cut

theorem cons {more : Bytes} (head : Whole bytes a)
    (tail : EndsIn opening Whole Cut (fun as => Room (a :: as)) more as) :
    EndsIn opening Whole Cut Room (bytes ++ more) (a :: as) := by
  cases tail with
  | unopened whole room few =>
    rw [← List.append_assoc]
    exact .unopened (.cons head whole) room few
  | within whole room enough cut =>
    rw [← List.append_assoc, ← List.cons_append]
    exact .within (.cons head whole) room enough cut

theorem mono_room (h : EndsIn opening Whole Cut Room bytes as)
    (hroom : ∀ as, Room as → Room' as) : EndsIn opening Whole Cut Room' bytes as := by
  cases h with
  | unopened whole room few => exact .unopened whole (hroom _ room) few
  | within whole room enough cut => exact .within whole (hroom _ room) enough cut

/-- The bytes end in the only item when it is not one that has been read. -/
theorem cut_of_singleton (h : EndsIn opening Whole Cut Room bytes [a])
    (ha : ∀ bytes, ¬ Whole bytes a) : Cut bytes a := by
  generalize hsingle : [a] = single at h
  cases h with
  | unopened whole =>
    subst hsingle
    cases whole with
    | cons head => exact absurd head (ha _)
  | @within front tail as b whole room enough cut =>
    rcases List.append_eq_singleton_iff.mp hsingle.symm with ⟨rfl, hb⟩ | ⟨-, hb⟩
    · cases whole
      cases hb
      exact cut
    · cases hb

/-- There is no item only if there are too few bytes for one. -/
theorem length_lt_of_nil (h : EndsIn opening Whole Cut Room bytes []) :
    bytes.length < opening := by
  generalize hnil : [] = none at h
  cases h with
  | unopened whole _ few =>
    subst hnil
    cases whole
    exact few
  | within => exact absurd hnil.symm (List.append_ne_nil_of_right_ne_nil _ (List.cons_ne_nil _ _))

end EndsIn

/-- **Lists that are cut short.** The item within which a list of a known count ends is the next
one, and there is one more. -/
theorem Decoder.Ends.several_endsIn {α : Type} {opening : Nat} {P Cut : Bytes → α → Prop}
    {Q : α → Prop} {each : Nat → Decoder (Option (Decoded α))}
    (heach : ∀ index, (each index).ReadsItem P Q) (hapart : ∀ bytes a, P bytes a → ¬ Q a)
    (hcut : ∀ index bytes x, (each index).Ends bytes (.short x) →
      bytes.length < opening ∧ x = none ∨
        opening ≤ bytes.length ∧ ∃ a, x = some (.incomplete a) ∧ Cut bytes a)
    {count : Nat} {as : Decoded (List α)} (h : (several each count).Ends bytes (.short as)) :
    ∃ more, as = .incomplete more ∧
      EndsIn opening P Cut (fun whole => whole.length < count) bytes more := by
  have hcount := (reads_several_cut heach (R := fun _ => True) (fun _ _ _ => trivial)
    (fun _ _ => trivial) count).of_ends_short h
  rcases h.several_cases heach with
    ⟨_, ⟨⟩⟩ | ⟨front, back, whole, left, _, rfl, hwhole, -, hends, @⟨x, _, hnext⟩⟩
  -- That there is one more item follows from the count, which whole items alone would have met.
  rcases hcut _ _ _ hends with ⟨hfew, rfl⟩ | ⟨henough, a, rfl, ha⟩
  · cases hnext
    rw [List.reverse_reverse] at hcount ⊢
    obtain ⟨-, -, hless | ⟨a, ha, hQ⟩⟩ := hcount
    · exact ⟨whole, rfl, .unopened hwhole hless hfew⟩
    · exact absurd hQ (hwhole.forall hapart a ha)
  · cases hnext
    rw [List.reverse_cons, List.reverse_reverse] at hcount ⊢
    have hmost : (whole ++ [a]).length ≤ count := hcount.1
    rw [List.length_append] at hmost
    exact ⟨whole ++ [a], rfl, .within hwhole hmost henough ha⟩

/-! ### Extended data -/

/-- How many bytes there have to be of a block, its length included, and of an extended data record,
its header included, for the node to be there when bytes end in it. -/
structure Openings where
  /-- Bytes of a block. -/
  block : Nat
  /-- Bytes of an extended data record. -/
  data : Nat

/-- A node is there as soon as a byte of it is. -/
def Openings.firstByte : Openings where
  block := 1
  data := 1

/-- A block is there when its length is, and an extended data record when its header is. -/
def Openings.whole : Openings where
  block := 2
  data := ExtendedRecord.headerLength

/-- The bytes from an extended data record on end in it, and it is marked. -/
structure ExtendedRecord.CutBy (variant : Variant) (bytes : Bytes) (d : ExtendedRecord) :
    Prop where
  marked : d.truncated = true
  header : 4 ≤ bytes.length → dataHeader.parse (bytes.take 4) = ⟨d.typeId, d.length⟩
  length_lt : bytes.length
    < 4 + Payload.extentIn variant d.typeId (d.length.toNat - 4) (bytes.drop 4)

/-- A record of which the header is there, with what there is of its payload. -/
theorem ExtendedRecord.cutBy_of_payload {place : Place} {piece : Bytes} (hpiece : piece.length = 4)
    {p : Decoded Payload} (h : (Payload.decoder variant place (dataHeader.parse piece).typeId
      ((dataHeader.parse piece).length.toNat - 4)).Ends bytes (.short p)) :
    ∃ payload, p = .incomplete payload ∧ ExtendedRecord.CutBy variant (piece ++ bytes)
      { length := (dataHeader.parse piece).length, payload, truncated := true } := by
  obtain ⟨hlt, payload, rfl, htype⟩ := Payload.length_lt_extentIn h
  rw [← htype] at hlt
  refine ⟨payload, rfl, rfl, fun _ => ?_, ?_⟩
  · rw [List.take_left' hpiece]
    show _ = DataHeader.mk payload.typeId _
    rw [htype]
  · rw [List.drop_left' hpiece, List.length_append, hpiece]
    exact Nat.add_lt_add_left hlt 4

/-- The bytes from a block on, its length included, end in it, and it is marked. Its records are
whole and not marked, up to the one that the bytes end in. -/
structure ExtendedBlock.CutBy (o : Openings) (variant : Variant) (bytes : Bytes)
    (b : ExtendedBlock) : Prop where
  marked : b.truncated = true
  unopened : bytes.length < 2 → b.records = []
  blockLength : 2 ≤ bytes.length → half.parse (bytes.take 2) = b.blockLength
  records : 2 ≤ bytes.length → EndsIn o.data
    (fun bytes d => ExtendedRecord.Read variant bytes d ∧ d.truncated = false)
    (ExtendedRecord.CutBy variant)
    (fun whole => (whole.map fun d => d.length.toNat).sum < b.blockLength.toNat)
    (bytes.drop 2) b.records

namespace ExtendedBlock

/-- The bytes of a block that are left for its records end in one of them, or before it is there. -/
theorem endsIn_of_ends_short {view index remaining : Nat} {got : List ExtendedRecord}
    {ds : Decoded (List ExtendedRecord)}
    (h : (recordsDecoder variant view index remaining got).Ends bytes (.short ds)) :
    ∃ more, ds = .incomplete (got.reverse ++ more) ∧
      EndsIn Openings.whole.data
        (fun bytes d => ExtendedRecord.Read variant bytes d ∧ d.truncated = false)
        (ExtendedRecord.CutBy variant)
        (fun whole => (whole.map fun d => d.length.toNat).sum < remaining) bytes more := by
  induction remaining using Nat.strongRecOn generalizing index got bytes with
  | ind remaining ih =>
  rcases recordsDecoder_cases h with ⟨-, -, ⟨⟩⟩ |
    ⟨hremaining, ⟨hlt, hshort⟩ | ⟨-, _, ⟨⟩, -⟩ | ⟨piece, later, rfl, hpiece, hlength, hlater⟩⟩
  · -- The block is not used up, and the header of its next record is not there.
    cases hshort
    refine ⟨[], by rw [List.append_nil], ?_⟩
    exact .unopened_first (Nat.pos_of_ne_zero hremaining) hlt
  · obtain ⟨hroom, hfits⟩ := ExtendedRecord.bounds_of_lengthDefect? hlength
    rcases hlater.bind_cases with ⟨front, back, p, rfl, hp, hback⟩ | ⟨_, hp, @⟨p, _, hsettled⟩⟩
    · have hread := (Payload.reads_decoder variant _ _ _).of_ends_value hp
      rcases p with p | p
      · -- A whole record leaves the block that much shorter.
        have hwhole := ExtendedRecord.Read.of_payload hpiece hlength hread
        obtain ⟨more, rfl, hmore⟩ := ih _ (by omega) hback
        refine ⟨_ :: more, by rw [List.reverse_cons, List.append_assoc]; rfl, ?_⟩
        rw [← List.append_assoc]
        refine .cons ⟨hwhole, rfl⟩ (hmore.mono_room fun whole hsum => ?_)
        rw [List.map_cons, List.sum_cons]
        dsimp only
        omega
      · exact hread.elim
    · obtain ⟨payload, rfl, hcut⟩ := ExtendedRecord.cutBy_of_payload hpiece hp
      cases hsettled
      refine ⟨[_], congrArg Decoded.incomplete List.reverse_cons, ?_⟩
      refine .within_first (Nat.pos_of_ne_zero hremaining) ?_ hcut
      rw [List.length_append, hpiece]
      exact Nat.le_add_right 4 _

/-- The bytes of a block end in it. -/
theorem cutBy_of_ends_short {view : Nat} {piece : Bytes} (hpiece : piece.length = 2)
    {b : Decoded ExtendedBlock}
    (h : (ExtendedBlock.decoder variant view (half.parse piece)).Ends bytes (.short b)) :
    ∃ block, b = .incomplete block ∧ block.CutBy .whole variant (piece ++ bytes) := by
  have htwo : 2 ≤ (piece ++ bytes).length := by
    rw [List.length_append, hpiece]
    exact Nat.le_add_right 2 _
  rcases h.bind_cases with ⟨_, _, ds, rfl, -, hlater⟩ | ⟨_, hds, @⟨ds, _, hsettled⟩⟩
  · rcases ds with ds | ds
    · cases hlater
    · cases hlater
  · obtain ⟨records, rfl, hrecords⟩ := endsIn_of_ends_short hds
    cases hsettled
    refine ⟨_, rfl, rfl, fun hfew => absurd htwo (Nat.not_le_of_lt hfew), fun _ => ?_, fun _ => ?_⟩
    · rw [List.take_left' hpiece]
    · rw [List.drop_left' hpiece]
      exact hrecords

end ExtendedBlock

/-! ### Views -/

namespace FingerView

/-- No node of the view is marked. -/
structure Unmarked (v : FingerView) : Prop where
  view : v.truncated = false
  block : ∀ b ∈ v.extended, b.truncated = false
  records : ∀ b ∈ v.extended, ∀ d ∈ b.records, d.truncated = false

/-- A view that was read is whole, and so is everything in it. -/
theorem Read.unmarked {v : FingerView} (h : FingerView.Read variant bytes v) : v.Unmarked where
  view := h.wellFormed.whole
  block b hb := (h.wellFormed.extended b hb).whole
  records b hb d hd := ((h.wellFormed.extended b hb).records d hd).whole

/-- Where the block of a view begins that has as many minutiae as announced. -/
def blockOffset (variant : Variant) (v : FingerView) : Nat :=
  4 + v.numMinutiae.toNat * variant.minutiaLength

/-- The bytes from a view on end in it, and it is marked. Its block is there, and marked, when the
bytes end in that. -/
structure CutBy (o : Openings) (variant : Variant) (bytes : Bytes) (v : FingerView) : Prop where
  marked : v.truncated = true
  header : 4 ≤ bytes.length → viewHeader.parse (bytes.take 4) = v.toViewHeader
  unopened : (bytes.drop (v.blockOffset variant)).length < o.block → v.extended = none
  extended : o.block ≤ (bytes.drop (v.blockOffset variant)).length →
    ∃ b, v.extended = some b ∧ b.CutBy o variant (bytes.drop (v.blockOffset variant))

/-- Bytes that end in front of the block of a view. -/
theorem cutBy_of_unopened {v : FingerView} (hmarked : v.truncated = true)
    (hextended : v.extended = none)
    (hheader : 4 ≤ bytes.length → viewHeader.parse (bytes.take 4) = v.toViewHeader)
    (hlength : bytes.length < v.blockOffset variant + 2) : v.CutBy .whole variant bytes := by
  have hbehind : (bytes.drop (v.blockOffset variant)).length < 2 := by
    rw [List.length_drop]
    omega
  exact ⟨hmarked, hheader, fun _ => hextended, fun h => absurd hbehind (Nat.not_lt_of_le h)⟩

/-- Bytes that end in the block of a view. -/
theorem cutBy_of_block {v : FingerView} {front : Bytes} {b : ExtendedBlock}
    (hmarked : v.truncated = true) (hextended : v.extended = some b)
    (hheader : viewHeader.parse (front.take 4) = v.toViewHeader)
    (hfront : front.length = v.blockOffset variant) (htwo : 2 ≤ bytes.length)
    (hblock : b.CutBy .whole variant bytes) : v.CutBy .whole variant (front ++ bytes) := by
  have hbehind : (front ++ bytes).drop (v.blockOffset variant) = bytes := by
    rw [← hfront, List.drop_left]
  have hfour : 4 ≤ front.length := by
    rw [hfront]
    exact Nat.le_add_right 4 _
  refine ⟨hmarked, fun _ => ?_, fun hfew => ?_, fun _ => ⟨b, hextended, ?_⟩⟩
  · rw [List.take_append_of_le_length hfour, hheader]
  · rw [hbehind] at hfew
    exact absurd htwo (Nat.not_le_of_lt hfew)
  · rw [hbehind]
    exact hblock

/-- The bytes end in the block length or in the block. -/
theorem cutBy_of_ends_short_extended {index : Nat} {front : Bytes} {draft : FingerView}
    (hextended : draft.extended = none) (hfront : front.length = draft.blockOffset variant)
    (hheader : viewHeader.parse (front.take 4) = draft.toViewHeader)
    {x : Option (Decoded FingerView)}
    (h : (extendedDecoder variant index draft).Ends bytes (.short x)) :
    ∃ v, x = some (.incomplete v) ∧ v.CutBy .whole variant (front ++ bytes) := by
  rcases h.readPiece_cases with ⟨piece, back, rfl, hpiece, hback⟩ | ⟨hlt, _, hdone, ⟨⟩⟩
  · have htwo : piece.length = 2 := hpiece
    dsimp only at hback
    split at hback
    · cases hback
    · rcases hback.bind_cases with ⟨_, _, b, rfl, -, hlater⟩ | ⟨_, hb, @⟨b, _, hsettled⟩⟩
      · rcases b with b | b
        · cases hlater
        · cases hlater
      · obtain ⟨block, rfl, hblock⟩ := ExtendedBlock.cutBy_of_ends_short htwo hb
        cases hsettled
        refine ⟨_, rfl, cutBy_of_block rfl rfl hheader hfront ?_ hblock⟩
        rw [List.length_append, htwo]
        exact Nat.le_add_right 2 _
  · cases hdone
    have hfour : 4 ≤ front.length := by
      rw [hfront]
      exact Nat.le_add_right 4 _
    refine ⟨_, rfl, cutBy_of_unopened rfl hextended (fun _ => ?_) ?_⟩
    · rw [List.take_append_of_le_length hfour, hheader]
    · rw [List.length_append, hfront]
      exact Nat.add_lt_add_left hlt _

/-- The bytes end behind the header of a view. -/
theorem cutBy_of_ends_short_minutiae {index : Nat} {piece : Bytes} (hpiece : piece.length = 4)
    {x : Option (Decoded FingerView)}
    (h : (minutiaeDecoder variant index (viewHeader.parse piece)).Ends bytes (.short x)) :
    ∃ v, x = some (.incomplete v) ∧ v.CutBy .whole variant (piece ++ bytes) := by
  rcases h.bind_cases with ⟨front, back, ms, rfl, hms, hback⟩ | ⟨_, hms, @⟨ms, _, hsettled⟩⟩
  · have hread := (reads_minutiae_length variant _).of_ends_value hms
    rcases ms with minutiae | minutiae
    · obtain ⟨hcount, hlength⟩ := hread
      rw [← List.append_assoc]
      refine cutBy_of_ends_short_extended rfl ?_ ?_ hback
      · rw [List.length_append, hpiece, hlength, hcount]
        rfl
      · rw [List.take_left' hpiece]
    · exact hread.elim
  · have hwithin := (within_several (fun _ => within_item (minutia variant)) (Nat.le_refl
      (viewHeader.parse piece).numMinutiae.toNat)).short hms
    have hread := (reads_minutiae_length variant _).of_ends_short hms
    rcases ms with minutiae | minutiae
    · exact hread.elim
    · cases hsettled
      refine ⟨_, rfl, cutBy_of_unopened rfl rfl (fun _ => ?_) ?_⟩
      · rw [List.take_left' hpiece]
      · rw [width_minutia] at hwithin
        rw [List.length_append, hpiece, blockOffset]
        dsimp only
        omega

/-- **Views that are cut short.** A view is there from its first byte on. -/
theorem cutBy_of_ends_short {index : Nat} {x : Option (Decoded FingerView)}
    (h : (FingerView.decoder variant index).Ends bytes (.short x)) :
    bytes.length < 1 ∧ x = none ∨
      1 ≤ bytes.length ∧ ∃ v, x = some (.incomplete v) ∧ v.CutBy .whole variant bytes := by
  rcases h.readPiece_cases with ⟨piece, back, rfl, hpiece, hback⟩ | ⟨hlt, _, hdone, ⟨⟩⟩
  · refine .inr ⟨?_, cutBy_of_ends_short_minutiae hpiece hback⟩
    have hfour : piece.length = 4 := hpiece
    rw [List.length_append, hfour]
    omega
  · have hfour : bytes.length < 4 := hlt
    cases hgot : bytes.length with
    | zero =>
      rw [hgot] at hdone
      cases hdone
      exact .inl ⟨Nat.one_pos, rfl⟩
    | succ got =>
      rw [hgot] at hdone
      cases hdone
      refine .inr ⟨Nat.succ_pos got, _, rfl, cutBy_of_unopened rfl rfl (fun h => ?_) ?_⟩
      · exact absurd hfour (Nat.not_lt_of_le h)
      · rw [blockOffset]
        omega

end FingerView

/-! ### Records -/

namespace Record

/-- The bytes end in a record, in its header or in one of its views. The views before that are whole
and have no marks. -/
structure CutBy (o : Openings) (variant : Variant) (bytes : Bytes) (r : Record) : Prop where
  headless : bytes.length < headerLengthIn variant bytes → r.views = []
  header : headerLengthIn variant bytes ≤ bytes.length →
    HeaderRead variant (bytes.take (headerLengthIn variant bytes)) r
  views : headerLengthIn variant bytes ≤ bytes.length → EndsIn 1
    (fun bytes v => FingerView.Read variant bytes v ∧ v.Unmarked) (FingerView.CutBy o variant)
    (fun whole => whole.length < r.numViews.toNat)
    (bytes.drop (headerLengthIn variant bytes)) r.views

/-- Bytes that end in a header are fewer than it has. -/
theorem ensures_headerDecoder_cut (variant : Variant) :
    (headerDecoder variant).Ensures (fun _ _ => True)
      fun bytes _ => bytes.length < headerLengthIn variant bytes := by
  -- No header ends within its identification or its record length.
  have hshort : ∀ bytes : Bytes, bytes.length < 14 →
      bytes.length < headerLengthIn variant bytes := fun bytes hfew =>
    Nat.lt_of_lt_of_le (Nat.lt_trans hfew (by decide))
      (isoHeaderLength_le_headerLengthIn variant bytes)
  refine ensures_readPieceOr ?_ fun bytes hfew => hshort bytes (Nat.lt_trans hfew (by decide))
  intro idBytes hid
  have height : idBytes.length = 8 := hid
  refine ensures_lengthDecoder ?_ fun bytes hfew => hshort _ ?_
  · intro length lengthBytes hlength
    have hheader : ∀ rest, headerLengthIn variant (idBytes ++ (lengthBytes ++ rest))
        = 8 + lengthBytes.length + (if variant = .ansi then 4 else 0) + 12 :=
      headerLengthIn_append hlength height
    refine ensures_productDecoder ?_ fun bytes hfew => ?_
    · intro p _
      have hproduct : (if variant = .ansi then product.bytes p else []).length
          = if variant = .ansi then 4 else 0 := by
        split
        · exact lawful_product.length_bytes p
        · rfl
      refine ensures_readPieceOr (fun _ _ => trivial) fun bytes hfew => ?_
      have htwelve : bytes.length < 12 := hfew
      show (idBytes ++ (lengthBytes ++ ((if variant = .ansi then product.bytes p else [])
        ++ bytes))).length < headerLengthIn variant _
      rw [hheader, List.length_append, List.length_append, List.length_append, height, hproduct]
      omega
    · rw [hheader, List.length_append, List.length_append, height]
      omega
  · rw [List.length_append, height]
    exact Nat.add_lt_add_left hfew 8

/-- A record of which the header was read ends in its views. -/
theorem cutBy_of_ends_short_views {front : Bytes} {r : Record} (hread : HeaderRead variant front r)
    {answer : Decoded Record} (h : (viewsDecoder variant r).Ends bytes (.short answer)) :
    ∃ r', answer = .incomplete r' ∧ r'.CutBy .whole variant (front ++ bytes) := by
  have hitem : ∀ index, (FingerView.decoder variant index).ReadsItem
      (fun bytes v => FingerView.Read variant bytes v ∧ v.Unmarked) fun v => v.truncated = true :=
    fun index => (FingerView.readsItem_decoder variant index).mono
      (fun _ _ hv => ⟨hv, hv.unmarked⟩) fun _ hv => hv.truncated
  have hapart : ∀ (bytes : Bytes) (v : FingerView),
      FingerView.Read variant bytes v ∧ v.Unmarked → ¬ v.truncated = true := by
    rintro bytes v ⟨-, hv⟩
    rw [hv.view]
    exact Bool.false_ne_true
  obtain ⟨views, hviews, hdone⟩ := h.short_of_map
  obtain ⟨more, rfl, hmore⟩ := hviews.several_endsIn hitem hapart
    fun _ _ _ hends => FingerView.cutBy_of_ends_short hends
  cases hdone
  have hlength := hread.headerLengthIn_eq bytes
  refine ⟨_, rfl, fun hfew => ?_, fun _ => ?_, fun _ => ?_⟩
  · rw [hlength, List.length_append] at hfew
    omega
  · rw [hlength, List.take_left]
    exact ⟨hread.variant_eq, hread.product, hread.capture, hread.bytes_eq⟩
  · rw [hlength, List.drop_left]
    exact hmore

/-- **The marks of a record that is cut short.** The nodes that the bytes end in are marked and no
others. A block is there, and marked, when its length is, and an extended data record when its
header is. -/
theorem cutBy_of_decode (hheader : variant.hasHeader = true) {r : Record}
    (h : decode variant bytes = .ok (.incomplete r)) : r.CutBy .whole variant bytes := by
  obtain ⟨s, hrun⟩ := exists_run_of_decode h
  rw [decoder_of_hasHeader hheader] at hrun
  rcases (reads_headedDecoder variant).of_run hrun with ⟨front, -, -, hends⟩ | ⟨-, hends⟩
  · exact ((reads_headedDecoder variant).of_ends_value hends).elim
  · rcases hends.bind_cases with ⟨front, back, r', rfl, hr, hback⟩ | ⟨_, hr, @⟨r', _, hsettled⟩⟩
    · have hread := (reads_headerDecoder variant).of_ends_value hr
      rcases r' with r' | r'
      · obtain ⟨_, hanswer, hcut⟩ := cutBy_of_ends_short_views hread.1 hback
        cases hanswer
        exact hcut
      · exact hread.elim
    · have hcut := (reads_headerDecoder variant).of_ends_short hr
      have hfew := (ensures_headerDecoder_cut variant).of_ends_short hr
      rcases r' with r' | r'
      · exact hcut.elim
      · cases hsettled
        exact ⟨fun _ => hcut.views, fun hall => absurd hfew (Nat.not_lt_of_le hall),
          fun hall => absurd hfew (Nat.not_lt_of_le hall)⟩

/-- The bytes of an ISO record that end in the second of its views, in the ridge counts of its
block. -/
def ridgelessBytes : Bytes :=
  [0x46, 0x4d, 0x52, 0, 0x20, 0x32, 0x30, 0, 0, 0, 0, 53, 0, 0, 1, 0, 1, 0, 0, 197, 0, 197, 2, 0,
    1, 0, 80, 0, 0, 0, 1, 16, 80, 0, 0, 8, 0, 1, 0, 8, 1, 1]

theorem cutBy_of_decode_ridgelessBytes :
    ∃ r, decode .iso ridgelessBytes = .ok (.incomplete r) ∧ r.views.length = 2 ∧
      r.CutBy .whole .iso ridgelessBytes := by
  have hcheck : (short? (decode .iso ridgelessBytes)).any (fun r => r.views.length == 2)
      = true := by decide +kernel
  obtain ⟨r, hr, htwo⟩ := Option.any_eq_true _ _ |>.mp hcheck
  have hdecode := short?_eq_some_iff.mp hr
  exact ⟨r, hdecode, eq_of_beq htwo, cutBy_of_decode (rfl : Variant.iso.hasHeader = true) hdecode⟩

/-- The bytes of an ISO record that end in the length of a block. -/
def lengthlessBytes : Bytes :=
  [0x46, 0x4d, 0x52, 0, 0x20, 0x32, 0x30, 0, 0, 0, 1, 30, 0, 0, 1, 0, 1, 0, 0, 197, 0, 197, 1, 0,
    0, 0, 0, 0, 1]

/-- The bytes of an ISO record that end in the header of an extended data record. -/
def headerlessBytes : Bytes :=
  [0x46, 0x4d, 0x52, 0, 0x20, 0x32, 0x30, 0, 0, 0, 0, 38, 0, 0, 1, 0, 1, 0, 0, 197, 0, 197, 1, 0,
    0, 0, 0, 0, 0, 8, 0, 0, 0]

/-- The block is not there. -/
theorem exists_decode_lengthlessBytes :
    ∃ r, decode .iso lengthlessBytes = .ok (.incomplete r) ∧ r.views = [{ truncated := true }] := by
  have hcheck : (short? (decode .iso lengthlessBytes)).any
      (fun r => decide (r.views = [{ truncated := true }])) = true := by decide +kernel
  obtain ⟨r, hr, hviews⟩ := Option.any_eq_true _ _ |>.mp hcheck
  exact ⟨r, short?_eq_some_iff.mp hr, of_decide_eq_true hviews⟩

/-- The extended data record is not there. -/
theorem exists_decode_headerlessBytes :
    ∃ r, decode .iso headerlessBytes = .ok (.incomplete r) ∧ r.views =
      [{ extended := some { blockLength := 8, truncated := true }, truncated := true }] := by
  have hcheck : (short? (decode .iso headerlessBytes)).any (fun r => decide (r.views =
      [{ extended := some { blockLength := 8, truncated := true }, truncated := true }]))
        = true := by decide +kernel
  obtain ⟨r, hr, hviews⟩ := Option.any_eq_true _ _ |>.mp hcheck
  exact ⟨r, short?_eq_some_iff.mp hr, of_decide_eq_true hviews⟩

/-- A marked view that is the only one is the one that the bytes end in. -/
theorem CutBy.view {o : Openings} {r : Record} {v : FingerView} (h : r.CutBy o variant bytes)
    (hall : headerLengthIn variant bytes ≤ bytes.length) (hviews : r.views = [v])
    (hmarked : v.truncated = true) :
    v.CutBy o variant (bytes.drop (headerLengthIn variant bytes)) := by
  have hends := h.views hall
  rw [hviews] at hends
  refine hends.cut_of_singleton ?_
  rintro front ⟨-, hunmarked⟩
  rw [hunmarked.view] at hmarked
  cases hmarked

theorem lt_of_cutBy_lengthlessBytes {o : Openings} {r : Record}
    (hviews : r.views = [{ truncated := true }]) (h : r.CutBy o .iso lengthlessBytes) :
    1 < o.block := by
  have hview := h.view (by decide) hviews rfl
  refine Nat.lt_of_not_le fun hfew => ?_
  obtain ⟨b, hb, -⟩ := hview.extended hfew
  cases hb

theorem lt_of_cutBy_headerlessBytes {o : Openings} {r : Record} (hviews : r.views =
      [{ extended := some { blockLength := 8, truncated := true }, truncated := true }])
    (h : r.CutBy o .iso headerlessBytes) : 3 < o.data := by
  have hview := h.view (by decide) hviews rfl
  rcases Nat.lt_or_ge 5 o.block with hlt | hge
  · cases hview.unopened hlt
  · obtain ⟨b, hb, hblock⟩ := hview.extended hge
    cases hb
    exact (hblock.records (by decide)).length_lt_of_nil

/-- **How much of a node is needed.** A block is not there before its length is, and an extended
data record not before its header is. -/
theorem le_of_forall_cutBy {o : Openings} (h : ∀ (bytes : Bytes) (r : Record),
      decode .iso bytes = .ok (.incomplete r) → r.CutBy o .iso bytes) :
    Openings.whole.block ≤ o.block ∧ Openings.whole.data ≤ o.data := by
  obtain ⟨r, hr, hviews⟩ := exists_decode_lengthlessBytes
  obtain ⟨r', hr', hviews'⟩ := exists_decode_headerlessBytes
  exact ⟨lt_of_cutBy_lengthlessBytes hviews (h _ r hr),
    lt_of_cutBy_headerlessBytes hviews' (h _ r' hr')⟩

/-- A block of which there is a byte need not be there, and neither need an extended data record. -/
theorem not_cutBy_firstByte :
    (∃ r, decode .iso lengthlessBytes = .ok (.incomplete r) ∧ r.views = [{ truncated := true }] ∧
        ¬ r.CutBy .firstByte .iso lengthlessBytes) ∧
      ∃ r, decode .iso headerlessBytes = .ok (.incomplete r) ∧ r.views =
          [{ extended := some { blockLength := 8, truncated := true }, truncated := true }] ∧
        ¬ r.CutBy .firstByte .iso headerlessBytes := by
  obtain ⟨r, hr, hviews⟩ := exists_decode_lengthlessBytes
  obtain ⟨r', hr', hviews'⟩ := exists_decode_headerlessBytes
  refine ⟨⟨r, hr, hviews, fun h => ?_⟩, r', hr', hviews', fun h => ?_⟩
  · exact absurd (lt_of_cutBy_lengthlessBytes hviews h) (by decide)
  · exact absurd (lt_of_cutBy_headerlessBytes hviews' h) (by decide)

end Record

end FingerMinutiae
