import FingerMinutiae.Proofs.Decoding.BlockLoop

/-!
# Records read by a machine

Around its blocks a record has little to calculate with. A card has: its minutiae are not announced,
so they are counted when they are all there, in a byte, and the length of the record is worked out
from them. A machine does this even when it then has to refuse the card.

A machine that reads bytes of whatever kind gets the answer of the decoder. And the lengths of what
it reads, and of what is built from that, fit its words.

## Main definitions

* `FingerView.machineDecoder`, `Record.fillCard`, `Record.machineDecoder`, `Record.machineDecode`.

## Main results

* `Record.realises_machineDecoder`: every operation of a machine has an answer, and the whole has
  that of the decoder.
* `Record.numbers_never_wrap`: nor does any length that is asked for later on exceed a word.
-/

namespace FingerMinutiae

open Decoder Layout MachineDecoder

variable {α : Type} {variant : Variant} {s : Buffer}

/-! ### Lists and views -/

namespace MachineDecoder

/-- Reads `count` items in order, the first of them at `index`, behind those already read, which are
kept last first. -/
def severalFrom (each : Nat → MachineDecoder (Option (Decoded α))) :
    (index count : Nat) → List α → MachineDecoder (Decoded (List α))
  | _, 0, got => return .complete got.reverse
  | index, count + 1, got => do
    match ← each index with
    | some (.complete a) => severalFrom each (index + 1) count (a :: got)
    | some (.incomplete a) => return .incomplete (a :: got).reverse
    | none => return .incomplete got.reverse

theorem realises_severalFrom {each : Nat → MachineDecoder (Option (Decoded α))}
    {item : Nat → Decoder (Option (Decoded α))}
    (heach : ∀ index s, (each index).Realises s (item index)) (index count : Nat) (got : List α) :
    (severalFrom each index count got).Realises s (Decoder.severalFrom item index count got) := by
  induction count generalizing index got s with
  | zero => exact realises_pure _ s
  | succ count ih =>
    refine Realises.bind (heach index s) ?_
    rintro (_ | a | a) s' -
    · exact realises_pure _ s'
    · exact ih (index + 1) (a :: got)
    · exact realises_pure _ s'

end MachineDecoder

/-- The view at index `index`. -/
def FingerView.machineDecoder (variant : Variant) (index : Nat) :
    MachineDecoder (Option (Decoded FingerView)) := do
  match ← readPiece viewHeader with
  | .short 0 => return none
  | .short (_ + 1) => return some (.incomplete { truncated := true })
  | .whole header =>
    let draft : FingerView := { toViewHeader := header }
    match ← several (fun _ => item (minutia variant)) header.numMinutiae.toNat with
    | .incomplete minutiae => return some (.incomplete { draft with minutiae, truncated := true })
    | .complete minutiae =>
      let draft := { draft with minutiae }
      match ← readPiece half with
      | .short _ => return some (.incomplete { draft with truncated := true })
      | .whole blockLength =>
        if blockLength = 0 then
          return some (.complete draft)
        else
          match ← ExtendedBlock.machineDecoder variant index blockLength with
          | .complete block => return some (.complete { draft with extended := some block })
          | .incomplete block =>
            return some (.incomplete { draft with extended := some block, truncated := true })

theorem FingerView.realises_machineDecoder (variant : Variant) (index : Nat) (s : Buffer) :
    (machineDecoder variant index).Realises s (FingerView.decoder variant index) := by
  refine Realises.bind (realises_lift (readPiece viewHeader) s) ?_
  rintro (header | _ | got) s' -
  · refine Realises.bind (realises_lift (several (fun _ => item (minutia variant)) _) s') ?_
    rintro (minutiae | minutiae) s' -
    · refine Realises.bind (realises_lift (readPiece half) s') ?_
      rintro (blockLength | got) s' -
      · dsimp only
        split
        · exact realises_pure _ s'
        · refine Realises.bind (ExtendedBlock.realises_machineDecoder variant index _ s') ?_
          rintro (block | block) s' -
          · exact realises_pure _ s'
          · exact realises_pure _ s'
      · exact realises_pure _ s'
    · exact realises_pure _ s'
  · exact realises_pure _ s'
  · exact realises_pure _ s'

namespace Record

/-- A record with a header. -/
def headedMachineDecoder (variant : Variant) : MachineDecoder (Decoded Record) := do
  match ← headerDecoder variant with
  | .incomplete r => return .incomplete r
  | .complete r =>
    let views ← severalFrom (FingerView.machineDecoder variant) 0 r.numViews.toNat []
    return views.map fun views => { r with views }

theorem realises_headedMachineDecoder (variant : Variant) (s : Buffer) :
    (headedMachineDecoder variant).Realises s (headedDecoder variant) := by
  refine Realises.bind (realises_lift (headerDecoder variant) s) ?_
  rintro (r | r) s' -
  · exact (realises_severalFrom (FingerView.realises_machineDecoder variant) 0 _ []).map
  · exact realises_pure _ s'

end Record

/-! ### Cards -/

/-- The bytes ended within the node that was filled. -/
def endedWithin : Except DecodeError Bool → Bool
  | .ok false => true
  | _ => false

/-- What becomes of a node that was filled until the bytes ended, behind it or within it, or until
it was refused. -/
def settle (filled : Except DecodeError Bool) (a : α) : Except DecodeError (Decoded α) :=
  filled.map fun whole => if whole then .complete a else .incomplete a

namespace Record

/-- The minutiae of a card behind those it has, as far as they could be read, and how that ended. -/
def fillCard (variant : Variant) (minutiae : List Minutia) (s : Buffer) :
    List Minutia × Except DecodeError Bool × Buffer :=
  if hend : s.rest = [] then
    (minutiae, .ok true, s)
  else if minutiae.length = 255 then
    (minutiae, .error (.malformed s.offset (.view 0) .tooManyMinutiae), s)
  else
    match h : s.take (minutia variant).width with
    | (.short _, s') => (minutiae, .ok false, s')
    | (.whole piece, s') =>
      have hwidth : 0 < (minutia variant).width := by
        rw [width_minutia]
        exact minutiaLength_pos
      have := Buffer.length_rest_lt_of_take hwidth hend h
      fillCard variant (minutiae ++ [(minutia variant).parse piece]) s'
termination_by s.rest.length

/-- However the bytes end, there are no more minutiae than a byte can count. The decoder has room
for those that are missing to that number, and keeps the others last first. -/
theorem exists_fillCard (variant : Variant) {room : Nat} (got : List Minutia)
    (hroom : got.length + room = 255) (s : Buffer) :
    ∃ minutiae filled s', fillCard variant got s = (minutiae, filled, s') ∧
      minutiae.length ≤ 255 ∧
      (cardMinutiaeDecoder (minutia variant) room got.reverse).run s
        = (settle filled minutiae, s') := by
  induction room generalizing got s with
  | zero =>
    rw [Nat.add_zero] at hroom
    rw [fillCard, cardMinutiaeDecoder, run_atEnd, List.reverse_reverse]
    by_cases hend : s.rest = []
    · rw [dif_pos hend, hend]
      exact ⟨_, _, _, rfl, Nat.le_of_eq hroom, rfl⟩
    · rw [dif_neg hend, if_pos hroom, List.isEmpty_eq_false_iff.mpr hend]
      exact ⟨_, _, _, rfl, Nat.le_of_eq hroom, rfl⟩
  | succ room ih =>
    have hgot : got.length ≤ 255 := Nat.le_of_add_right_le (Nat.le_of_eq hroom)
    have hfree : got.length ≠ 255 := by omega
    rw [fillCard, cardMinutiaeDecoder, run_atEnd, List.reverse_reverse]
    by_cases hend : s.rest = []
    · rw [dif_pos hend, hend]
      exact ⟨_, _, _, rfl, hgot, rfl⟩
    · rw [dif_neg hend, if_neg hfree, List.isEmpty_eq_false_iff.mpr hend]
      split
      · next n s' h => exact ⟨_, _, _, rfl, hgot, run_readPiece_bind h⟩
      · next piece s' h =>
        have hroom' : (got ++ [(minutia variant).parse piece]).length + room = 255 := by
          rw [List.length_append, List.length_singleton]
          omega
        obtain ⟨minutiae, filled, s'', hfill, hlength, hrun⟩ := ih _ hroom' s'
        rw [List.reverse_concat] at hrun
        exact ⟨minutiae, filled, s'', hfill, hlength, (run_readPiece_bind h).trans hrun⟩

/-- A card. -/
def cardMachineDecoder (variant : Variant) : MachineDecoder (Decoded Record) := do
  let (minutiae, filled, s) := fillCard variant [] (← get)
  set s
  let count ← word? 8 minutiae.length
  let view : FingerView :=
    { numMinutiae := UInt8.ofNat count, minutiae, truncated := endedWithin filled }
  let length ← view.encodedLength? variant
  let record : Record :=
    { Record.empty variant with
      recordLength := UInt32.ofNat length
      numViews := 1
      views := [view] }
  MonadExcept.ofExcept (settle filled record)

/-- **Cards.** The minutiae are counted, and the length of the card is worked out from them, also
when the card is refused. -/
theorem realises_cardMachineDecoder (variant : Variant) (s : Buffer) :
    (cardMachineDecoder variant).Realises s (cardDecoder variant) := by
  obtain ⟨minutiae, filled, s', hfill, hlength, hrun⟩ :=
    exists_fillCard variant [] (Nat.zero_add 255) s
  have hcount : word? 8 minutiae.length = some minutiae.length :=
    word?_natCast (Nat.lt_succ_of_le hlength)
  have hcard : (cardDecoder variant).run s
      = (settle filled (ofCard variant minutiae (endedWithin filled)), s') := by
    refine (run_bind (cardMinutiaeDecoder (minutia variant) 255 []) _ s).trans ?_
    rw [List.reverse_nil] at hrun
    rw [hrun]
    rcases filled with e | _ | _ <;> rfl
  rw [Realises, hcard, cardMachineDecoder]
  refine (bind_of_ok rfl).trans ?_
  dsimp only
  rw [hfill]
  refine (bind_of_ok rfl).trans ?_
  refine (bind_operation hcount).trans ?_
  refine (bind_operation (FingerView.encodedLength?_eq ?_ variant)).trans ?_
  · exact hlength
  · rcases filled with e | _ | _ <;> rfl

/-- A record of a variant. -/
def machineDecoder (variant : Variant) : MachineDecoder (Decoded Record) :=
  if variant.isCard then cardMachineDecoder variant else headedMachineDecoder variant

/-- The record of a variant at the start of a string of bytes. -/
def machineDecode (variant : Variant) (bytes : Bytes) :
    Option (Except DecodeError (Decoded Record)) :=
  (machineDecoder variant (Buffer.ofBytes bytes)).map Prod.fst

theorem realises_machineDecoder (variant : Variant) (s : Buffer) :
    (machineDecoder variant).Realises s (decoder variant) := by
  rw [machineDecoder, decoder]
  split
  · exact realises_cardMachineDecoder variant s
  · exact realises_headedMachineDecoder variant s

theorem machineDecode_eq (variant : Variant) (bytes : Bytes) :
    machineDecode variant bytes = some (decode variant bytes) := by
  rw [machineDecode, realises_machineDecoder variant (Buffer.ofBytes bytes)]
  rfl

/-- **Numbers never wrap.** A machine that reads whatever bytes has an answer to every operation on
the way, and comes to the answer of the decoder. In the loop over the records of a block, whatever
stands there, what is left is always the length of the block without the lengths of the records
pushed, and the loop ends. And every length of a record that was read, whole or not, and of those
that conversions and selections build from it, is computed within 32 bits. -/
theorem numbers_never_wrap (variant : Variant) (bytes : Bytes) :
    machineDecode variant bytes = some (decode variant bytes) ∧
      (∀ view blockLength s, BlockLoop.Sound variant view blockLength s) ∧
      ∀ d, decode variant bytes = .ok d → ∀ r, d.value.BuiltFrom r → r.LengthsFit :=
  ⟨machineDecode_eq variant bytes, BlockLoop.sound variant,
    fun _ hd _ hr => (hr.announceable (announceable_of_decode hd)).lengthsFit⟩

/-- The bytes of an ISO record of one view. In its block there are ridge counts and data of a type
that is not read here. -/
def twoDataBytes : Bytes :=
  [0x46, 0x4d, 0x52, 0, 0x20, 0x32, 0x30, 0, 0, 0, 0, 44, 0, 0, 1, 0, 1, 0, 0, 197, 0, 197, 1, 0,
    1, 0, 80, 0, 0, 14, 0, 1, 0, 8, 1, 1, 2, 3, 0, 9, 0, 6, 5, 5]

theorem numbers_never_wrap_twoDataBytes :
    (∃ r c, machineDecode .iso twoDataBytes = some (.ok (.complete r)) ∧
        r.computedLength? = some 44 ∧ r.convert .ansi none = .ok c ∧
        c.computedLength? = some 32) ∧
      ∃ state, BlockLoop.Reached .iso 0 14 ⟨twoDataBytes.drop 30, 30⟩ state ∧
        state.1.remaining = 6 ∧ state.1.records.length = 1 ∧ state.1.Counts 14 ∧
        ∃ answer, state.1.round .iso 0 state.2 = some answer := by
  obtain ⟨hmachine, hloop, hlengths⟩ := numbers_never_wrap .iso twoDataBytes
  constructor
  · have hcheck : (whole? (decode .iso twoDataBytes)).any (fun r => r.computedLength == 44 &&
        (r.convert .ansi none).toOption.any fun c => c.computedLength == 32) = true := by
      decide +kernel
    obtain ⟨r, hr, hcheck⟩ := Option.any_eq_true _ _ |>.mp hcheck
    rw [whole?_eq_some_iff] at hr
    obtain ⟨hlength, hcheck⟩ := Bool.and_eq_true_iff.mp hcheck
    have hfits := (hlengths _ hr r .refl).computed
    rw [eq_of_beq hlength] at hfits
    rw [hr] at hmachine
    cases hc : r.convert .ansi none with
    | error e =>
      rw [hc] at hcheck
      cases hcheck
    | ok c =>
      rw [hc] at hcheck
      have hcfits := (hlengths _ hr c (.convert .refl hc)).computed
      rw [eq_of_beq (b := 32) hcheck] at hcfits
      exact ⟨r, c, hmachine, hfits, hc, hcfits⟩
  · have hround : ∃ state, BlockLoop.Next .iso 0
        (.start 14, ⟨twoDataBytes.drop 30, 30⟩) state ∧ state.1.remaining = 6 ∧
        state.1.records.length = 1 := ⟨(_, _), by rfl, by rfl, by rfl⟩
    obtain ⟨state, hnext, hremaining, hlength⟩ := hround
    have hreached : BlockLoop.Reached .iso 0 14 ⟨twoDataBytes.drop 30, 30⟩ state := .single hnext
    have hsound := hloop 0 14 ⟨twoDataBytes.drop 30, 30⟩
    exact ⟨state, hreached, hremaining, hlength, hsound.counts state hreached,
      hsound.answers state hreached⟩

end Record

end FingerMinutiae
