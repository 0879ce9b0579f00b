import FingerMinutiae.Proofs.Decoding.RecordStreams
import FingerMinutiae.Proofs.Decoding.Sources
import FingerMinutiae.Proofs.Stream.Failing

/-!
# Decoding from a reader that fails

A failure and the end of the stream come from the reader in the same calls, and both stop the
decoder wherever it is. They must not be confused: a record that the stream ends in is given as far
as it was read, and a record that a failure ends in is not given at all.

What decoding from a failing reader gives is told here from the bytes before the failure. For a
record with a header nothing changes if these bytes decide what it is. A card goes to the end of the
stream, which never comes, so a failing reader gives no card; only that there are too many minutiae
shows before the failure does. In a stream of records the failure takes the place of the end.

## Main definitions

* `RecordItem.untilFailure`: what a failure makes of the items of a stream.

## Main results

* `Reader.FailsBehind.run_decoder`, `Reader.FailsBehind.run_decoder_of_isCard`: one record.
* `Reader.FailsBehind.answer_eq_of_itemsFrom`: a stream of records.
* `Reader.failure_is_not_the_end`: all of these from the first byte on.
-/

namespace FingerMinutiae

open Decoder

/-- Bytes that begin at the first offset fail as they are. -/
theorem DecodeError.mapError_shift_zero {α : Type} (x : Except DecodeError α) :
    x.mapError (shift 0) = x := by
  rcases x with (e | ⟨inner, place, defect⟩) | a
  · rfl
  · show Except.error (malformed (0 + inner) place defect) = _
    rw [Nat.zero_add]
  · rfl

/-- Reading bytes in memory does not fail; it can only come to a defect. -/
theorem Decoder.run_ne_read {α : Type} (d : Decoder α) (b : Buffer) (e : ReadError) :
    (d.run b).1 ≠ .error (.read e) := by
  induction d generalizing b with
  | done => exact nofun
  | malformed => exact nofun
  | take n next ih => exact ih (b.take n).1 (b.take n).2
  | atEnd next ih => exact ih b.rest.isEmpty b

/-- Decoding takes no more bytes than there are. -/
theorem Record.consumed_le_length (variant : Variant) (bytes : Bytes) :
    consumed variant bytes ≤ bytes.length := by
  obtain ⟨front, hrest, hoffset⟩ := (decoder variant).exists_append_of_run (Buffer.ofBytes bytes)
  have hlength : bytes.length = _ := congrArg List.length hrest
  rw [List.length_append] at hlength
  rw [consumed, hoffset, hlength]
  show 0 + front.length ≤ _
  omega

/-- The items of a stream when the reader fails where the bytes end. Whole records are the same; the
failure comes in place of a record that was cut short, and behind the last record when none was. A
malformed record is the last item in any case. -/
def RecordItem.untilFailure (failure : DecodeError) : List RecordItem → List RecordItem
  | .ok (.complete r) :: items => .ok (.complete r) :: untilFailure failure items
  | .error e :: _ => [.error e]
  | .ok (.incomplete _) :: _ => [.error failure]
  | [] => [.error failure]

/-! ### Calls for the next record -/

namespace Records

variable {σ : Type} [Source σ] {rs rs' : Records σ} {item : RecordItem}

/-- The calls behind one that gave an item. -/
theorem answer_cons {items : List RecordItem} (h : rs.next? = (some item, rs'))
    (hrest : ∀ k, answer k rs' = items[k]?) (k : Nat) : answer k rs = (item :: items)[k]? := by
  cases k with
  | zero => rw [answer, h]; rfl
  | succ k => rw [answer, h]; exact hrest k

/-- An item that finishes the stream is the only one. -/
theorem answer_of_last (h : rs.next? = (some item, rs')) (hfinished : rs'.finished = true)
    (k : Nat) : answer k rs = [item][k]? :=
  answer_cons h (fun k => answer_of_finished k hfinished) k

end Records

namespace Reader

variable {message : String} {r : Reader} {variant : Variant}

/-! ### One record -/

/-- **Records with a header.** Either the bytes before the failure are cut short, and the reader
fails, or they are not, and it makes no difference that there is a failure behind them. -/
theorem FailsBehind.run_decoder (hheader : variant.hasHeader = true) {rest : Bytes} {offset : Nat}
    (h : FailsBehind message r (Buffer.mk rest offset)) :
    ((∃ p, Record.decode variant rest = .ok (.incomplete p)) ∧
        ((Record.decoder variant).run r).1 = .error (.read (.io message))) ∨
      ((∀ p, Record.decode variant rest ≠ .ok (.incomplete p)) ∧
        ((Record.decoder variant).run r).1
          = (Record.decode variant rest).mapError (DecodeError.shift offset) ∧
        FailsBehind message ((Record.decoder variant).run r).2
          (Buffer.mk (rest.drop (Record.consumed variant rest))
            (offset + Record.consumed variant rest))) := by
  have hreads := Record.reads_headedDecoder variant
  have hlimited := Record.limitedTo_decoder variant
  have hbuffer := Record.run_decoder_at hheader rest offset
  rw [Record.decoder_of_hasHeader hheader] at hlimited hbuffer ⊢
  rcases Ensures.exists_ends hreads rest with
    ⟨front, back, d, rfl, hends⟩ | ⟨front, back, behind, place, defect, rfl, hends⟩ | ⟨d, hends⟩
  · obtain ⟨hanswer, hafter⟩ := h.run_eq_of_ends hlimited hends nofun
    rw [hbuffer] at hanswer hafter
    refine .inr ⟨?_, hanswer, hafter⟩
    intro p hp
    rw [Record.decode_append_of_ends_value hheader hends] at hp
    cases hp
    exact hreads.of_ends_value hends
  · obtain ⟨hanswer, hafter⟩ := h.run_eq_of_ends hlimited hends nofun
    rw [hbuffer] at hanswer hafter
    refine .inr ⟨?_, hanswer, hafter⟩
    intro p hp
    rw [Record.decode_append_of_ends_defect hheader hends] at hp
    cases hp
  · refine .inl ⟨?_, h.run_of_ends_short hlimited hends⟩
    rcases d with d | p
    · exact (hreads.of_ends_short hends).elim
    · exact ⟨p, Record.decode_of_ends_short hheader hends⟩

/-- The reader fails exactly if the bytes before the failure are cut short. -/
theorem FailsBehind.run_decoder_eq_io_iff (hheader : variant.hasHeader = true) {rest : Bytes}
    {offset : Nat} (h : FailsBehind message r (Buffer.mk rest offset)) :
    ((Record.decoder variant).run r).1 = .error (.read (.io message)) ↔
      ∃ p, Record.decode variant rest = .ok (.incomplete p) := by
  rcases h.run_decoder hheader with ⟨hshort, hrun⟩ | ⟨hnot, hrun, -⟩
  · exact iff_of_true hrun hshort
  · refine iff_of_false (fun hfail => ?_) fun ⟨p, hp⟩ => hnot p hp
    have hnoRead := (Record.decoder variant).run_ne_read (Buffer.ofBytes rest)
    change ∀ e, Record.decode variant rest ≠ .error (.read e) at hnoRead
    rw [hfail] at hrun
    rcases hdecode : Record.decode variant rest with (e | ⟨inner, place, defect⟩) | d
    · exact hnoRead e hdecode
    · rw [hdecode] at hrun
      cases hrun
    · rw [hdecode] at hrun
      cases hrun

/-- What a reader that keeps no byte back has not handed out. -/
theorem FailsBehind.pending_eq {b : Buffer} (h : FailsBehind message r b)
    (hpeeked : r.peeked = none) : r.feed.pending = b.rest := by
  have hrest : b.rest = r.peeked.toList ++ r.feed.pending := h.represents.rest
  rw [hrest, hpeeked]
  rfl

/-- Minutiae to the end of the stream: the failure comes before the end does. -/
theorem FailsBehind.run_cardMinutiaeDecoder {layout : Layout Minutia}
    (hmax : layout.width ≤ maxReservation) (room : Nat) (got : List Minutia) {b : Buffer}
    (h : FailsBehind message r b) :
    ((Record.cardMinutiaeDecoder layout room got).run r).1 = .error
      (if b.rest.length ≤ room * layout.width then .read (.io message)
        else .malformed (b.offset + room * layout.width) (.view 0) .tooManyMinutiae) := by
  induction room generalizing got r b with
  | zero =>
    rw [Record.cardMinutiaeDecoder, Nat.zero_mul, Nat.add_zero]
    by_cases hb : b.rest = []
    · rw [h.run_atEnd_of_nil _ hb, hb]
      rfl
    · obtain ⟨r', hrun, hr'⟩ := h.run_atEnd _ hb
      have hpos := List.length_pos_iff.mpr hb
      rw [hrun, if_neg (Nat.not_le_of_lt hpos), ← hr'.represents.offset]
      rfl
  | succ room ih =>
    rw [Record.cardMinutiaeDecoder, Nat.succ_mul]
    by_cases hb : b.rest = []
    · rw [h.run_atEnd_of_nil _ hb, hb]
      exact congrArg Except.error (if_pos (Nat.zero_le _)).symm
    · obtain ⟨r', hrun, hr'⟩ := h.run_atEnd _ hb
      rw [hrun]
      rcases Nat.lt_or_ge b.rest.length layout.width with hlt | hge
      · rw [if_pos (Nat.le_trans (Nat.le_of_lt hlt) (Nat.le_add_left _ _))]
        exact hr'.run_take_of_lt _ hmax hlt
      · have hpiece : (b.rest.take layout.width).length = layout.width :=
          List.length_take_of_le hge
        have hsplit : b = ⟨b.rest.take layout.width ++ b.rest.drop layout.width, b.offset⟩ := by
          rw [List.take_append_drop]
        rw [hsplit] at hr'
        obtain ⟨r'', hrun', hr''⟩ := hr'.run_take_append
          (fun answer => (done (answer.map layout.parse)).bind _) hmax hpiece
        refine (congrArg Prod.fst hrun').trans ((ih _ hr'').trans ?_)
        have hiff : (b.rest.drop layout.width).length ≤ room * layout.width ↔
            b.rest.length ≤ room * layout.width + layout.width := by
          rw [List.length_drop]
          omega
        simp only [hiff, Nat.add_assoc, Nat.add_comm layout.width]

/-- **Cards.** A failing reader gives no card. -/
theorem FailsBehind.run_decoder_of_isCard (hcard : variant.isCard = true) {b : Buffer}
    (h : FailsBehind message r b) :
    ((Record.decoder variant).run r).1 = .error
      (if b.rest.length ≤ 255 * variant.minutiaLength then .read (.io message)
        else .malformed (b.offset + 255 * variant.minutiaLength) (.view 0) .tooManyMinutiae) := by
  have hminutiae := h.run_cardMinutiaeDecoder (short_minutia variant).reservable 255 []
  rw [Layout.width_minutia] at hminutiae
  rw [Record.decoder, if_pos hcard, Record.cardDecoder]
  refine (congrArg Prod.fst
    (run_bind (Record.cardMinutiaeDecoder (Layout.minutia variant) 255 []) _ _)).trans ?_
  rcases hrun : (Record.cardMinutiaeDecoder (Layout.minutia variant) 255 []).run r with ⟨answer, r'⟩
  rw [hrun] at hminutiae
  subst hminutiae
  rfl

/-! ### Streams of records -/

/-- Where the bytes end the failure comes, and it is the last item. -/
theorem FailsBehind.answer_of_nil {b : Buffer} (h : FailsBehind message r b) (hb : b.rest = [])
    (k : Nat) : Records.answer k ⟨r, variant, false⟩ = [.error (.read (.io message))][k]? := by
  have hend : Source.atEnd r = (.error (.io message), r.atEnd.2) :=
    Prod.ext (h.atEnd_of_nil hb) rfl
  have hnext : Records.next? ⟨r, variant, false⟩
      = (some (.error (.read (.io message))), ⟨r.atEnd.2, variant, true⟩) := by
    rw [Records.next?, hend]
    rfl
  exact Records.answer_of_last hnext rfl k

/-- Before that, the next item is what the decoder gives. -/
theorem FailsBehind.exists_next? {b : Buffer} (h : FailsBehind message r b) (hb : b.rest ≠ []) :
    ∃ r', FailsBehind message r' b ∧ Records.next? ⟨r, variant, false⟩
      = (some ((Record.decoder variant).run r').1,
          ⟨((Record.decoder variant).run r').2, variant,
            !RecordItem.goesOn variant ((Record.decoder variant).run r').1⟩) := by
  obtain ⟨hanswer, hafter⟩ := h.atEnd hb
  have hend : Source.atEnd r = (.ok false, r.atEnd.2) := Prod.ext hanswer rfl
  refine ⟨r.atEnd.2, hafter, ?_⟩
  rw [Records.next?, hend]
  rfl

/-- **Streams of cards.** The first item is the failure, or that there are too many minutiae, and
it is the last one. -/
theorem FailsBehind.answer_of_isCard (hcard : variant.isCard = true) {b : Buffer}
    (h : FailsBehind message r b) (k : Nat) :
    Records.answer k ⟨r, variant, false⟩ = [((Record.decoder variant).run r).1][k]? := by
  have hrun := h.run_decoder_of_isCard hcard
  by_cases hb : b.rest = []
  · have hfew : b.rest.length ≤ 255 * variant.minutiaLength := by
      rw [hb]
      exact Nat.zero_le _
    rw [hrun, if_pos hfew]
    exact h.answer_of_nil hb k
  · obtain ⟨r', hr', hnext⟩ := h.exists_next? hb
    have hrun' := hr'.run_decoder_of_isCard hcard
    rw [hrun'] at hnext
    rw [hrun]
    exact Records.answer_of_last hnext rfl k

/-- **Streams of records.** The items are those of the bytes before the failure, up to where that
comes. -/
theorem FailsBehind.answer_eq_of_itemsFrom (hheader : variant.hasHeader = true) {bytes : Bytes}
    {offset : Nat} {items : List RecordItem} (hitems : Record.ItemsFrom variant bytes offset items)
    (h : FailsBehind message r (Buffer.mk (bytes.drop offset) offset)) (k : Nat) :
    Records.answer k ⟨r, variant, false⟩
      = (RecordItem.untilFailure (.read (.io message)) items)[k]? := by
  have hleft : ∀ {offset}, offset < bytes.length → bytes.drop offset ≠ [] := by
    intro offset hlt
    rw [Ne, List.drop_eq_nil_iff]
    exact Nat.not_le_of_lt hlt
  induction hitems generalizing r k with
  | atEnd => exact h.answer_of_nil (List.drop_of_length_le (Nat.le_refl _)) k
  | @whole offset record items lt decoded more ih =>
    obtain ⟨r', hr', hnext⟩ := h.exists_next? (hleft lt)
    rcases hr'.run_decoder hheader with ⟨⟨p, hp⟩, -⟩ | ⟨-, hrun, hafter⟩
    · rw [decoded] at hp
      cases hp
    · rw [decoded] at hrun
      rw [hrun] at hnext
      rw [List.drop_drop] at hafter
      have hgoesOn : (!RecordItem.goesOn variant (.ok (.complete record))) = false := by
        show (!variant.hasHeader) = false
        rw [hheader]
        rfl
      refine Records.answer_cons hnext (fun k => ?_) k
      show Records.answer k ⟨_, variant, !RecordItem.goesOn variant (.ok (.complete record))⟩ = _
      rw [hgoesOn]
      exact ih hafter k
  | @last offset lt decoded =>
    obtain ⟨r', hr', hnext⟩ := h.exists_next? (hleft lt)
    rcases hr'.run_decoder hheader with ⟨⟨p, hp⟩, hrun⟩ | ⟨hnot, hrun, -⟩
    · rw [hrun] at hnext
      rw [hp]
      exact Records.answer_of_last hnext rfl k
    · rcases hdecode : Record.decode variant (bytes.drop offset) with e | record | p
      · rw [hdecode] at hrun
        rw [hrun] at hnext
        exact Records.answer_of_last hnext rfl k
      · exact absurd hdecode (decoded record)
      · exact absurd hdecode (hnot p)

/-- **A failure is not taken for the end.** Let a reader hand out some bytes, however it does, and
then fail. A record with a header is not given exactly if the bytes are cut short, and otherwise it
is what the bytes alone give, without a call that fails. A card is not given, since it goes to the
end of the stream. A stream of records is that of the bytes, with the failure in place of its
end. -/
theorem failure_is_not_the_end (bytes : Bytes) (turns : List Turn) (message : String)
    (variant : Variant) :
    let reader := ofFeed { pending := bytes, failure := some message, turns }
    let run := (Record.decoder variant).run reader
    (variant.hasHeader = true →
      (run.1 = .error (.read (.io message)) ↔
          ∃ p, Record.decode variant bytes = .ok (.incomplete p)) ∧
        ((∀ p, Record.decode variant bytes ≠ .ok (.incomplete p)) →
          run.1 = Record.decode variant bytes ∧ (∀ e, run.1 ≠ .error (.read e)) ∧
            run.2.offset = Record.consumed variant bytes ∧
            Record.consumed variant bytes ≤ bytes.length ∧
            run.2.feed.pending = bytes.drop (Record.consumed variant bytes)) ∧
        ∀ k, Records.answer k ⟨reader, variant, false⟩
          = (RecordItem.untilFailure (.read (.io message)) (Record.decodeAll variant bytes))[k]?) ∧
      (variant.isCard = true →
        run.1 = .error (if bytes.length ≤ 255 * variant.minutiaLength then .read (.io message)
            else .malformed (255 * variant.minutiaLength) (.view 0) .tooManyMinutiae) ∧
          ∀ k, Records.answer k ⟨reader, variant, false⟩ = [run.1][k]?) := by
  intro reader run
  have hstart : FailsBehind message reader (Buffer.mk bytes 0) :=
    failsBehind_ofFeed message bytes turns
  refine ⟨fun hheader => ?_, fun hcard => ?_⟩
  · have hitems : Record.ItemsFrom variant bytes 0 (Record.decodeAll variant bytes) :=
      (Record.itemsFrom_zero_iff hheader).mpr rfl
    have hpeeked : run.2.peeked = none := by
      show ((Record.decoder variant).run reader).2.peeked = none
      rw [Record.decoder_of_hasHeader hheader]
      exact peeked_run (Record.limitedTo_headedDecoder variant) rfl
    have hruns := hstart.run_decoder hheader
    rw [DecodeError.mapError_shift_zero] at hruns
    refine ⟨hstart.run_decoder_eq_io_iff hheader, ?_,
      hstart.answer_eq_of_itemsFrom hheader hitems⟩
    intro hnot
    rcases hruns with ⟨⟨p, hp⟩, -⟩ | ⟨-, hrun, hafter⟩
    · exact absurd hp (hnot p)
    · have hoffset : run.2.offset = 0 + Record.consumed variant bytes := hafter.represents.offset
      refine ⟨hrun, ?_, hoffset.trans (Nat.zero_add _), ?_, hafter.pending_eq hpeeked⟩
      · intro e he
        exact (Record.decoder variant).run_ne_read (Buffer.ofBytes bytes) e (hrun.symm.trans he)
      · exact Record.consumed_le_length variant bytes
  · have hrun := hstart.run_decoder_of_isCard hcard
    rw [Nat.zero_add] at hrun
    exact ⟨hrun, hstart.answer_of_isCard hcard⟩

/-- A reader that fails within the second record of a stream gives the first one, and takes nothing
behind it. The same bytes are short enough for a card, and give none. -/
theorem failure_is_not_the_end_viewlessBytes :
    let reader := ofFeed
      { pending := viewlessBytes, failure := some "reset", turns := [.atMost 2, .interrupted] }
    (∃ r, ((Record.decoder .iso).run reader).1 = .ok (.complete r) ∧
        ((Record.decoder .iso).run reader).2.feed.pending = [7, 9] ∧
        Records.answer 0 ⟨reader, .iso, false⟩ = some (.ok (.complete r)) ∧
        Records.answer 1 ⟨reader, .iso, false⟩ = some (.error (.read (.io "reset"))) ∧
        Records.answer 2 ⟨reader, .iso, false⟩ = none) ∧
      ((Record.decoder .isoNormalCard).run reader).1 = .error (.read (.io "reset")) := by
  intro reader
  have hwhole : (Record.whole? (Record.decode .iso viewlessBytes)).isSome = true := by decide
  have hshort : (Record.short? (Record.decode .iso [7, 9])).isSome = true := by decide
  have hconsumed : Record.consumed .iso viewlessBytes = 24 := by decide
  obtain ⟨r, hr⟩ := Option.isSome_iff_exists.mp hwhole
  obtain ⟨p, hp⟩ := Option.isSome_iff_exists.mp hshort
  rw [Record.whole?_eq_some_iff] at hr
  rw [Record.short?_eq_some_iff] at hp
  have hlast : ∀ r, Record.decode .iso (viewlessBytes.drop 24) ≠ .ok (.complete r) := by
    intro r' hr'
    cases hp.symm.trans hr'
  have hsecond : Record.ItemsFrom .iso viewlessBytes
      (0 + Record.consumed .iso (viewlessBytes.drop 0)) [.ok (.incomplete p)] := by
    rw [List.drop_zero, hconsumed]
    have hitem : Record.ItemsFrom .iso viewlessBytes 24
        [(Record.decode .iso [7, 9]).mapError (DecodeError.shift 24)] := .last (by decide) hlast
    rwa [hp] at hitem
  have hitems : Record.ItemsFrom .iso viewlessBytes 0
      [.ok (.complete r), .ok (.incomplete p)] := .whole (by decide) hr hsecond
  have hdecodeAll := (Record.itemsFrom_zero_iff rfl).mp hitems
  obtain ⟨hheaded, -⟩ := failure_is_not_the_end viewlessBytes [.atMost 2, .interrupted] "reset" .iso
  obtain ⟨-, hcard⟩ := failure_is_not_the_end viewlessBytes [.atMost 2, .interrupted] "reset"
    .isoNormalCard
  obtain ⟨-, henough, hanswers⟩ := hheaded rfl
  obtain ⟨hrun, -, -, -, hpending⟩ := henough (fun p hp => by cases hr.symm.trans hp)
  rw [hconsumed] at hpending
  rw [← hdecodeAll] at hanswers
  exact ⟨⟨r, hrun.trans hr, hpending, hanswers 0, hanswers 1, hanswers 2⟩, (hcard rfl).1⟩

end Reader

end FingerMinutiae
