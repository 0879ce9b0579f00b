import FingerMinutiae.Proofs.Decoding.Requests

/-!
# Decoding from a reader

A reader hands its bytes out as it likes, and decoding from it gives what decoding the same bytes in
memory gives. Two things make it so. The two sources answer every reservable request alike, and no
decoder makes another.

A source over a reader may hold a byte that the reader has handed out and that was not taken. A
record with a header announces its end, so nobody looks for the end of the stream while it is read,
and no byte behind the record is asked of the reader.

## Main results

* `Reader.answers_like_buffer`: requests, records and streams of records over a reader.
-/

namespace FingerMinutiae

open Source

namespace Reader

/-- A read leaves no byte kept back. -/
theorem peeked_take {r : Reader} (h : r.peeked = none) (n : Nat) : (r.take n).2.peeked = none := by
  rw [take]
  split
  · exact h
  · split
    · exact h
    · dsimp only
      split
      · rfl
      · rfl

/-- A decoder that only takes leaves no byte kept back. -/
theorem peeked_run {α : Type} {d : Decoder α} (hd : d.LimitedTo Request.Short True) {r : Reader}
    (h : r.peeked = none) : (d.run r).2.peeked = none := by
  induction d generalizing r with
  | done => exact h
  | malformed => exact h
  | atEnd => exact hd.1.elim
  | take n next ih =>
    have hafter := peeked_take h n
    show (Decoder.run (.take n next) r).2.peeked = none
    rw [Decoder.run]
    rcases htake : Source.take r n with ⟨answer, r'⟩
    replace hafter : r'.peeked = none := by
      rw [← hafter]
      exact congrArg (fun x => x.2.peeked) htake.symm
    cases answer with
    | error e => exact hafter
    | ok portion => exact ih portion (hd.2 portion) hafter

/-- What was not handed out when a whole record with a header has been read is what stands behind
the record. -/
theorem exists_append_pending {variant : Variant} (hheader : variant.hasHeader = true)
    {bytes : Bytes} (turns : List Turn) {r : Record}
    (h : Record.decode variant bytes = .ok (.complete r)) :
    ∃ front, bytes = front ++ ((Record.decoder variant).run
        (ofFeed { pending := bytes, turns })).2.feed.pending ∧
      front.length = Record.consumed variant bytes ∧ Record.HeadedRead variant front r := by
  obtain ⟨front, rest, hbytes, hconsumed, hread⟩ := Record.exists_headedRead_of_decode hheader h
  obtain ⟨-, hafter⟩ := simulation.run_eq (represents_ofFeed bytes turns)
    (Record.limitedTo_decoder variant)
  have hpeeked : ((Record.decoder variant).run (ofFeed { pending := bytes, turns })).2.peeked
      = none := by
    rw [Record.decoder_of_hasHeader hheader]
    exact peeked_run (Record.limitedTo_headedDecoder variant) rfl
  obtain ⟨front', hfront', hoffset⟩ := (Record.decoder variant).exists_append_of_run
    (Buffer.ofBytes bytes)
  have hrest := hafter.rest
  rw [hpeeked, Option.toList_none, List.nil_append] at hrest
  rw [hrest] at hfront'
  have hlength : front'.length = front.length := by
    rw [← hconsumed, Record.consumed, hoffset]
    exact (Nat.zero_add _).symm
  obtain ⟨rfl, -⟩ := List.append_inj (hfront'.symm.trans hbytes) hlength
  exact ⟨front', hfront', hconsumed.symm, hread⟩

/-- **A reader answers like a buffer.** However a reader hands out its bytes and is interrupted, a
source over it answers all requests that are reservable as the bytes in memory do and is at the same
offset after each. So decoding gives the same, and so does every call for the next record. A whole
record with a header is read without asking the reader for any byte behind it. -/
theorem answers_like_buffer (bytes : Bytes) (turns : List Turn) :
    (∀ requests : List Request, (∀ q ∈ requests, q.Reservable) →
      replies (ofFeed { pending := bytes, turns }) requests
        = replies (Buffer.ofBytes bytes) requests) ∧
    ∀ variant : Variant,
      ((Record.decoder variant).run (ofFeed { pending := bytes, turns })).1
          = Record.decode variant bytes ∧
        (∀ k, Records.answer k ⟨ofFeed { pending := bytes, turns }, variant, false⟩
          = Records.answer k ⟨Buffer.ofBytes bytes, variant, false⟩) ∧
        (variant.hasHeader = true → ∀ r, Record.decode variant bytes = .ok (.complete r) →
          ∃ front, bytes = front ++ ((Record.decoder variant).run
              (ofFeed { pending := bytes, turns })).2.feed.pending ∧
            front.length = Record.consumed variant bytes ∧ Record.HeadedRead variant front r) := by
  have hstart := represents_ofFeed bytes turns
  refine ⟨fun requests => simulation.replies_eq hstart, fun variant => ⟨?_, ?_, ?_⟩⟩
  · exact (simulation.run_eq hstart (Record.limitedTo_decoder variant)).1
  · exact simulation.answer_eq hstart (Record.limitedTo_decoder variant) false
  · intro hheader r h
    exact exists_append_pending hheader turns h

/-- The bytes of an ISO record without views, and two bytes that are not part of the record. -/
def viewlessBytes : Bytes :=
  [0x46, 0x4d, 0x52, 0, 0x20, 0x32, 0x30, 0, 0, 0, 0, 24, 0, 0, 1, 0, 1, 0, 0, 197, 0, 197, 0, 0,
    7, 9]

theorem answers_like_buffer_viewlessBytes :
    replies (ofFeed
        { pending := viewlessBytes, turns := [.interrupted, .atMost 0, .interrupted, .atMost 3] })
        [.atEnd, .take 6, .take 0, .atEnd, .take 40, .atEnd, .take 1]
      = replies (Buffer.ofBytes viewlessBytes)
        [.atEnd, .take 6, .take 0, .atEnd, .take 40, .atEnd, .take 1] ∧
    ∃ r front, Record.decode .iso viewlessBytes = .ok (.complete r) ∧
      viewlessBytes = front ++ ((Record.decoder .iso).run (ofFeed
        { pending := viewlessBytes, turns := [.atMost 2, .interrupted] })).2.feed.pending ∧
      front.length = 24 := by
  constructor
  · exact (answers_like_buffer viewlessBytes _).1 _ (by decide)
  · have hwhole : (Record.whole? (Record.decode .iso viewlessBytes)).isSome = true := by
      decide
    have hconsumed : Record.consumed .iso viewlessBytes = 24 := by decide
    obtain ⟨r, hr⟩ := Option.isSome_iff_exists.mp hwhole
    rw [Record.whole?_eq_some_iff] at hr
    obtain ⟨front, hfront, hlength, -⟩ :=
      ((answers_like_buffer viewlessBytes [.atMost 2, .interrupted]).2 .iso).2.2 rfl r hr
    exact ⟨r, front, hr, hfront, hlength.trans hconsumed⟩

end Reader

end FingerMinutiae
