import FingerMinutiae.Proofs.Decoding.Ending
import FingerMinutiae.Proofs.Stream.Simulation

/-!
# Readers that fail

A reader may fail before the stream has come to its end. As long as the bytes that it handed out
before suffice, nothing can be told of the failure: such a reader goes the same way as one that
does not fail. When they do not suffice, a request is answered by the failure, where bytes in memory
would have answered that the stream is over.

So a run over a failing reader is the run over the bytes before the failure, if that one comes to a
value or to a defect, and it fails if that one is cut short. No byte of what was cut short comes out
of it.

## Main definitions

* `Reader.unfailing`: the reader, without its failure.
* `Reader.FailsBehind`: a reader that has the bytes of a buffer and fails behind them.

## Main results

* `Reader.FailsBehind.run_eq_of_ends`: a run that the bytes suffice for.
* `Reader.FailsBehind.run_of_ends_short`: a run that they do not suffice for.
-/

namespace FingerMinutiae

/-! ### Calls -/

namespace Feed

variable {message : String}

/-- Calls for no more bytes than there are go the same way whether or not a failure follows. -/
theorem fillFrom_some_of_le {wanted : Nat} {pending : Bytes} (turns : List Turn)
    (h : wanted ≤ pending.length) :
    fillFrom (some message) wanted pending turns = fillFrom none wanted pending turns := by
  induction turns generalizing wanted pending with
  | nil =>
    rw [fillFrom, fillFrom]
    exact if_neg (by rw [List.length_take_of_le h]; exact Nat.lt_irrefl wanted)
  | cons turn turns ih =>
    by_cases hwanted : wanted = 0
    · subst hwanted
      cases turn <;> rfl
    · cases turn with
      | interrupted => rw [fillFrom, fillFrom, if_neg hwanted, if_neg hwanted, ih h]
      | atMost more =>
        cases pending with
        | nil => exact absurd (Nat.le_zero.mp h) hwanted
        | cons b bs =>
          rw [fillFrom, fillFrom, if_neg hwanted, if_neg hwanted]
          dsimp only
          rw [ih]
          rw [List.length_drop]
          exact Nat.sub_le_sub_right h _

/-- Calls for more bytes than there are fail, whichever way they go. -/
theorem fillFrom_some_of_lt {wanted : Nat} {pending : Bytes} (turns : List Turn)
    (h : pending.length < wanted) :
    ∃ left, fillFrom (some message) wanted pending turns = (.error message, [], left) := by
  induction turns generalizing wanted pending with
  | nil =>
    refine ⟨[], ?_⟩
    rw [fillFrom]
    exact if_pos (by rw [List.length_take]; omega)
  | cons turn turns ih =>
    have hwanted : wanted ≠ 0 := Nat.ne_zero_of_lt h
    cases turn with
    | interrupted =>
      obtain ⟨left, hleft⟩ := ih h
      exact ⟨left, by rw [fillFrom, if_neg hwanted, hleft]⟩
    | atMost more =>
      cases pending with
      | nil => exact ⟨turns, by rw [fillFrom, if_neg hwanted]⟩
      | cons b bs =>
        -- What a call has handed out is lost when a later one fails.
        generalize hgot : ((b :: bs).take (min wanted (more + 1))).length = got
        have hfew : ((b :: bs).drop got).length < wanted - got := by
          rw [List.length_take] at hgot
          rw [List.length_drop]
          omega
        obtain ⟨left, hleft⟩ := ih hfew
        refine ⟨left, ?_⟩
        rw [fillFrom, if_neg hwanted]
        dsimp only
        rw [hgot, hleft]
        rfl

end Feed

/-! ### Requests -/

namespace Reader

variable {message : String} {r : Reader} {b : Buffer}

/-- The reader without its failure: the stream is over where it would have failed. -/
def unfailing (r : Reader) : Reader :=
  { r with feed := { r.feed with failure := none } }

/-- The reader has the bytes of the buffer still to give, and then it fails. -/
structure FailsBehind (message : String) (r : Reader) (b : Buffer) : Prop where
  failure : r.feed.failure = some message
  represents : r.unfailing.Represents b

theorem failsBehind_ofFeed (message : String) (bytes : Bytes) (turns : List Turn) :
    FailsBehind message (ofFeed { pending := bytes, failure := some message, turns })
      (Buffer.ofBytes bytes) :=
  ⟨rfl, represents_ofFeed bytes turns⟩

/-- The bytes that are left of the reader are those of the buffer. -/
theorem FailsBehind.length_rest (h : FailsBehind message r b) :
    b.rest.length = r.peeked.toList.length + r.feed.pending.length := by
  rw [h.represents.rest, List.length_append]
  rfl

/-- A read that the bytes suffice for is that of the reader without its failure. -/
theorem FailsBehind.take_unfailing (h : FailsBehind message r b) {n : Nat}
    (hn : n ≤ b.rest.length) :
    (r.take n).1 = (r.unfailing.take n).1 ∧ (r.take n).2.unfailing = (r.unfailing.take n).2 ∧
      (r.take n).2.feed.failure = some message := by
  have henough : n - r.peeked.toList.length ≤ r.feed.pending.length := by
    rw [h.length_rest] at hn
    omega
  have hfill : Feed.fillFrom r.feed.failure (n - r.peeked.toList.length) r.feed.pending r.feed.turns
      = Feed.fillFrom none (n - r.peeked.toList.length) r.feed.pending r.feed.turns := by
    rw [h.failure]
    exact Feed.fillFrom_some_of_le _ henough
  have hfailure := h.failure
  rw [take, take]
  split
  · exact ⟨rfl, rfl, hfailure⟩
  · split
    · exact ⟨rfl, rfl, hfailure⟩
    · dsimp only [unfailing, Feed.fill]
      rw [hfill]
      split
      · exact ⟨rfl, rfl, hfailure⟩
      · exact ⟨rfl, rfl, hfailure⟩

/-- A read that the bytes suffice for is that of the buffer. -/
theorem FailsBehind.take (h : FailsBehind message r b) {n : Nat} (hmax : n ≤ maxReservation)
    (hn : n ≤ b.rest.length) :
    (r.take n).1 = .ok (b.take n).1 ∧ FailsBehind message (r.take n).2 (b.take n).2 := by
  obtain ⟨hanswer, hafter, hfailure⟩ := h.take_unfailing hn
  obtain ⟨hsame, hnext⟩ := take_of_represents h.represents hmax
  refine ⟨hanswer.trans hsame, hfailure, ?_⟩
  rw [hafter]
  exact hnext

/-- A read that they do not suffice for fails. -/
theorem FailsBehind.take_of_lt (h : FailsBehind message r b) {n : Nat} (hmax : n ≤ maxReservation)
    (hn : b.rest.length < n) : (r.take n).1 = .error (.io message) := by
  have hfew : r.feed.pending.length < n - r.peeked.toList.length := by
    rw [h.length_rest] at hn
    omega
  obtain ⟨left, hfill⟩ : ∃ left, Feed.fillFrom (some message) _ _ r.feed.turns
      = (.error message, [], left) := Feed.fillFrom_some_of_lt r.feed.turns hfew
  rw [Reader.take, if_neg (Nat.ne_zero_of_lt hn), if_neg (Nat.not_lt_of_le hmax)]
  dsimp only [Feed.fill]
  rw [h.failure, hfill]

/-- As long as a byte is left, looking for the end goes as without the failure. -/
theorem FailsBehind.atEnd_unfailing (h : FailsBehind message r b) (hb : b.rest ≠ []) :
    r.atEnd.1 = r.unfailing.atEnd.1 ∧ r.atEnd.2.unfailing = r.unfailing.atEnd.2 ∧
      r.atEnd.2.feed.failure = some message := by
  have hone : 1 ≤ b.rest.length := List.length_pos_iff.mpr hb
  have hfailure := h.failure
  rw [h.length_rest] at hone
  obtain ⟨feed, offset, peeked⟩ := r
  cases peeked with
  | some byte => exact ⟨rfl, rfl, hfailure⟩
  | none =>
    have hfill : Feed.fillFrom feed.failure 1 feed.pending feed.turns
        = Feed.fillFrom none 1 feed.pending feed.turns := by
      dsimp only at hfailure
      rw [hfailure]
      exact Feed.fillFrom_some_of_le _ (by simpa using hone)
    rw [Reader.atEnd, Reader.atEnd]
    dsimp only [unfailing, Feed.fill]
    rw [hfill]
    split
    · exact ⟨rfl, rfl, hfailure⟩
    · exact ⟨rfl, rfl, hfailure⟩

/-- As long as a byte is left the stream is not over. -/
theorem FailsBehind.atEnd (h : FailsBehind message r b) (hb : b.rest ≠ []) :
    r.atEnd.1 = .ok false ∧ FailsBehind message r.atEnd.2 b := by
  obtain ⟨hanswer, hafter, hfailure⟩ := h.atEnd_unfailing hb
  obtain ⟨hsame, hnext⟩ := atEnd_of_represents h.represents
  have hfalse : b.atEnd = false := List.isEmpty_eq_false_iff.mpr hb
  rw [hfalse] at hsame
  refine ⟨hanswer.trans hsame, hfailure, ?_⟩
  rw [hafter]
  exact hnext

/-- Behind the last byte, looking for the end fails as well: it asks the reader for a byte. -/
theorem FailsBehind.atEnd_of_nil (h : FailsBehind message r b) (hb : b.rest = []) :
    r.atEnd.1 = .error (.io message) := by
  have hlength := h.length_rest
  rw [hb, List.length_nil] at hlength
  have hpeeked : r.peeked = none := by
    rw [← Option.toList_eq_nil_iff, ← List.length_eq_zero_iff]
    omega
  have hfew : r.feed.pending.length < 1 := by omega
  obtain ⟨left, hfill⟩ : ∃ left, Feed.fillFrom (some message) _ _ r.feed.turns
      = (.error message, [], left) := Feed.fillFrom_some_of_lt r.feed.turns hfew
  rw [Reader.atEnd, hpeeked]
  dsimp only [Feed.fill]
  rw [h.failure, hfill]

/-! ### Runs -/

section Runs

open Decoder

variable {α : Type} {d : Decoder α} {bytes rest : Bytes} {offset : Nat}

theorem FailsBehind.run_take_append (next : Portion Bytes → Decoder α) {n : Nat} {piece : Bytes}
    (h : FailsBehind message r (Buffer.mk (piece ++ rest) offset)) (hmax : n ≤ maxReservation)
    (enough : piece.length = n) :
    ∃ r', (Decoder.take n next).run r = (next (.whole piece)).run r' ∧
      FailsBehind message r' (Buffer.mk rest (offset + n)) := by
  have hn : n ≤ (piece ++ rest).length := by
    rw [List.length_append, enough]
    exact Nat.le_add_right _ _
  obtain ⟨hanswer, hafter⟩ := h.take hmax hn
  rw [Buffer.take_append enough] at hanswer hafter
  refine ⟨(r.take n).2, ?_, hafter⟩
  rw [Decoder.run]
  rcases htake : Source.take r n with ⟨answer, r'⟩
  rw [show r.take n = (answer, r') from htake] at hanswer ⊢
  obtain rfl : answer = .ok (.whole piece) := hanswer
  rfl

theorem FailsBehind.run_take_of_lt (next : Portion Bytes → Decoder α) {n : Nat}
    (h : FailsBehind message r b) (hmax : n ≤ maxReservation) (few : b.rest.length < n) :
    ((Decoder.take n next).run r).1 = .error (.read (.io message)) := by
  have hanswer := h.take_of_lt hmax few
  rw [Decoder.run]
  rcases htake : Source.take r n with ⟨answer, r'⟩
  rw [show r.take n = (answer, r') from htake] at hanswer
  obtain rfl : answer = .error (.io message) := hanswer
  rfl

theorem FailsBehind.run_atEnd (next : Bool → Decoder α) (h : FailsBehind message r b)
    (hb : b.rest ≠ []) :
    ∃ r', (Decoder.atEnd next).run r = (next false).run r' ∧ FailsBehind message r' b := by
  obtain ⟨hanswer, hafter⟩ := h.atEnd hb
  refine ⟨r.atEnd.2, ?_, hafter⟩
  rw [Decoder.run]
  rcases hend : Source.atEnd r with ⟨answer, r'⟩
  rw [show r.atEnd = (answer, r') from hend] at hanswer ⊢
  obtain rfl : answer = .ok false := hanswer
  rfl

theorem FailsBehind.run_atEnd_of_nil (next : Bool → Decoder α) (h : FailsBehind message r b)
    (hb : b.rest = []) : ((Decoder.atEnd next).run r).1 = .error (.read (.io message)) := by
  have hanswer := h.atEnd_of_nil hb
  rw [Decoder.run]
  rcases hend : Source.atEnd r with ⟨answer, r'⟩
  rw [show r.atEnd = (answer, r') from hend] at hanswer
  obtain rfl : answer = .error (.io message) := hanswer
  rfl

/-- **Runs that the bytes suffice for.** A run that comes to a value or a defect asks for no more
than the bytes that it reads, so it goes as in memory. -/
theorem FailsBehind.run_eq_of_ends (h : FailsBehind message r (Buffer.mk (bytes ++ rest) offset))
    (hd : d.LimitedTo Request.Reservable True) {e : Ending α} (hends : d.Ends bytes e)
    (he : ∀ a, e ≠ .short a) :
    (d.run r).1 = (d.run (Buffer.mk (bytes ++ rest) offset)).1 ∧
      FailsBehind message (d.run r).2 (d.run (Buffer.mk (bytes ++ rest) offset)).2 := by
  induction hends generalizing r offset with
  | done a => exact ⟨rfl, h⟩
  | malformed back place defect =>
    have hoffset : r.offset = offset := h.represents.offset
    refine ⟨?_, h⟩
    show Except.error (DecodeError.malformed (r.offset - back) place defect) = _
    rw [hoffset]
    rfl
  | short => exact absurd rfl (he _)
  | @take n next piece bytes e enough more ih =>
    rw [List.append_assoc] at h ⊢
    obtain ⟨r', hrun, hr'⟩ := h.run_take_append next hd.1 enough
    rw [hrun, Decoder.run_take_append next enough]
    exact ih hr' (hd.2 _) he

/-- **Runs that the bytes do not suffice for.** A run that would be cut short fails. -/
theorem FailsBehind.run_of_ends_short (h : FailsBehind message r (Buffer.mk bytes offset))
    (hd : d.LimitedTo Request.Reservable True) {a : α} (hends : d.Ends bytes (.short a)) :
    (d.run r).1 = .error (.read (.io message)) := by
  generalize he : Ending.short a = e at hends
  induction hends generalizing r offset with
  | done => cases he
  | malformed => cases he
  | short few settled => exact h.run_take_of_lt _ hd.1 few
  | @take n next piece bytes e enough more ih =>
    obtain ⟨r', hrun, hr'⟩ := h.run_take_append next hd.1 enough
    rw [hrun]
    exact ih hr' (hd.2 _) he

end Runs

end Reader

end FingerMinutiae
