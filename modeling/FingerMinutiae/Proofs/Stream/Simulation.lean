import FingerMinutiae.Decoding.Records
import FingerMinutiae.Stream.Reader

/-!
# Sources that cannot be told apart

A decoder sees of a stream only what the operations of `Source` answer. If two sources stand in a
relation that every request keeps, and answer alike while they do, then no sequence of requests
tells them apart, and neither does a decoder or a stream of records.

A request for more bytes than a buffer can hold is an exception: a reader refuses it before it reads
anything, and bytes in memory are simply too few for it. So only reservable requests have to be
answered alike.

A reader and a buffer over the same bytes stand in such a relation, however the reader hands its
bytes out: the byte that the reader keeps back and the bytes still to be handed out are together the
rest of the buffer.

## Main definitions

* `Request`, `Reply`, `Source.replies`: what a source answers to a sequence of requests, and its
  offset after each.
* `Decoder.LimitedTo`: the requests that a decoder may make, and whether it may find a defect.
* `Source.Simulation`: a relation that every reservable request keeps.
* `Reader.Represents`: a reader and a buffer over the same bytes.

## Main results

* `Source.Simulation.replies_eq`, `Source.Simulation.run_eq`, `Source.Simulation.answer_eq`.
* `Reader.simulation`: `Reader.Represents` is a simulation.
-/

namespace FingerMinutiae

/-! ### Requests -/

/-- What a source can be asked. -/
inductive Request where
  /-- To take `n` bytes. -/
  | take (n : Nat)
  /-- Whether no byte is left. -/
  | atEnd
deriving DecidableEq

/-- What a source answers. -/
inductive Reply where
  /-- What it had to give. -/
  | taken (answer : Except ReadError (Portion Bytes))
  /-- Whether no byte is left. -/
  | ended (answer : Except ReadError Bool)

/-- A buffer can hold what is asked for. -/
def Request.Reservable : Request → Prop
  | take n => n ≤ maxReservation
  | atEnd => True

instance : (q : Request) → Decidable q.Reservable
  | .take n => inferInstanceAs (Decidable (n ≤ maxReservation))
  | .atEnd => inferInstanceAs (Decidable True)

/-- The request is for fewer than `2 ^ 16` bytes. -/
def Request.Short : Request → Prop
  | take n => n < 2 ^ 16
  | atEnd => False

instance : (q : Request) → Decidable q.Short
  | .take n => inferInstanceAs (Decidable (n < 2 ^ 16))
  | .atEnd => inferInstanceAs (Decidable False)

theorem Request.Short.reservable {q : Request} (h : q.Short) : q.Reservable := by
  cases q with
  | take n => exact Nat.le_trans (Nat.le_of_lt h) (by decide)
  | atEnd => exact h.elim

namespace Source

variable {σ τ : Type} [Source σ] [Source τ]

/-- The answer to a request, and the source after it. -/
def reply (s : σ) : Request → Reply × σ
  | .take n => (.taken (take s n).1, (take s n).2)
  | .atEnd => (.ended (atEnd s).1, (atEnd s).2)

/-- The answers to requests made one after the other, and the offset after each. -/
def replies (s : σ) : List Request → List (Reply × Nat)
  | [] => []
  | q :: qs => ((reply s q).1, offset (reply s q).2) :: replies (reply s q).2 qs

end Source

/-- The decoder makes only requests that are allowed, whatever it was answered before, and finds a
defect only if it is `faulty`. -/
def Decoder.LimitedTo {α : Type} (allowed : Request → Prop) (faulty : Prop) : Decoder α → Prop
  | done _ => True
  | malformed _ _ _ => faulty
  | take n next => allowed (.take n) ∧ ∀ answer, (next answer).LimitedTo allowed faulty
  | atEnd next => allowed .atEnd ∧ ∀ answer, (next answer).LimitedTo allowed faulty

/-- What the `k`-th call for the next record of a stream gives; the first call has number zero. -/
def Records.answer {σ : Type} [Source σ] : (k : Nat) → Records σ → Option RecordItem
  | 0, rs => rs.next?.1
  | k + 1, rs => answer k rs.next?.2

/-! ### Simulations -/

namespace Source

variable {σ τ : Type} [Source σ] [Source τ] {R : σ → τ → Prop}

/-- Sources in the relation answer a reservable request alike and stay in the relation. -/
structure Simulation (R : σ → τ → Prop) : Prop where
  offset_eq : ∀ {s t}, R s t → offset s = offset t
  reply : ∀ {s t q}, R s t → q.Reservable →
    (reply s q).1 = (reply t q).1 ∧ R (reply s q).2 (reply t q).2

namespace Simulation

theorem take (h : Simulation R) {s : σ} {t : τ} {n : Nat} (hst : R s t)
    (hn : n ≤ maxReservation) :
    (Source.take s n).1 = (Source.take t n).1 ∧ R (Source.take s n).2 (Source.take t n).2 := by
  obtain ⟨hreply, hnext⟩ := h.reply (q := .take n) hst hn
  exact ⟨Reply.taken.inj hreply, hnext⟩

theorem atEnd (h : Simulation R) {s : σ} {t : τ} (hst : R s t) :
    (Source.atEnd s).1 = (Source.atEnd t).1 ∧ R (Source.atEnd s).2 (Source.atEnd t).2 := by
  obtain ⟨hreply, hnext⟩ := h.reply (q := .atEnd) hst trivial
  exact ⟨Reply.ended.inj hreply, hnext⟩

/-- **Requests in sequence.** -/
theorem replies_eq (h : Simulation R) {s : σ} {t : τ} (hst : R s t) {requests : List Request}
    (hrequests : ∀ q ∈ requests, q.Reservable) : replies s requests = replies t requests := by
  induction requests generalizing s t with
  | nil => rfl
  | cons q qs ih =>
    obtain ⟨hq, hqs⟩ := List.forall_mem_cons.mp hrequests
    obtain ⟨hreply, hnext⟩ := h.reply hst hq
    rw [replies, replies, hreply, h.offset_eq hnext, ih hnext hqs]

/-- **Decoders.** A decoder gives the same over both sources, and leaves them in the relation. -/
theorem run_eq {α : Type} (h : Simulation R) {s : σ} {t : τ} (hst : R s t) {d : Decoder α}
    (hd : d.LimitedTo Request.Reservable True) :
    (d.run s).1 = (d.run t).1 ∧ R (d.run s).2 (d.run t).2 := by
  induction d generalizing s t with
  | done a => exact ⟨rfl, hst⟩
  | malformed back place defect =>
    refine ⟨?_, hst⟩
    show Except.error _ = Except.error _
    rw [h.offset_eq hst]
  | take n next ih =>
    obtain ⟨hn, hnext⟩ := hd
    obtain ⟨hanswer, hafter⟩ := h.take hst hn
    rw [Decoder.run, Decoder.run]
    rcases hs : Source.take s n with ⟨answer, s'⟩
    rcases ht : Source.take t n with ⟨answer', t'⟩
    rw [hs, ht] at hanswer hafter
    obtain rfl : answer = answer' := hanswer
    cases answer with
    | error e => exact ⟨rfl, hafter⟩
    | ok portion => exact ih portion hafter (hnext portion)
  | atEnd next ih =>
    obtain ⟨-, hnext⟩ := hd
    obtain ⟨hanswer, hafter⟩ := h.atEnd hst
    rw [Decoder.run, Decoder.run]
    rcases hs : Source.atEnd s with ⟨answer, s'⟩
    rcases ht : Source.atEnd t with ⟨answer', t'⟩
    rw [hs, ht] at hanswer hafter
    obtain rfl : answer = answer' := hanswer
    cases answer with
    | error e => exact ⟨rfl, hafter⟩
    | ok ended => exact ih ended hafter (hnext ended)

/-- One call for the next record. -/
theorem next?_eq (h : Simulation R) {s : σ} {t : τ} (hst : R s t) {variant : Variant}
    (hd : (Record.decoder variant).LimitedTo Request.Reservable True) (finished : Bool) :
    (Records.next? ⟨s, variant, finished⟩).1 = (Records.next? ⟨t, variant, finished⟩).1 ∧
      ∃ s' t' finished', R s' t' ∧
        (Records.next? ⟨s, variant, finished⟩).2 = ⟨s', variant, finished'⟩ ∧
        (Records.next? ⟨t, variant, finished⟩).2 = ⟨t', variant, finished'⟩ := by
  obtain ⟨hanswer, hafter⟩ := h.atEnd hst
  rw [Records.next?, Records.next?]
  cases finished with
  | true => exact ⟨rfl, s, t, true, hst, rfl, rfl⟩
  | false =>
    rcases hs : Source.atEnd s with ⟨answer, s'⟩
    rcases ht : Source.atEnd t with ⟨answer', t'⟩
    rw [hs, ht] at hanswer hafter
    obtain rfl : answer = answer' := hanswer
    rcases answer with e | _ | _
    · exact ⟨rfl, s', t', true, hafter, rfl, rfl⟩
    · obtain ⟨hitem, hrun⟩ := h.run_eq hafter hd
      rcases hs' : (Record.decoder variant).run s' with ⟨item, s''⟩
      rcases ht' : (Record.decoder variant).run t' with ⟨item', t''⟩
      rw [hs', ht'] at hitem hrun
      obtain rfl : item = item' := hitem
      simp only [Bool.false_eq_true, if_false, hs', ht']
      exact ⟨trivial, s'', t'', _, hrun, rfl, rfl⟩
    · exact ⟨rfl, s', t', true, hafter, rfl, rfl⟩

/-- **Streams of records.** Every call for the next record gives the same. -/
theorem answer_eq (h : Simulation R) {s : σ} {t : τ} (hst : R s t) {variant : Variant}
    (hd : (Record.decoder variant).LimitedTo Request.Reservable True) (finished : Bool) (k : Nat) :
    Records.answer k ⟨s, variant, finished⟩ = Records.answer k ⟨t, variant, finished⟩ := by
  induction k generalizing s t finished with
  | zero => exact (h.next?_eq hst hd finished).1
  | succ k ih =>
    obtain ⟨-, s', t', finished', hnext, hs, ht⟩ := h.next?_eq hst hd finished
    rw [Records.answer, Records.answer, hs, ht]
    exact ih hnext finished'

end Simulation

end Source

/-! ### A reader and a buffer -/

/-- Calls to a reader that never fails hand out what was wanted, or all there is, whichever way
they go. -/
theorem Feed.fillFrom_none (wanted : Nat) (pending : Bytes) (turns : List Turn) :
    ∃ left, fillFrom none wanted pending turns
      = (.ok (pending.take wanted), pending.drop wanted, left) := by
  induction turns generalizing wanted pending with
  | nil => exact ⟨[], rfl⟩
  | cons turn turns ih =>
    by_cases hwanted : wanted = 0
    · subst hwanted
      cases turn with
      | interrupted => exact ⟨_, rfl⟩
      | atMost more => exact ⟨_, rfl⟩
    · cases turn with
      | interrupted =>
        obtain ⟨left, hleft⟩ := ih wanted pending
        exact ⟨left, by rw [fillFrom, if_neg hwanted, hleft]⟩
      | atMost more =>
        cases pending with
        | nil => exact ⟨turns, by simp [fillFrom, hwanted]⟩
        | cons b bs =>
          -- The call hands out the first `j` bytes, and the later calls what is wanted behind them.
          obtain ⟨j, hj, hlength, hgot⟩ : ∃ j, j ≤ wanted ∧ ((b :: bs).take j).length = j ∧
              (b :: bs).take (min wanted (more + 1)) = (b :: bs).take j := by
            refine ⟨min (min wanted (more + 1)) (b :: bs).length, ?_, ?_, List.take_eq_take_min⟩
            · omega
            · exact List.length_take_of_le (Nat.min_le_right _ _)
          obtain ⟨left, hleft⟩ := ih (wanted - j) ((b :: bs).drop j)
          refine ⟨left, ?_⟩
          rw [fillFrom, if_neg hwanted]
          simp only [hgot, hlength, hleft, Except.map, ← List.take_add, List.drop_drop,
            Nat.add_sub_of_le hj]

theorem Feed.fill_of_failure_none {f : Feed} (hf : f.failure = none) (wanted : Nat) :
    ∃ left, f.fill wanted
      = (.ok (f.pending.take wanted),
          { pending := f.pending.drop wanted, failure := none, turns := left }) := by
  obtain ⟨left, hleft⟩ := fillFrom_none wanted f.pending f.turns
  refine ⟨left, ?_⟩
  rw [fill, hf, hleft]

namespace Reader

/-- The buffer has the bytes that the reader has still to give: the one that it keeps back and those
that were not handed out. The reader never fails. -/
structure Represents (r : Reader) (b : Buffer) : Prop where
  failure : r.feed.failure = none
  rest : b.rest = r.peeked.toList ++ r.feed.pending
  offset : r.offset = b.offset

theorem represents_ofFeed (bytes : Bytes) (turns : List Turn) :
    Represents (ofFeed { pending := bytes, turns }) (Buffer.ofBytes bytes) :=
  ⟨rfl, rfl, rfl⟩

theorem length_toList_peeked (r : Reader) : r.peeked.toList.length ≤ 1 := by
  cases r.peeked <;> simp

/-- A read takes the byte kept back and as many others as it wants besides. -/
theorem take_of_represents {r : Reader} {b : Buffer} (h : r.Represents b) {n : Nat}
    (hn : n ≤ maxReservation) :
    (r.take n).1 = .ok (b.take n).1 ∧ Represents (r.take n).2 (b.take n).2 := by
  by_cases hzero : n = 0
  · subst hzero
    exact ⟨rfl, h⟩
  · obtain ⟨left, hfill⟩ := Feed.fill_of_failure_none h.failure (n - r.peeked.toList.length)
    have hle : r.peeked.toList.length ≤ n := Nat.le_trans r.length_toList_peeked (by omega)
    have hfront : r.peeked.toList ++ r.feed.pending.take (n - r.peeked.toList.length)
        = b.rest.take n := by
      rw [h.rest, List.take_append, List.take_of_length_le hle]
    have hback : r.feed.pending.drop (n - r.peeked.toList.length) = b.rest.drop n := by
      rw [h.rest, List.drop_append, List.drop_of_length_le hle, List.nil_append]
    rw [take, if_neg hzero, if_neg (Nat.not_lt_of_le hn)]
    dsimp only
    rw [hfill]
    dsimp only
    rw [hfront]
    refine ⟨rfl, rfl, hback.symm, ?_⟩
    show r.offset + _ = b.offset + (b.rest.take n).length
    rw [h.offset, ← hfront, List.length_append]

/-- Looking for the end takes nothing: the byte that is handed out for it is kept back. -/
theorem atEnd_of_represents {r : Reader} {b : Buffer} (h : r.Represents b) :
    r.atEnd.1 = .ok b.atEnd ∧ Represents r.atEnd.2 b := by
  obtain ⟨left, hfill⟩ := Feed.fill_of_failure_none h.failure 1
  obtain ⟨feed, offset, peeked⟩ := r
  obtain ⟨hfailure, hrest, hoffset⟩ := h
  cases peeked with
  | some byte => exact ⟨by simp [atEnd, Buffer.atEnd, hrest], hfailure, hrest, hoffset⟩
  | none =>
    rw [atEnd]
    dsimp only at hfill ⊢
    rw [hfill, Buffer.atEnd, hrest]
    cases hpending : feed.pending with
    | nil => exact ⟨rfl, rfl, by rw [hrest, hpending]; rfl, hoffset⟩
    | cons byte bytes => exact ⟨rfl, rfl, by rw [hrest, hpending]; rfl, hoffset⟩

/-- **A reader and a buffer over the same bytes cannot be told apart.** -/
theorem simulation : Source.Simulation Represents where
  offset_eq h := h.offset
  reply := by
    intro r b q h hq
    cases q with
    | take n =>
      obtain ⟨hanswer, hnext⟩ := take_of_represents h hq
      exact ⟨congrArg Reply.taken hanswer, hnext⟩
    | atEnd =>
      obtain ⟨hanswer, hnext⟩ := atEnd_of_represents h
      exact ⟨congrArg Reply.ended hanswer, hnext⟩

end Reader

end FingerMinutiae
