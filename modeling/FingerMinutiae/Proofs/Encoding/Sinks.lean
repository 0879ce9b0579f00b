import FingerMinutiae.Proofs.Encoding.InBits
import FingerMinutiae.Proofs.Stream.Sinks
import Mathlib.Data.List.TakeWhile

/-!
# Writing into a bounded sink

A record goes into a sink piece by piece, and no piece is written before all of its fields have been
checked. So whatever the size of the sink, what is found in it afterwards is the front of one string
of bytes: the pieces before the first one that does not fit, which are all pieces if the record can
be written. A sink that is too small for this string is what is reported. Otherwise the fault of the
record is, if it has one.

## Main definitions

* `Piece.fitting`: the pieces before the first that does not fit.
* `Record.writable`: the bytes that go out before a fault is found.

## Main results

* `Piece.emitAll_eq_error_iff`: the fault of a list of pieces is that of the first that has one.
* `Piece.writeAll_of_room`: what comes of writing pieces.
* `Record.encodeTo_writes_front`: what comes of writing a record.
-/

namespace FingerMinutiae

open Piece

/-! ### Pieces -/

namespace Piece

variable {p : Piece} {ps pieces : List Piece} {v : FieldValue}

theorem emit_of_fits (h : p.Fits) : p.emit = .ok p.bytes := by
  rw [emit, firstOverflow?_eq_none_iff.mpr h]

theorem exists_emit_of_not_fits (h : ¬ p.Fits) : ∃ v, p.emit = .error v := by
  rw [emit]
  rcases hfirst : firstOverflow? p.packed with _ | v
  · exact absurd (firstOverflow?_eq_none_iff.mp hfirst) h
  · exact ⟨v, rfl⟩

/-- The first value of some pieces that does not fit. -/
def overflow? (pieces : List Piece) : Option FieldValue :=
  firstOverflow? (pieces.flatMap (·.packed))

theorem overflow?_cons (p : Piece) (ps : List Piece) :
    overflow? (p :: ps) = (firstOverflow? p.packed).or (overflow? ps) := by
  rw [overflow?, List.flatMap_cons]
  exact List.find?_append

/-- A piece that fits is passed over. -/
theorem overflow?_cons_of_fits (h : p.Fits) : overflow? (p :: ps) = overflow? ps := by
  rw [overflow?_cons, firstOverflow?_eq_none_iff.mpr h]
  rfl

/-- The fault of a piece is found before those of the pieces behind it. -/
theorem overflow?_cons_of_emit (h : p.emit = .error v) : overflow? (p :: ps) = some v := by
  rw [emit] at h
  rw [overflow?_cons]
  rcases hfirst : firstOverflow? p.packed with _ | w
  · rw [hfirst] at h
    cases h
  · rw [hfirst] at h
    cases h
    rfl

theorem overflow?_of_allFit (h : AllFit pieces) : overflow? pieces = none := by
  refine firstOverflow?_eq_none_iff.mpr fun v hv => ?_
  obtain ⟨p, hp, hv⟩ := List.mem_flatMap.mp hv
  exact h p hp v hv

theorem emitAll_eq_error_iff : emitAll pieces = .error v ↔ overflow? pieces = some v := by
  rw [emitAll, overflow?]
  cases firstOverflow? (pieces.flatMap (·.packed)) with
  | none => simp
  | some w => simp

/-- The pieces before the first that does not fit. -/
def fitting (pieces : List Piece) : List Piece :=
  pieces.takeWhile fun p => decide p.Fits

theorem fitting_cons_of_fits (h : p.Fits) : fitting (p :: ps) = p :: fitting ps :=
  List.takeWhile_cons_of_pos (decide_eq_true h)

theorem fitting_cons_of_not_fits (h : ¬ p.Fits) : fitting (p :: ps) = [] :=
  List.takeWhile_cons_of_neg (by simpa using h)

theorem allFit_fitting (pieces : List Piece) : AllFit (fitting pieces) := by
  intro p hp
  rw [fitting] at hp
  have hfits := List.mem_takeWhile_imp hp
  exact of_decide_eq_true hfits

theorem fitting_of_allFit (h : AllFit pieces) : fitting pieces = pieces :=
  List.takeWhile_eq_self_iff.mpr fun p hp => decide_eq_true (h p hp)

/-- **Faults.** The fault of a list of pieces is that of the first piece that has one, and it stands
behind those that fit. -/
theorem exists_append_of_overflow? (h : overflow? pieces = some v) :
    ∃ p after, pieces = fitting pieces ++ p :: after ∧ p.emit = .error v := by
  induction pieces with
  | nil => cases h
  | cons p ps ih =>
    by_cases hp : p.Fits
    · rw [overflow?_cons_of_fits hp] at h
      obtain ⟨q, after, hps, hq⟩ := ih h
      refine ⟨q, after, ?_, hq⟩
      rw [fitting_cons_of_fits hp, List.cons_append, ← hps]
    · obtain ⟨w, hw⟩ := exists_emit_of_not_fits hp
      cases (overflow?_cons_of_emit hw).symm.trans h
      exact ⟨p, ps, by rw [fitting_cons_of_not_fits hp]; rfl, hw⟩

/-- **Writing pieces into a bounded sink.** However the calls go, the sink holds the front of the
pieces that fit, and the fault of the pieces shows only if all of these went into it. -/
theorem writeAll_of_room (pieces : List Piece) (room : Nat) (refusal : Refusal)
    (quotas : List Nat) :
    writeAll pieces { room := some room, refusal, quotas } =
      { bytes := (allBytes (fitting pieces)).take room
        error :=
          if room < (allBytes (fitting pieces)).length then some (.sink refusal.message)
          else (overflow? pieces).map .overflow } := by
  induction pieces generalizing room quotas with
  | nil => simp [writeAll, fitting, overflow?, firstOverflow?]
  | cons p ps ih =>
    rw [writeAll]
    by_cases hp : p.Fits
    · obtain ⟨left, hwrite⟩ := Sink.write_of_room room refusal quotas p.bytes
      rw [emit_of_fits hp, fitting_cons_of_fits hp, overflow?_cons_of_fits hp, allBytes_cons]
      dsimp only
      rw [hwrite]
      rcases Nat.lt_or_ge room p.bytes.length with hfull | hroom
      · have hmore : room < (p.bytes ++ allBytes (fitting ps)).length := by
          rw [List.length_append]
          omega
        rw [if_pos hfull, if_pos hmore, List.take_append_of_le_length (Nat.le_of_lt hfull)]
      · have hmore : room < (p.bytes ++ allBytes (fitting ps)).length ↔
            room - p.bytes.length < (allBytes (fitting ps)).length := by
          rw [List.length_append]
          omega
        rw [if_neg (Nat.not_lt_of_le hroom)]
        dsimp only
        rw [ih, List.take_append, List.take_of_length_le hroom]
        simp only [hmore]
    · obtain ⟨v, hv⟩ := exists_emit_of_not_fits hp
      rw [hv, fitting_cons_of_not_fits hp, overflow?_cons_of_emit hv]
      simp

end Piece

/-! ### Records -/

namespace Record

variable {r : Record}

/-- The bytes of a record before the first piece that does not fit. A card without exactly one view
has none. -/
def writable (r : Record) : Bytes :=
  match r.pieces with
  | .error _ => []
  | .ok pieces => allBytes (fitting pieces)

/-- Of a record that can be written these are all its bytes. -/
theorem writable_of_encode {bytes : Bytes} (h : r.encode = .ok bytes) : r.writable = bytes := by
  rcases hpieces : r.pieces with e | pieces
  · rw [encode, hpieces] at h
    cases h
  · obtain ⟨hfit, rfl⟩ := (encode_eq_ok_iff hpieces).mp h
    rw [writable, hpieces]
    dsimp only
    rw [fitting_of_allFit hfit]

/-- If a record has pieces, the fault is theirs. -/
theorem exists_overflow_of_encode {pieces : List Piece} (hpieces : r.pieces = .ok pieces)
    {e : EncodeError} (h : r.encode = .error e) :
    ∃ v, e = .overflow v ∧ overflow? pieces = some v := by
  rw [encode, hpieces] at h
  dsimp only at h
  rcases hall : emitAll pieces with v | bytes
  · rw [hall] at h
    cases h
    exact ⟨v, rfl, emitAll_eq_error_iff.mp hall⟩
  · rw [hall] at h
    cases h

/-- The two faults of a record, and what is written before each is found. -/
theorem exists_fault_of_encode {e : EncodeError} (h : r.encode = .error e) :
    (e = .cardViewCount r.views.length ∧ r.variant.isCard = true ∧ r.views.length ≠ 1 ∧
        r.writable = []) ∨
      ∃ v before p after, e = .overflow v ∧ r.pieces = .ok (before ++ p :: after) ∧
        AllFit before ∧ p.emit = .error v ∧ r.writable = allBytes before := by
  rcases hpieces : r.pieces with e' | pieces
  · obtain ⟨hcard, hviews, rfl⟩ := pieces_eq_error_iff.mp hpieces
    rw [encode, hpieces] at h
    cases h
    exact .inl ⟨rfl, hcard, hviews, by rw [writable, hpieces]⟩
  · obtain ⟨v, rfl, hv⟩ := exists_overflow_of_encode hpieces h
    obtain ⟨p, after, hsplit, hp⟩ := exists_append_of_overflow? hv
    exact .inr ⟨v, fitting pieces, p, after, rfl, congrArg Except.ok hsplit,
      allFit_fitting pieces, hp, by rw [writable, hpieces]⟩

/-- A record that can be written goes into a bounded sink as far as there is room. -/
theorem encodeTo_of_encode_ok {bytes : Bytes} (h : r.encode = .ok bytes) (room : Nat)
    (refusal : Refusal) (quotas : List Nat) :
    r.encodeTo { room := some room, refusal, quotas } =
      { bytes := bytes.take room
        error := if room < bytes.length then some (.sink refusal.message) else none } := by
  rcases hpieces : r.pieces with e | pieces
  · rw [encode, hpieces] at h
    cases h
  · obtain ⟨hfit, rfl⟩ := (encode_eq_ok_iff hpieces).mp h
    rw [encodeTo, hpieces]
    dsimp only
    rw [writeAll_of_room, fitting_of_allFit hfit, overflow?_of_allFit hfit]
    rfl

/-- Of a record that cannot be written, the bytes before its fault go into a bounded sink as far as
there is room, and the fault is reported if there is. -/
theorem encodeTo_of_encode_error {e : EncodeError} (h : r.encode = .error e) (room : Nat)
    (refusal : Refusal) (quotas : List Nat) :
    r.encodeTo { room := some room, refusal, quotas } =
      { bytes := r.writable.take room
        error := if room < r.writable.length then some (.sink refusal.message) else some e } := by
  rcases hpieces : r.pieces with e' | pieces
  · rw [encode, hpieces] at h
    cases h
    rw [encodeTo, writable, hpieces]
    simp
  · obtain ⟨v, rfl, hv⟩ := exists_overflow_of_encode hpieces h
    rw [encodeTo, writable, hpieces]
    dsimp only
    rw [writeAll_of_room, hv]
    rfl

/-- **Writing a record into a bounded sink writes the front of one string of bytes.** Whatever the
sink has room for and however its calls go, a record that can be written goes into it as far as
there is room, and nothing is reported if that is all of it. Of a record that cannot be written, the
pieces before the first that holds a value too wide go into it as far as there is room, none for a
card without exactly one view; if they all went in, the fault of the record is reported. A value is
too wide exactly if a field that the variant writes is not within its bits. -/
theorem encodeTo_writes_front (r : Record) :
    (∀ bytes, r.encode = .ok bytes → ∀ room refusal quotas,
      r.encodeTo { room := some room, refusal, quotas } =
        { bytes := bytes.take room
          error := if room < bytes.length then some (.sink refusal.message) else none }) ∧
      (∀ e, r.encode = .error e →
        (∀ room refusal quotas, r.encodeTo { room := some room, refusal, quotas } =
          { bytes := r.writable.take room
            error :=
              if room < r.writable.length then some (.sink refusal.message) else some e }) ∧
        ((e = .cardViewCount r.views.length ∧ r.variant.isCard = true ∧ r.views.length ≠ 1 ∧
            r.writable = []) ∨
          ∃ v before p after, e = .overflow v ∧ r.pieces = .ok (before ++ p :: after) ∧
            AllFit before ∧ p.emit = .error v ∧ r.writable = allBytes before)) ∧
      ((∃ v, r.encode = .error (.overflow v)) ↔ ¬ r.InBits) :=
  ⟨fun _ h => encodeTo_of_encode_ok h,
    fun _ h => ⟨encodeTo_of_encode_error h, exists_fault_of_encode h⟩,
    exists_encode_eq_overflow_iff⟩

/-- A card of which the second minutia is wider than the card. -/
def wideCard : Record where
  variant := .isoCompactCard
  views := [{ minutiae := [{ x := 10, y := 20 }, { x := 300, y := 20 }] }]

/-- The first minutia of the card goes out, and then there is the wide one, unless the sink is too
small for the first already. With the first minutia alone there is no fault but that of the sink. -/
theorem encodeTo_writes_front_wideCard :
    wideCard.encodeTo { room := some 2, refusal := .fails "full", quotas := [0, 0] }
        = { bytes := [10, 20], error := some (.sink "full") } ∧
      wideCard.encodeTo { room := some 3, refusal := .acceptsNothing, quotas := [1] }
        = { bytes := [10, 20, 0], error := some (.overflow ⟨.minutiaX, 300, 8⟩) } ∧
      ¬ wideCard.InBits ∧
      Record.encodeTo { wideCard with views := [{ minutiae := [{ x := 10, y := 20 }] }] }
          { room := some 2, refusal := .acceptsNothing, quotas := [] }
        = { bytes := [10, 20], error := some (.sink "failed to write whole buffer") } := by
  have hwide : wideCard.encode = .error (.overflow ⟨.minutiaX, 300, 8⟩) := by decide
  have hnarrow : Record.encode { wideCard with views := [{ minutiae := [{ x := 10, y := 20 }] }] }
      = .ok [10, 20, 0] := by decide
  obtain ⟨-, hfault, hbits⟩ := encodeTo_writes_front wideCard
  obtain ⟨hwritten, -⟩ := hfault _ hwide
  obtain ⟨hall, -, -⟩ := encodeTo_writes_front
    { wideCard with views := [{ minutiae := [{ x := 10, y := 20 }] }] }
  exact ⟨hwritten 2 (.fails "full") [0, 0], hwritten 3 .acceptsNothing [1], hbits.mp ⟨_, hwide⟩,
    hall _ hnarrow 2 .acceptsNothing []⟩

end Record

end FingerMinutiae
