import FingerMinutiae.Decoding.Decoder
import FingerMinutiae.Stream.Buffer

/-!
# How reading ends

A decoder that reads bytes in memory comes to one of three ends. It has its value, it finds a
defect, or the bytes run out and it settles for what there is. `Decoder.Ends` says which bytes
exactly a decoder reads and how it ends after them, without a stream and without an offset.

The three ends look in different directions. After a value or a defect nothing that follows the
bytes has been looked at, so the same bytes in front of others end in the same way. When the bytes
run out the end depends on there being no others.

## Main definitions

* `Ending`, `Decoder.Ends`.
* `Decoder.Passes`: an ending that also ends what comes next.

## Main results

* `Decoder.Ends.bind`: the bytes of one decoder and then of the next.
* `Decoder.exists_append_of_run`: what a run over a buffer takes.
* `Decoder.run_append_of_ends_value`, `Decoder.run_append_of_ends_defect`,
  `Decoder.run_of_ends_short`: what a run over a buffer gives.
* `Decoder.Ends.bind_cases`: where a sequence of two decoders ends.
-/

namespace FingerMinutiae

/-- How the reading of some bytes ends. -/
inductive Ending (α : Type) where
  /-- The value is read. -/
  | value (value : α)
  /-- The node that began `back` bytes ago has a defect. -/
  | defect (back : Nat) (place : Place) (defect : Defect)
  /-- The bytes ran out, and this is what is made of them. -/
  | short (value : α)

/-! ### Taking bytes from a buffer -/

theorem Buffer.take_append {n : Nat} {piece : Bytes} (h : piece.length = n) (rest : Bytes)
    (offset : Nat) :
    Buffer.take ⟨piece ++ rest, offset⟩ n = (.whole piece, ⟨rest, offset + n⟩) := by
  subst h
  simp [Buffer.take, Portion.ofBytes]

theorem Buffer.take_of_lt {n : Nat} {bytes : Bytes} (h : bytes.length < n) (offset : Nat) :
    Buffer.take ⟨bytes, offset⟩ n = (.short bytes.length, ⟨[], offset + bytes.length⟩) := by
  simp only [Buffer.take, Portion.ofBytes, List.take_of_length_le (Nat.le_of_lt h),
    List.drop_of_length_le (Nat.le_of_lt h), Nat.ne_of_lt h, if_false]

/-- A piece that is there leaves less behind. -/
theorem Buffer.length_rest_lt_of_take {n : Nat} {piece : Bytes} {s s' : Buffer} (hn : 0 < n)
    (hrest : s.rest ≠ []) (h : s.take n = (.whole piece, s')) :
    s'.rest.length < s.rest.length := by
  have hs' : s'.rest = s.rest.drop n := congrArg (fun answer => answer.2.rest) h.symm
  have hpos := List.length_pos_iff.mpr hrest
  rw [hs', List.length_drop]
  omega

namespace Decoder

variable {α β : Type}

@[simp] theorem pure_eq_done (a : α) : (pure a : Decoder α) = done a := rfl

@[simp] theorem done_bind (a : α) (f : α → Decoder β) : (done a).bind f = f a := rfl

/-! ### Reading and ending -/

/-- The decoder reads the bytes, all of them and no others, and then ends. A decoder that looks for
the end of the stream reads more than its bytes and is not described. -/
inductive Ends : Decoder α → Bytes → Ending α → Prop where
  | done (a : α) : Ends (done a) [] (.value a)
  | malformed (back : Nat) (place : Place) (defect : Defect) :
    Ends (malformed back place defect) [] (.defect back place defect)
  | short {n : Nat} {next : Portion Bytes → Decoder α} {bytes : Bytes} {a : α}
    (few : bytes.length < n) (settled : next (.short bytes.length) = Decoder.done a) :
    Ends (take n next) bytes (.short a)
  | take {n : Nat} {next : Portion Bytes → Decoder α} {piece bytes : Bytes} {e : Ending α}
    (enough : piece.length = n) (more : Ends (next (.whole piece)) bytes e) :
    Ends (take n next) (piece ++ bytes) e

variable {d : Decoder α} {f : α → Decoder β} {bytes bytes' : Bytes}

theorem Ends.bind {a : α} {e : Ending β} (hd : d.Ends bytes (.value a))
    (hf : (f a).Ends bytes' e) : (d.bind f).Ends (bytes ++ bytes') e := by
  generalize hv : Ending.value a = v at hd
  induction hd with
  | done b => cases hv; simpa using hf
  | malformed => cases hv
  | short => cases hv
  | take enough more ih =>
    rw [List.append_assoc]
    exact .take enough (ih hv)

theorem bind_assoc {γ : Type} (d : Decoder α) (f : α → Decoder β) (g : β → Decoder γ) :
    (d.bind f).bind g = d.bind fun a => (f a).bind g := by
  induction d with
  | done a => rfl
  | malformed => rfl
  | take n next ih => exact congrArg (take n) (funext ih)
  | atEnd next ih => exact congrArg atEnd (funext ih)

/-- Only a decoder that is done stays done when another follows. -/
theorem eq_done_of_bind_eq_done {b : β} (h : d.bind f = done b) :
    ∃ a, d = done a ∧ f a = done b := by
  cases d with
  | done a => exact ⟨a, rfl, h⟩
  | malformed => cases h
  | take => cases h
  | atEnd => cases h

/-- An ending without a value ends the sequence with the next decoder as well: a defect stays what
it is, and of what was settled for the next decoder makes something without reading. -/
inductive Passes (f : α → Decoder β) : Ending α → Ending β → Prop where
  | short {a : α} {b : β} (settled : f a = done b) : Passes f (.short a) (.short b)
  | defect (back : Nat) (place : Place) (defect : Defect) :
    Passes f (.defect back place defect) (.defect back place defect)

/-- Of two decoders in sequence the second ends behind the first, or the first does not come to a
value. -/
theorem Ends.bind_cases {e : Ending β} (h : (d.bind f).Ends bytes e) :
    (∃ front back a, bytes = front ++ back ∧ d.Ends front (.value a) ∧ (f a).Ends back e) ∨
      ∃ e', d.Ends bytes e' ∧ Passes f e' e := by
  induction d generalizing bytes with
  | done a => exact .inl ⟨[], bytes, a, rfl, .done a, h⟩
  | malformed back place defect =>
    cases h
    exact .inr ⟨_, .malformed back place defect, .defect back place defect⟩
  | atEnd => cases h
  | take n next ih =>
    cases h with
    | short few settled =>
      obtain ⟨a, hnext, hf⟩ := eq_done_of_bind_eq_done settled
      exact .inr ⟨_, .short few hnext, .short hf⟩
    | @take _ _ piece later _ enough more =>
      rcases ih _ more with ⟨front, back, a, rfl, hd, hf⟩ | ⟨e', hd, he⟩
      · exact .inl ⟨piece ++ front, back, a, (List.append_assoc ..).symm, .take enough hd, hf⟩
      · exact .inr ⟨e', .take enough hd, he⟩

theorem Ends.bind_passes {e : Ending α} {e' : Ending β} (hd : d.Ends bytes e) (he : Passes f e e') :
    (d.bind f).Ends bytes e' := by
  induction hd with
  | done => cases he
  | malformed back place defect => cases he; exact .malformed back place defect
  | short few settled =>
    cases he with
    | short hf =>
      refine .short few ?_
      rw [settled]
      exact hf
  | take enough more ih => exact .take enough (ih he)

theorem Passes.trans {γ : Type} {g : β → Decoder γ} {e : Ending α} {e' : Ending β} {e'' : Ending γ}
    (h : Passes f e e') (h' : Passes g e' e'') : Passes (fun a => (f a).bind g) e e'' := by
  cases h with
  | defect back place defect =>
    cases h'
    exact .defect back place defect
  | short hf =>
    cases h' with
    | short hg => exact .short (by rw [hf]; exact hg)

/-- A function that is applied at the end does not end the reading. -/
theorem Ends.defect_of_map {g : α → β} {back : Nat} {place : Place} {defect : Defect}
    (h : (d.bind fun a => Decoder.done (g a)).Ends bytes (.defect back place defect)) :
    d.Ends bytes (.defect back place defect) := by
  rcases h.bind_cases with ⟨_, _, _, rfl, -, hlater⟩ | ⟨_, hd, ⟨⟩⟩
  · cases hlater
  · exact hd

theorem Ends.short_of_map {g : α → β} {b : β}
    (h : (d.bind fun a => Decoder.done (g a)).Ends bytes (.short b)) :
    ∃ a, d.Ends bytes (.short a) ∧ g a = b := by
  rcases h.bind_cases with ⟨_, _, _, rfl, -, hlater⟩ | ⟨_, hd, @⟨a, _, hsettled⟩⟩
  · cases hlater
  · cases hsettled
    exact ⟨a, hd, rfl⟩

/-! ### Runs over a buffer -/

theorem run_bind {σ : Type} [Source σ] (d : Decoder α) (f : α → Decoder β) (s : σ) :
    (d.bind f).run s =
      match d.run s with
      | (.ok a, s) => (f a).run s
      | (.error e, s) => (.error e, s) := by
  induction d generalizing s with
  | done a => rfl
  | malformed => rfl
  | take n next ih =>
    simp only [bind, run]
    rcases Source.take s n with ⟨answer | answer, s'⟩
    · rfl
    · exact ih answer s'
  | atEnd next ih =>
    simp only [bind, run]
    rcases Source.atEnd s with ⟨answer | answer, s'⟩
    · rfl
    · exact ih answer s'

theorem run_take_append {n : Nat} (next : Portion Bytes → Decoder α) {piece : Bytes}
    (h : piece.length = n) (rest : Bytes) (offset : Nat) :
    (take n next).run (Buffer.mk (piece ++ rest) offset)
      = (next (.whole piece)).run (Buffer.mk rest (offset + n)) := by
  show (next (Buffer.take _ n).1).run (Buffer.take _ n).2 = _
  rw [Buffer.take_append h]

theorem run_take_of_lt {n : Nat} (next : Portion Bytes → Decoder α) {bytes : Bytes}
    (h : bytes.length < n) (offset : Nat) :
    (take n next).run (Buffer.mk bytes offset)
      = (next (.short bytes.length)).run (Buffer.mk [] (offset + bytes.length)) := by
  show (next (Buffer.take ⟨bytes, offset⟩ n).1).run (Buffer.take ⟨bytes, offset⟩ n).2 = _
  rw [Buffer.take_of_lt h]

theorem run_readPiece_bind {layout : Layout α} {f : Portion α → Decoder β} {s s' : Buffer}
    {answer : Portion Bytes} (h : s.take layout.width = (answer, s')) :
    ((readPiece layout).bind f).run s = (f (answer.map layout.parse)).run s' := by
  show (f ((s.take layout.width).1.map layout.parse)).run (s.take layout.width).2 = _
  rw [h]

theorem run_atEnd (next : Bool → Decoder α) (s : Buffer) :
    (atEnd next).run s = (next s.rest.isEmpty).run s := rfl

/-- What a run takes is the front of the buffer, and it is counted. -/
theorem exists_append_of_run (d : Decoder α) (b : Buffer) :
    ∃ front, b.rest = front ++ (d.run b).2.rest ∧ (d.run b).2.offset = b.offset + front.length := by
  induction d generalizing b with
  | done => exact ⟨[], rfl, rfl⟩
  | malformed => exact ⟨[], rfl, rfl⟩
  | take n next ih =>
    obtain ⟨front, hrest, hoffset⟩ := ih (b.take n).1 (b.take n).2
    refine ⟨b.rest.take n ++ front, ?_, ?_⟩
    · show b.rest = _ ++ ((next (b.take n).1).run (b.take n).2).2.rest
      rw [List.append_assoc, ← hrest]
      exact (List.take_append_drop n b.rest).symm
    · show ((next (b.take n).1).run (b.take n).2).2.offset = _
      rw [hoffset, List.length_append, ← Nat.add_assoc]
      rfl
  | atEnd next ih => exact ih b.rest.isEmpty b

/-- A value is read off the front of a buffer, whatever follows. -/
theorem run_append_of_ends_value {a : α} (h : d.Ends bytes (.value a)) (rest : Bytes)
    (offset : Nat) :
    d.run (Buffer.mk (bytes ++ rest) offset) = (.ok a, Buffer.mk rest (offset + bytes.length)) := by
  generalize hv : Ending.value a = v at h
  induction h generalizing offset with
  | done b => cases hv; rfl
  | malformed => cases hv
  | short => cases hv
  | take enough more ih =>
    rw [List.append_assoc, run_take_append _ enough, ih _ hv, List.length_append, enough,
      Nat.add_assoc]

/-- A defect is found at the front of a buffer, whatever follows. -/
theorem run_append_of_ends_defect {back : Nat} {place : Place} {defect : Defect}
    (h : d.Ends bytes (.defect back place defect)) (rest : Bytes) (offset : Nat) :
    d.run (Buffer.mk (bytes ++ rest) offset)
      = (.error (.malformed (offset + bytes.length - back) place defect),
          Buffer.mk rest (offset + bytes.length)) := by
  generalize hv : Ending.defect back place defect = v at h
  induction h generalizing offset with
  | done => cases hv
  | malformed => cases hv; rfl
  | short => cases hv
  | take enough more ih =>
    rw [List.append_assoc, run_take_append _ enough, ih _ hv, List.length_append, enough,
      Nat.add_assoc]

/-- A decoder settles for less only at the end of a buffer. -/
theorem run_of_ends_short {a : α} (h : d.Ends bytes (.short a)) (offset : Nat) :
    d.run (Buffer.mk bytes offset) = (.ok a, Buffer.mk [] (offset + bytes.length)) := by
  generalize hv : Ending.short a = v at h
  induction h generalizing offset with
  | done => cases hv
  | malformed => cases hv
  | short few settled =>
    cases hv
    rw [run_take_of_lt _ few, settled]
    rfl
  | take enough more ih =>
    rw [run_take_append _ enough, ih _ hv, List.length_append, enough, Nat.add_assoc]

end Decoder

end FingerMinutiae
