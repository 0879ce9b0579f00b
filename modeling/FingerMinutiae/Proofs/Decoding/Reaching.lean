import FingerMinutiae.Proofs.Decoding.Ensures

/-!
# How far a decoder has come

A decoder that takes some bytes becomes another one, which has the rest still to read.
`Decoder.Reaches` says which. What the rest comes to is then what the whole comes to, and nothing
that was read before has to be looked at again.

A list of items is reached into item by item. Unless all of its items are read, it ends within one
of them, and the items before that one are whole.

## Main definitions

* `Decoder.Reaches`: what is left of a decoder behind some bytes.
* `Decoder.severalNext`: what a list does behind one of its items.

## Main results

* `Decoder.Reaches.run`, `Decoder.Reaches.ends`: what the rest comes to.
* `Decoder.Ends.several_cases`: the item within which a list ends.
-/

namespace FingerMinutiae

namespace Decoder

variable {α β : Type}

/-- When the decoder has taken the bytes, the other one is left of it. -/
inductive Reaches : Decoder α → Bytes → Decoder α → Prop where
  | refl (d : Decoder α) : Reaches d [] d
  | take {n : Nat} {next : Portion Bytes → Decoder α} {piece bytes : Bytes} {d : Decoder α}
    (enough : piece.length = n) (more : Reaches (next (.whole piece)) bytes d) :
    Reaches (take n next) (piece ++ bytes) d

variable {d d' d'' : Decoder α} {f : α → Decoder β} {bytes front back : Bytes}

theorem Reaches.trans (h : d.Reaches front d') (h' : d'.Reaches back d'') :
    d.Reaches (front ++ back) d'' := by
  induction h with
  | refl => exact h'
  | take enough more ih =>
    rw [List.append_assoc]
    exact .take enough (ih h')

/-- Another decoder that follows does so behind whatever is reached. -/
theorem Reaches.bind (h : d.Reaches front d') : (d.bind f).Reaches front (d'.bind f) := by
  induction h with
  | refl => exact .refl _
  | take enough more ih => exact .take enough ih

theorem Ends.reaches_bind {a : α} (h : d.Ends front (.value a)) :
    (d.bind f).Reaches front (f a) := by
  generalize hv : Ending.value a = v at h
  induction h with
  | done => cases hv; exact .refl _
  | malformed => cases hv
  | short => cases hv
  | take enough more ih => exact .take enough (ih hv)

theorem Reaches.ends {e : Ending α} (h : d.Reaches front d') (h' : d'.Ends back e) :
    d.Ends (front ++ back) e := by
  induction h with
  | refl => exact h'
  | take enough more ih =>
    rw [List.append_assoc]
    exact .take enough (ih h')

/-- **What the rest of a run is.** -/
theorem Reaches.run (h : d.Reaches front d') (rest : Bytes) (offset : Nat) :
    d.run (Buffer.mk (front ++ rest) offset)
      = d'.run (Buffer.mk rest (offset + front.length)) := by
  induction h generalizing offset with
  | refl => rfl
  | take enough more ih =>
    rw [List.append_assoc, run_take_append _ enough, ih, List.length_append, enough, Nat.add_assoc]

theorem reaches_readPiece_bind {layout : Layout α} {f : Portion α → Decoder β} {piece : Bytes}
    (h : piece.length = layout.width) :
    ((readPiece layout).bind f).Reaches piece (f (.whole (layout.parse piece))) := by
  have hreaches : ((readPiece layout).bind f).Reaches (piece ++ []) _ := .take h (.refl _)
  rwa [List.append_nil] at hreaches

/-- A piece is there, or its bytes run out. -/
theorem Ends.readPiece_cases {layout : Layout α} {f : Portion α → Decoder β} {e : Ending β}
    (h : ((readPiece layout).bind f).Ends bytes e) :
    (∃ piece back, bytes = piece ++ back ∧ piece.length = layout.width ∧
        (f (.whole (layout.parse piece))).Ends back e) ∨
      (bytes.length < layout.width ∧
        ∃ b, f (.short bytes.length) = Decoder.done b ∧ e = .short b) := by
  cases h with
  | short few settled => exact .inr ⟨few, _, settled, rfl⟩
  | @take _ _ piece back _ enough more => exact .inl ⟨piece, back, rfl, enough, more⟩

/-! ### Lists -/

/-- What becomes of a list behind its item at an index, when `left` more are to be read and `got`
were read before, the last of them first. -/
def severalNext (each : Nat → Decoder (Option (Decoded α))) (index left : Nat) (got : List α) :
    Option (Decoded α) → Decoder (Decoded (List α))
  | some (.complete a) => severalFrom each (index + 1) left (a :: got)
  | some (.incomplete a) => done (.incomplete (a :: got).reverse)
  | none => done (.incomplete got.reverse)

theorem severalFrom_succ (each : Nat → Decoder (Option (Decoded α))) (index left : Nat)
    (got : List α) :
    severalFrom each index (left + 1) got
      = (each index).bind (severalNext each index left got) := by
  refine congrArg (each index).bind (funext ?_)
  rintro (_ | a | a)
  · rfl
  · rfl
  · rfl

variable {P : Bytes → α → Prop} {Q : α → Prop} {each : Nat → Decoder (Option (Decoded α))}

theorem Ends.severalFrom_cases (heach : ∀ index, (each index).ReadsItem P Q) {index count : Nat}
    {got : List α} {e : Ending (Decoded (List α))}
    (h : (severalFrom each index count got).Ends bytes e) :
    (∃ as, e = .value (.complete as)) ∨
      ∃ front back as left e', bytes = front ++ back ∧ Concat P front as ∧
        (severalFrom each index count got).Reaches front ((each (index + as.length)).bind
          (severalNext each (index + as.length) left (as.reverse ++ got))) ∧
        (each (index + as.length)).Ends back e' ∧
        Passes (severalNext each (index + as.length) left (as.reverse ++ got)) e' e := by
  induction count generalizing index got bytes with
  | zero =>
    cases h with
    | done as => exact .inl ⟨got.reverse, rfl⟩
  | succ left ih =>
    rw [severalFrom_succ] at h ⊢
    rcases h.bind_cases with ⟨first, later, a, rfl, ha, hlater⟩ | ⟨e', he', hpasses⟩
    · have hitem := (heach index).of_ends_value ha
      rcases a with _ | a | a
      · exact hitem.elim
      · rcases ih hlater with
          hvalue | ⟨front, back, as, left', e', rfl, has, hreaches, hends, hpasses⟩
        · exact .inl hvalue
        · have hindex : index + 1 + as.length = index + (a :: as).length := by
            rw [List.length_cons]
            omega
          have hgot : as.reverse ++ a :: got = (a :: as).reverse ++ got := by simp
          rw [hindex, hgot] at hreaches hpasses
          rw [hindex] at hends
          exact .inr ⟨first ++ front, back, a :: as, left', e', (List.append_assoc ..).symm,
            .cons hitem has, ha.reaches_bind.trans hreaches, hends, hpasses⟩
      · exact hitem.elim
    · exact .inr ⟨[], bytes, [], left, e', rfl, .nil, .refl _, he', hpasses⟩

/-- **The item within which a list ends.** All items are read, or the items before one are whole and
the list ends as that one ends. -/
theorem Ends.several_cases (heach : ∀ index, (each index).ReadsItem P Q) {count : Nat}
    {e : Ending (Decoded (List α))} (h : (several each count).Ends bytes e) :
    (∃ as, e = .value (.complete as)) ∨
      ∃ front back as left e', bytes = front ++ back ∧ Concat P front as ∧
        (several each count).Reaches front
          ((each as.length).bind (severalNext each as.length left as.reverse)) ∧
        (each as.length).Ends back e' ∧
        Passes (severalNext each as.length left as.reverse) e' e := by
  rcases Ends.severalFrom_cases heach h with
    hvalue | ⟨front, back, as, left, e', hbytes, has, hreaches, hends, hpasses⟩
  · exact .inl hvalue
  · rw [Nat.zero_add, List.append_nil] at hreaches hpasses
    rw [Nat.zero_add] at hends
    exact .inr ⟨front, back, as, left, e', hbytes, has, hreaches, hends, hpasses⟩

end Decoder

end FingerMinutiae
