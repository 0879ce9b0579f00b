import FingerMinutiae.Proofs.Decoding.Ensures
import FingerMinutiae.Proofs.Truncate

/-!
# Two runs, one of them cut short

A decoder reads some bytes and is cut short; with more bytes behind them it comes to something else.
What it settles for in the first run is to be compared with what it gives in the second. The two
runs go the same way as long as there are bytes, so the comparison is made where the first run ends:
the rules here say for each way of building a decoder where that may be.

## Main definitions

* `Decoder.Gives`: what a decoder gives for some bytes.
* `Decoder.CutShort`: what a decoder settles for, and what it gives for more bytes.
* `Decoder.CutsItem`: a decoder of list items of which the items that are cut short are known.

## Main results

* `Decoder.CutShort.bind_cases`, `Decoder.CutShort.readPiece_cases`: where the first run ends.
* `Decoder.CutShort.ensures`: the postconditions of the two runs.
* `Decoder.CutShort.several`: lists of items.
-/

namespace FingerMinutiae

@[simp] theorem Decoded.value_complete {α : Type} (a : α) : (complete a).value = a := rfl

@[simp] theorem Decoded.value_incomplete {α : Type} (a : α) : (incomplete a).value = a := rfl

namespace Decoder

variable {α β : Type} {d : Decoder α} {f : α → Decoder β} {bytes : Bytes}

/-- There are bytes for which the decoder gives the value. -/
def Gives (d : Decoder α) (y : α) : Prop :=
  ∃ s s' : Buffer, d.run s = (.ok y, s')

/-- The decoder is cut short by the end of the bytes and settles for `x`, and it gives `y` when more
bytes follow. -/
def CutShort (d : Decoder α) (bytes : Bytes) (x y : α) : Prop :=
  d.Ends bytes (.short x) ∧ ∃ rest offset s, d.run (Buffer.mk (bytes ++ rest) offset) = (.ok y, s)

/-! ### What is given -/

theorem gives_done {a y : α} (h : (done a).Gives y) : y = a := by
  obtain ⟨s, s', hrun⟩ := h
  cases hrun
  rfl

theorem not_gives_malformed {back : Nat} {place : Place} {defect : Defect} {y : α} :
    ¬ (malformed back place defect).Gives y := by
  rintro ⟨s, s', hrun⟩
  cases hrun

theorem Gives.bind_cases {y : β} (h : (d.bind f).Gives y) : ∃ a, d.Gives a ∧ (f a).Gives y := by
  obtain ⟨s, s', hrun⟩ := h
  rw [run_bind] at hrun
  rcases hd : d.run s with ⟨e | a, s₁⟩
  · rw [hd] at hrun
    cases hrun
  · rw [hd] at hrun
    exact ⟨a, ⟨s, s₁, hd⟩, s₁, s', hrun⟩

theorem Gives.map_cases {g : α → β} {d : Decoder (Decoded α)} {y : Decoded β}
    (h : (d.bind fun a => done (a.map g)).Gives y) : ∃ a : Decoded α, y = a.map g := by
  obtain ⟨a, -, ha⟩ := h.bind_cases
  exact ⟨a, gives_done ha⟩

theorem Gives.readPieceOr_cases {layout : Layout α} {draft : β} {next : α → Decoder (Decoded β)}
    {y : Decoded β} (h : (readPieceOr draft layout next).Gives y) :
    y = .incomplete draft ∨ ∃ a, (next a).Gives y := by
  obtain ⟨a | got, -, ha⟩ := Gives.bind_cases h
  · exact .inr ⟨a, ha⟩
  · exact .inl (gives_done ha)

theorem Gives.ensures {P : α → Prop} {y : α} (hd : d.Ensures (fun _ => P) fun _ => P)
    (h : d.Gives y) : P y := by
  obtain ⟨s, s', hrun⟩ := h
  exact hd.run_ok hrun

/-- A node that is given satisfies a condition that both ends ensure. -/
theorem Gives.reads {P : α → Prop} {d : Decoder (Decoded α)} {y : Decoded α}
    (hd : d.Reads (fun _ => P) P) (h : d.Gives y) : P y.value := by
  have hends : d.Ensures (completeWith fun _ => P) (incompleteWith P) := hd
  have hboth : d.Ensures (fun _ x => P x.value) fun _ x => P x.value := by
    refine hends.mono ?_ ?_
    · rintro bytes (a | a) ha
      · exact ha
      · exact ha.elim
    · rintro bytes (a | a) ha
      · exact ha.elim
      · exact ha
  exact Gives.ensures (P := fun x => P x.value) hboth h

theorem CutShort.gives {x y : α} (h : d.CutShort bytes x y) : d.Gives y := by
  obtain ⟨-, rest, offset, s, hrun⟩ := h
  exact ⟨_, s, hrun⟩

/-! ### Where the first run ends -/

theorem not_cutShort_done {a x y : α} : ¬ (done a).CutShort bytes x y := by
  rintro ⟨hends, -⟩
  cases hends

theorem not_cutShort_malformed {back : Nat} {place : Place} {defect : Defect} {x y : α} :
    ¬ (malformed back place defect).CutShort bytes x y := by
  rintro ⟨hends, -⟩
  cases hends

/-- Of two decoders in sequence, the first is cut short or the second after it. -/
theorem CutShort.bind_cases {x y : β} (h : (d.bind f).CutShort bytes x y) :
    (∃ a a', d.CutShort bytes a a' ∧ f a = done x ∧ (f a').Gives y) ∨
      ∃ front back a, bytes = front ++ back ∧ d.Ends front (.value a) ∧
        (f a).CutShort back x y := by
  obtain ⟨hends, rest, offset, s, hrun⟩ := h
  rw [run_bind] at hrun
  rcases hends.bind_cases with ⟨front, back, a, rfl, ha, hf⟩ | ⟨_, ha, @⟨a, _, hf⟩⟩
  · rw [List.append_assoc, run_append_of_ends_value ha] at hrun
    exact .inr ⟨front, back, a, rfl, ha, hf, rest, _, s, hrun⟩
  · rcases hd : d.run (Buffer.mk (bytes ++ rest) offset) with ⟨e | a', s₁⟩
    · rw [hd] at hrun
      cases hrun
    · rw [hd] at hrun
      exact .inl ⟨a, a', ⟨ha, rest, offset, s₁, hd⟩, hf, s₁, s, hrun⟩

/-- A function that is applied at the end is applied in both runs. -/
theorem CutShort.map_cases {g : α → β} {d : Decoder (Decoded α)} {x y : Decoded β}
    (h : (d.bind fun a => done (a.map g)).CutShort bytes x y) :
    ∃ a a', d.CutShort bytes a a' ∧ x = a.map g ∧ y = a'.map g := by
  obtain ⟨a, a', ha, hx, hy⟩ | ⟨_, _, _, _, _, hback⟩ := h.bind_cases
  · cases hx
    exact ⟨a, a', ha, rfl, gives_done hy⟩
  · exact absurd hback not_cutShort_done

theorem CutShort.take_cases {n : Nat} {next : Portion Bytes → Decoder α} {x y : α}
    (h : (take n next).CutShort bytes x y) :
    (bytes.length < n ∧ next (.short bytes.length) = done x ∧
      ((∃ got, bytes.length ≤ got ∧ (next (.short got)).Gives y) ∨
        ∃ piece : Bytes, piece.length = n ∧ (next (.whole piece)).Gives y)) ∨
      ∃ piece back, piece.length = n ∧ bytes = piece ++ back ∧
        (next (.whole piece)).CutShort back x y := by
  obtain ⟨hends, rest, offset, s, hrun⟩ := h
  cases hends with
  | short few settled =>
    refine .inl ⟨few, settled, ?_⟩
    by_cases hlt : (bytes ++ rest).length < n
    · rw [run_take_of_lt next hlt] at hrun
      exact .inl ⟨_, by rw [List.length_append]; omega, _, s, hrun⟩
    · have hpiece : ((bytes ++ rest).take n).length = n :=
        List.length_take_of_le (Nat.le_of_not_lt hlt)
      rw [← List.take_append_drop n (bytes ++ rest), run_take_append next hpiece] at hrun
      exact .inr ⟨_, hpiece, _, s, hrun⟩
  | @take _ _ piece back _ enough more =>
    rw [List.append_assoc, run_take_append next enough] at hrun
    exact .inr ⟨piece, back, enough, rfl, more, rest, _, s, hrun⟩

theorem CutShort.readPiece_cases {layout : Layout α} {f : Portion α → Decoder β} {x y : β}
    (h : ((readPiece layout).bind f).CutShort bytes x y) :
    (bytes.length < layout.width ∧ f (.short bytes.length) = done x ∧
      ((∃ got, bytes.length ≤ got ∧ (f (.short got)).Gives y) ∨ ∃ a, (f (.whole a)).Gives y)) ∨
      ∃ piece back, piece.length = layout.width ∧ bytes = piece ++ back ∧
        (f (.whole (layout.parse piece))).CutShort back x y := by
  obtain ⟨hlt, hx, hgot | ⟨piece, -, hpiece⟩⟩ | hback := CutShort.take_cases h
  · exact .inl ⟨hlt, hx, .inl hgot⟩
  · exact .inl ⟨hlt, hx, .inr ⟨layout.parse piece, hpiece⟩⟩
  · exact .inr hback

theorem CutShort.readPieceOr_cases {layout : Layout α} {draft : β}
    {next : α → Decoder (Decoded β)} {x y : Decoded β}
    (h : (readPieceOr draft layout next).CutShort bytes x y) :
    (bytes.length < layout.width ∧ x = .incomplete draft ∧
      (y = .incomplete draft ∨ ∃ a, (next a).Gives y)) ∨
      ∃ piece back, piece.length = layout.width ∧ bytes = piece ++ back ∧
        (next (layout.parse piece)).CutShort back x y := by
  obtain ⟨hlt, hx, ⟨got, -, hgot⟩ | hwhole⟩ | hback := h.readPiece_cases
  · cases hx
    exact .inl ⟨hlt, rfl, .inl (gives_done hgot)⟩
  · cases hx
    exact .inl ⟨hlt, rfl, .inr hwhole⟩
  · exact .inr hback

/-! ### What both runs ensure -/

/-- A run that comes to a value uses more bytes than a run that is cut short has. -/
theorem Ends.length_lt {front rest more : Bytes} {x y : α} (hshort : d.Ends bytes (.short x))
    (hvalue : d.Ends front (.value y)) (heq : bytes ++ rest = front ++ more) :
    bytes.length < front.length := by
  generalize hx : Ending.short x = ex at hshort
  induction hshort generalizing front with
  | done => cases hx
  | malformed => cases hx
  | @short n next bytes x few settled =>
    cases hvalue with
    | take enough _ =>
      rw [List.length_append]
      omega
  | @take n next piece bytes ex enough _ ih =>
    cases hvalue with
    | @take _ _ piece' front _ enough' hfront =>
      rw [List.append_assoc, List.append_assoc] at heq
      obtain ⟨rfl, hback⟩ := List.append_inj heq (enough.trans enough'.symm)
      rw [List.length_append, List.length_append]
      exact Nat.add_lt_add_left (ih hfront hback hx) _

theorem CutShort.ensures {whole cut : Bytes → α → Prop} {x y : α} (hd : d.Ensures whole cut)
    (h : d.CutShort bytes x y) :
    cut bytes x ∧
      ((∃ front, whole front y ∧ bytes.length < front.length) ∨ ∃ longer, cut longer y) := by
  obtain ⟨hends, rest, offset, s, hrun⟩ := h
  refine ⟨hd.of_ends_short hends, ?_⟩
  rcases hd.of_run hrun with ⟨front, hfront, -, hvalue⟩ | ⟨-, hshort⟩
  · exact .inl ⟨front, hd.of_ends_value hvalue, hends.length_lt hvalue hfront⟩
  · exact .inr ⟨bytes ++ rest, hd.of_ends_short hshort⟩

/-- Of a node that is cut short, a longer run gives it whole and longer, or cut short again. -/
theorem CutShort.reads {P : Bytes → α → Prop} {Q : α → Prop} {d : Decoder (Decoded α)}
    {x y : Decoded α} (hd : d.Reads P Q) (h : d.CutShort bytes x y) :
    (∃ front a, y = .complete a ∧ P front a ∧ bytes.length < front.length) ∨
      ∃ a, y = .incomplete a ∧ Q a := by
  obtain ⟨-, ⟨front, hy, hlt⟩ | ⟨longer, hy⟩⟩ := h.ensures hd
  · rcases y with a | a
    · exact .inl ⟨front, a, rfl, hy, hlt⟩
    · exact hy.elim
  · rcases y with a | a
    · exact hy.elim
    · exact .inr ⟨a, rfl, hy⟩

/-! ### Lists -/

/-- A decoder of list items of which is known how many bytes a whole item takes, and what is left of
an item that is cut short. -/
structure CutsItem (size : α → Nat) (whole : α → Bool) (part : Nat → α → Option α)
    (d : Decoder (Option (Decoded α))) : Prop where
  /-- The decoder comes to an end, and only with an item or at the end of the bytes. -/
  prompt : d.ReadsItem (fun _ _ => True) fun _ => True
  /-- An item that is read to its end is whole and takes its size. -/
  value : ∀ bytes a, d.Ends bytes (.value (some (.complete a))) →
    whole a = true ∧ bytes.length = size a
  /-- An item that is cut short leaves a part of what a longer run gives. -/
  short : ∀ bytes x y, d.CutShort bytes x y →
    x.map Decoded.value = y.bind fun a => part bytes.length a.value
  /-- A longer run does not give an item that was whole already. -/
  size_lt : ∀ bytes x y, d.CutShort bytes x y →
    ∀ a ∈ y, whole a.value = true → bytes.length < size a.value

variable {size : α → Nat} {whole : α → Bool} {part : Nat → α → Option α}
  {each : Nat → Decoder (Option (Decoded α))}

theorem CutsItem.eq_of_short {d : Decoder (Option (Decoded α))} (h : d.CutsItem size whole part)
    {x y : Option (Decoded α)} (hcut : d.CutShort bytes x y) :
    x = none ∨ ∃ a, x = some (.incomplete a) := by
  have hx := (hcut.ensures h.prompt).1
  rcases x with _ | a | a
  · exact .inl rfl
  · exact hx.elim
  · exact .inr ⟨a, rfl⟩

/-- Nothing is left of items that are there whole or not at all. -/
theorem cutsItem_of_readsItem {P : Bytes → α → Prop} {d : Decoder (Option (Decoded α))}
    (h : d.ReadsItem P fun _ => False) (hsize : ∀ bytes a, P bytes a → bytes.length = size a) :
    d.CutsItem size (fun _ => true) fun _ _ => none where
  prompt := h.mono (fun _ _ _ => trivial) fun _ => False.elim
  value bytes a ha := ⟨rfl, hsize bytes a (h.of_ends_value ha)⟩
  short bytes x y hcut := by
    have hx := (hcut.ensures h).1
    rcases x with _ | a | a
    · cases y <;> rfl
    · exact hx.elim
    · exact hx.elim
  size_lt bytes x y hcut a ha _ := by
    cases ha
    obtain ⟨-, ⟨front, hy, hlt⟩ | ⟨longer, hy⟩⟩ := hcut.ensures h
    · rcases a with a | a
      · exact Nat.lt_of_lt_of_eq hlt (hsize front a hy)
      · exact hy.elim
    · rcases a with a | a
      · exact hy.elim
      · exact hy.elim

/-- What is given by a decoder of several items begins with those read before. -/
theorem Gives.severalFrom_append (heach : ∀ index, (each index).ReadsItem (fun _ _ => True)
    fun _ => True) {index count : Nat} {got : List α} {y : Decoded (List α)}
    (h : (severalFrom each index count got).Gives y) : ∃ more, y.value = got.reverse ++ more := by
  refine Gives.reads (P := fun as => ∃ more, as = got.reverse ++ more) ?_ h
  refine (reads_severalFrom heach (fun _ _ _ => trivial) (fun _ h => h) index count got).mono ?_ ?_
  · rintro bytes as ⟨more, hmore, -⟩
    exact ⟨more, hmore⟩
  · rintro as ⟨more, hmore, -⟩
    exact ⟨more, hmore⟩

/-- **Lists that are cut short.** What is left of a list is what is whole of it, and what is left of
the next item. -/
theorem CutShort.severalFrom (heach : ∀ index, (each index).CutsItem size whole part)
    {index count : Nat} {got : List α} {x y : Decoded (List α)}
    (h : (severalFrom each index count got).CutShort bytes x y) :
    ∃ more, y.value = got.reverse ++ more ∧
      x = .incomplete (got.reverse ++ truncateList size whole part bytes.length more) := by
  induction count generalizing index got bytes with
  | zero => exact absurd h not_cutShort_done
  | succ count ih =>
    obtain ⟨a, a', hcut, hx, hy⟩ | ⟨front, back, a, rfl, hvalue, hback⟩ := h.bind_cases
    · have hshort := (heach index).short _ _ _ hcut
      have hlt := (heach index).size_lt _ _ _ hcut
      -- What is left of the list is decided by the item that the longer run has in its place.
      have hx' : x = .incomplete (got.reverse ++ (a.map Decoded.value).toList) := by
        obtain rfl | ⟨a, rfl⟩ := (heach index).eq_of_short hcut
        · cases hx
          simp
        · cases hx
          simp
      rw [hshort] at hx'
      rcases a' with _ | a' | a'
      · refine ⟨[], ?_, hx'⟩
        rw [gives_done hy, List.append_nil]
        rfl
      · obtain ⟨more, hmore⟩ := Gives.severalFrom_append (fun index => (heach index).prompt) hy
        refine ⟨a' :: more, ?_, ?_⟩
        · rw [hmore, List.reverse_cons, List.append_assoc]
          rfl
        · have hlt' : whole a' = true → bytes.length < size a' := hlt _ rfl
          rw [truncateList_cons_of_short more hlt']
          exact hx'
      · refine ⟨[a'], ?_, ?_⟩
        · rw [gives_done hy]
          exact List.reverse_cons
        · have hlt' : whole a' = true → bytes.length < size a' := hlt _ rfl
          rw [truncateList_cons_of_short [] hlt']
          exact hx'
    · rcases a with _ | a | a
      · exact absurd hback not_cutShort_done
      · obtain ⟨hwhole, hsize⟩ := (heach index).value _ _ hvalue
        obtain ⟨more, hy, hx⟩ := ih hback
        refine ⟨a :: more, ?_, ?_⟩
        · rw [hy, List.reverse_cons, List.append_assoc]
          rfl
        · rw [List.length_append, hsize, truncateList_cons_of_whole more hwhole, hx,
            List.reverse_cons, List.append_assoc]
          rfl
      · exact absurd hback not_cutShort_done

/-- The count and the bytes of the items of a list, when each takes its size. -/
theorem reads_several_length {P : Bytes → α → Prop}
    (heach : ∀ index, (each index).ReadsItem P fun _ => False)
    (hsize : ∀ bytes a, P bytes a → bytes.length = size a) (count : Nat) :
    (several each count).Reads
      (fun bytes as => as.length = count ∧ bytes.length = (as.map size).sum) fun _ => True := by
  have hitem : ∀ index, (each index).ReadsItem P fun _ => True := fun index =>
    (heach index).mono (fun _ _ h => h) fun _ => False.elim
  exact (reads_several hitem (fun _ _ _ => trivial) count).mono
    (fun _ _ h => ⟨h.1, h.2.length_eq hsize⟩) fun _ _ => trivial

theorem CutShort.several (heach : ∀ index, (each index).CutsItem size whole part) {count : Nat}
    {x y : Decoded (List α)} (h : (several each count).CutShort bytes x y) :
    x = .incomplete (truncateList size whole part bytes.length y.value) := by
  obtain ⟨more, hy, hx⟩ := CutShort.severalFrom heach h
  obtain rfl : y.value = more := hy
  exact hx

end Decoder

end FingerMinutiae
