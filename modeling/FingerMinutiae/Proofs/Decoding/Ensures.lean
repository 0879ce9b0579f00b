import FingerMinutiae.Proofs.Decoding.Ending

/-!
# What a decoder ensures

A decoder ends in a value, in a defect, or short of bytes. `Decoder.Ensures` gives it a
postcondition for the first and one for the last, each on the bytes read and the value, and asks
that it be prompt: whenever bytes run out it settles at once, and it never looks for the end of the
stream. A prompt decoder comes to an end on every string of bytes, so a postcondition is not only
about runs that happen to end.

A decoder of a node says by `Decoded` which of the two ends it came to. `Decoder.Reads` is `Ensures`
for such decoders: a complete node satisfies one condition together with its bytes, an incomplete
one satisfies another. `Decoder.ReadsItem` is the same for the items of a list, where there may be
nothing of the item at all.

## Main definitions

* `Decoder.Ensures`, `Decoder.Reads`, `Decoder.ReadsItem`.
* `Concat`: a string of bytes that is the bytes of the items of a list in order.

## Main results

* `Decoder.Ensures.bind`, `Decoder.Reads.bind`, `Decoder.reads_readPieceOr`,
  `Decoder.reads_several`: the rules by which the conditions of a node follow from those of its
  parts.
* `Decoder.Ensures.of_run`, `Decoder.Ensures.of_run_error`: what a run over a buffer has come to.
-/

namespace FingerMinutiae

namespace Decoder

variable {α β : Type}

/-! ### Two postconditions -/

/-- The decoder is prompt; a value it reads satisfies `whole` together with the bytes it took, and
one that it settles for satisfies `cut`. -/
def Ensures : Decoder α → (whole cut : Bytes → α → Prop) → Prop
  | done a, whole, _ => whole [] a
  | malformed _ _ _, _, _ => True
  | take n next, whole, cut =>
    (∀ piece : Bytes, piece.length = n →
      (next (.whole piece)).Ensures (fun bytes => whole (piece ++ bytes))
        fun bytes => cut (piece ++ bytes)) ∧
    ∀ bytes : Bytes, bytes.length < n →
      ∃ a, next (.short bytes.length) = done a ∧ cut bytes a
  | atEnd _, _, _ => False

variable {d : Decoder α} {f : α → Decoder β} {whole cut : Bytes → α → Prop}
  {whole' cut' : Bytes → β → Prop}

theorem Ensures.bind (hd : d.Ensures whole cut)
    (hf : ∀ bytes a, whole bytes a →
      (f a).Ensures (fun bytes' => whole' (bytes ++ bytes')) fun bytes' => cut' (bytes ++ bytes'))
    (hcut : ∀ bytes a, cut bytes a → ∃ b, f a = Decoder.done b ∧ cut' bytes b) :
    (d.bind f).Ensures whole' cut' := by
  induction d generalizing whole cut whole' cut' with
  | done a => exact hf [] a hd
  | malformed => trivial
  | atEnd => exact hd.elim
  | take n next ih =>
    obtain ⟨hpieces, hshort⟩ := hd
    constructor
    · intro piece hpiece
      refine ih _ (hpieces piece hpiece) ?_ fun bytes a ha => hcut _ a ha
      intro bytes a ha
      simpa only [List.append_assoc] using hf _ a ha
    · intro bytes hbytes
      obtain ⟨a, hnext, ha⟩ := hshort bytes hbytes
      obtain ⟨b, hb, hcutb⟩ := hcut bytes a ha
      refine ⟨b, ?_, hcutb⟩
      show (next (.short bytes.length)).bind f = _
      rw [hnext]
      exact hb

theorem Ensures.mono {whole₂ cut₂ : Bytes → α → Prop} (hd : d.Ensures whole cut)
    (hwhole : ∀ bytes a, whole bytes a → whole₂ bytes a)
    (hcut : ∀ bytes a, cut bytes a → cut₂ bytes a) : d.Ensures whole₂ cut₂ := by
  induction d generalizing whole cut whole₂ cut₂ with
  | done a => exact hwhole [] a hd
  | malformed => trivial
  | atEnd => exact hd
  | take n next ih =>
    obtain ⟨hpieces, hshort⟩ := hd
    constructor
    · intro piece hpiece
      exact ih _ (hpieces piece hpiece) (fun bytes a => hwhole _ a) fun bytes a => hcut _ a
    · intro bytes hbytes
      obtain ⟨a, hnext, ha⟩ := hshort bytes hbytes
      exact ⟨a, hnext, hcut bytes a ha⟩

/-- The condition of a value that was read. -/
theorem Ensures.of_ends_value {bytes : Bytes} {a : α} (hd : d.Ensures whole cut)
    (h : d.Ends bytes (.value a)) : whole bytes a := by
  generalize hv : Ending.value a = v at h
  induction h generalizing whole cut with
  | done => cases hv; exact hd
  | malformed => cases hv
  | short => cases hv
  | take enough more ih => exact ih (hd.1 _ enough) hv

/-- The condition of a value that was settled for. -/
theorem Ensures.of_ends_short {bytes : Bytes} {a : α} (hd : d.Ensures whole cut)
    (h : d.Ends bytes (.short a)) : cut bytes a := by
  generalize hv : Ending.short a = v at h
  induction h generalizing whole cut with
  | done => cases hv
  | malformed => cases hv
  | @short n next bytes b few settled =>
    cases hv
    obtain ⟨c, hc, hcut⟩ := hd.2 _ few
    obtain rfl : c = a := by rw [settled] at hc; cases hc; rfl
    exact hcut
  | take enough more ih => exact ih (hd.1 _ enough) hv

/-- A prompt decoder comes to an end on every string of bytes, and it uses up all of them if it is
cut short. -/
theorem Ensures.exists_ends (hd : d.Ensures whole cut) (bytes : Bytes) :
    (∃ front rest a, bytes = front ++ rest ∧ d.Ends front (.value a)) ∨
      (∃ front rest back place defect, bytes = front ++ rest ∧
        d.Ends front (.defect back place defect)) ∨
      ∃ a, d.Ends bytes (.short a) := by
  induction d generalizing whole cut bytes with
  | done a => exact .inl ⟨[], bytes, a, rfl, .done a⟩
  | malformed back place defect =>
    exact .inr (.inl ⟨[], bytes, back, place, defect, rfl, .malformed back place defect⟩)
  | atEnd => exact hd.elim
  | take n next ih =>
    rcases Nat.lt_or_ge bytes.length n with hlt | hge
    · obtain ⟨a, hnext, -⟩ := hd.2 bytes hlt
      exact .inr (.inr ⟨a, .short hlt hnext⟩)
    · have hpiece : (bytes.take n).length = n := List.length_take_of_le hge
      have hsplit : bytes.take n ++ bytes.drop n = bytes := List.take_append_drop n bytes
      rcases ih _ (hd.1 _ hpiece) (bytes.drop n) with
        ⟨front, rest, a, heq, h⟩ | ⟨front, rest, back, place, defect, heq, h⟩ | ⟨a, h⟩
      · refine .inl ⟨bytes.take n ++ front, rest, a, ?_, .take hpiece h⟩
        rw [List.append_assoc, ← heq, hsplit]
      · refine .inr (.inl ⟨bytes.take n ++ front, rest, back, place, defect, ?_, .take hpiece h⟩)
        rw [List.append_assoc, ← heq, hsplit]
      · exact .inr (.inr ⟨a, by simpa only [hsplit] using Ends.take hpiece h⟩)

/-- **What a run over a buffer has come to.** A value is either read, and then what it took is the
front of the buffer, or settled for at the end of the buffer. -/
theorem Ensures.of_run (hd : d.Ensures whole cut) {bytes : Bytes} {offset : Nat} {a : α}
    {s : Buffer} (h : d.run (Buffer.mk bytes offset) = (.ok a, s)) :
    (∃ front, bytes = front ++ s.rest ∧ s.offset = offset + front.length ∧
        d.Ends front (.value a)) ∨
      (s = ⟨[], offset + bytes.length⟩ ∧ d.Ends bytes (.short a)) := by
  rcases hd.exists_ends bytes with
    ⟨front, rest, b, rfl, hends⟩ | ⟨front, rest, back, place, defect, rfl, hends⟩ | ⟨b, hends⟩
  · rw [run_append_of_ends_value hends] at h
    cases h
    exact .inl ⟨front, rfl, rfl, hends⟩
  · rw [run_append_of_ends_defect hends] at h
    cases h
  · rw [run_of_ends_short hends] at h
    cases h
    exact .inr ⟨rfl, hends⟩

/-- A run over a buffer fails only with a defect. -/
theorem Ensures.of_run_error (hd : d.Ensures whole cut) {bytes : Bytes} {offset : Nat}
    {error : DecodeError} {s : Buffer} (h : d.run (Buffer.mk bytes offset) = (.error error, s)) :
    ∃ front back place defect, bytes = front ++ s.rest ∧
      d.Ends front (.defect back place defect) ∧
      error = .malformed (offset + front.length - back) place defect := by
  rcases hd.exists_ends bytes with
    ⟨front, rest, b, rfl, hends⟩ | ⟨front, rest, back, place, defect, rfl, hends⟩ | ⟨b, hends⟩
  · rw [run_append_of_ends_value hends] at h
    cases h
  · rw [run_append_of_ends_defect hends] at h
    cases h
    exact ⟨front, back, place, defect, rfl, hends, rfl⟩
  · rw [run_of_ends_short hends] at h
    cases h

/-- The postcondition of a run, when both ends have the same. -/
theorem Ensures.run_ok {P : α → Prop} (hd : d.Ensures (fun _ => P) fun _ => P) {s s' : Buffer}
    {a : α} (h : d.run s = (.ok a, s')) : P a := by
  rcases hd.of_run h with ⟨front, -, -, hends⟩ | ⟨-, hends⟩
  · exact hd.of_ends_value hends
  · exact hd.of_ends_short hends

/-! ### Steps -/

theorem ensures_readPiece_bind {layout : Layout α} {f : Portion α → Decoder β}
    (hwhole : ∀ piece : Bytes, piece.length = layout.width →
      (f (.whole (layout.parse piece))).Ensures (fun bytes => whole' (piece ++ bytes))
        fun bytes => cut' (piece ++ bytes))
    (hcut : ∀ bytes : Bytes, bytes.length < layout.width →
      ∃ b, f (.short bytes.length) = done b ∧ cut' bytes b) :
    ((readPiece layout).bind f).Ensures whole' cut' :=
  ⟨hwhole, hcut⟩

/-- A piece that was there is behind the offset. -/
theorem offset_of_run_readPiece {layout : Layout α} {a : α} {s s' : Buffer}
    (h : (readPiece layout).run s = (.ok (.whole a), s')) :
    s'.offset = s.offset + layout.width := by
  have hread : (readPiece layout).Ensures (fun bytes _ => bytes.length = layout.width)
      fun _ answer => ∃ got, answer = .short got := by
    refine ⟨?_, fun bytes _ => ⟨_, rfl, _, rfl⟩⟩
    intro piece hpiece
    show (piece ++ []).length = layout.width
    rw [List.append_nil]
    exact hpiece
  rcases hread.of_run h with ⟨front, -, hoffset, hends⟩ | ⟨-, hends⟩
  · rw [hoffset, hread.of_ends_value hends]
  · obtain ⟨got, ⟨⟩⟩ := hread.of_ends_short hends

/-- Of a node read to its end `P` holds together with its bytes. -/
def completeWith (P : Bytes → α → Prop) (bytes : Bytes) : Decoded α → Prop
  | .complete a => P bytes a
  | .incomplete _ => False

/-- Of a node that was cut short `Q` holds. -/
def incompleteWith (Q : α → Prop) (_bytes : Bytes) : Decoded α → Prop
  | .complete _ => False
  | .incomplete a => Q a

/-- A node that the decoder reads to its end satisfies `P` together with its bytes, and one that is
cut short satisfies `Q`. -/
def Reads (d : Decoder (Decoded α)) (P : Bytes → α → Prop) (Q : α → Prop) : Prop :=
  d.Ensures (completeWith P) (incompleteWith Q)

/-- The same of an item of a list. An item that is cut short may leave nothing. -/
def ReadsItem (d : Decoder (Option (Decoded α))) (P : Bytes → α → Prop) (Q : α → Prop) : Prop :=
  d.Ensures (fun bytes item => item.elim False (completeWith P bytes))
    fun bytes item => item.elim True (incompleteWith Q bytes)

variable {P : Bytes → α → Prop} {Q : α → Prop} {P' : Bytes → β → Prop} {Q' : β → Prop}

theorem Reads.bind {d : Decoder (Decoded α)} {f : Decoded α → Decoder (Decoded β)}
    (hd : d.Reads P Q)
    (hf : ∀ bytes a, P bytes a → (f (.complete a)).Reads (fun bytes' => P' (bytes ++ bytes')) Q')
    (hcut : ∀ a, Q a → ∃ b, f (.incomplete a) = Decoder.done (.incomplete b) ∧ Q' b) :
    (d.bind f).Reads P' Q' := by
  refine Ensures.bind hd ?_ ?_
  · rintro bytes (a | a) ha
    · exact hf bytes a ha
    · exact ha.elim
  · rintro bytes (a | a) ha
    · exact ha.elim
    · obtain ⟨b, hb, hQ⟩ := hcut a ha
      exact ⟨.incomplete b, hb, hQ⟩

theorem Reads.mono {P₂ : Bytes → α → Prop} {Q₂ : α → Prop} {d : Decoder (Decoded α)}
    (hd : d.Reads P Q) (hP : ∀ bytes a, P bytes a → P₂ bytes a) (hQ : ∀ a, Q a → Q₂ a) :
    d.Reads P₂ Q₂ := by
  refine Ensures.mono hd ?_ ?_
  · rintro bytes (a | a) ha
    · exact hP bytes a ha
    · exact ha
  · rintro bytes (a | a) ha
    · exact ha
    · exact hQ a ha

/-- A function applied to the node at the end. -/
theorem Reads.map {d : Decoder (Decoded α)} {g : α → β} (hd : d.Reads P Q)
    (hP : ∀ bytes a, P bytes a → P' bytes (g a)) (hQ : ∀ a, Q a → Q' (g a)) :
    (d.bind fun x => Decoder.done (x.map g)).Reads P' Q' := by
  refine Reads.bind hd ?_ fun a ha => ⟨g a, rfl, hQ a ha⟩
  intro bytes a ha
  show P' (bytes ++ []) (g a)
  rw [List.append_nil]
  exact hP bytes a ha

theorem ensures_readPieceOr {draft : β} {layout : Layout α} {next : α → Decoder (Decoded β)}
    {whole cut : Bytes → Decoded β → Prop}
    (hnext : ∀ piece : Bytes, piece.length = layout.width →
      (next (layout.parse piece)).Ensures (fun bytes => whole (piece ++ bytes))
        fun bytes => cut (piece ++ bytes))
    (hdraft : ∀ bytes : Bytes, bytes.length < layout.width → cut bytes (.incomplete draft)) :
    (readPieceOr draft layout next).Ensures whole cut :=
  ensures_readPiece_bind hnext fun bytes hfew => ⟨.incomplete draft, rfl, hdraft bytes hfew⟩

theorem reads_readPieceOr {draft : β} {layout : Layout α} {next : α → Decoder (Decoded β)}
    (hnext : ∀ piece : Bytes, piece.length = layout.width →
      (next (layout.parse piece)).Reads (fun bytes => P' (piece ++ bytes)) Q')
    (hdraft : Q' draft) : (readPieceOr draft layout next).Reads P' Q' :=
  ensures_readPieceOr hnext fun _ _ => hdraft

theorem readsItem_item (layout : Layout α) :
    (item layout).ReadsItem (fun bytes a => bytes.length = layout.width ∧ a = layout.parse bytes)
      fun _ => False := by
  refine ensures_readPiece_bind ?_ fun _ _ => ⟨none, rfl, trivial⟩
  intro piece hpiece
  show (piece ++ []).length = layout.width ∧ layout.parse piece = layout.parse (piece ++ [])
  rw [List.append_nil]
  exact ⟨hpiece, rfl⟩

theorem ReadsItem.mono {P₂ : Bytes → α → Prop} {Q₂ : α → Prop} {d : Decoder (Option (Decoded α))}
    (hd : d.ReadsItem P Q) (hP : ∀ bytes a, P bytes a → P₂ bytes a) (hQ : ∀ a, Q a → Q₂ a) :
    d.ReadsItem P₂ Q₂ := by
  refine Ensures.mono hd ?_ ?_
  · rintro bytes (_ | a | a) ha
    · exact ha
    · exact hP bytes a ha
    · exact ha
  · rintro bytes (_ | a | a) ha
    · exact ha
    · exact ha
    · exact hQ a ha

end Decoder

/-! ### Lists -/

/-- The bytes are those of the items one after the other, each with `P` of its own bytes. -/
inductive Concat {α : Type} (P : Bytes → α → Prop) : Bytes → List α → Prop where
  | nil : Concat P [] []
  | cons {bytes more : Bytes} {a : α} {as : List α} (head : P bytes a) (tail : Concat P more as) :
    Concat P (bytes ++ more) (a :: as)

theorem Concat.forall {α : Type} {P : Bytes → α → Prop} {Q : α → Prop} {bytes : Bytes}
    {as : List α} (h : Concat P bytes as) (hPQ : ∀ bytes a, P bytes a → Q a) : ∀ a ∈ as, Q a := by
  induction h with
  | nil => simp
  | cons head tail ih =>
    intro a ha
    rcases List.mem_cons.mp ha with rfl | ha
    · exact hPQ _ _ head
    · exact ih a ha

/-- The bytes of a list are as many as those of its items. -/
theorem Concat.length_eq {α : Type} {P : Bytes → α → Prop} {size : α → Nat} {bytes : Bytes}
    {as : List α} (h : Concat P bytes as) (hP : ∀ bytes a, P bytes a → bytes.length = size a) :
    bytes.length = (as.map size).sum := by
  induction h with
  | nil => rfl
  | cons head tail ih => rw [List.length_append, hP _ _ head, ih, List.map_cons, List.sum_cons]

namespace Decoder

variable {α : Type} {P : Bytes → α → Prop} {Q R : α → Prop}

/-- **Lists of items.** The items that are read come behind those read before. The count is used up
unless the bytes run out, and then there are fewer items or the last of them was cut short. -/
theorem reads_severalFrom {each : Nat → Decoder (Option (Decoded α))}
    (heach : ∀ index, (each index).ReadsItem P Q) (hP : ∀ bytes a, P bytes a → R a)
    (hQ : ∀ a, Q a → R a) (index count : Nat) (got : List α) :
    (severalFrom each index count got).Reads
      (fun bytes as => ∃ more, as = got.reverse ++ more ∧ more.length = count ∧
        Concat P bytes more)
      fun as => ∃ more, as = got.reverse ++ more ∧ more.length ≤ count ∧ (∀ a ∈ more, R a) ∧
        (more.length < count ∨ ∃ a ∈ more, Q a) := by
  induction count generalizing index got with
  | zero => exact ⟨[], by simp, rfl, .nil⟩
  | succ count ih =>
    refine Ensures.bind (heach index) ?_ ?_
    · rintro bytes (_ | a | a) ha
      · exact ha.elim
      · refine Ensures.mono (ih (index + 1) (a :: got)) ?_ ?_
        · rintro bytes' (as | as) has
          · obtain ⟨more, rfl, rfl, hmore⟩ := has
            exact ⟨a :: more, by simp, rfl, .cons ha hmore⟩
          · exact has
        · rintro bytes' (as | as) has
          · exact has
          · obtain ⟨more, rfl, hlength, hmore, hcut⟩ := has
            refine ⟨a :: more, by simp, Nat.succ_le_succ hlength,
              List.forall_mem_cons.mpr ⟨hP _ _ ha, hmore⟩, ?_⟩
            exact hcut.imp Nat.succ_lt_succ fun ⟨b, hb, hQb⟩ => ⟨b, List.mem_cons_of_mem a hb, hQb⟩
      · exact ha.elim
    · rintro bytes (_ | a | a) ha
      · exact ⟨_, rfl, [], by simp, Nat.zero_le _, by simp, .inl (Nat.succ_pos _)⟩
      · exact ha.elim
      · exact ⟨_, rfl, [a], by simp, Nat.succ_le_succ (Nat.zero_le _),
          List.forall_mem_singleton.mpr (hQ a ha), .inr ⟨a, List.mem_singleton_self a, ha⟩⟩

/-- A list that is cut short has fewer items than announced, or one that is cut short itself. -/
theorem reads_several_cut {each : Nat → Decoder (Option (Decoded α))}
    (heach : ∀ index, (each index).ReadsItem P Q) (hP : ∀ bytes a, P bytes a → R a)
    (hQ : ∀ a, Q a → R a) (count : Nat) :
    (several each count).Reads (fun bytes as => as.length = count ∧ Concat P bytes as)
      fun as => as.length ≤ count ∧ (∀ a ∈ as, R a) ∧
        (as.length < count ∨ ∃ a ∈ as, Q a) := by
  refine (reads_severalFrom heach hP hQ 0 count []).mono ?_ ?_
  · rintro bytes as ⟨more, rfl, hlength, hmore⟩
    exact ⟨hlength, hmore⟩
  · rintro as ⟨more, rfl, hmore⟩
    exact hmore

theorem reads_several {each : Nat → Decoder (Option (Decoded α))}
    (heach : ∀ index, (each index).ReadsItem P Q) (hPQ : ∀ bytes a, P bytes a → Q a)
    (count : Nat) :
    (several each count).Reads (fun bytes as => as.length = count ∧ Concat P bytes as)
      fun as => ∀ a ∈ as, Q a :=
  (reads_several_cut heach hPQ (fun _ h => h) count).mono (fun _ _ h => h) fun _ h => h.2.1

end Decoder

end FingerMinutiae
