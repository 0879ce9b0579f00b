import FingerMinutiae.Proofs.Conversion.Convert
import FingerMinutiae.Proofs.Selection.Select
import FingerMinutiae.Wire.View

/-!
# Lengths in words

A length is a number here, and there is always room for a number. A machine adds up lengths in words
of 32 bits, and there a sum or a product may be too large. So the lengths are computed once more,
step by step and in the order in which a machine does it, with every count, product, sum and
partial sum checked to fit a word; there is no answer when one of them does not.

Nothing in the type of a record keeps the check from failing, but no list of a record that was read
is longer than what announces it can say: a byte counts the views, a byte the minutiae of each, and
two bytes hold the length of a block and of each record in it. Conversions and selections only ever
leave things out, so the same is true of what they make. And these bounds, multiplied over the four
levels of a record, stay far below the largest word.

## Main definitions

* `word?`, `sumInWord?`: numbers and sums that a word holds.
* `Payload.encodedLength?`, `ExtendedBlock.recordsLength?`, `FingerView.encodedLength?`,
  `Record.computedLength?`: the lengths, computed in words.
* `Record.LengthsFit`: all of them have the answer that they have without words.
* `Record.Announceable`: no list is longer than what announces it can say.
* `Record.BuiltFrom`: the records that conversions and selections make of a record.

## Main results

* `Record.Announceable.lengthsFit`: then all lengths fit.
* `Record.BuiltFrom.announceable`: conversions and selections keep it.
-/

namespace FingerMinutiae

/-! ### Numbers in words -/

/-- A number, if an unsigned word of so many bits holds it. -/
def word? (bits : Nat) (n : Int) : Option Nat :=
  if 0 ≤ n ∧ n < 2 ^ bits then some n.toNat else none

section Words

variable {bits m n : Nat}

theorem word?_natCast (h : n < 2 ^ bits) : word? bits n = some n := by
  have hlt : (n : Int) < 2 ^ bits := by exact_mod_cast h
  rw [word?, if_pos ⟨Int.natCast_nonneg n, hlt⟩, Int.toNat_natCast]

theorem word?_add (h : m + n < 2 ^ bits) : word? bits (m + n) = some (m + n) :=
  word?_natCast h

theorem word?_mul (h : m * n < 2 ^ bits) : word? bits (m * n) = some (m * n) :=
  word?_natCast h

/-- A difference must not be negative. -/
theorem word?_sub (hle : n ≤ m) (h : m - n < 2 ^ bits) : word? bits (m - n) = some (m - n) := by
  have hcast : (m : Int) - n = ((m - n : Nat) : Int) := (Int.ofNat_sub hle).symm
  rw [hcast]
  exact word?_natCast h

theorem eq_of_word?_eq_some {k : Int} (h : word? bits k = some n) : (n : Int) = k := by
  rw [word?] at h
  split at h
  · next hfits =>
    cases h
    exact Int.toNat_of_nonneg hfits.1
  · cases h

variable {α : Type}

/-- The sum of what a computation in words gives for each item of a list, added up in a word of 32
bits. -/
def sumInWord? (f : α → Option Nat) (as : List α) : Option Nat :=
  as.foldlM (fun total a => (f a).bind fun n => word? 32 (total + n)) 0

/-- If the whole sum fits a word, every partial sum does. -/
theorem foldlM_sumInWord? {f : α → Option Nat} {g : α → Nat} {as : List α} {total : Nat}
    (hf : ∀ a ∈ as, f a = some (g a)) (h : total + (as.map g).sum < 2 ^ 32) :
    as.foldlM (fun total a => (f a).bind fun n => word? 32 (total + n)) total
      = some (total + (as.map g).sum) := by
  induction as generalizing total with
  | nil => rfl
  | cons a as ih =>
    obtain ⟨ha, has⟩ := List.forall_mem_cons.mp hf
    rw [List.map_cons, List.sum_cons, ← Nat.add_assoc] at h ⊢
    have hpartial : total + g a < 2 ^ 32 := Nat.lt_of_le_of_lt (Nat.le_add_right _ _) h
    rw [List.foldlM_cons, ha, Option.bind_some, word?_add hpartial, Option.bind_eq_bind,
      Option.bind_some]
    exact ih has h

theorem sumInWord?_eq {f : α → Option Nat} {g : α → Nat} {as : List α}
    (hf : ∀ a ∈ as, f a = some (g a)) (h : (as.map g).sum < 2 ^ 32) :
    sumInWord? f as = some (as.map g).sum := by
  rw [← Nat.zero_add (as.map g).sum] at h ⊢
  exact foldlM_sumInWord? hf h

theorem sumInWord?_some {g : α → Nat} {as : List α} (h : (as.map g).sum < 2 ^ 32) :
    sumInWord? (fun a => some (g a)) as = some (as.map g).sum :=
  sumInWord?_eq (fun _ _ => rfl) h

end Words

/-! ### Lengths -/

/-- The bytes that a payload takes, computed in words. -/
def Payload.encodedLength? (variant : Variant) : Payload → Option Nat
  | ridgeCounts b => do
    let counts ← word? 32 ((3 : Nat) * b.counts.length)
    word? 32 ((1 : Nat) + counts)
  | landmarks b => do
    let cores ← sumInWord? (fun c => some (if b.coreIsAngular variant c then 5 else 4)) b.cores
    let deltas ← sumInWord? (fun d => some (if b.deltaIsAngular variant d then 7 else 4)) b.deltas
    let listed ← word? 32 ((2 : Nat) + cores)
    word? 32 (listed + deltas)
  | raw _ data => word? 32 data.length

/-- The lengths that the records of a block declare together, added up in a word. -/
def ExtendedBlock.recordsLength? (b : ExtendedBlock) : Option Nat :=
  sumInWord? (fun d => some d.length.toNat) b.records

/-- The bytes that a view takes in a variant, computed in words. -/
def FingerView.encodedLength? (v : FingerView) (variant : Variant) : Option Nat := do
  let count ← word? 32 v.minutiae.length
  let minutiae ← word? 32 (count * variant.minutiaLength)
  if variant.isCard then
    return minutiae
  else
    let headed ← word? 32 (Layout.viewHeader.width + minutiae)
    let framed ← word? 32 (headed + Layout.half.width)
    word? 32 (framed + (v.extended.elim 0 fun b => b.blockLength.toNat))

/-- The bytes that a record takes, computed in words. An ANSI record has the short header if its
length then fits the short record length. -/
def Record.computedLength? (r : Record) : Option Nat := do
  let body ← sumInWord? (fun v => v.encodedLength? r.variant) r.views
  match r.variant with
  | .ansi =>
    let short ← word? 32 (ansiHeaderLength + body)
    if short < 2 ^ 16 then return short else word? 32 (ansiLongHeaderLength + body)
  | .iso => word? 32 (isoHeaderLength + body)
  | .isoNormalCard | .isoCompactCard => return body

/-- Every length of the record that can be asked for is computed in words as it is without them: no
count, product or sum on the way is too large. -/
structure Record.LengthsFit (r : Record) : Prop where
  computed : r.computedLength? = some r.computedLength
  views : ∀ v ∈ r.views, ∀ variant, v.encodedLength? variant = some (v.encodedLength variant)
  blocks : ∀ v ∈ r.views, ∀ b ∈ v.extended, b.recordsLength? = some b.recordsLength
  payloads : ∀ v ∈ r.views, ∀ b ∈ v.extended, ∀ d ∈ b.records, ∀ variant,
    d.payload.encodedLength? variant = some (d.payloadLength variant)

/-! ### Lists that can be announced -/

/-- The lists of a payload are no longer than the length of its record or their own counts can
say. -/
def Payload.Announceable : Payload → Prop
  | ridgeCounts b => b.counts.length < 2 ^ 16
  | landmarks b => b.cores.length ≤ 15 ∧ b.deltas.length ≤ 63
  | raw _ data => data.length < 2 ^ 16

/-- The records of a block declare together no more than the block. -/
structure ExtendedBlock.Announceable (b : ExtendedBlock) : Prop where
  recordsLength_le : b.recordsLength ≤ b.blockLength.toNat
  payloads : ∀ d ∈ b.records, d.payload.Announceable

/-- A byte can count the minutiae of a view. -/
structure FingerView.Announceable (v : FingerView) : Prop where
  minutiae_length : v.minutiae.length ≤ 255
  extended : ∀ b ∈ v.extended, b.Announceable

/-- A byte can count the views of a record. -/
structure Record.Announceable (r : Record) : Prop where
  views_length : r.views.length ≤ 255
  views : ∀ v ∈ r.views, v.Announceable

/-- Sizes of at most `n` bytes each add up to at most `n` times their number. -/
theorem sum_map_ite_le {α : Type} (angular : α → Bool) {n : Nat} (h : 4 ≤ n) (as : List α) :
    (as.map fun a => if angular a then n else 4).sum ≤ as.length * n := by
  have hle : ∀ k ∈ as.map fun a => if angular a then n else 4, k ≤ n := by
    intro k hk
    obtain ⟨a, -, rfl⟩ := List.mem_map.mp hk
    split
    · exact Nat.le_refl n
    · exact h
  simpa using List.sum_le_card_nsmul _ n hle

theorem Payload.Announceable.encodedLength?_eq {p : Payload} (h : p.Announceable)
    (variant : Variant) : p.encodedLength? variant = some (p.encodedLength variant) := by
  cases p with
  | ridgeCounts b =>
    change b.counts.length < 2 ^ 16 at h
    have hcounts : word? 32 ((3 : Nat) * b.counts.length) = some (3 * b.counts.length) :=
      word?_mul (by omega)
    have hall : word? 32 ((1 : Nat) + (3 * b.counts.length : Nat))
        = some (1 + 3 * b.counts.length) := word?_add (by omega)
    rw [encodedLength?, encodedLength, hcounts, Option.bind_eq_bind, Option.bind_some, hall]
  | landmarks b =>
    obtain ⟨hcores, hdeltas⟩ := h
    have hcoreBytes := sum_map_ite_le (b.coreIsAngular variant) (by decide : 4 ≤ 5) b.cores
    have hdeltaBytes := sum_map_ite_le (b.deltaIsAngular variant) (by decide : 4 ≤ 7) b.deltas
    have hcoreSum := sumInWord?_some
      (Nat.lt_of_le_of_lt hcoreBytes (by omega : b.cores.length * 5 < 2 ^ 32))
    have hdeltaSum := sumInWord?_some
      (Nat.lt_of_le_of_lt hdeltaBytes (by omega : b.deltas.length * 7 < 2 ^ 32))
    rw [encodedLength?, encodedLength, Landmarks.encodedLength, hcoreSum, Option.bind_eq_bind,
      Option.bind_some, hdeltaSum, Option.bind_some, word?_add (by omega), Option.bind_some,
      word?_add (by omega)]
  | raw typeId data =>
    change data.length < 2 ^ 16 at h
    exact word?_natCast (by omega)

theorem ExtendedBlock.Announceable.recordsLength?_eq {b : ExtendedBlock} (h : b.Announceable) :
    b.recordsLength? = some b.recordsLength := by
  have hlt : b.recordsLength < 2 ^ 32 :=
    Nat.lt_of_le_of_lt h.recordsLength_le (Nat.lt_trans b.blockLength.toNat_lt (by decide))
  exact sumInWord?_some hlt

namespace FingerView

variable {v w : FingerView}

/-- A view takes no more bytes than this: its frame, 255 minutiae of six bytes and a block, the
length of which is announced in two. -/
def maxLength : Nat :=
  frameLength + 255 * 6 + 2 ^ 16

theorem minutiaeBytes_le (h : v.minutiae.length ≤ 255) (variant : Variant) :
    v.minutiae.length * variant.minutiaLength ≤ 255 * 6 := by
  have hwidth : variant.minutiaLength ≤ 6 := by cases variant <;> decide
  exact Nat.mul_le_mul h hwidth

/-- The bytes of the extended data are announced in two. -/
theorem extendedBytes_lt (v : FingerView) :
    (v.extended.elim 0 fun b => b.blockLength.toNat) < 2 ^ 16 := by
  cases v.extended with
  | none => exact Nat.two_pow_pos 16
  | some b => exact b.blockLength.toNat_lt

theorem encodedLength_le_maxLength (h : v.minutiae.length ≤ 255) (variant : Variant) :
    v.encodedLength variant ≤ maxLength := by
  have hminutiae := minutiaeBytes_le h variant
  have hextended := v.extendedBytes_lt
  have hmost : maxLength = 6 + 255 * 6 + 2 ^ 16 := rfl
  have hframe : frameLength = 6 := rfl
  unfold encodedLength
  dsimp only
  split
  · omega
  · omega

theorem encodedLength?_eq (h : v.minutiae.length ≤ 255) (variant : Variant) :
    v.encodedLength? variant = some (v.encodedLength variant) := by
  have hminutiae := minutiaeBytes_le h variant
  have hextended := v.extendedBytes_lt
  have hheader : Layout.viewHeader.width = 4 := rfl
  have hhalf : Layout.half.width = 2 := rfl
  rw [encodedLength?, encodedLength]
  generalize (v.extended.elim 0 fun b => b.blockLength.toNat) = block at *
  rw [word?_natCast (by omega), Option.bind_eq_bind, Option.bind_some, word?_mul (by omega),
    Option.bind_some]
  split
  · rfl
  · rw [word?_add (by omega), Option.bind_some, word?_add (by omega), Option.bind_some,
      word?_add (by omega), hheader, hhalf, frameLength]
    congr 1
    omega

end FingerView

namespace Record

variable {r : Record}

theorem Announceable.bodyLength_le (h : r.Announceable) :
    r.bodyLength ≤ 255 * FingerView.maxLength :=
  Record.bodyLength_le h.views_length fun v hv =>
    FingerView.encodedLength_le_maxLength (h.views v hv).minutiae_length r.variant

theorem Announceable.computedLength?_eq (h : r.Announceable) :
    r.computedLength? = some r.computedLength := by
  have hbody : r.bodyLength ≤ 255 * (4 + 2 + 255 * 6 + 2 ^ 16) := h.bodyLength_le
  have hsum : sumInWord? (fun v => v.encodedLength? r.variant) r.views = some r.bodyLength :=
    sumInWord?_eq (fun v hv => FingerView.encodedLength?_eq (h.views v hv).minutiae_length _)
      (by rw [← bodyLength]; omega)
  have hheaders : ansiHeaderLength = 26 ∧ ansiLongHeaderLength = 30 ∧ isoHeaderLength = 24 :=
    ⟨rfl, rfl, rfl⟩
  rw [computedLength?, computedLength, hsum, Option.bind_eq_bind, Option.bind_some]
  cases r.variant with
  | ansi =>
    dsimp only
    rw [word?_add (by omega), Option.bind_some]
    split
    · rfl
    · exact word?_add (by omega)
  | iso => exact word?_add (by omega)
  | isoNormalCard | isoCompactCard => rfl

/-- **Lengths fit.** -/
theorem Announceable.lengthsFit (h : r.Announceable) : r.LengthsFit where
  computed := h.computedLength?_eq
  views v hv := FingerView.encodedLength?_eq (h.views v hv).minutiae_length
  blocks v hv b hb := ((h.views v hv).extended b hb).recordsLength?_eq
  payloads v hv b hb d hd := (((h.views v hv).extended b hb).payloads d hd).encodedLength?_eq

end Record

/-! ### Conversions and selections -/

/-- A view without extended data has only its minutiae to count. -/
theorem FingerView.announceable_of_bare {v : FingerView} (hlength : v.minutiae.length ≤ 255)
    (hbare : v.extended = none) : v.Announceable where
  minutiae_length := hlength
  extended := by
    intro b hb
    rw [hbare] at hb
    cases hb

theorem FingerView.Announceable.convert {source target : Variant} {resolution : Resolution}
    {v c : FingerView} (h : v.Announceable) (hc : v.convert source target resolution = .ok c) :
    c.Announceable := by
  refine announceable_of_bare ?_ (extended_of_convert hc)
  obtain ⟨minutiae, hminutiae, rfl⟩ := convert_eq_ok_iff.mp hc
  show minutiae.length ≤ 255
  rw [length_of_mapM hminutiae]
  exact h.minutiae_length

theorem FingerView.Announceable.select {limit : Option Nat} {v w : FingerView} (h : v.Announceable)
    (hw : v.SelectsTo limit w) : w.Announceable :=
  announceable_of_bare (Nat.le_trans hw.minutiae.length_le h.minutiae_length) hw.extended

namespace Record

variable {r : Record}

theorem Announceable.convert {target : Variant} {asked : Option Resolution} {c : Record}
    (h : r.Announceable) (hc : r.convert target asked = .ok c) : c.Announceable := by
  obtain ⟨-, -, -, views, hviews, rfl⟩ := convert_eq_ok_iff.mp hc
  constructor
  · show views.length ≤ 255
    rw [length_of_mapM hviews]
    exact h.views_length
  · exact forall_mem_of_mapM hviews h.views fun _ _ hv hc => hv.convert hc

theorem Announceable.select {limit : Option Nat} {s : Record} (h : r.Announceable)
    (hs : r.SelectsTo limit s) : s.Announceable := by
  constructor
  · rw [← hs.views.length_eq]
    exact h.views_length
  · exact forall_mem_of_forall₂ hs.views h.views fun _ _ hv hw => hv.select hw

/-- The records that conversions and selections build from a record, one after the other. -/
inductive BuiltFrom (r : Record) : Record → Prop where
  | refl : BuiltFrom r r
  | convert {target : Variant} {asked : Option Resolution} {before after : Record}
    (built : BuiltFrom r before) (converts : before.convert target asked = .ok after) :
    BuiltFrom r after
  | select {γ : Type} (shuffler : Shuffler γ) (selection : Selection) (limit : Option Nat) (g : γ)
    {before : Record} (built : BuiltFrom r before) :
    BuiltFrom r (before.select shuffler selection limit g).1

/-- **Conversions and selections** leave nothing to be announced that could not be before. -/
theorem BuiltFrom.announceable {c : Record} (hc : BuiltFrom r c) (h : r.Announceable) :
    c.Announceable := by
  induction hc with
  | refl => exact h
  | convert _ converts ih => exact ih.convert converts
  | select shuffler selection limit g _ ih =>
    exact ih.select (selectsTo_select shuffler selection limit g _)

end Record

end FingerMinutiae
