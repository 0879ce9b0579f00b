import FingerMinutiae.Proofs.Encoding.Lengths

/-!
# What is left of a record that is cut short

When bytes end within a record, what can be read of it is the nodes that are whole so far, and of
each node around the end the fields that were reached. `Record.truncate` says what that is from the
record and the number of bytes alone, without reading any. Nothing is guessed: fields and entries
that were not reached are as in an empty node, and the nodes around the end are marked.

A record may be cut that was cut before. A node that is marked is not whole however many bytes there
are, so of a marked node another one is left that is marked.

## Main definitions

* `truncateList`: the items that are whole, and what is left of the next.
* `Payload.truncate`, `ExtendedRecord.truncate`, `ExtendedBlock.truncate`, `FingerView.truncate`,
  `Record.truncate`.

## Main results

* `wholeItems_const`: of items of one size.
-/

namespace FingerMinutiae

/-! ### Lists -/

section Lists

variable {α : Type} {size : α → Nat} {whole : α → Bool} {part : Nat → α → Option α}

/-- The items of a list that are whole in its first `k` bytes, and what `part` leaves of the item
in which these bytes end. -/
def truncateList (size : α → Nat) (whole : α → Bool) (part : Nat → α → Option α) :
    Nat → List α → List α
  | _, [] => []
  | k, a :: as =>
    if whole a ∧ size a ≤ k then a :: truncateList size whole part (k - size a) as
    else (part k a).toList

/-- The items of a list that are whole in its first `k` bytes, when nothing is left of others. -/
def wholeItems (size : α → Nat) : Nat → List α → List α :=
  truncateList size (fun _ => true) fun _ _ => none

@[simp] theorem truncateList_nil (k : Nat) : truncateList size whole part k [] = [] := rfl

theorem truncateList_cons_of_whole {k : Nat} {a : α} (as : List α) (h : whole a = true) :
    truncateList size whole part (size a + k) (a :: as)
      = a :: truncateList size whole part k as := by
  rw [truncateList, if_pos ⟨h, Nat.le_add_right _ _⟩, Nat.add_sub_cancel_left]

theorem truncateList_cons_of_short {k : Nat} {a : α} (as : List α)
    (h : whole a = true → k < size a) :
    truncateList size whole part k (a :: as) = (part k a).toList := by
  rw [truncateList, if_neg]
  rintro ⟨hwhole, hle⟩
  exact absurd hle (Nat.not_le_of_lt (h hwhole))

/-- Nothing is left of items of which the first has more bytes than there are. -/
theorem truncateList_eq_nil {k : Nat} {as : List α} (hsize : ∀ a ∈ as, k < size a)
    (hpart : ∀ a, part k a = none) : truncateList size whole part k as = [] := by
  cases as with
  | nil => rfl
  | cons a as =>
    rw [truncateList_cons_of_short as fun _ => hsize a List.mem_cons_self, hpart]
    rfl

/-- Of items of one size as many are whole as fit. -/
theorem wholeItems_const {n : Nat} (hn : 0 < n) (k : Nat) (as : List α) :
    wholeItems (fun _ => n) k as = as.take (k / n) := by
  induction as generalizing k with
  | nil => simp [wholeItems]
  | cons a as ih =>
    by_cases hk : n ≤ k
    · obtain ⟨j, rfl⟩ := Nat.exists_eq_add_of_le hk
      have hdiv : (n + j) / n = j / n + 1 := by rw [Nat.add_comm, Nat.add_div_right j hn]
      rw [hdiv, List.take_succ_cons, ← ih j]
      exact truncateList_cons_of_whole as rfl
    · rw [Nat.div_eq_of_lt (Nat.lt_of_not_le hk), List.take_zero]
      exact truncateList_cons_of_short as fun _ => Nat.lt_of_not_le hk

/-- All items are whole when there are bytes for all of them. -/
theorem wholeItems_of_le {k : Nat} {as : List α} (h : (as.map size).sum ≤ k) :
    wholeItems size k as = as := by
  induction as generalizing k with
  | nil => rfl
  | cons a as ih =>
    rw [List.map_cons, List.sum_cons] at h
    obtain ⟨j, rfl⟩ := Nat.exists_eq_add_of_le (Nat.le_trans (Nat.le_add_right _ _) h)
    rw [wholeItems, truncateList_cons_of_whole as rfl]
    exact congrArg (a :: ·) (ih (Nat.le_of_add_le_add_left h))

end Lists

/-! ### Extended data -/

/-- Ridge counts of which the first `k` bytes are there. -/
def RidgeCounts.truncate (k : Nat) (b : RidgeCounts) : RidgeCounts where
  method := if 1 ≤ k then b.method else 0
  counts := b.counts.take ((k - 1) / 3)

/-- Cores and deltas of which the first `k` bytes are there. The deltas open behind the last
core. -/
def Landmarks.truncate (variant : Variant) (k : Nat) (b : Landmarks) : Landmarks :=
  let deltasStart := 1 + (b.cores.map (b.coreLength variant)).sum
  { coreType := if 1 ≤ k then b.coreType else 0
    numCores := if 1 ≤ k then b.numCores else 0
    cores := wholeItems (b.coreLength variant) (k - 1) b.cores
    deltaType := if deltasStart + 1 ≤ k then b.deltaType else 0
    numDeltas := if deltasStart + 1 ≤ k then b.numDeltas else 0
    deltas := wholeItems (b.deltaLength variant) (k - (deltasStart + 1)) b.deltas }

namespace Landmarks

variable {k : Nat} {b : Landmarks}

theorem coreLength_pos (variant : Variant) (b : Landmarks) (c : Core) :
    0 < b.coreLength variant c := by
  rw [coreLength]
  split <;> decide

theorem deltaLength_pos (variant : Variant) (b : Landmarks) (d : Delta) :
    0 < b.deltaLength variant d := by
  rw [deltaLength]
  split <;> decide

theorem truncate_zero (variant : Variant) (b : Landmarks) : b.truncate variant 0 = {} := by
  have hcores : wholeItems (b.coreLength variant) 0 b.cores = [] :=
    truncateList_eq_nil (fun c _ => b.coreLength_pos variant c) fun _ => rfl
  have hdeltas : wholeItems (b.deltaLength variant) 0 b.deltas = [] :=
    truncateList_eq_nil (fun d _ => b.deltaLength_pos variant d) fun _ => rfl
  simp [truncate, hcores, hdeltas]

/-- Nothing is left of the deltas when the bytes end before them, or when there were none. -/
theorem truncate_of_cores (variant : Variant) (hk : 1 ≤ k)
    (h : k ≤ 1 + (b.cores.map (b.coreLength variant)).sum ∨
      b.deltaType = 0 ∧ b.numDeltas = 0 ∧ b.deltas = []) :
    b.truncate variant k =
      { coreType := b.coreType
        numCores := b.numCores
        cores := wholeItems (b.coreLength variant) (k - 1) b.cores } := by
  rw [truncate, if_pos hk, if_pos hk]
  rcases h with h | ⟨htype, hcount, hdeltas⟩
  · have hsub : k - (1 + (b.cores.map (b.coreLength variant)).sum + 1) = 0 := by omega
    have hdeltas : wholeItems (b.deltaLength variant) 0 b.deltas = [] :=
      truncateList_eq_nil (fun d _ => b.deltaLength_pos variant d) fun _ => rfl
    rw [if_neg (by omega), if_neg (by omega), hsub, hdeltas]
  · simp only [htype, hcount, hdeltas, ite_self]
    rfl

/-- All cores are left when the bytes end within the deltas. -/
theorem truncate_of_deltas (variant : Variant) (j : Nat) (b : Landmarks) :
    b.truncate variant (1 + (b.cores.map (b.coreLength variant)).sum + 1 + j) =
      { b with deltas := wholeItems (b.deltaLength variant) j b.deltas } := by
  have hcores : wholeItems (b.coreLength variant)
      (1 + (b.cores.map (b.coreLength variant)).sum + 1 + j - 1) b.cores = b.cores :=
    wholeItems_of_le (by omega)
  simp only [truncate, hcores, Nat.add_sub_cancel_left]
  rw [if_pos (by omega), if_pos (by omega), if_pos (by omega), if_pos (by omega)]

end Landmarks

/-- A payload of which the first `k` bytes are there, but not all. Nothing is left of data that is
kept as it is. -/
def Payload.truncate (variant : Variant) (k : Nat) : Payload → Payload
  | ridgeCounts b => ridgeCounts (b.truncate k)
  | landmarks b => landmarks (b.truncate variant k)
  | raw typeId _ => raw typeId []

/-- An extended data record of which the first `k` bytes are there, but not all. Nothing is left
when its header is not there. -/
def ExtendedRecord.truncate (variant : Variant) (k : Nat) (d : ExtendedRecord) :
    Option ExtendedRecord :=
  if headerLength ≤ k then
    some { d with payload := d.payload.truncate variant (k - headerLength), truncated := true }
  else none

/-- The extended data records that are whole, and what is left of the next. -/
def ExtendedRecord.truncateAll (variant : Variant) :
    Nat → List ExtendedRecord → List ExtendedRecord :=
  truncateList (fun d => d.length.toNat) (fun d => !d.truncated) (ExtendedRecord.truncate variant)

namespace ExtendedRecord

variable {variant : Variant} {k : Nat}

/-- Nothing is left when the bytes end within the header of the first record. -/
theorem truncateAll_of_lt {ds : List ExtendedRecord} (hk : k < 4)
    (hroom : ∀ d ∈ ds, 4 ≤ d.length.toNat) : truncateAll variant k ds = [] := by
  refine truncateList_eq_nil ?_ ?_
  · intro d hd
    exact Nat.lt_of_lt_of_le hk (hroom d hd)
  · intro d
    exact if_neg (Nat.not_le_of_lt hk)

/-- The payload of the first record is cut short when the bytes end within it. -/
theorem truncateAll_of_payload {d : ExtendedRecord} (ds : List ExtendedRecord)
    (h : d.truncated = false → 4 + k < d.length.toNat) :
    truncateAll variant (4 + k) (d :: ds)
      = [{ d with payload := d.payload.truncate variant k, truncated := true }] := by
  rw [truncateAll, truncateList_cons_of_short, truncate, headerLength,
    if_pos (Nat.le_add_right _ _), Nat.add_sub_cancel_left]
  · rfl
  · intro hwhole
    exact h (by simpa using hwhole)

theorem truncateAll_of_whole {d : ExtendedRecord} (ds : List ExtendedRecord)
    (h : d.truncated = false) :
    truncateAll variant (d.length.toNat + k) (d :: ds) = d :: truncateAll variant k ds :=
  truncateList_cons_of_whole ds (by simp [h])

end ExtendedRecord

/-- A block of which the first `k` bytes behind its length are there, but not all. -/
def ExtendedBlock.truncate (variant : Variant) (k : Nat) (b : ExtendedBlock) : ExtendedBlock :=
  { b with records := ExtendedRecord.truncateAll variant k b.records, truncated := true }

/-! ### Views and records -/

/-- A view of which the first `k` bytes are there, but not all. Nothing is left when there is not
one. -/
def FingerView.truncate (variant : Variant) (k : Nat) (v : FingerView) : Option FingerView :=
  let blockStart := frameLength + v.minutiae.length * variant.minutiaLength
  if k = 0 then none
  else some
    { toViewHeader := if 4 ≤ k then v.toViewHeader else {}
      minutiae := v.minutiae.take ((k - 4) / variant.minutiaLength)
      extended :=
        if blockStart ≤ k then v.extended.map (ExtendedBlock.truncate variant (k - blockStart))
        else none
      truncated := true }

namespace FingerView

variable {variant : Variant}

/-- Of a view of which not the header is there, it is only left that there is one. -/
theorem truncate_of_lt {k : Nat} (hpos : 0 < k) (hlt : k < 4) (v : FingerView) :
    v.truncate variant k = some { truncated := true } := by
  have hzero : (k - 4) / variant.minutiaLength = 0 := by
    rw [Nat.sub_eq_zero_of_le (Nat.le_of_lt hlt), Nat.zero_div]
  have hblock : ¬ frameLength + v.minutiae.length * variant.minutiaLength ≤ k := by
    unfold frameLength
    omega
  simp only [truncate]
  rw [if_neg (Nat.ne_of_gt hpos), if_neg (Nat.not_le_of_lt hlt), if_neg hblock, hzero,
    List.take_zero]

/-- Only minutiae are left when the bytes end before the block, or when there was none. -/
theorem truncate_of_minutiae {k : Nat} {v : FingerView}
    (h : k < v.minutiae.length * variant.minutiaLength + 2 ∨ v.extended = none) :
    v.truncate variant (4 + k) = some
      { toViewHeader := v.toViewHeader
        minutiae := v.minutiae.take (k / variant.minutiaLength)
        truncated := true } := by
  have hextended : (if frameLength + v.minutiae.length * variant.minutiaLength ≤ 4 + k then
      v.extended.map (ExtendedBlock.truncate variant
        (4 + k - (frameLength + v.minutiae.length * variant.minutiaLength))) else none) = none := by
    rcases h with hlt | hnone
    · rw [if_neg]
      unfold frameLength
      omega
    · rw [hnone, Option.map_none, ite_self]
  simp only [truncate, hextended, Nat.add_sub_cancel_left]
  rw [if_neg (by omega), if_pos (by omega)]

/-- All minutiae are left when the bytes end within the block. -/
theorem truncate_of_block (hwidth : 0 < variant.minutiaLength) (k : Nat) (v : FingerView) :
    v.truncate variant (4 + (v.minutiae.length * variant.minutiaLength + (2 + k))) = some
      { v with
        extended := v.extended.map (ExtendedBlock.truncate variant k)
        truncated := true } := by
  have hstart : 4 + (v.minutiae.length * variant.minutiaLength + (2 + k))
      - (frameLength + v.minutiae.length * variant.minutiaLength) = k := by
    unfold frameLength
    omega
  have hminutiae : v.minutiae.take ((v.minutiae.length * variant.minutiaLength + (2 + k))
      / variant.minutiaLength) = v.minutiae := by
    apply List.take_of_length_le
    rw [Nat.le_div_iff_mul_le hwidth]
    exact Nat.le_add_right _ _
  simp only [truncate, hstart, Nat.add_sub_cancel_left, hminutiae]
  rw [if_neg (by omega), if_pos (by omega), if_pos (by unfold frameLength; omega)]

end FingerView

/-- The views that are whole, and what is left of the next. -/
def FingerView.truncateAll (variant : Variant) : Nat → List FingerView → List FingerView :=
  truncateList (fun v => v.encodedLength variant) (fun v => !v.truncated)
    (FingerView.truncate variant)

/-- Where the record length ends in a header. Behind it are the product identifier, which only ANSI
has, and the capture details. -/
def Record.lengthEnd (variant : Variant) (headerLength : Nat) : Nat :=
  headerLength - (if variant = .ansi then 16 else 12)

/-- A record of which the first `k` bytes are there, but not all, and of which the header has so
many. -/
def Record.truncate (headerLength k : Nat) (r : Record) : Record :=
  { variant := r.variant
    toIdentification := if 8 ≤ k then r.toIdentification else {}
    recordLength := if lengthEnd r.variant headerLength ≤ k then r.recordLength else 0
    toProduct := if headerLength - 12 ≤ k then r.toProduct else {}
    toCapture := if headerLength ≤ k then r.toCapture else {}
    views := FingerView.truncateAll r.variant (k - headerLength) r.views }

@[simp] theorem FingerView.truncateAll_nil (variant : Variant) (k : Nat) :
    truncateAll variant k [] = [] := rfl

namespace Record

variable {headerLength k : Nat} {r : Record}

theorem lengthEnd_le (variant : Variant) (headerLength : Nat) :
    lengthEnd variant headerLength ≤ headerLength - 12 := by
  rw [lengthEnd]
  split <;> omega

/-- Nothing is left when the bytes end within the identification. -/
theorem truncate_of_identification (hk : k < 8) (hheader : 24 ≤ headerLength)
    (hviews : r.views = []) : r.truncate headerLength k = empty r.variant := by
  have hid : ¬ 8 ≤ k := Nat.not_le_of_lt hk
  have hcapture : ¬ headerLength ≤ k := by omega
  have hproduct : ¬ headerLength - 12 ≤ k := by omega
  have hlength : ¬ lengthEnd r.variant headerLength ≤ k := by
    rw [lengthEnd]
    split <;> omega
  simp only [truncate, hviews, FingerView.truncateAll_nil, if_neg hid, if_neg hlength,
    if_neg hproduct, if_neg hcapture]
  rfl

/-- Only the identification is left when the bytes end within the record length. -/
theorem truncate_of_length (hk : 8 ≤ k) (hlt : k < lengthEnd r.variant headerLength)
    (hviews : r.views = []) :
    r.truncate headerLength k
      = { variant := r.variant, toIdentification := r.toIdentification } := by
  have hle := lengthEnd_le r.variant headerLength
  have hcapture : ¬ headerLength ≤ k := by omega
  have hproduct : ¬ headerLength - 12 ≤ k := by omega
  simp only [truncate, hviews, FingerView.truncateAll_nil, if_pos hk, if_neg (Nat.not_le_of_lt hlt),
    if_neg hproduct, if_neg hcapture]

/-- The product identifier is not left when the bytes end within it. -/
theorem truncate_of_product (hk : 8 ≤ k) (hle : lengthEnd r.variant headerLength ≤ k)
    (hlt : k < headerLength - 12) (hviews : r.views = []) :
    r.truncate headerLength k =
      { variant := r.variant
        toIdentification := r.toIdentification
        recordLength := r.recordLength } := by
  have hcapture : ¬ headerLength ≤ k := by omega
  simp only [truncate, hviews, FingerView.truncateAll_nil, if_pos hk, if_pos hle,
    if_neg (Nat.not_le_of_lt hlt), if_neg hcapture]

/-- The capture details are not left when the bytes end within them. -/
theorem truncate_of_capture (hk : 8 ≤ k) (hle : headerLength - 12 ≤ k) (hlt : k < headerLength)
    (hviews : r.views = []) :
    r.truncate headerLength k =
      { variant := r.variant
        toIdentification := r.toIdentification
        recordLength := r.recordLength
        toProduct := r.toProduct } := by
  have hlength := Nat.le_trans (lengthEnd_le r.variant headerLength) hle
  simp only [truncate, hviews, FingerView.truncateAll_nil, if_pos hk, if_pos hlength, if_pos hle,
    if_neg (Nat.not_le_of_lt hlt)]

/-- The whole header is left when the bytes end behind it. -/
theorem truncate_of_views (hk : 8 ≤ k) (hle : headerLength ≤ k) :
    r.truncate headerLength k =
      { r with views := FingerView.truncateAll r.variant (k - headerLength) r.views } := by
  have hproduct : headerLength - 12 ≤ k := by omega
  have hlength := Nat.le_trans (lengthEnd_le r.variant headerLength) hproduct
  simp only [truncate, if_pos hk, if_pos hlength, if_pos hproduct, if_pos hle]

/-- Views do not matter to what is left when the bytes end within the header. -/
theorem truncate_with_views (hheader : r.variant.hasHeader = true) (hlt : k < headerLength)
    (views : List FingerView) :
    truncate headerLength k { r with views } = truncate headerLength k { r with views := [] } := by
  have hpos : ∀ v : FingerView, 0 < v.encodedLength r.variant := by
    intro v
    simp only [FingerView.encodedLength, Variant.isCard, hheader, Bool.not_true, Bool.false_eq_true,
      if_false, FingerView.frameLength]
    omega
  have hviews : FingerView.truncateAll r.variant 0 views = [] :=
    truncateList_eq_nil (fun v _ => hpos v) fun _ => rfl
  simp only [truncate, Nat.sub_eq_zero_of_le (Nat.le_of_lt hlt), hviews,
    FingerView.truncateAll_nil]

end Record

end FingerMinutiae
