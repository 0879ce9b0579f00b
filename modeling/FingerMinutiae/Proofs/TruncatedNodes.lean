import FingerMinutiae.Proofs.Truncate

/-!
# What a truncated record has in common with the record

Some of a record may be known before all of it is there. A reader who has it does not know where the
bytes ended, and need not: the nodes tell. A node that is not marked is the node of the record. Of a
marked node, which is the last of its list, the fields agree up to one after which nothing was read,
and its entries are the first ones.

`Truncates` says so, node by node, and truncated nodes have it. How many bytes there were does not
occur in it, so it says less than `truncate`.

## Main definitions

* `ListTruncates`: lists of nodes.
* `Payload.Truncates`, `ExtendedRecord.Truncates`, `ExtendedBlock.Truncates`,
  `FingerView.Truncates`, `Record.Truncates`.

## Main results

* `Record.truncates_truncate`: what is left of a record when it is cut short.
-/

namespace FingerMinutiae

/-! ### Lists -/

section Lists

variable {α : Type}

/-- The items of the first list are those that open the second, only that the last of them may be
marked and then is a part of its item. -/
structure ListTruncates (marked : α → Bool) (Part : α → α → Prop) (as bs : List α) : Prop where
  whole : ∀ (i : Nat) a, as[i]? = some a → marked a = false → bs[i]? = some a
  last : ∀ (i : Nat) a, as[i]? = some a → marked a = true →
    i + 1 = as.length ∧ ∃ b, bs[i]? = some b ∧ Part a b

theorem listTruncates_truncateList {size : α → Nat} {whole marked : α → Bool}
    {part : Nat → α → Option α} {Part : α → α → Prop}
    (hwhole : ∀ a, whole a = true → marked a = false)
    (hpart : ∀ k a a', part k a = some a' → marked a' = true ∧ Part a' a) (k : Nat) (as : List α) :
    ListTruncates marked Part (truncateList size whole part k as) as := by
  induction as generalizing k with
  | nil => constructor <;> simp
  | cons a as ih =>
    rw [truncateList]
    split
    · next hkept =>
      obtain ⟨hsame, hlast⟩ := ih (k - size a)
      constructor
      · rintro (_ | i) b hb hmarked
        · exact hb
        · exact hsame i b hb hmarked
      · rintro (_ | i) b hb hmarked
        · cases hb
          rw [hwhole a hkept.1] at hmarked
          cases hmarked
        · obtain ⟨hlength, hb'⟩ := hlast i b hb hmarked
          exact ⟨congrArg (· + 1) hlength, hb'⟩
    · cases hleft : part k a with
      | none => constructor <;> simp
      | some b =>
        obtain ⟨hmarked, hb⟩ := hpart k a b hleft
        constructor
        · rintro (_ | i) b' hb' hwhole'
          · cases hb'
            rw [hmarked] at hwhole'
            cases hwhole'
          · cases hb'
        · rintro (_ | i) b' hb' -
          · cases hb'
            exact ⟨rfl, a, rfl, hb⟩
          · cases hb'

theorem wholeItems_prefix (size : α → Nat) (k : Nat) (as : List α) :
    wholeItems size k as <+: as := by
  induction as generalizing k with
  | nil => exact List.nil_prefix
  | cons a as ih =>
    rw [wholeItems, truncateList]
    split
    · exact (List.prefix_cons_inj a).mpr (ih _)
    · exact List.nil_prefix

end Lists

/-! ### Nodes -/

structure RidgeCounts.Truncates (a b : RidgeCounts) : Prop where
  method : a.method = b.method ∨ a = {}
  counts : a.counts <+: b.counts

/-- Fields agree as far as they were read; the others are as in an empty node. -/
structure Landmarks.Truncates (a b : Landmarks) : Prop where
  coresInfo : a.coreType = b.coreType ∧ a.numCores = b.numCores ∨ a = {}
  cores : a.cores <+: b.cores
  deltasInfo : a.deltaType = b.deltaType ∧ a.numDeltas = b.numDeltas ∧ a.cores = b.cores ∨
    a = { coreType := a.coreType, numCores := a.numCores, cores := a.cores }
  deltas : a.deltas <+: b.deltas

/-- The payloads are of one kind; of data that is kept as it is there is nothing. -/
inductive Payload.Truncates : Payload → Payload → Prop where
  | ridgeCounts {a b : RidgeCounts} (h : a.Truncates b) : Truncates (ridgeCounts a) (ridgeCounts b)
  | landmarks {a b : Landmarks} (h : a.Truncates b) : Truncates (landmarks a) (landmarks b)
  | raw (typeId : UInt16) (data : Bytes) : Truncates (raw typeId []) (raw typeId data)

structure ExtendedRecord.Truncates (a b : ExtendedRecord) : Prop where
  length : a.length = b.length
  payload : a.payload.Truncates b.payload
  truncated : a.truncated = true

structure ExtendedBlock.Truncates (a b : ExtendedBlock) : Prop where
  blockLength : a.blockLength = b.blockLength
  records : ListTruncates (·.truncated) ExtendedRecord.Truncates a.records b.records
  truncated : a.truncated = true

structure FingerView.Truncates (a b : FingerView) : Prop where
  header : a.toViewHeader = b.toViewHeader ∨ a = { truncated := true }
  minutiae : a.minutiae <+: b.minutiae
  extended : ∀ x ∈ a.extended, a.minutiae = b.minutiae ∧ ∃ y ∈ b.extended, x.Truncates y
  truncated : a.truncated = true

/-- Each part of the header agrees, or it was not read and neither was anything behind it. -/
structure Record.Truncates (a b : Record) : Prop where
  variant : a.variant = b.variant
  identification : a.toIdentification = b.toIdentification ∨ a = empty a.variant
  recordLength : a.recordLength = b.recordLength ∨
    a = { variant := a.variant, toIdentification := a.toIdentification }
  product : a.toProduct = b.toProduct ∨
    a = { variant := a.variant
          toIdentification := a.toIdentification
          recordLength := a.recordLength }
  capture : a.toCapture = b.toCapture ∨
    a = { variant := a.variant
          toIdentification := a.toIdentification
          recordLength := a.recordLength
          toProduct := a.toProduct }
  views : ListTruncates (·.truncated) FingerView.Truncates a.views b.views

/-! ### Truncated nodes -/

theorem RidgeCounts.truncates_truncate (k : Nat) (b : RidgeCounts) :
    (b.truncate k).Truncates b := by
  constructor
  · by_cases hk : 1 ≤ k
    · exact .inl (if_pos hk)
    · obtain rfl : k = 0 := by omega
      exact .inr (by simp [truncate])
  · exact List.take_prefix _ _

theorem Landmarks.truncates_truncate (variant : Variant) (k : Nat) (b : Landmarks) :
    (b.truncate variant k).Truncates b := by
  refine ⟨?_, wholeItems_prefix _ _ _, ?_, wholeItems_prefix _ _ _⟩
  · by_cases hk : 1 ≤ k
    · exact .inl ⟨if_pos hk, if_pos hk⟩
    · obtain rfl : k = 0 := by omega
      exact .inr (b.truncate_zero variant)
  · by_cases hk : 1 + (b.cores.map (b.coreLength variant)).sum + 1 ≤ k
    · obtain ⟨j, rfl⟩ := Nat.exists_eq_add_of_le hk
      rw [truncate_of_deltas]
      exact .inl ⟨rfl, rfl, rfl⟩
    · right
      by_cases hone : 1 ≤ k
      · rw [truncate_of_cores variant hone (.inl (by omega))]
      · obtain rfl : k = 0 := by omega
        rw [truncate_zero]

theorem Payload.truncates_truncate (variant : Variant) (k : Nat) (p : Payload) :
    (p.truncate variant k).Truncates p := by
  cases p with
  | ridgeCounts b => exact .ridgeCounts (b.truncates_truncate k)
  | landmarks b => exact .landmarks (b.truncates_truncate variant k)
  | raw typeId data => exact .raw typeId data

theorem ExtendedRecord.truncates_truncate {variant : Variant} {k : Nat} {d d' : ExtendedRecord}
    (h : d.truncate variant k = some d') : d'.truncated = true ∧ d'.Truncates d := by
  rw [truncate] at h
  split at h
  · cases h
    exact ⟨rfl, rfl, d.payload.truncates_truncate variant _, rfl⟩
  · cases h

theorem ExtendedBlock.truncates_truncate (variant : Variant) (k : Nat) (b : ExtendedBlock) :
    (b.truncate variant k).Truncates b := by
  refine ⟨rfl, listTruncates_truncateList ?_ ?_ k b.records, rfl⟩
  · simp
  · intro k d d' h
    exact ExtendedRecord.truncates_truncate h

theorem FingerView.truncates_truncate {variant : Variant} {k : Nat} {v v' : FingerView}
    (h : v.truncate variant k = some v') : v'.truncated = true ∧ v'.Truncates v := by
  have hpos : 0 < k := by
    apply Nat.pos_of_ne_zero
    intro hk
    rw [hk] at h
    cases h
  by_cases hlt : k < 4
  · rw [truncate_of_lt hpos hlt] at h
    cases h
    exact ⟨rfl, .inr rfl, List.nil_prefix, by simp, rfl⟩
  · by_cases hblock : 4 + (v.minutiae.length * variant.minutiaLength + 2) ≤ k
    · obtain ⟨j, rfl⟩ := Nat.exists_eq_add_of_le hblock
      rw [Nat.add_assoc, Nat.add_assoc, truncate_of_block (by cases variant <;> decide)] at h
      cases h
      refine ⟨rfl, .inl rfl, List.prefix_rfl, ?_, rfl⟩
      intro x hx
      obtain ⟨y, hy, rfl⟩ := Option.map_eq_some_iff.mp hx
      exact ⟨rfl, y, hy, y.truncates_truncate variant j⟩
    · obtain ⟨j, rfl⟩ := Nat.exists_eq_add_of_le (Nat.le_of_not_lt hlt)
      rw [truncate_of_minutiae (.inl (by omega))] at h
      cases h
      exact ⟨rfl, .inl rfl, List.take_prefix _ _, by simp, rfl⟩

/-- **Truncated records.** Whole views are kept, and the last one that was reached is a part of the
view in its place. -/
theorem Record.truncates_truncate {r : Record} (hheader : r.variant.hasHeader = true)
    {headerLength : Nat} (hlength : 24 ≤ headerLength) (k : Nat) :
    (r.truncate headerLength k).Truncates r := by
  have hle := lengthEnd_le r.variant headerLength
  have hviews : ListTruncates (·.truncated) FingerView.Truncates
      (r.truncate headerLength k).views r.views := by
    refine listTruncates_truncateList ?_ ?_ _ r.views
    · simp
    · intro k v v' h
      exact FingerView.truncates_truncate h
  have hcut : k < headerLength →
      r.truncate headerLength k = truncate headerLength k { r with views := [] } := fun hlt =>
    truncate_with_views hheader hlt r.views
  -- The bytes end in one of the four parts of the header, or behind it.
  by_cases hid : k < 8
  · have htruncate := (hcut (by omega)).trans (truncate_of_identification hid hlength rfl)
    rw [htruncate] at hviews ⊢
    exact ⟨rfl, .inr rfl, .inr rfl, .inr rfl, .inr rfl, hviews⟩
  replace hid := Nat.le_of_not_lt hid
  by_cases hlt : k < lengthEnd r.variant headerLength
  · have htruncate := (hcut (by omega)).trans (truncate_of_length hid hlt rfl)
    rw [htruncate] at hviews ⊢
    exact ⟨rfl, .inl rfl, .inr rfl, .inr rfl, .inr rfl, hviews⟩
  replace hlt := Nat.le_of_not_lt hlt
  by_cases hproduct : k < headerLength - 12
  · have htruncate := (hcut (by omega)).trans (truncate_of_product hid hlt hproduct rfl)
    rw [htruncate] at hviews ⊢
    exact ⟨rfl, .inl rfl, .inl rfl, .inr rfl, .inr rfl, hviews⟩
  replace hproduct := Nat.le_of_not_lt hproduct
  by_cases hcapture : k < headerLength
  · have htruncate := (hcut hcapture).trans (truncate_of_capture hid hproduct hcapture rfl)
    rw [htruncate] at hviews ⊢
    exact ⟨rfl, .inl rfl, .inl rfl, .inl rfl, .inr rfl, hviews⟩
  · have htruncate := truncate_of_views (r := r) hid (Nat.le_of_not_lt hcapture)
    rw [htruncate] at hviews ⊢
    exact ⟨rfl, .inl rfl, .inl rfl, .inl rfl, .inl rfl, hviews⟩

end FingerMinutiae
