import FingerMinutiae.Conformance.Check
import Mathlib.Data.List.Basic

/-!
# Reports

A report is put together from demands, each of which adds one violation or none. So whatever is said
of a report comes down to its demands: when it is empty, what all of its violations are like, and
whether a violation is among them.

## Main results

* `demand_eq_nil_iff`, `forall_mem_demand_iff`, `mem_demand_of_not`: a single demand.
* `flatMap_zipIdx_eq_nil_iff`, `forall_mem_flatMap_zipIdx`: the items of a list, each at its index.
* `flatMap_zipIdx_at`: what is left of a report when it is only asked about one index.
-/

namespace FingerMinutiae

section Demand

variable {condition : Prop} [Decidable condition] {place : Place} {breach : Breach}

/-- A demand reports nothing exactly if its condition holds. -/
@[simp] theorem demand_eq_nil_iff : demand condition place breach = [] ↔ condition := by
  unfold demand
  split <;> simp [*]

/-- What is true of all that a demand reports: it is true of its violation, or there is none. -/
theorem forall_mem_demand_iff {Q : Violation → Prop} :
    (∀ x ∈ demand condition place breach, Q x) ↔ condition ∨ Q ⟨place, breach⟩ := by
  unfold demand
  split <;> simp [*]

theorem mem_demand_of_not (h : ¬condition) (place : Place) (breach : Breach) :
    ⟨place, breach⟩ ∈ demand condition place breach := by
  simp [demand, h]

end Demand

section Lists

variable {α β : Type} {report : α × Nat → List β}

/-- A report on the items of a list at their indices is empty exactly if that on every item is. -/
theorem flatMap_zipIdx_eq_nil_iff {as : List α} {P : α → Prop}
    (h : ∀ a i, report (a, i) = [] ↔ P a) : as.zipIdx.flatMap report = [] ↔ ∀ a ∈ as, P a := by
  rw [List.flatMap_eq_nil_iff]
  constructor
  · intro hall a ha
    obtain ⟨i, hi, rfl⟩ := List.mem_iff_getElem.mp ha
    exact (h _ i).mp (hall (as[i], i) (List.mem_zipIdx_iff_getElem?.mpr (by simp [hi])))
  · rintro hall ⟨a, i⟩ hai
    exact (h a i).mpr (hall a (List.fst_mem_of_mem_zipIdx hai))

theorem forall_mem_flatMap_zipIdx {Q : β → Prop} {as : List α}
    (h : ∀ a ∈ as, ∀ i, ∀ x ∈ report (a, i), Q x) : ∀ x ∈ as.zipIdx.flatMap report, Q x := by
  intro x hx
  obtain ⟨⟨a, i⟩, hai, hx⟩ := List.mem_flatMap.mp hx
  exact h a (List.fst_mem_of_mem_zipIdx hai) i x hx

/-- A report in which only the item at one index has anything to say. -/
theorem flatMap_zipIdx_at {as : List α} {k i : Nat}
    (h : ∀ a j, j ≠ k + i → report (a, j) = []) :
    (as.zipIdx k).flatMap report
      = as[i]?.toList.flatMap fun a => report (a, k + i) := by
  induction as generalizing k i with
  | nil => simp
  | cons a as ih =>
    rw [List.zipIdx_cons, List.flatMap_cons]
    cases i with
    | zero =>
      have htail : (as.zipIdx (k + 1)).flatMap report = [] := by
        rw [List.flatMap_eq_nil_iff]
        intro x hx
        have hle := List.le_snd_of_mem_zipIdx hx
        exact h x.1 x.2 (by omega)
      simp [htail]
    | succ i =>
      have hk : k + 1 + i = k + (i + 1) := by omega
      rw [h a k (by omega), List.nil_append, List.getElem?_cons_succ, ← hk]
      exact ih fun a j hj => h a j (hk ▸ hj)

end Lists

end FingerMinutiae
