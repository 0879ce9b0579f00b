import FingerMinutiae.Conformance.Check
import Mathlib.Data.List.Forall2

/-!
# View numbers run from zero

The check judges every view against a table with the number expected next for each finger position.
It is a running check: the table changes as views are passed, and a number that is out of sequence
leaves it as it was. What it decides has no table in it. No view is out of sequence exactly if the
numbers of each position are 0, 1, 2, … in file order, however the positions are interleaved.

The table cannot count past 255. So the two agree for up to 256 views of a position, and a record
cannot announce more than 255 views in all.

## Main definitions

* `numbersOf`: the view numbers of a finger position.

## Main results

* `map_viewNumber_eq_expectedNumbers_iff`: when all views have the number expected of them.
-/

namespace FingerMinutiae

/-- The numbers of the views of a finger position, in file order. -/
def numbersOf (position : UInt8) (vs : List FingerView) : List Nat :=
  (vs.filter fun v => v.position = position).map fun v => v.viewNumber.toNat

@[simp] theorem numbersOf_nil (position : UInt8) : numbersOf position [] = [] := rfl

theorem numbersOf_cons_self (v : FingerView) (vs : List FingerView) :
    numbersOf v.position (v :: vs) = v.viewNumber.toNat :: numbersOf v.position vs := by
  simp [numbersOf]

theorem numbersOf_cons_of_ne {position : UInt8} {v : FingerView} (h : position ≠ v.position)
    (vs : List FingerView) : numbersOf position (v :: vs) = numbersOf position vs := by
  simp [numbersOf, Ne.symm h]

theorem length_numbersOf_le (position : UInt8) (vs : List FingerView) :
    (numbersOf position vs).length ≤ vs.length := by
  rw [numbersOf, List.length_map]
  exact List.length_filter_le _ _

@[simp] theorem length_expectedNumbers (next : UInt8 → UInt8) (vs : List FingerView) :
    (expectedNumbers next vs).length = vs.length := by
  induction vs generalizing next with
  | nil => rfl
  | cons v vs ih => simp [expectedNumbers, ih]

/-- Views of the same positions with the same numbers. -/
theorem numbersOf_congr {vs ws : List FingerView}
    (h : List.Forall₂ (fun v w => w.position = v.position ∧ w.viewNumber = v.viewNumber) vs ws)
    (position : UInt8) : numbersOf position ws = numbersOf position vs := by
  induction h with
  | nil => rfl
  | @cons v w vs ws hhead _ ih =>
    obtain ⟨hposition, hnumber⟩ := hhead
    by_cases hv : position = v.position
    · subst hv
      rw [← hposition, numbersOf_cons_self, hposition, numbersOf_cons_self, hnumber, ih]
    · have hw : position ≠ w.position := by rwa [hposition]
      rw [numbersOf_cons_of_ne hv, numbersOf_cons_of_ne hw, ih]

theorem numbersOf_eq_range_congr {vs ws : List FingerView}
    (h : List.Forall₂ (fun v w => w.position = v.position ∧ w.viewNumber = v.viewNumber) vs ws)
    {position : UInt8}
    (hrange : numbersOf position vs = List.range (numbersOf position vs).length) :
    numbersOf position ws = List.range (numbersOf position ws).length := by
  rwa [numbersOf_congr h position]

/-- The table after a view that has the number expected of it. -/
def advance (next : UInt8 → UInt8) (position : UInt8) : UInt8 → UInt8 := fun p =>
  if p = position then nextNumber (next position) else next p

theorem expectedNumbers_cons_of_eq {next : UInt8 → UInt8} {v : FingerView}
    (h : v.viewNumber = next v.position) (vs : List FingerView) :
    expectedNumbers next (v :: vs)
      = next v.position :: expectedNumbers (advance next v.position) vs := by
  rw [expectedNumbers, if_pos h]
  rfl

/-- Where `count` more views follow the expected one, the numbers after it run on, as long as they
fit a byte. -/
theorem range'_nextNumber {n : UInt8} {count : Nat} (h : n.toNat + (count + 1) ≤ 256) :
    List.range' (nextNumber n).toNat count = List.range' (n.toNat + 1) count ∧
      (nextNumber n).toNat + count ≤ 256 := by
  by_cases hn : n = 255
  · subst hn
    obtain rfl : count = 0 := by
      have hlast : (255 : UInt8).toNat = 255 := rfl
      omega
    exact ⟨rfl, by decide⟩
  · have hlt : n.toNat ≠ 255 := fun heq => hn (UInt8.toNat_inj.mp heq)
    have hnext : (nextNumber n).toNat = n.toNat + 1 := by
      rw [nextNumber, if_neg hn, UInt8.toNat_add]
      have hone : (1 : UInt8).toNat = 1 := rfl
      omega
    rw [hnext]
    exact ⟨rfl, by omega⟩

/-- **When all views are in sequence.** The numbers are those expected exactly if for each position
they count on from the number that the table has for it. -/
theorem map_viewNumber_eq_expectedNumbers_iff {next : UInt8 → UInt8} {vs : List FingerView}
    (h : ∀ position, (next position).toNat + (numbersOf position vs).length ≤ 256) :
    vs.map (fun v => v.viewNumber) = expectedNumbers next vs ↔
      ∀ position, numbersOf position vs
        = List.range' (next position).toNat (numbersOf position vs).length := by
  induction vs generalizing next with
  | nil => simp [expectedNumbers]
  | cons v vs ih =>
    have hself := h v.position
    rw [numbersOf_cons_self, List.length_cons] at hself
    by_cases hv : v.viewNumber = next v.position
    · obtain ⟨hrange, hbound⟩ := range'_nextNumber hself
      have hadvance : ∀ position, (advance next v.position position).toNat
          + (numbersOf position vs).length ≤ 256 := by
        intro position
        by_cases hposition : position = v.position
        · subst hposition
          simpa [advance] using hbound
        · have hother := h position
          rw [numbersOf_cons_of_ne hposition] at hother
          simpa [advance, hposition] using hother
      rw [expectedNumbers_cons_of_eq hv, List.map_cons, List.cons.injEq, ih hadvance,
        and_iff_right hv]
      refine forall_congr' fun position => ?_
      by_cases hposition : position = v.position
      · subst hposition
        rw [numbersOf_cons_self, List.length_cons, List.range'_succ, List.cons.injEq, hv,
          and_iff_right rfl, ← hrange]
        simp [advance]
      · rw [numbersOf_cons_of_ne hposition]
        simp [advance, hposition]
    · -- A first number that is not expected is not the one its position has to open with.
      constructor
      · intro heq
        rw [expectedNumbers, List.map_cons, List.cons.injEq] at heq
        exact absurd heq.1 hv
      · intro hall
        have hfirst := hall v.position
        rw [numbersOf_cons_self, List.length_cons, List.range'_succ, List.cons.injEq] at hfirst
        exact absurd (UInt8.toNat_inj.mp hfirst.1) hv

end FingerMinutiae
