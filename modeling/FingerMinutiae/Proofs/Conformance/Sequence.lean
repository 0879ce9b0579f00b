import FingerMinutiae.Proofs.Conformance.ViewNumbers
import Mathlib.Data.List.FinRange
import Mathlib.Data.List.Sort

/-!
# What a view number is judged against

The check goes through all views and keeps a table with the number expected next for every finger
position. What it expects of one view is settled by much less: by the numbers of the views ahead of
it that are of its own position. They are counted as long as they are in sequence, and the count is
the number expected, or 255 when the count is larger.

So the table is a count for each position (`toNat_expectedNumbers`). A view that is out of sequence
is not counted and might as well not be there, and views of other positions do not matter, wherever
they stand in between.

## Main definitions

* `runLength`: how many of some numbers are in sequence.
* `Reorders`: the same views in another order, but for each position in the same.

## Main results

* `toNat_expectedNumbers`: what is expected of a view.
* `Reorders.numbersOf_take`: the numbers up to a view do not depend on how positions interleave.
-/

namespace FingerMinutiae

/-! ### Runs of numbers -/

/-- The count of numbers in sequence, one more number on: it is counted if it is the count so far,
or 255 where the count is larger. -/
def countNext (count number : Nat) : Nat :=
  if number = min 255 count then count + 1 else count

/-- How many of the view numbers of a finger position are in sequence. -/
def runLength (numbers : List Nat) : Nat :=
  numbers.foldl countNext 0

theorem runLength_append (ns ms : List Nat) :
    runLength (ns ++ ms) = ms.foldl countNext (runLength ns) :=
  List.foldl_append

theorem runLength_concat (ns : List Nat) (n : Nat) :
    runLength (ns ++ [n]) = countNext (runLength ns) n :=
  runLength_append ns [n]

/-- A number out of sequence might as well not be there. -/
theorem runLength_append_cons_of_ne {ns : List Nat} {n : Nat} (h : n ≠ min 255 (runLength ns))
    (ms : List Nat) : runLength (ns ++ n :: ms) = runLength (ns ++ ms) := by
  rw [runLength_append, runLength_append, List.foldl_cons, countNext, if_neg h]

theorem numbersOf_append (position : UInt8) (vs ws : List FingerView) :
    numbersOf position (vs ++ ws) = numbersOf position vs ++ numbersOf position ws := by
  simp [numbersOf]

theorem numbersOf_singleton (position : UInt8) (v : FingerView) :
    numbersOf position [v] = if v.position = position then [v.viewNumber.toNat] else [] := by
  by_cases h : v.position = position <;> simp [numbersOf, h]

/-- The numbers up to a view are those ahead of it and its own. -/
theorem numbersOf_take_succ {vs : List FingerView} {i : Nat} {v : FingerView} (h : vs[i]? = some v)
    (position : UInt8) : numbersOf position (vs.take (i + 1))
      = numbersOf position (vs.take i) ++ numbersOf position [v] := by
  rw [List.take_add_one, h, Option.toList_some, numbersOf_append]

/-! ### The table -/

theorem toNat_nextNumber (n : UInt8) : (nextNumber n).toNat = min 255 (n.toNat + 1) := by
  have hlt := n.toNat_lt
  have hone : (1 : UInt8).toNat = 1 := rfl
  rw [nextNumber]
  split
  · next h =>
    subst h
    rfl
  · next h =>
    have hne : n.toNat ≠ 255 := fun heq => h (UInt8.toNat_inj.mp heq)
    rw [UInt8.toNat_add]
    omega

/-- The table has a count for each position, cut off at 255. It still does after another view, when
the count of its position has moved on. -/
theorem toNat_next_of_count {expected number : UInt8} {count : Nat}
    (h : expected.toNat = min 255 count) :
    (if number = expected then nextNumber expected else expected).toNat
      = min 255 (countNext count number.toNat) := by
  rw [countNext, ← h]
  by_cases hnumber : number = expected
  · rw [if_pos hnumber, if_pos (congrArg UInt8.toNat hnumber), toNat_nextNumber]
    omega
  · rw [if_neg hnumber, if_neg fun heq => hnumber (UInt8.toNat_inj.mp heq), h]

/-- **What is expected of a view.** From a table with a count for each position, it is the count of
the view's own position, moved on by the numbers of that position ahead of the view. -/
theorem toNat_expectedNumbers {next : UInt8 → UInt8} (count : UInt8 → Nat)
    (h : ∀ position, (next position).toNat = min 255 (count position)) {vs : List FingerView}
    {i : Nat} {v : FingerView} {expected : UInt8} (hv : vs[i]? = some v)
    (hexpected : (expectedNumbers next vs)[i]? = some expected) :
    expected.toNat = min 255
      ((numbersOf v.position (vs.take i)).foldl countNext (count v.position)) := by
  induction vs generalizing next count i with
  | nil => simp at hv
  | cons w vs ih =>
    rw [expectedNumbers] at hexpected
    cases i with
    | zero =>
      simp only [List.getElem?_cons_zero, Option.some.injEq] at hv hexpected
      subst hv hexpected
      exact h _
    | succ i =>
      rw [List.getElem?_cons_succ] at hv hexpected
      rw [List.take_succ_cons]
      have htable : ∀ position,
          (if position = w.position then
              if w.viewNumber = next w.position then nextNumber (next w.position)
              else next w.position
            else next position).toNat
          = min 255 (if position = w.position then countNext (count position) w.viewNumber.toNat
            else count position) := by
        intro position
        by_cases hposition : position = w.position
        · subst hposition
          rw [if_pos rfl, if_pos rfl]
          exact toNat_next_of_count (h w.position)
        · rw [if_neg hposition, if_neg hposition]
          exact h position
      rw [ih _ htable hv hexpected]
      by_cases hposition : v.position = w.position
      · rw [if_pos hposition, hposition, numbersOf_cons_self, List.foldl_cons]
      · rw [if_neg hposition, numbersOf_cons_of_ne hposition]

/-- What is expected of a view when nothing has been counted yet. -/
theorem toNat_expectedNumbers_zero {vs : List FingerView} {i : Nat} {v : FingerView}
    {expected : UInt8} (hv : vs[i]? = some v)
    (hexpected : (expectedNumbers (fun _ => 0) vs)[i]? = some expected) :
    expected.toNat = min 255 (runLength (numbersOf v.position (vs.take i))) :=
  toNat_expectedNumbers (fun _ => 0) (fun _ => rfl) hv hexpected

/-! ### Interleaving -/

/-- The views in another order: `place` says where each of them goes, and those of one finger
position stay in order. -/
structure Reorders (vs ws : List FingerView) (place : Fin vs.length ≃ Fin ws.length) : Prop where
  view : ∀ i, ws[place i] = vs[i]
  order : ∀ i j, i < j → vs[i].position = vs[j].position → place i < place j

/-- The indices of the views of a position among the first `n`. -/
def indicesOf (position : UInt8) (vs : List FingerView) (n : Nat) : List (Fin vs.length) :=
  (List.finRange vs.length).filter fun i => i.val < n && vs[i].position = position

theorem mem_indicesOf {position : UInt8} {vs : List FingerView} {n : Nat} {i : Fin vs.length} :
    i ∈ indicesOf position vs n ↔ i.val < n ∧ vs[i].position = position := by
  simp [indicesOf]

theorem pairwise_indicesOf (position : UInt8) (vs : List FingerView) (n : Nat) :
    (indicesOf position vs n).Pairwise (· < ·) :=
  (List.pairwise_lt_finRange vs.length).filter _

theorem take_finRange (n k : Nat) :
    (List.finRange n).take k = (List.finRange n).filter fun i => i.val < k := by
  have hsorted := List.pairwise_lt_finRange n
  refine hsorted.take.eq_of_mem_iff (hsorted.filter _) fun i => ?_
  rw [List.mem_take_iff_getElem, List.mem_filter, decide_eq_true_iff,
    and_iff_right (List.mem_finRange i)]
  constructor
  · rintro ⟨j, hj, rfl⟩
    rw [List.getElem_finRange]
    exact (Nat.lt_min.mp hj).1
  · intro hi
    refine ⟨i, ?_, ?_⟩
    · rw [List.length_finRange]
      exact Nat.lt_min.mpr ⟨hi, i.isLt⟩
    · rw [List.getElem_finRange]
      rfl

/-- The numbers of a position are those of its views, index by index. -/
theorem numbersOf_take_eq_map (position : UInt8) (vs : List FingerView) (n : Nat) :
    numbersOf position (vs.take n)
      = (indicesOf position vs n).map fun i => vs[i].viewNumber.toNat := by
  have htake : vs.take n
      = ((List.finRange vs.length).filter fun i => i.val < n).map fun i => vs[i] := by
    rw [← take_finRange, List.map_take]
    exact congrArg (List.take n) (List.map_getElem_finRange vs).symm
  rw [htake, numbersOf, List.filter_map, List.filter_filter, List.map_map, indicesOf]
  congr 1
  exact List.filter_congr fun i _ => Bool.and_comm _ _

/-- Views of one position are in the same order before and after. -/
theorem Reorders.place_le_place_iff {vs ws : List FingerView}
    {place : Fin vs.length ≃ Fin ws.length} (h : Reorders vs ws place) {i j : Fin vs.length}
    (hposition : vs[j].position = vs[i].position) : place j ≤ place i ↔ j ≤ i := by
  rcases lt_trichotomy j i with hlt | rfl | hgt
  · exact iff_of_true (h.order j i hlt hposition).le hlt.le
  · exact iff_of_true le_rfl le_rfl
  · exact iff_of_false (h.order i j hgt hposition.symm).not_ge hgt.not_ge

/-- Up to a view and its place in the new order, the views of its position are the same. -/
theorem Reorders.indicesOf_succ {vs ws : List FingerView} {place : Fin vs.length ≃ Fin ws.length}
    (h : Reorders vs ws place) (i : Fin vs.length) :
    indicesOf vs[i].position ws (place i + 1)
      = (indicesOf vs[i].position vs (i + 1)).map place := by
  have hsorted : ((indicesOf vs[i].position vs (i + 1)).map place).Pairwise (· < ·) := by
    rw [List.pairwise_map]
    refine (pairwise_indicesOf _ vs _).imp_of_mem fun {j k} hj hk hjk => ?_
    exact h.order j k hjk ((mem_indicesOf.mp hj).2.trans (mem_indicesOf.mp hk).2.symm)
  refine (pairwise_indicesOf _ ws _).eq_of_mem_iff hsorted fun k => ?_
  obtain ⟨j, rfl⟩ := place.surjective k
  rw [mem_indicesOf, h.view, List.mem_map_of_injective place.injective, mem_indicesOf]
  refine and_congr_left fun hposition => ?_
  rw [Nat.lt_succ_iff, Nat.lt_succ_iff]
  exact h.place_le_place_iff hposition

/-- **Interleaving makes no difference.** Up to a view and its place in another order, the numbers
of its position are the same. -/
theorem Reorders.numbersOf_take {vs ws : List FingerView} {place : Fin vs.length ≃ Fin ws.length}
    (h : Reorders vs ws place) (i : Fin vs.length) :
    numbersOf ws[place i].position (ws.take (place i + 1))
      = numbersOf vs[i].position (vs.take (i + 1)) := by
  rw [h.view, numbersOf_take_eq_map, numbersOf_take_eq_map, h.indicesOf_succ, List.map_map]
  refine List.map_congr_left fun j _ => ?_
  rw [Function.comp_apply, h.view]

end FingerMinutiae
