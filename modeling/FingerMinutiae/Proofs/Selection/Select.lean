import FingerMinutiae.Proofs.ComputedLength
import FingerMinutiae.Proofs.Lists
import FingerMinutiae.Selection.Select
import Mathlib.Data.List.Perm.Subperm

/-!
# What a selection leaves

However the minutiae are chosen, a selection only ever leaves things out. A sorted or shuffled list
has the minutiae it had, a pruned one some of them, and a limit drops the last ones. So a view that
is selected from has some of its minutiae in some order, and this is all that the rules of a record,
its bytes and its length depend on: nothing here or later tells one policy from another.

## Main definitions

* `FingerView.SelectsTo`, `Record.SelectsTo`: what any selection may make of a view and of a record.

## Main results

* `centroid?_perm`: the centroid does not depend on the order of the minutiae.
* `Selection.apply_subperm`: minutiae are not made up.
* `Record.selectsTo_select`: what a selection makes of a record.
* `Record.SelectsTo.computedLength_le`: the record does not get longer.
-/

namespace FingerMinutiae

/-! ### Minutiae -/

theorem centroid?_eq_none_iff {ms : List Minutia} : centroid? ms = none ↔ ms = [] := by
  rw [← List.isEmpty_iff, centroid?]
  split <;> simp_all

/-- The centroid does not depend on the order of the minutiae. -/
theorem centroid?_perm {ms ns : List Minutia} (h : ns.Perm ms) : centroid? ns = centroid? ms := by
  have hx : (ns.map fun m => m.x.toNat).sum = (ms.map fun m => m.x.toNat).sum := (h.map _).sum_nat
  have hy : (ns.map fun m => m.y.toNat).sum = (ms.map fun m => m.y.toNat).sum := (h.map _).sum_nat
  rw [centroid?, centroid?, h.isEmpty_eq, h.length_eq, hx, hy]

theorem sortPolar_perm (ms : List Minutia) : (sortPolar ms).Perm ms := by
  rw [sortPolar]
  cases hcentre : centroid? ms with
  | none => rw [centroid?_eq_none_iff.mp hcentre]
  | some centre => exact List.mergeSort_perm _ _

theorem pruneElliptical_sublist (a b : UInt16) (ms : List Minutia) :
    (pruneElliptical a b ms).Sublist ms := by
  rw [pruneElliptical]
  cases centroid? ms with
  | none => exact List.nil_sublist ms
  | some centre => exact List.filter_sublist

theorem pruneRectangular_sublist (x y width height : UInt16) (ms : List Minutia) :
    (pruneRectangular x y width height ms).Sublist ms :=
  List.filter_sublist

theorem limited_sublist (limit : Option Nat) (ms : List Minutia) :
    (limited limit ms).Sublist ms := by
  cases limit with
  | none => exact .refl ms
  | some n => exact List.take_sublist n ms

theorem length_limited_le {limit : Option Nat} (ms : List Minutia) :
    ∀ n ∈ limit, (limited limit ms).length ≤ n := by
  rintro n rfl
  exact List.length_take_le n ms

section Selections

variable {γ : Type} (shuffler : Shuffler γ) (selection : Selection) (limit : Option Nat)

/-- No policy makes up a minutia or takes one more often than it is there. -/
theorem Selection.apply_subperm (g : γ) (ms : List Minutia) :
    (selection.apply shuffler g ms).1.Subperm ms := by
  cases selection with
  | polar => exact (sortPolar_perm ms).subperm
  | random => exact (shuffler.draw_perm g ms).subperm
  | elliptical a b => exact (pruneElliptical_sublist a b ms).subperm
  | rectangular x y width height => exact (pruneRectangular_sublist x y width height ms).subperm

/-! ### Views -/

/-- What a selection may make of a view: it has some of the minutiae in some order, as many as the
limit allows, and no extended data. -/
inductive FingerView.SelectsTo (limit : Option Nat) (v : FingerView) : FingerView → Prop where
  | of_minutiae {ms : List Minutia} (hchosen : ms.Subperm v.minutiae)
      (hlimit : ∀ n ∈ limit, ms.length ≤ n) : SelectsTo limit v (v.withMinutiae ms)

theorem FingerView.select_fst (g : γ) (v : FingerView) : (v.select shuffler selection limit g).1
    = v.withMinutiae (limited limit (selection.apply shuffler g v.minutiae).1) := rfl

theorem FingerView.selectsTo_select (g : γ) (v : FingerView) :
    v.SelectsTo limit (v.select shuffler selection limit g).1 := by
  rw [select_fst]
  exact .of_minutiae
    ((limited_sublist limit _).subperm.trans (selection.apply_subperm shuffler g v.minutiae))
    (length_limited_le _)

/-- The shuffler moves on from view to view; whatever its state, each view keeps to its own
minutiae. -/
theorem forall₂_selectViews (g : γ) (vs : List FingerView) :
    List.Forall₂ (FingerView.SelectsTo limit) vs (selectViews shuffler selection limit g vs).1 := by
  induction vs generalizing g with
  | nil => exact .nil
  | cons v vs ih => exact .cons (v.selectsTo_select shuffler selection limit g) (ih _)

end Selections

namespace FingerView

variable {limit : Option Nat} {variant : Variant} {v w : FingerView}

theorem SelectsTo.minutiae (h : v.SelectsTo limit w) : w.minutiae.Subperm v.minutiae := by
  cases h with
  | of_minutiae hchosen _ => exact hchosen

theorem SelectsTo.length_le_limit (h : v.SelectsTo limit w) :
    ∀ n ∈ limit, w.minutiae.length ≤ n := by
  cases h with
  | of_minutiae _ hlimit => exact hlimit

theorem SelectsTo.extended (h : v.SelectsTo limit w) : w.extended = none := by
  cases h
  rfl

/-- A view keeps its place among those of its finger. -/
theorem SelectsTo.number_eq (h : v.SelectsTo limit w) :
    w.position = v.position ∧ w.viewNumber = v.viewNumber := by
  cases h
  exact ⟨rfl, rfl⟩

/-- What holds of all minutiae holds of those that are chosen. -/
theorem SelectsTo.forall_minutiae {P : Minutia → Prop} (h : v.SelectsTo limit w)
    (hall : ∀ m ∈ v.minutiae, P m) : ∀ m ∈ w.minutiae, P m :=
  fun m hm => hall m (h.minutiae.subset hm)

/-- The count is that of the minutiae as long as a byte can hold it. -/
theorem SelectsTo.numMinutiae (h : v.SelectsTo limit w) (hcount : v.minutiae.length ≤ 255) :
    w.numMinutiae.toNat = w.minutiae.length := by
  cases h with
  | @of_minutiae ms hchosen _ =>
    have hlength : ms.length ≤ 255 := Nat.le_trans hchosen.length_le hcount
    show (UInt8.ofNat (min ms.length 255)).toNat = ms.length
    rw [Nat.min_eq_left hlength]
    exact UInt8.toNat_ofNat_of_lt' (Nat.lt_succ_of_le hlength)

theorem SelectsTo.encodedLength_le (h : v.SelectsTo limit w) :
    w.encodedLength variant ≤ v.encodedLength variant :=
  encodedLength_mono h.minutiae.length_le h.extended

end FingerView

/-! ### Records -/

namespace Record

/-- What a selection may make of a record: every view is selected from, and the length is computed
anew. -/
inductive SelectsTo (limit : Option Nat) (r : Record) : Record → Prop where
  | of_views {views : List FingerView}
      (hviews : List.Forall₂ (FingerView.SelectsTo limit) r.views views) :
      SelectsTo limit r (withComputedLength { r with views })

section Selections

variable {γ : Type} (shuffler : Shuffler γ) (selection : Selection) (limit : Option Nat) (g : γ)
  (r : Record)

theorem select_fst : (r.select shuffler selection limit g).1
    = withComputedLength { r with
        views := (selectViews shuffler selection limit g r.views).1 } := rfl

theorem selectsTo_select : r.SelectsTo limit (r.select shuffler selection limit g).1 := by
  rw [select_fst]
  exact .of_views (forall₂_selectViews shuffler selection limit g r.views)

end Selections

variable {limit : Option Nat} {r s : Record}

theorem SelectsTo.views (h : r.SelectsTo limit s) :
    List.Forall₂ (FingerView.SelectsTo limit) r.views s.views := by
  cases h with
  | of_views hviews => exact hviews

theorem SelectsTo.variant_eq (h : r.SelectsTo limit s) : s.variant = r.variant := by
  cases h
  rfl

/-- A selection never makes a record longer, by the lengths that are computed. -/
theorem SelectsTo.computedLength_le (h : r.SelectsTo limit s) :
    s.computedLength ≤ r.computedLength := by
  refine computedLength_mono h.variant_eq (List.Forall₂.sum_le_sum ?_)
  rw [h.variant_eq, List.forall₂_map_left_iff, List.forall₂_map_right_iff]
  exact h.views.flip.imp fun _ _ hw => hw.encodedLength_le

theorem SelectsTo.extended (h : r.SelectsTo limit s) : ∀ w ∈ s.views, w.extended = none :=
  forall_mem_of_forall₂ (P := fun _ => True) h.views (fun _ _ => trivial) fun _ _ _ hw =>
    hw.extended

/-- Where all counts fit a byte, the length that is left fits its field. -/
theorem SelectsTo.computedLength_lt (h : r.SelectsTo limit s) (hcount : r.views.length ≤ 255)
    (hminutiae : ∀ v ∈ r.views, v.minutiae.length ≤ 255) : s.computedLength < 2 ^ 32 := by
  refine computedLength_lt_of_bare ?_ ?_ h.extended
  · rw [← h.views.length_eq]
    exact hcount
  · exact forall_mem_of_forall₂ h.views hminutiae fun _ _ hv hw =>
      Nat.le_trans hw.minutiae.length_le hv

/-- A length that fits is declared as it is. -/
theorem SelectsTo.recordLength (h : r.SelectsTo limit s) (hlength : s.computedLength < 2 ^ 32) :
    s.recordLength.toNat = s.computedLength := by
  cases h
  exact recordLength_withComputedLength hlength

end Record

end FingerMinutiae
