import FingerMinutiae.Proofs.Selection.Select
import Mathlib.Data.List.Sort

/-!
# Nearest first

The polar policy sorts the minutiae of a view by their distance from the centroid. Distances are
integers and often equal, so the order is only settled by what happens to ties: those that are
equally near stay in the order in which they came. Being sorted and keeping ties in order leave no
choice. A list with both is the sorted one.

Nothing about the order moves the centre. The centroid depends on the minutiae alone and not on
where they stand in the list, so sorting a sorted list changes nothing, and however a list is
shuffled first, the distances come out the same.

## Main definitions

* `SortsByDistance`: a list is another one by distance from a point, with ties in order.

## Main results

* `sortsByDistance_iff`: the sorted list is the only one.
* `sortPolar_canonical`: the order, and what a limit leaves of it.
-/

namespace FingerMinutiae

/-! ### Sorting by a key -/

section Keys

variable {α : Type} (key : α → Int) {as bs : List α}

theorem mem_iff_of_filter_eq
    (h : ∀ k, as.filter (fun a => key a = k) = bs.filter (fun b => key b = k)) (c : α) :
    c ∈ as ↔ c ∈ bs := by
  have hc := congrArg (c ∈ ·) (h (key c))
  simpa using hc

/-- A list that is sorted by a key is determined by its parts of equal key. -/
theorem eq_of_pairwise_of_filter_eq (has : as.Pairwise fun a b => key a ≤ key b)
    (hbs : bs.Pairwise fun a b => key a ≤ key b)
    (h : ∀ k, as.filter (fun a => key a = k) = bs.filter (fun b => key b = k)) : as = bs := by
  induction as generalizing bs with
  | nil =>
    refine (List.eq_nil_iff_forall_not_mem.mpr fun c hc => ?_).symm
    simpa using (mem_iff_of_filter_eq key h c).mpr hc
  | cons a as ih =>
    cases bs with
    | nil => simpa using (mem_iff_of_filter_eq key h a).mp (List.mem_cons_self ..)
    | cons b bs =>
      rw [List.pairwise_cons] at has hbs
      -- Each head is least in its own list, and each is in the other one.
      have hba : key b ≤ key a := by
        have hmem := (mem_iff_of_filter_eq key h a).mp (List.mem_cons_self ..)
        obtain rfl | ha := List.mem_cons.mp hmem
        · exact Int.le_refl _
        · exact hbs.1 a ha
      have hab : key a ≤ key b := by
        have hmem := (mem_iff_of_filter_eq key h b).mpr (List.mem_cons_self ..)
        obtain rfl | hb := List.mem_cons.mp hmem
        · exact Int.le_refl _
        · exact has.1 b hb
      have hkey : key a = key b := Int.le_antisymm hab hba
      have hhead := h (key a)
      simp only [List.filter_cons, hkey, decide_true, if_true, List.cons.injEq] at hhead
      obtain ⟨rfl, -⟩ := hhead
      refine congrArg (List.cons a) (ih has.2 hbs.2 fun k => ?_)
      have hk := h k
      by_cases ha : key a = k <;> simpa [List.filter_cons, ha] using hk

end Keys

/-! ### The order -/

theorem centroid?_sortPolar (ms : List Minutia) : centroid? (sortPolar ms) = centroid? ms :=
  centroid?_perm (sortPolar_perm ms)

/-- The list is another one by distance from a point, and minutiae that are equally near are in it
in the order in which they were. -/
structure SortsByDistance (centre : Point) (ms ws : List Minutia) : Prop where
  pairwise : ws.Pairwise fun p q => p.distanceSq centre ≤ q.distanceSq centre
  ties : ∀ d, ws.filter (fun m => m.distanceSq centre = d)
    = ms.filter (fun m => m.distanceSq centre = d)

section Order

variable {centre : Point} {ms ns ws : List Minutia}

theorem sortPolar_eq_mergeSort (h : centroid? ms = some centre) :
    sortPolar ms = ms.mergeSort fun p q => p.distanceSq centre ≤ q.distanceSq centre := by
  rw [sortPolar, h]

theorem distanceSq_le_trans (p q m : Minutia)
    (hpq : decide (p.distanceSq centre ≤ q.distanceSq centre) = true)
    (hqm : decide (q.distanceSq centre ≤ m.distanceSq centre) = true) :
    decide (p.distanceSq centre ≤ m.distanceSq centre) = true := by
  rw [decide_eq_true_iff] at hpq hqm ⊢
  exact Int.le_trans hpq hqm

theorem distanceSq_le_total (p q : Minutia) :
    (decide (p.distanceSq centre ≤ q.distanceSq centre)
      || decide (q.distanceSq centre ≤ p.distanceSq centre)) = true := by
  simpa using Int.le_total (p.distanceSq centre) (q.distanceSq centre)

theorem pairwise_sortPolar (h : centroid? ms = some centre) :
    (sortPolar ms).Pairwise fun p q => p.distanceSq centre ≤ q.distanceSq centre := by
  rw [sortPolar_eq_mergeSort h]
  simpa using List.pairwise_mergeSort distanceSq_le_trans distanceSq_le_total ms

/-- Minutiae at the same distance are a sorted part of the list, so they stay in order; and as many
of them come out as went in. -/
theorem filter_sortPolar (h : centroid? ms = some centre) (d : Int) :
    (sortPolar ms).filter (fun m => m.distanceSq centre = d)
      = ms.filter (fun m => m.distanceSq centre = d) := by
  have hties : (ms.filter fun m => m.distanceSq centre = d).Pairwise fun p q =>
      decide (p.distanceSq centre ≤ q.distanceSq centre) = true := by
    refine List.pairwise_of_forall_mem_list fun p hp q hq => ?_
    simp only [List.mem_filter, decide_eq_true_iff] at hp hq ⊢
    rw [hp.2, hq.2]
  have hsublist : (ms.filter fun m => m.distanceSq centre = d).Sublist (sortPolar ms) := by
    rw [sortPolar_eq_mergeSort h]
    exact List.sublist_mergeSort distanceSq_le_trans distanceSq_le_total hties List.filter_sublist
  have hfilter := hsublist.filter fun m => decide (m.distanceSq centre = d)
  rw [List.filter_filter] at hfilter
  simp only [Bool.and_self] at hfilter
  exact (hfilter.eq_of_length ((sortPolar_perm ms).filter _).length_eq.symm).symm

theorem sortsByDistance_sortPolar (h : centroid? ms = some centre) :
    SortsByDistance centre ms (sortPolar ms) :=
  ⟨pairwise_sortPolar h, filter_sortPolar h⟩

/-- **The order is canonical.** There is one list with the minutiae by distance and with ties in
order. -/
theorem sortsByDistance_iff (h : centroid? ms = some centre) :
    SortsByDistance centre ms ws ↔ ws = sortPolar ms := by
  constructor
  · intro hws
    refine eq_of_pairwise_of_filter_eq (fun m => m.distanceSq centre) hws.pairwise
      (pairwise_sortPolar h) fun d => ?_
    rw [hws.ties, filter_sortPolar h]
  · rintro rfl
    exact sortsByDistance_sortPolar h

/-- What is sorted already stays as it is, since its centre is the same. -/
theorem sortPolar_sortPolar (ms : List Minutia) : sortPolar (sortPolar ms) = sortPolar ms := by
  cases hcentre : centroid? ms with
  | none =>
    rw [centroid?_eq_none_iff.mp hcentre]
    rfl
  | some centre =>
    rw [sortPolar_eq_mergeSort ((centroid?_sortPolar ms).trans hcentre)]
    exact List.mergeSort_of_pairwise (by simpa using pairwise_sortPolar hcentre)

/-- However the minutiae are shuffled, their distances come out in the same order. -/
theorem map_distanceSq_sortPolar (hperm : ns.Perm ms) (h : centroid? ms = some centre) :
    (sortPolar ns).map (fun m => m.distanceSq centre)
      = (sortPolar ms).map fun m => m.distanceSq centre := by
  have hns : centroid? ns = some centre := (centroid?_perm hperm).trans h
  have hsame : (sortPolar ns).Perm (sortPolar ms) :=
    (sortPolar_perm ns).trans (hperm.trans (sortPolar_perm ms).symm)
  refine (hsame.map _).eq_of_pairwise
    (fun d e _ _ (hde : d ≤ e) (hed : e ≤ d) => Int.le_antisymm hde hed) ?_ ?_
  · exact List.pairwise_map.mpr (pairwise_sortPolar hns)
  · exact List.pairwise_map.mpr (pairwise_sortPolar h)

/-! ### The nearest -/

/-- What a limit drops is at least as far from the centre as what it keeps. -/
theorem distanceSq_le_of_dropped (h : centroid? ms = some centre) {k : Nat}
    {dropped : List Minutia} (hdropped : ms.Perm ((sortPolar ms).take k ++ dropped)) :
    ∀ p ∈ (sortPolar ms).take k, ∀ q ∈ dropped, p.distanceSq centre ≤ q.distanceSq centre := by
  have hsplit := pairwise_sortPolar h
  rw [← List.take_append_drop k (sortPolar ms), List.pairwise_append] at hsplit
  have hdrop : dropped.Perm ((sortPolar ms).drop k) := by
    rw [← List.perm_append_left_iff ((sortPolar ms).take k), List.take_append_drop]
    exact hdropped.symm.trans (sortPolar_perm ms).symm
  intro p hp q hq
  exact hsplit.2.2 p hp q (hdrop.subset hq)

end Order

/-- What a limit on the nearest minutiae leaves of a view, where `kept` has what each limit leaves:
the first of the order, so the more the larger the limit, and all of it without one. Nothing that is
dropped is nearer to the centroid than what is kept. -/
structure FingerView.KeepsNearest (v : FingerView) (kept : Option Nat → FingerView) : Prop where
  whole : (kept none).minutiae = sortPolar v.minutiae
  minutiae : ∀ k, (kept (some k)).minutiae = (sortPolar v.minutiae).take k
  length : ∀ k, (kept (some k)).minutiae.length = min k v.minutiae.length
  grows : ∀ k l, k ≤ l → (kept (some k)).minutiae <+: (kept (some l)).minutiae
  nearest : ∀ k centre, centroid? v.minutiae = some centre →
    ∀ dropped, v.minutiae.Perm ((kept (some k)).minutiae ++ dropped) →
      ∀ p ∈ (kept (some k)).minutiae, ∀ q ∈ dropped, ¬q.distanceSq centre < p.distanceSq centre

theorem FingerView.keepsNearest_select {γ : Type} (shuffler : Shuffler γ) (g : γ)
    (v : FingerView) :
    v.KeepsNearest fun limit => (v.select shuffler .polar limit g).1 where
  whole := rfl
  minutiae _ := rfl
  length k := by
    show ((sortPolar v.minutiae).take k).length = _
    rw [List.length_take, (sortPolar_perm v.minutiae).length_eq]
  grows _ _ h := List.take_prefix_take_left h
  nearest k centre h dropped hdropped p hp q hq :=
    Int.not_lt.mpr (distanceSq_le_of_dropped h hdropped p hp q hq)

/-- Four minutiae in the corners of a square, all equally far from the centroid, and one next to
it. -/
def squareMinutiae : List Minutia :=
  [{ kind := 1 }, { x := 10 }, { kind := 2, x := 6, y := 5 }, { y := 10 },
    { kind := 1, x := 10, y := 10 }]

/-- The one next to the centroid comes first, and the corners stay in order. -/
example : (sortPolar squareMinutiae).map (fun m => (m.x, m.y))
    = [(6, 5), (0, 0), (10, 0), (0, 10), (10, 10)] := by
  cbv

end FingerMinutiae
