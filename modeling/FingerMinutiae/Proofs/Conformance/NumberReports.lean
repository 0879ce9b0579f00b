import FingerMinutiae.Proofs.Conformance.Breaches
import FingerMinutiae.Proofs.Conformance.Conforms
import FingerMinutiae.Proofs.Conformance.Sequence

/-!
# What a report says about view numbers

A report is in file order and has all sorts of violations in it. Those about view numbers are picked
out here and put to the view that they are about: there is at most one for each (`numberReports`).

Whether a view has one is a matter of its own finger position alone. Its number must be the count of
the earlier views of that position that were in sequence, which is to say that were not themselves
reported. That sounds like a statement about the whole report, and it could be circular, but it is
neither: by `inSequence_eq` that count is the `runLength` of the numbers of the position, and all
that follows is about these numbers.

## Main definitions

* `Record.numberReports`: what a report says about the number of a view.
* `Record.inSequence`: how many views of a position are in sequence, by the report.

## Main results

* `Record.aboutNumbers_violations`: all that a report says about view numbers.
* `Record.numberReports_eq`: what it says about one view.
* `Record.numbers_judged_per_position`: how view numbers are judged.
-/

namespace FingerMinutiae

/-! ### What a report says about numbers -/

/-- The violations of a report that are about view numbers. -/
def aboutNumbers (report : List Violation) : List Violation :=
  report.filter fun x => x.breach.isViewNumber

@[simp] theorem aboutNumbers_append (report report' : List Violation) :
    aboutNumbers (report ++ report') = aboutNumbers report ++ aboutNumbers report' :=
  List.filter_append report report'

@[simp] theorem aboutNumbers_demand (condition : Prop) [Decidable condition] (place : Place)
    (breach : Breach) : aboutNumbers (demand condition place breach)
      = if breach.isViewNumber then demand condition place breach else [] := by
  by_cases h : condition <;> cases hbreach : breach.isViewNumber <;>
    simp [aboutNumbers, demand, h, hbreach]

@[simp] theorem aboutNumbers_flatMap {α : Type} (as : List α) (report : α → List Violation) :
    aboutNumbers (as.flatMap report) = as.flatMap fun a => aboutNumbers (report a) :=
  List.filter_flatMap

theorem NodeReport.aboutNumbers_eq_nil {sound : Prop} {report : List Violation}
    (h : NodeReport sound report) : aboutNumbers report = [] :=
  List.filter_eq_nil_iff.mpr fun x hx => by simp [(h x hx).1]

namespace Record

variable (r : Record)

theorem aboutNumbers_viewViolations (hheader : r.variant.hasHeader = true) (view : Nat)
    (v : FingerView) (expected : UInt8) :
    aboutNumbers (r.viewViolations view v expected)
      = demand (v.viewNumber = expected) (.view view)
        (.viewNumber v.position expected v.viewNumber) := by
  obtain ⟨before, after, hreport, hbefore, hafter⟩ := r.exists_viewViolations_eq view v expected
  rw [hreport, if_pos hheader, aboutNumbers_append, aboutNumbers_append,
    hbefore.aboutNumbers_eq_nil, hafter.aboutNumbers_eq_nil, aboutNumbers_demand]
  simp [Breach.isViewNumber]

/-- All that a report on a record says about view numbers. -/
theorem aboutNumbers_violations (profile : Profile) (hheader : r.variant.hasHeader = true) :
    aboutNumbers (r.violations profile)
      = (r.views.zip (expectedNumbers (fun _ => 0) r.views)).zipIdx.flatMap fun x =>
        demand (x.1.1.viewNumber = x.1.2) (.view x.2)
          (.viewNumber x.1.1.position x.1.2 x.1.1.viewNumber) := by
  have hown := (r.nodeReport_headerViolations True profile).aboutNumbers_eq_nil
  simp [violations, hheader, hown, Breach.isViewNumber, aboutNumbers_viewViolations]

end Record

/-! ### View by view -/

/-- What is said about the number of a view when so many views of its position are in sequence. -/
def FingerView.numberVerdict (v : FingerView) (count : Nat) : List Breach :=
  if v.viewNumber.toNat = min 255 count then []
  else [.viewNumber v.position (UInt8.ofNat (min 255 count)) v.viewNumber]

theorem FingerView.numberVerdict_eq_nil_iff {v : FingerView} {count : Nat} :
    v.numberVerdict count = [] ↔ v.viewNumber.toNat = min 255 count := by
  unfold numberVerdict
  split <;> simp [*]

namespace Record

variable {profile : Profile} {r : Record} {i : Nat} {v : FingerView}

/-- The breaches that a report has for the number of the view at an index. -/
def numberReports (profile : Profile) (r : Record) (i : Nat) : List Breach :=
  ((aboutNumbers (r.violations profile)).filter fun x => x.place = .view i).map fun x => x.breach

/-- How many of the first `i` views are of a position and are not reported for their number. -/
def inSequence (profile : Profile) (r : Record) (position : UInt8) (i : Nat) : Nat :=
  (List.range i).countP fun j =>
    (r.views[j]?.any fun v => v.position = position) && (r.numberReports profile j).isEmpty

/-- How many of the numbers that a position has among the first `i` views are in sequence. -/
def runAhead (r : Record) (i : Nat) (position : UInt8) : Nat :=
  runLength (numbersOf position (r.views.take i))

theorem numberReports_eq_flatMap (hheader : r.variant.hasHeader = true) (i : Nat) :
    r.numberReports profile i
      = (r.views.zip (expectedNumbers (fun _ => 0) r.views))[i]?.toList.flatMap fun x =>
        if x.1.viewNumber = x.2 then [] else [.viewNumber x.1.position x.2 x.1.viewNumber] := by
  rw [numberReports, aboutNumbers_violations r profile hheader, List.filter_flatMap,
    flatMap_zipIdx_at (k := 0) (i := i), List.map_flatMap]
  · refine List.flatMap_congr fun x _ => ?_
    by_cases h : x.1.viewNumber = x.2 <;> simp [demand, h]
  · intro x j hj
    by_cases h : x.1.viewNumber = x.2 <;> simp_all [demand]

/-- There is nothing to be said about views that are not there. -/
theorem numberReports_of_none (hheader : r.variant.hasHeader = true) (h : r.views[i]? = none) :
    r.numberReports profile i = [] := by
  have hlength : r.views.length ≤ i := List.getElem?_eq_none_iff.mp h
  have hzip : (r.views.zip (expectedNumbers (fun _ => 0) r.views))[i]? = none := by
    rw [List.getElem?_eq_none_iff, List.length_zip, length_expectedNumbers, min_self]
    exact hlength
  rw [numberReports_eq_flatMap hheader, hzip]
  rfl

/-- **What a report says about one view.** -/
theorem numberReports_eq (hheader : r.variant.hasHeader = true) (hv : r.views[i]? = some v) :
    r.numberReports profile i = v.numberVerdict (r.runAhead i v.position) := by
  obtain ⟨hi, -⟩ := List.getElem?_eq_some_iff.mp hv
  obtain ⟨expected, hexpected⟩ :
      ∃ expected, (expectedNumbers (fun _ => 0) r.views)[i]? = some expected :=
    ⟨_, List.getElem?_eq_getElem ((length_expectedNumbers _ _).symm ▸ hi)⟩
  have hzip : (r.views.zip (expectedNumbers (fun _ => 0) r.views))[i]? = some (v, expected) :=
    List.getElem?_zip_eq_some.mpr ⟨hv, hexpected⟩
  have hcount : expected.toNat = min 255 (r.runAhead i v.position) :=
    toNat_expectedNumbers_zero hv hexpected
  rw [numberReports_eq_flatMap hheader, hzip, FingerView.numberVerdict, ← hcount,
    UInt8.ofNat_toNat]
  simp [UInt8.toNat_inj]

/-- **What the count is.** The views that are not reported are those that the run is made of. -/
theorem inSequence_eq (hheader : r.variant.hasHeader = true) (position : UInt8) (i : Nat) :
    r.inSequence profile position i = r.runAhead i position := by
  induction i with
  | zero => rfl
  | succ i ih =>
    rw [inSequence, List.range_succ, List.countP_append, ← inSequence, ih, runAhead, runAhead]
    cases hv : r.views[i]? with
    | none =>
      rw [List.take_add_one, hv]
      simp [hv]
    | some v =>
      rw [numbersOf_take_succ hv, numbersOf_singleton]
      by_cases hposition : v.position = position
      · rw [if_pos hposition, runLength_concat, countNext, List.countP_singleton,
          numberReports_eq hheader hv, hposition, ← runAhead]
        by_cases h : v.viewNumber.toNat = min 255 (r.runAhead i position) <;>
          simp [FingerView.numberVerdict, h, hv, hposition]
      · simp [hv, hposition]

/-! ### What a view number is judged against -/

theorem numberReports_eq_nil_iff (hheader : r.variant.hasHeader = true)
    (hv : r.views[i]? = some v) :
    r.numberReports profile i = [] ↔ v.viewNumber.toNat = min 255 (r.runAhead i v.position) := by
  rw [numberReports_eq hheader hv, FingerView.numberVerdict_eq_nil_iff]

/-- If two views have the same numbers of their positions up to them, the numbers of the views
themselves are the same and so is what is ahead of them. -/
theorem runAhead_eq_of_numbersOf {s : Record} {j : Nat} {w : FingerView}
    (hv : r.views[i]? = some v) (hw : s.views[j]? = some w)
    (h : numbersOf v.position (r.views.take (i + 1))
      = numbersOf w.position (s.views.take (j + 1))) :
    r.runAhead i v.position = s.runAhead j w.position ∧
      v.viewNumber.toNat = w.viewNumber.toNat := by
  rw [numbersOf_take_succ hv, numbersOf_take_succ hw, numbersOf_singleton, numbersOf_singleton,
    if_pos rfl, if_pos rfl] at h
  obtain ⟨hahead, hlast⟩ := List.append_inj' h rfl
  exact ⟨congrArg runLength hahead, List.singleton_inj.mp hlast⟩

/-- **Only the numbers of a view's own position matter**, those up to the view. -/
theorem numberReports_eq_nil_congr {s : Record} {profile' : Profile} {j : Nat} {w : FingerView}
    (hr : r.variant.hasHeader = true) (hs : s.variant.hasHeader = true)
    (hv : r.views[i]? = some v) (hw : s.views[j]? = some w)
    (h : numbersOf v.position (r.views.take (i + 1))
      = numbersOf w.position (s.views.take (j + 1))) :
    r.numberReports profile i = [] ↔ s.numberReports profile' j = [] := by
  obtain ⟨hahead, hnumber⟩ := runAhead_eq_of_numbersOf hv hw h
  rw [numberReports_eq_nil_iff hr hv, numberReports_eq_nil_iff hs hw, hahead, hnumber]

/-- Without a view that is out of sequence, what is ahead of the others comes to the same. -/
theorem runAhead_eraseIdx (hv : r.views[i]? = some v)
    (hreported : v.viewNumber.toNat ≠ min 255 (r.runAhead i v.position)) (j : Nat)
    (position : UInt8) :
    ({ r with views := r.views.eraseIdx i } : Record).runAhead j position
      = r.runAhead (if j < i then j else j + 1) position := by
  obtain ⟨hi, rfl⟩ := List.getElem?_eq_some_iff.mp hv
  have htake : (r.views.take i).length = i := List.length_take_of_le hi.le
  have hviews : r.views = r.views.take i ++ r.views[i] :: r.views.drop (i + 1) := by
    rw [List.getElem_cons_drop, List.take_append_drop]
  by_cases hj : j < i
  · rw [if_pos hj, runAhead, runAhead, List.eraseIdx_eq_take_drop_succ,
      List.take_append_of_le_length (htake.symm ▸ hj.le), List.take_take, min_eq_left hj.le]
  · obtain ⟨n, rfl⟩ := Nat.exists_eq_add_of_le (Nat.not_lt.mp hj)
    have herased : (r.views.eraseIdx i).take (i + n)
        = r.views.take i ++ (r.views.drop (i + 1)).take n := by
      rw [List.eraseIdx_eq_take_drop_succ, List.take_append, htake, Nat.add_sub_cancel_left,
        List.take_of_length_le (htake.trans_le (Nat.le_add_right i n))]
    have hwhole : r.views.take (i + n + 1)
        = r.views.take i ++ r.views[i] :: (r.views.drop (i + 1)).take n := by
      have hsucc : i + n + 1 - i = n + 1 := by omega
      conv_lhs => rw [hviews]
      rw [List.take_append, htake, hsucc, List.take_succ_cons,
        List.take_of_length_le (htake.trans_le (by omega))]
    rw [if_neg hj, runAhead, runAhead, herased, hwhole, numbersOf_append, numbersOf_append]
    by_cases hposition : position = r.views[i].position
    · subst hposition
      rw [numbersOf_cons_self, runLength_append_cons_of_ne hreported]
    · rw [numbersOf_cons_of_ne hposition]

/-- **A view out of sequence makes no difference to the others.** -/
theorem numberReports_eraseIdx (hheader : r.variant.hasHeader = true)
    (hreported : r.numberReports profile i ≠ []) (j : Nat) :
    ({ r with views := r.views.eraseIdx i } : Record).numberReports profile j
      = r.numberReports profile (if j < i then j else j + 1) := by
  obtain ⟨v, hv⟩ : ∃ v, r.views[i]? = some v := by
    cases h : r.views[i]? with
    | none => exact absurd (numberReports_of_none hheader h) hreported
    | some v => exact ⟨v, rfl⟩
  rw [Ne, numberReports_eq_nil_iff hheader hv] at hreported
  have hget : (r.views.eraseIdx i)[j]? = r.views[if j < i then j else j + 1]? := by
    rw [List.getElem?_eraseIdx]
    split <;> rfl
  cases hw : (r.views.eraseIdx i)[j]? with
  | none =>
    rw [numberReports_of_none (r := { r with views := r.views.eraseIdx i }) hheader hw,
      numberReports_of_none hheader (hget ▸ hw)]
  | some w =>
    rw [numberReports_eq (r := { r with views := r.views.eraseIdx i }) hheader hw,
      numberReports_eq hheader (hget ▸ hw), runAhead_eraseIdx hv hreported]

/-- **Interleaving makes no difference.** -/
theorem numberReports_reorder {ws : List FingerView} {place : Fin r.views.length ≃ Fin ws.length}
    (hheader : r.variant.hasHeader = true) (h : Reorders r.views ws place)
    (i : Fin r.views.length) :
    ({ r with views := ws } : Record).numberReports profile (place i)
      = r.numberReports profile i := by
  have hv : r.views[i.val]? = some r.views[i] := List.getElem?_eq_getElem i.isLt
  have hw : ws[(place i).val]? = some ws[place i] := List.getElem?_eq_getElem (place i).isLt
  obtain ⟨hahead, -⟩ :=
    runAhead_eq_of_numbersOf (r := { r with views := ws }) hw hv (h.numbersOf_take i)
  rw [numberReports_eq (r := { r with views := ws }) hheader hw, numberReports_eq hheader hv,
    hahead, h.view]

/-- **When no view is reported.** -/
theorem forall_not_isViewNumber_iff (hheader : r.variant.hasHeader = true)
    (hbound : ∀ position, (numbersOf position r.views).length ≤ 256) :
    (∀ x ∈ r.violations profile, x.breach.isViewNumber = false) ↔
      ∀ position, numbersOf position r.views
        = List.range (numbersOf position r.views).length := by
  have hnone : (∀ x ∈ r.violations profile, x.breach.isViewNumber = false)
      ↔ aboutNumbers (r.violations profile) = [] := by
    simp [aboutNumbers]
  have hzip : (∀ x ∈ r.views.zip (expectedNumbers (fun _ => 0) r.views),
        True ∧ (True → x.1.viewNumber = x.2))
      ↔ (∀ v ∈ r.views, True) ∧
        (True → r.views.map (fun v => v.viewNumber) = expectedNumbers (fun _ => 0) r.views) :=
    forall_mem_zip_iff (P := fun _ => True) (f := fun v => v.viewNumber)
      (length_expectedNumbers _ _).symm
  simp only [true_and, forall_const, implies_true] at hzip
  have hexpected : aboutNumbers (r.violations profile) = []
      ↔ r.views.map (fun v => v.viewNumber) = expectedNumbers (fun _ => 0) r.views := by
    rw [aboutNumbers_violations r profile hheader, flatMap_zipIdx_eq_nil_iff
      (P := fun x => x.1.viewNumber = x.2) fun x i => demand_eq_nil_iff, hzip]
  simp only [List.range_eq_range']
  rw [hnone, hexpected]
  exact map_viewNumber_eq_expectedNumbers_iff fun position => by simpa using hbound position

/-! ### Position by position -/

/-- **View numbers are judged position by position.** In a record with a header:

* a view is reported exactly if its number is not the count of the earlier views of its position
  that were in sequence, or 255 for a larger count, and that is then the number expected of it;
* a view that is reported can be taken out, and the others are reported as before;
* whether a view is reported depends on the numbers of its own position up to it, and on nothing
  else in the record;
* so the views of different positions can be interleaved in another way;
* with at most 256 views of each position, no view number is reported exactly if those of each
  position are 0, 1, 2, … in file order. -/
theorem numbers_judged_per_position (profile : Profile) (r : Record)
    (hheader : r.variant.hasHeader = true) :
    (∀ i v, r.views[i]? = some v →
      r.numberReports profile i = v.numberVerdict (r.inSequence profile v.position i)) ∧
    (∀ i, r.numberReports profile i ≠ [] → ∀ j,
      ({ r with views := r.views.eraseIdx i } : Record).numberReports profile j
        = r.numberReports profile (if j < i then j else j + 1)) ∧
    (∀ (profile' : Profile) (s : Record), s.variant.hasHeader = true → ∀ i j v w,
      r.views[i]? = some v → s.views[j]? = some w →
      numbersOf v.position (r.views.take (i + 1)) = numbersOf w.position (s.views.take (j + 1)) →
      (r.numberReports profile i = [] ↔ s.numberReports profile' j = [])) ∧
    (∀ ws place, Reorders r.views ws place → ∀ i : Fin r.views.length,
      ({ r with views := ws } : Record).numberReports profile (place i)
        = r.numberReports profile i) ∧
    ((∀ position, (numbersOf position r.views).length ≤ 256) →
      ((∀ x ∈ r.violations profile, x.breach.isViewNumber = false) ↔
        ∀ position, numbersOf position r.views
          = List.range (numbersOf position r.views).length)) := by
  refine ⟨?count, ?erase, ?own, ?interleave, ?range⟩
  case count =>
    intro i v hv
    rw [numberReports_eq hheader hv, inSequence_eq hheader]
  case erase =>
    intro i hreported j
    exact numberReports_eraseIdx hheader hreported j
  case own =>
    intro profile' s hs i j v w hv hw hnumbers
    exact numberReports_eq_nil_congr hheader hs hv hw hnumbers
  case interleave =>
    intro ws place hreorders i
    exact numberReports_reorder hheader hreorders i
  case range =>
    intro hbound
    exact forall_not_isViewNumber_iff hheader hbound

/-- Two fingers by turns. The second view of the first one has a number of its own. -/
def takenByTurns : Record :=
  { variant := .iso
    views := [
      { position := 1, viewNumber := 0 }, { position := 2, viewNumber := 0 },
      { position := 1, viewNumber := 5 }, { position := 2, viewNumber := 1 },
      { position := 1, viewNumber := 1 }] }

/-- Its views with the first two of them swapped. -/
def takenByTurnsSwapped : List FingerView :=
  [{ position := 2, viewNumber := 0 }, { position := 1, viewNumber := 0 },
    { position := 1, viewNumber := 5 }, { position := 2, viewNumber := 1 },
    { position := 1, viewNumber := 1 }]

theorem numbers_judged_per_position_takenByTurns :
    takenByTurns.variant.hasHeader = true ∧
    takenByTurns.numberReports .full 2 = [.viewNumber 1 1 5] ∧
    ({ takenByTurns with views := takenByTurns.views.eraseIdx 2 } : Record).numberReports .full 3
      = takenByTurns.numberReports .full 4 ∧
    (takenByTurns.numberReports .full 3 = [] ↔ ({ takenByTurns with
      views := takenByTurns.views.eraseIdx 2 } : Record).numberReports .minex 3 = []) ∧
    ({ takenByTurns with views := takenByTurnsSwapped } : Record).numberReports .full 0
      = takenByTurns.numberReports .full 1 ∧
    ¬∀ x ∈ takenByTurns.violations .full, x.breach.isViewNumber = false := by
  obtain ⟨hcount, herase, hown, hinterleave, hrange⟩ :=
    numbers_judged_per_position .full takenByTurns rfl
  have hreorders : Reorders takenByTurns.views takenByTurnsSwapped
      (Equiv.swap (0 : Fin 5) (1 : Fin 5)) := ⟨by decide, by decide⟩
  have hbound : ∀ position, (numbersOf position takenByTurns.views).length ≤ 256 :=
    fun position => (length_numbersOf_le position _).trans (by decide)
  refine ⟨rfl, (hcount 2 _ rfl).trans (by decide), herase 2 (by decide) 3,
    hown .minex { takenByTurns with views := takenByTurns.views.eraseIdx 2 } rfl 3 3 _ _ rfl rfl
      (by decide), hinterleave _ _ hreorders (1 : Fin 5), ?_⟩
  rw [hrange hbound]
  intro hall
  exact absurd (hall 1) (by decide)

end Record

end FingerMinutiae
