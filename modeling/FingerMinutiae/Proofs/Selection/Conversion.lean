import FingerMinutiae.Proofs.Conversion.Convert
import FingerMinutiae.Proofs.Selection.Select

/-!
# Selecting and converting

Between records with a header a conversion leaves every minutia where it is and changes its angle
and its quality. A policy without chance looks at nothing but positions. So the two commute, and the
reason is one about a single map of minutiae: the centroid does not see it, and neither does the
order or the pruning about it.

The rest is bookkeeping. A selection keeps the mark of a view that was cut short and counts at most
255 minutiae, and a conversion clears the mark and counts modulo 256; with views that a byte can
count, both orders end up with the same.

## Main definitions

* `KeepsPosition`: a map of minutiae that leaves each where it is.

## Main results

* `Selection.apply_map`: a policy without chance commutes with such a map.
* `Record.convert_select`: selecting commutes with converting.
-/

namespace FingerMinutiae

/-- Every minutia is left where it is. -/
def KeepsPosition (f : Minutia → Minutia) : Prop :=
  ∀ m, (f m).x = m.x ∧ (f m).y = m.y

theorem Minutia.keepsPosition_recoded (source target : Variant) :
    KeepsPosition (Minutia.recoded source target) :=
  fun _ => ⟨rfl, rfl⟩

/-! ### Policies -/

section Policies

variable {f : Minutia → Minutia} (ms : List Minutia)

/-- A test that the map does not affect picks the same places. -/
theorem filter_map_of_eq {p : Minutia → Bool} (hp : ∀ m, p (f m) = p m) :
    (ms.map f).filter p = (ms.filter p).map f := by
  rw [List.filter_map]
  exact congrArg (List.map f) (List.filter_congr fun m _ => hp m)

theorem limited_map (limit : Option Nat) : limited limit (ms.map f) = (limited limit ms).map f := by
  cases limit with
  | none => rfl
  | some n => exact List.map_take.symm

variable (hf : KeepsPosition f)

include hf

namespace KeepsPosition

theorem offsetX_eq (m : Minutia) (centre : Point) : (f m).offsetX centre = m.offsetX centre := by
  rw [Minutia.offsetX, Minutia.offsetX, (hf m).1]

theorem offsetY_eq (m : Minutia) (centre : Point) : (f m).offsetY centre = m.offsetY centre := by
  rw [Minutia.offsetY, Minutia.offsetY, (hf m).2]

theorem distanceSq_eq (m : Minutia) (centre : Point) :
    (f m).distanceSq centre = m.distanceSq centre := by
  rw [Minutia.distanceSq, Minutia.distanceSq, hf.offsetX_eq, hf.offsetY_eq]

theorem centroid?_map : centroid? (ms.map f) = centroid? ms := by
  have hx : ms.map ((fun m => m.x.toNat) ∘ f) = ms.map fun m => m.x.toNat :=
    List.map_congr_left fun m _ => congrArg UInt16.toNat (hf m).1
  have hy : ms.map ((fun m => m.y.toNat) ∘ f) = ms.map fun m => m.y.toNat :=
    List.map_congr_left fun m _ => congrArg UInt16.toNat (hf m).2
  simp only [centroid?, List.isEmpty_map, List.length_map, List.map_map, hx, hy]

theorem sortPolar_map : sortPolar (ms.map f) = (sortPolar ms).map f := by
  rw [sortPolar, sortPolar, hf.centroid?_map]
  cases centroid? ms with
  | none => rfl
  | some centre =>
    refine (List.map_mergeSort fun p _ q _ => ?_).symm
    rw [hf.distanceSq_eq, hf.distanceSq_eq]

theorem pruneElliptical_map (a b : UInt16) :
    pruneElliptical a b (ms.map f) = (pruneElliptical a b ms).map f := by
  rw [pruneElliptical, pruneElliptical, hf.centroid?_map]
  cases centroid? ms with
  | none => rfl
  | some centre =>
    refine filter_map_of_eq ms fun m => ?_
    rw [hf.offsetX_eq, hf.offsetY_eq]

theorem pruneRectangular_map (x y width height : UInt16) :
    pruneRectangular x y width height (ms.map f)
      = (pruneRectangular x y width height ms).map f := by
  refine filter_map_of_eq ms fun m => ?_
  rw [(hf m).1, (hf m).2]

end KeepsPosition

/-- A policy without chance goes by positions alone. -/
theorem Selection.apply_map {γ : Type} (shuffler : Shuffler γ) {selection : Selection}
    (hselection : selection ≠ .random) (g g' : γ) :
    (selection.apply shuffler g' (ms.map f)).1 = (selection.apply shuffler g ms).1.map f := by
  cases selection with
  | polar => exact hf.sortPolar_map ms
  | random => exact absurd rfl hselection
  | elliptical a b => exact hf.pruneElliptical_map ms a b
  | rectangular x y width height => exact hf.pruneRectangular_map ms x y width height

end Policies

/-! ### Views and records -/

section Records

variable {γ : Type} (shuffler : Shuffler γ) {selection : Selection} (limit : Option Nat) (g g' : γ)

/-- Minutiae that a byte can count are counted alike by a selection and by a conversion. -/
theorem FingerView.recoded_withMinutiae (source target : Variant) (v : FingerView)
    {ms : List Minutia} (hlength : ms.length ≤ 255) : (v.withMinutiae ms).recoded source target
      = (v.recoded source target).withMinutiae (ms.map (Minutia.recoded source target)) := by
  have hmin : min (ms.map (Minutia.recoded source target)).length 255 = ms.length := by
    rw [List.length_map, Nat.min_eq_left hlength]
  rw [withMinutiae.eq_def (v.recoded source target), hmin]
  rfl

theorem FingerView.recoded_select (hselection : selection ≠ .random) (source target : Variant)
    {v : FingerView} (hcount : v.minutiae.length ≤ 255) :
    (v.select shuffler selection limit g).1.recoded source target
      = ((v.recoded source target).select shuffler selection limit g').1 := by
  have hlength : (limited limit (selection.apply shuffler g v.minutiae).1).length ≤ 255 :=
    Nat.le_trans (v.selectsTo_select shuffler selection limit g).minutiae.length_le hcount
  have hchosen := Selection.apply_map v.minutiae (Minutia.keepsPosition_recoded source target)
    shuffler hselection g g'
  rw [select_fst, select_fst, recoded_withMinutiae source target v hlength, ← limited_map,
    ← hchosen]
  rfl

theorem map_recoded_selectViews (hselection : selection ≠ .random) (source target : Variant)
    {vs : List FingerView} (hcount : ∀ v ∈ vs, v.minutiae.length ≤ 255) :
    (selectViews shuffler selection limit g vs).1.map (FingerView.recoded source target)
      = (selectViews shuffler selection limit g'
          (vs.map (FingerView.recoded source target))).1 := by
  induction vs generalizing g g' with
  | nil => rfl
  | cons v vs ih =>
    obtain ⟨hv, hvs⟩ := List.forall_mem_cons.mp hcount
    exact congrArg₂ List.cons
      (FingerView.recoded_select shuffler limit g g' hselection source target hv) (ih _ _ hvs)

/-- The length is computed last in either order. -/
theorem Record.recoded_select (hselection : selection ≠ .random) (target : Variant)
    (asked : Option Resolution) {r : Record} (hcount : ∀ v ∈ r.views, v.minutiae.length ≤ 255) :
    (r.select shuffler selection limit g).1.recoded target asked
      = ((r.recoded target asked).select shuffler selection limit g').1 := by
  have hviews := map_recoded_selectViews shuffler limit g g' hselection r.variant target hcount
  have hlength : (selectViews shuffler selection limit g r.views).1.length = r.views.length :=
    (forall₂_selectViews shuffler selection limit g r.views).length_eq.symm
  rw [select_fst, select_fst, recoded, recoded]
  show withComputedLength { r.convertHeader target (r.usableResolution? asked) with
      numViews := UInt8.ofNat (selectViews shuffler selection limit g r.views).1.length
      views := (selectViews shuffler selection limit g r.views).1.map
        (FingerView.recoded r.variant target) } = _
  rw [hlength, hviews]
  rfl

/-- **Selecting commutes with converting.** Between records with a header, both can be done in
either order, with the same result: for every policy without chance and every limit, whatever
resolution is asked for. -/
theorem Record.convert_select (hselection : selection ≠ .random) {r : Record} {target : Variant}
    (hsource : r.variant.hasHeader = true) (htarget : target.hasHeader = true)
    (hpair : r.variant = .ansi ∨ target = .ansi) (asked : Option Resolution)
    (hcount : ∀ v ∈ r.views, v.minutiae.length ≤ 255)
    (hreach : ∀ v ∈ r.views, ∀ m ∈ v.minutiae, m.InReach) :
    ∃ c, r.convert target asked = .ok c ∧
      (r.select shuffler selection limit g).1.convert target asked
        = .ok (c.select shuffler selection limit g').1 := by
  have hs := selectsTo_select shuffler selection limit g r
  have hsvariant := hs.variant_eq
  have hsreach : ∀ w ∈ (r.select shuffler selection limit g).1.views,
      ∀ m ∈ w.minutiae, m.InReach :=
    forall_mem_of_forall₂ hs.views hreach fun _ _ hv hw => hw.forall_minutiae hv
  refine ⟨r.recoded target asked, convert_eq_of_inReach hsource htarget hpair hreach, ?_⟩
  rw [← recoded_select shuffler limit g g' hselection target asked hcount]
  refine convert_eq_of_inReach ?_ htarget ?_ hsreach
  · rwa [hsvariant]
  · rwa [hsvariant]

end Records

/-- An ANSI record of a view that was cut short, behind three minutiae of which the last two are
equally near the centroid. -/
def scatteredRecord : Record where
  variant := .ansi
  productOwner := 259
  xResolution := 197
  views := [{
    viewNumber := 7
    numMinutiae := 9
    minutiae := [{ kind := 1, x := 0x3fff, y := 0 }, { x := 10, y := 90, angle := 200 },
      { kind := 2, x := 90, y := 10, quality := 30, reserved := 3 }]
    extended := some { blockLength := 8, truncated := true }
    truncated := true }]

theorem Record.convert_select_scatteredRecord :
    ∃ c, scatteredRecord.convert .iso (some ⟨0, 5⟩) = .ok c ∧
      (scatteredRecord.select Lottery.shuffler .polar (some 2) {}).1.convert .iso (some ⟨0, 5⟩)
        = .ok (c.select Lottery.shuffler .polar (some 2) {}).1 :=
  convert_select (r := scatteredRecord) Lottery.shuffler (some 2) {} {} (by decide) rfl rfl
    (.inl rfl) (some ⟨0, 5⟩) (by decide) (by decide)

end FingerMinutiae
