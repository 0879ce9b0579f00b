import FingerMinutiae.Proofs.Conformance.Reports
import FingerMinutiae.Proofs.Conformance.ViewNumbers
import Mathlib.Tactic.MkIffOfInductiveProp

/-!
# Records that conform

What it means for a record to conform is said here without a report: every rule is a field of the
structure for the node that it is about. The check is then sound and complete. It reports nothing on
a record exactly if the record conforms.

Most rules are judged on a node alone or on a node and the header of its record. View numbers are
not: the rule is about all views of a finger position together, and the check counts them as it
goes. That its count never runs over is due to another rule, by which the views are as many as the
one byte of the header says.

## Main definitions

* `Minutia.Conforms`, `RidgeCounts.Conforms`, `Landmarks.Conforms`, `ExtendedBlock.Conforms`,
  `FingerView.Conforms`: the nodes of a record.
* `Record.HeaderConforms`, `Record.Conforms`.

## Main results

* `Record.violations_eq_nil_iff_conforms`: the check decides conformance.
-/

namespace FingerMinutiae

/-! ### The rules -/

/-- A point lies in the image of the record. -/
def Record.Inside (r : Record) (x y : UInt16) : Prop :=
  x < r.xImageSize ∧ y < r.yImageSize

/-- A minutia of a record: a defined type, nothing in the reserved bits, an angle below a full turn;
and unless the record is a card, a quality of at most 100 and a position in the image. -/
@[mk_iff]
structure Minutia.Conforms (r : Record) (m : Minutia) : Prop where
  kind : m.kind.toNat ≤ 2
  reserved : m.reserved = 0
  angle : m.angle ≤ r.variant.maxAngle
  quality : r.variant.hasHeader = true → m.quality.toNat ≤ 100
  inside : r.variant.hasHeader = true → r.Inside m.x m.y

/-- Ridge counts in a view that declares so many minutiae. -/
@[mk_iff]
structure RidgeCounts.Conforms (minutiae : UInt8) (b : RidgeCounts) : Prop where
  method : b.method.toNat ≤ 2
  counts : ∀ c ∈ b.counts, c.indexOne ≤ minutiae ∧ c.indexTwo ≤ minutiae

/-- A core: of a defined type, where it has one of its own, in the image, and with an angle exactly
if its type is angular. -/
@[mk_iff]
structure Core.Conforms (r : Record) (b : Landmarks) (c : Core) : Prop where
  kind : r.variant.isIsoFamily = true → c.kind.toNat ≤ 1
  inside : r.Inside c.x c.y
  angle_isSome : c.angle.isSome = b.coreIsAngular r.variant c
  angle : ∀ a ∈ c.angle, a ≤ r.variant.maxAngle

/-- A delta, likewise, with three angles or none. -/
@[mk_iff]
structure Delta.Conforms (r : Record) (b : Landmarks) (d : Delta) : Prop where
  kind : r.variant.isIsoFamily = true → d.kind.toNat ≤ 1
  inside : r.Inside d.x d.y
  angles_isSome : d.angles.isSome = b.deltaIsAngular r.variant d
  angles : ∀ as ∈ d.angles, ∀ a ∈ as.toList, a ≤ r.variant.maxAngle

/-- Cores and deltas: as many of each as declared, and under ANSI of defined types. -/
@[mk_iff]
structure Landmarks.Conforms (r : Record) (b : Landmarks) : Prop where
  numCores : b.numCores.toNat = b.cores.length
  numDeltas : b.numDeltas.toNat = b.deltas.length
  coreType : r.variant = .ansi → b.coreType.toNat ≤ 1
  deltaType : r.variant = .ansi → b.deltaType.toNat ≤ 1
  cores : ∀ c ∈ b.cores, c.Conforms r b
  deltas : ∀ d ∈ b.deltas, d.Conforms r b

/-- A payload in a view that declares so many minutiae. Nothing is asked of data that is kept as it
is. -/
def Payload.Conforms (r : Record) (minutiae : UInt8) : Payload → Prop
  | .ridgeCounts b => b.Conforms minutiae
  | .landmarks b => b.Conforms r
  | .raw _ _ => True

/-- A block: all there, and with the length that its records declare together. -/
@[mk_iff]
structure ExtendedBlock.Conforms (r : Record) (minutiae : UInt8) (b : ExtendedBlock) : Prop where
  whole : b.truncated = false
  blockLength : b.blockLength.toNat = b.recordsLength
  records : ∀ d ∈ b.records, d.truncated = false ∧ d.payload.Conforms r minutiae

/-- The header of a view: a finger, a defined impression type and a quality of at most 100. -/
@[mk_iff]
structure ViewHeader.Conforms (h : ViewHeader) : Prop where
  position : h.position.toNat ≤ 10
  impression : h.impression ∈ [0, 1, 2, 3, 8, 9]
  quality : h.quality.toNat ≤ 100

/-- A view, but for its number: all there, and with as many minutiae as declared. -/
@[mk_iff]
structure FingerView.Conforms (r : Record) (v : FingerView) : Prop where
  whole : v.truncated = false
  numMinutiae : v.numMinutiae.toNat = v.minutiae.length
  header : r.variant.hasHeader = true → v.toViewHeader.Conforms
  minutiae : ∀ m ∈ v.minutiae, m.Conforms r
  extended : ∀ b ∈ v.extended, b.Conforms r v.numMinutiae

/-- The header of a record: the letters FMR and a zero byte, a blank, the digits 20 and a zero byte,
a length with room for the header, a product owner, a resolution, and nothing in the reserved byte.
MINEX testing asks for no product owner. -/
@[mk_iff]
structure Record.HeaderConforms (profile : Profile) (r : Record) : Prop where
  formatId : r.formatId = ⟨0x46, 0x4d, 0x52, 0⟩
  specVersion : r.specVersion = ⟨0x20, 0x32, 0x30, 0⟩
  length : (if r.variant = .ansi then 26 else 24) ≤ r.recordLength.toNat
  productOwner : r.variant = .ansi → profile = .full → r.productOwner ≠ 0
  xResolution : r.xResolution ≠ 0
  yResolution : r.yResolution ≠ 0
  reserved : r.reserved = 0

/-- A record: its header, if it has one, and its nodes, and it declares the length and the number of
views that it has. With a header, the views of each finger position are numbered from zero. -/
@[mk_iff]
structure Record.Conforms (profile : Profile) (r : Record) : Prop where
  header : r.variant.hasHeader = true → r.HeaderConforms profile
  recordLength : r.recordLength.toNat = r.computedLength
  numViews : r.numViews.toNat = r.views.length
  views : ∀ v ∈ r.views, v.Conforms r
  viewNumbers : r.variant.hasHeader = true →
    ∀ position, numbersOf position r.views = List.range (numbersOf position r.views).length

/-- A conforming view has as many minutiae as a byte can count. -/
theorem FingerView.Conforms.minutiae_length {r : Record} {v : FingerView} (h : v.Conforms r) :
    v.minutiae.length ≤ 255 := by
  rw [← h.numMinutiae]
  exact Nat.le_of_lt_succ v.numMinutiae.toNat_lt

/-- A conforming record has as many views as a byte can count. -/
theorem Record.Conforms.views_length {profile : Profile} {r : Record} (h : r.Conforms profile) :
    r.views.length ≤ 255 := by
  rw [← h.numViews]
  exact Nat.le_of_lt_succ r.numViews.toNat_lt

/-! ### Codes -/

namespace CodeSet

theorem allows_range_zero_iff {hi c : UInt8} :
    (range 0 hi).allows c = true ↔ c.toNat ≤ hi.toNat := by
  simp [allows]

theorem allows_codes_iff {members : List UInt8} {c : UInt8} :
    (codes members).allows c = true ↔ c ∈ members := by
  simp [allows]

theorem mem_zero_one_iff {c : UInt8} : c ∈ [0, 1] ↔ c.toNat ≤ 1 := by
  simp only [List.mem_cons, List.not_mem_nil, or_false, ← UInt8.toNat_inj]
  have hzero : (0 : UInt8).toNat = 0 := rfl
  have hone : (1 : UInt8).toNat = 1 := rfl
  omega

theorem mem_zero_one_two_iff {c : UInt8} : c ∈ [0, 1, 2] ↔ c.toNat ≤ 2 := by
  simp only [List.mem_cons, List.not_mem_nil, or_false, ← UInt8.toNat_inj]
  have hzero : (0 : UInt8).toNat = 0 := rfl
  have hone : (1 : UInt8).toNat = 1 := rfl
  have htwo : (2 : UInt8).toNat = 2 := rfl
  omega

end CodeSet

theorem CodedField.demand_eq_nil_iff {field : CodedField} {value : UInt8} {place : Place} :
    field.demand value place = [] ↔ field.set.allows value = true :=
  FingerMinutiae.demand_eq_nil_iff

theorem CodedField.landmarkType_allows_iff {c : UInt8} :
    CodeSet.landmarkTypes.allows c = true ↔ c.toNat ≤ 1 :=
  CodeSet.allows_codes_iff.trans CodeSet.mem_zero_one_iff

/-! ### Nodes -/

theorem RidgeCounts.violations_eq_nil_iff {b : RidgeCounts} {minutiae : UInt8} {view data : Nat} :
    b.violations minutiae view data = [] ↔ b.Conforms minutiae := by
  have hmethod : CodedField.ridgeCountMethod.set.allows b.method = true ↔ b.method.toNat ≤ 2 :=
    CodeSet.allows_codes_iff.trans CodeSet.mem_zero_one_two_iff
  rw [violations, RidgeCounts.conforms_iff, List.append_eq_nil_iff, CodedField.demand_eq_nil_iff,
    hmethod]
  refine and_congr_right fun _ => flatMap_zipIdx_eq_nil_iff fun c i => ?_
  simp

namespace Record

variable {r : Record} {place : Place} {view data : Nat}

theorem minutiaViolations_eq_nil_iff {m : Minutia} :
    r.minutiaViolations place m = [] ↔ m.Conforms r := by
  have hkind : CodedField.minutiaType.set.allows m.kind = true ↔ m.kind.toNat ≤ 2 :=
    CodeSet.allows_codes_iff.trans CodeSet.mem_zero_one_two_iff
  have hquality : CodedField.minutiaQuality.set.allows m.quality = true ↔ m.quality.toNat ≤ 100 :=
    CodeSet.allows_range_zero_iff
  rw [minutiaViolations, Minutia.conforms_iff]
  cases hheader : r.variant.hasHeader <;>
    simp [CodedField.demand_eq_nil_iff, Variant.demandAngle, Capture.demandInside, Inside, hkind,
      hquality]

theorem coreViolations_eq_nil_iff {b : Landmarks} {c : Core} :
    r.coreViolations b place c = [] ↔ c.Conforms r b := by
  have hkind : CodedField.coreType.set.allows c.kind = true ↔ c.kind.toNat ≤ 1 :=
    CodedField.landmarkType_allows_iff
  rw [coreViolations, Core.conforms_iff]
  cases hiso : r.variant.isIsoFamily <;>
    simp [CodedField.demand_eq_nil_iff, Variant.demandAngle, Capture.demandInside, Inside, hkind]

theorem deltaViolations_eq_nil_iff {b : Landmarks} {d : Delta} :
    r.deltaViolations b place d = [] ↔ d.Conforms r b := by
  have hkind : CodedField.deltaType.set.allows d.kind = true ↔ d.kind.toNat ≤ 1 :=
    CodedField.landmarkType_allows_iff
  have hangles : (d.angles.elim [] DeltaAngles.toList).flatMap
        (fun a => r.variant.demandAngle a place) = []
      ↔ ∀ as ∈ d.angles, ∀ a ∈ as.toList, a ≤ r.variant.maxAngle := by
    cases d.angles <;> simp [Variant.demandAngle]
  rw [deltaViolations, Delta.conforms_iff]
  cases hiso : r.variant.isIsoFamily <;>
    simp [CodedField.demand_eq_nil_iff, Capture.demandInside, Inside, hkind, hangles]

theorem landmarksViolations_eq_nil_iff {b : Landmarks} :
    r.landmarksViolations b view data = [] ↔ b.Conforms r := by
  have hcoreType : CodedField.coreType.set.allows b.coreType = true ↔ b.coreType.toNat ≤ 1 :=
    CodedField.landmarkType_allows_iff
  have hdeltaType : CodedField.deltaType.set.allows b.deltaType = true ↔ b.deltaType.toNat ≤ 1 :=
    CodedField.landmarkType_allows_iff
  rw [landmarksViolations, Landmarks.conforms_iff, List.append_eq_nil_iff, List.append_eq_nil_iff,
    flatMap_zipIdx_eq_nil_iff (P := fun c => c.Conforms r b) fun c i => coreViolations_eq_nil_iff,
    flatMap_zipIdx_eq_nil_iff (P := fun d => d.Conforms r b) fun d i => deltaViolations_eq_nil_iff]
  by_cases hansi : r.variant = .ansi <;>
    simp [hansi, CodedField.demand_eq_nil_iff, hcoreType, hdeltaType, and_assoc]

theorem dataViolations_eq_nil_iff {minutiae : UInt8} {d : ExtendedRecord} :
    r.dataViolations minutiae view data d = []
      ↔ d.truncated = false ∧ d.payload.Conforms r minutiae := by
  rw [dataViolations, List.append_eq_nil_iff, demand_eq_nil_iff]
  refine and_congr_right fun _ => ?_
  cases d.payload with
  | ridgeCounts b => exact RidgeCounts.violations_eq_nil_iff
  | landmarks b => exact landmarksViolations_eq_nil_iff
  | raw typeId bytes => simp [Payload.Conforms]

theorem extendedViolations_eq_nil_iff {minutiae : UInt8} {b : ExtendedBlock} :
    r.extendedViolations minutiae view b = [] ↔ b.Conforms r minutiae := by
  rw [extendedViolations, ExtendedBlock.conforms_iff, List.append_eq_nil_iff,
    flatMap_zipIdx_eq_nil_iff
      (P := fun d => d.truncated = false ∧ d.payload.Conforms r minutiae)
      fun d i => dataViolations_eq_nil_iff]
  simp [and_assoc]

end Record

theorem FingerView.headerViolations_eq_nil_iff {v : FingerView} {expected : UInt8} {place : Place} :
    v.headerViolations expected place = []
      ↔ v.toViewHeader.Conforms ∧ v.viewNumber = expected := by
  have hposition : CodedField.fingerPosition.set.allows v.position = true ↔ v.position.toNat ≤ 10 :=
    CodeSet.allows_range_zero_iff
  have himpression : CodedField.impressionType.set.allows v.impression = true
      ↔ v.impression ∈ [0, 1, 2, 3, 8, 9] := CodeSet.allows_codes_iff
  have hquality : CodedField.fingerQuality.set.allows v.quality = true ↔ v.quality.toNat ≤ 100 :=
    CodeSet.allows_range_zero_iff
  simp only [headerViolations, ViewHeader.conforms_iff, List.append_eq_nil_iff, demand_eq_nil_iff,
    CodedField.demand_eq_nil_iff, hposition, himpression, hquality]
  constructor
  · rintro ⟨⟨⟨hp, hn⟩, hi⟩, hq⟩
    exact ⟨⟨hp, hi, hq⟩, hn⟩
  · rintro ⟨⟨hp, hi, hq⟩, hn⟩
    exact ⟨⟨⟨hp, hn⟩, hi⟩, hq⟩

namespace Record

variable {r : Record} {profile : Profile}

theorem viewViolations_eq_nil_iff {view : Nat} {v : FingerView} {expected : UInt8} :
    r.viewViolations view v expected = []
      ↔ v.Conforms r ∧ (r.variant.hasHeader = true → v.viewNumber = expected) := by
  have hextended : v.extended.elim [] (r.extendedViolations v.numMinutiae view) = []
      ↔ ∀ b ∈ v.extended, b.Conforms r v.numMinutiae := by
    cases v.extended <;> simp [extendedViolations_eq_nil_iff]
  rw [viewViolations, FingerView.conforms_iff, List.append_eq_nil_iff, List.append_eq_nil_iff,
    flatMap_zipIdx_eq_nil_iff (P := fun m => m.Conforms r) fun m i => minutiaViolations_eq_nil_iff]
  simp only [List.append_eq_nil_iff, demand_eq_nil_iff, hextended]
  cases hheader : r.variant.hasHeader with
  | false => simp [and_assoc]
  | true =>
    simp only [if_true, forall_const, FingerView.headerViolations_eq_nil_iff]
    constructor
    · rintro ⟨⟨⟨⟨hw, hn⟩, hh, he⟩, hm⟩, hx⟩
      exact ⟨⟨hw, hn, hh, hm, hx⟩, he⟩
    · rintro ⟨⟨hw, hn, hh, hm, hx⟩, he⟩
      exact ⟨⟨⟨⟨hw, hn⟩, hh, he⟩, hm⟩, hx⟩

/-- What is asked of every view and of every pair of a view and the number expected of it. -/
theorem forall_mem_zip_iff {α β : Type} {P : α → Prop} {judged : Prop} {f : α → β} {as : List α}
    {bs : List β} (h : as.length = bs.length) :
    (∀ x ∈ as.zip bs, P x.1 ∧ (judged → f x.1 = x.2))
      ↔ (∀ a ∈ as, P a) ∧ (judged → as.map f = bs) := by
  induction as generalizing bs with
  | nil => cases bs <;> simp at h ⊢
  | cons a as ih =>
    cases bs with
    | nil => simp at h
    | cons b bs =>
      have htail := ih (Nat.succ.inj h)
      simp only [List.zip_cons_cons, List.forall_mem_cons, htail, List.map_cons, List.cons.injEq]
      constructor
      · rintro ⟨⟨ha, hb⟩, has, hbs⟩
        exact ⟨⟨ha, has⟩, fun hj => ⟨hb hj, hbs hj⟩⟩
      · rintro ⟨⟨ha, has⟩, hall⟩
        exact ⟨⟨ha, fun hj => (hall hj).1⟩, has, fun hj => (hall hj).2⟩

theorem headerViolations_eq_nil_iff (hheader : r.variant.hasHeader = true) :
    r.headerViolations profile = [] ↔ r.HeaderConforms profile := by
  have hminimum : r.variant.minRecordLength = if r.variant = .ansi then 26 else 24 := by
    cases hv : r.variant <;> simp [hv, Variant.hasHeader] at hheader ⊢ <;> rfl
  simp only [headerViolations, headerConforms_iff, List.append_eq_nil_iff, demand_eq_nil_iff,
    hminimum, and_assoc]
  rfl

/-- What the check decides, with the view numbers as it expects them. -/
theorem violations_eq_nil_iff_expectedNumbers : r.violations profile = [] ↔
    (r.variant.hasHeader = true → r.HeaderConforms profile) ∧
      r.recordLength.toNat = r.computedLength ∧ r.numViews.toNat = r.views.length ∧
      (∀ v ∈ r.views, v.Conforms r) ∧ (r.variant.hasHeader = true →
        r.views.map (fun v => v.viewNumber) = expectedNumbers (fun _ => 0) r.views) := by
  have hheader : (if r.variant.hasHeader then r.headerViolations profile else []) = []
      ↔ (r.variant.hasHeader = true → r.HeaderConforms profile) := by
    by_cases h : r.variant.hasHeader = true <;> simp [h, headerViolations_eq_nil_iff]
  have hviews : (∀ x ∈ r.views.zip (expectedNumbers (fun _ => 0) r.views),
        x.1.Conforms r ∧ (r.variant.hasHeader = true → x.1.viewNumber = x.2))
      ↔ (∀ v ∈ r.views, v.Conforms r) ∧ (r.variant.hasHeader = true →
        r.views.map (fun v => v.viewNumber) = expectedNumbers (fun _ => 0) r.views) :=
    forall_mem_zip_iff (P := fun v => v.Conforms r) (f := fun v => v.viewNumber)
      (length_expectedNumbers _ _).symm
  rw [violations, List.append_eq_nil_iff, flatMap_zipIdx_eq_nil_iff
    (P := fun x => x.1.Conforms r ∧ (r.variant.hasHeader = true → x.1.viewNumber = x.2))
    fun x i => viewViolations_eq_nil_iff, hviews]
  simp only [List.append_eq_nil_iff, hheader, demand_eq_nil_iff, and_assoc]

/-- The views of a record that are as many as its header can announce have the numbers that the
check expects exactly if those of each position run from zero. -/
theorem map_viewNumber_eq_iff (h : r.numViews.toNat = r.views.length) :
    r.views.map (fun v => v.viewNumber) = expectedNumbers (fun _ => 0) r.views ↔
      ∀ position, numbersOf position r.views
        = List.range (numbersOf position r.views).length := by
  simp only [List.range_eq_range']
  refine map_viewNumber_eq_expectedNumbers_iff fun position => ?_
  have hle := length_numbersOf_le position r.views
  have hlt := r.numViews.toNat_lt
  have hzero : (0 : UInt8).toNat = 0 := rfl
  omega

/-- What the check passes conforms. -/
theorem conforms_of_violations (h : r.violations profile = []) : r.Conforms profile := by
  obtain ⟨hheader, hlength, hcount, hviews, hexpected⟩ :=
    violations_eq_nil_iff_expectedNumbers.mp h
  exact ⟨hheader, hlength, hcount, hviews, fun h => (map_viewNumber_eq_iff hcount).mp (hexpected h)⟩

/-- The check passes what conforms. -/
theorem Conforms.violations_eq_nil (h : r.Conforms profile) : r.violations profile = [] := by
  obtain ⟨hheader, hlength, hcount, hviews, hnumbers⟩ := h
  exact violations_eq_nil_iff_expectedNumbers.mpr ⟨hheader, hlength, hcount, hviews,
    fun h => (map_viewNumber_eq_iff hcount).mpr (hnumbers h)⟩

/-- **The check decides conformance.** It reports nothing on a record exactly if the record
conforms. -/
theorem violations_eq_nil_iff_conforms : r.violations profile = [] ↔ r.Conforms profile :=
  ⟨conforms_of_violations, Conforms.violations_eq_nil⟩

/-- A second view of the same finger that is numbered like the first is the only thing wrong. -/
example :
    let view : FingerView :=
      { position := 1
        quality := 80
        numMinutiae := 1
        minutiae := [{ kind := 1, x := 9, y := 9 }] }
    Record.violations .full {
      variant := .iso
      formatId := .finger
      specVersion := .version20
      recordLength := 48
      xImageSize := 256
      yImageSize := 256
      xResolution := 197
      yResolution := 197
      numViews := 2
      views := [view, view] } = [⟨.view 1, .viewNumber 1 1 0⟩] := by
  decide

end Record

end FingerMinutiae
