import FingerMinutiae.Proofs.Conformance.Reports
import FingerMinutiae.Proofs.WellFormed

/-!
# What is reported of which node

The check goes from node to node. What it can report of each is gone through here once, for all that
is said elsewhere about what a report holds and what it does not. A breach of structure is reported
of a node only if the node is not well formed. And nothing is said about view numbers, except by one
demand in the header of a view.

## Main definitions

* `Breach.isStructural`, `Breach.isViewNumber`: the breaches in question.
* `NodeReport`: a report with neither, or with those of structure if the node is not sound.

## Main results

* `Record.nodeReport_headerViolations`, `Record.nodeReport_minutiaViolations`,
  `Record.nodeReport_extendedViolations`: the nodes.
* `Record.exists_viewViolations_eq`: a view, and where its number is judged.
-/

namespace FingerMinutiae

/-- The breach is one of structure: a node is cut short, or what is declared is not there. -/
def Breach.isStructural : Breach → Bool
  | truncated | recordLength _ _ | viewCount _ _ | minutiaeCount _ _ | blockLength _ _
  | landmarkCount _ _ _ | anglePresence _ _ => true
  | _ => false

/-- The breach is a view number out of sequence. -/
def Breach.isViewNumber : Breach → Bool
  | viewNumber _ _ _ => true
  | _ => false

/-! ### Reports on nodes -/

/-- A report on a node says nothing about view numbers, and nothing about structure if the node is
sound. -/
def NodeReport (sound : Prop) (report : List Violation) : Prop :=
  ∀ x ∈ report, x.breach.isViewNumber = false ∧ (sound → x.breach.isStructural = false)

section NodeReport

variable {sound sound' : Prop} {report report' : List Violation}

/-- With less to rely on, less is promised. -/
theorem NodeReport.mono (h : NodeReport sound report) (hsound : sound' → sound) :
    NodeReport sound' report :=
  fun x hx => ⟨(h x hx).1, fun hs => (h x hx).2 (hsound hs)⟩

@[simp] theorem nodeReport_nil : NodeReport sound [] := by
  simp [NodeReport]

@[simp] theorem nodeReport_append :
    NodeReport sound (report ++ report') ↔ NodeReport sound report ∧ NodeReport sound report' :=
  List.forall_mem_append

/-- A demand that a sound node meets. -/
theorem nodeReport_demand {condition : Prop} [Decidable condition] {place : Place} {breach : Breach}
    (hnumber : breach.isViewNumber = false) (h : sound → condition) :
    NodeReport sound (demand condition place breach) := by
  refine forall_mem_demand_iff.mpr ?_
  by_cases hcondition : condition
  · exact .inl hcondition
  · exact .inr ⟨hnumber, fun hs => absurd (h hs) hcondition⟩

/-- A demand on a value, which is no matter of structure. -/
theorem nodeReport_demand_of_value {condition : Prop} [Decidable condition] {place : Place}
    {breach : Breach} (hnumber : breach.isViewNumber = false)
    (hvalue : breach.isStructural = false) : NodeReport sound (demand condition place breach) :=
  forall_mem_demand_iff.mpr (.inr ⟨hnumber, fun _ => hvalue⟩)

@[simp] theorem CodedField.nodeReport_demand (field : CodedField) (value : UInt8) (place : Place) :
    NodeReport sound (field.demand value place) :=
  nodeReport_demand_of_value rfl rfl

@[simp] theorem Variant.nodeReport_demandAngle (variant : Variant) (angle : UInt8) (place : Place) :
    NodeReport sound (variant.demandAngle angle place) :=
  nodeReport_demand_of_value rfl rfl

@[simp] theorem Capture.nodeReport_demandInside (c : Capture) (x y : UInt16) (place : Place) :
    NodeReport sound (c.demandInside x y place) :=
  nodeReport_demand_of_value rfl rfl

theorem nodeReport_flatMap {α : Type} {as : List α} {report : α → List Violation}
    (h : ∀ a ∈ as, NodeReport sound (report a)) : NodeReport sound (as.flatMap report) := by
  intro x hx
  obtain ⟨a, ha, hx⟩ := List.mem_flatMap.mp hx
  exact h a ha x hx

theorem nodeReport_flatMap_zipIdx {α : Type} {as : List α} {report : α × Nat → List Violation}
    (h : ∀ a ∈ as, ∀ i, NodeReport sound (report (a, i))) :
    NodeReport sound (as.zipIdx.flatMap report) :=
  forall_mem_flatMap_zipIdx h

end NodeReport

/-! ### Node by node -/

theorem RidgeCounts.nodeReport_violations (sound : Prop) (b : RidgeCounts) (minutiae : UInt8)
    (view data : Nat) : NodeReport sound (b.violations minutiae view data) := by
  refine nodeReport_append.mpr ⟨CodedField.nodeReport_demand _ _ _, ?_⟩
  refine nodeReport_flatMap_zipIdx fun c _ i => nodeReport_flatMap fun index _ => ?_
  exact nodeReport_demand_of_value rfl rfl

namespace Record

variable (r : Record) (sound : Prop)

/-- A record has nothing in its own header that is a matter of structure. -/
theorem nodeReport_headerViolations (profile : Profile) :
    NodeReport sound (r.headerViolations profile) := by
  simp only [headerViolations, nodeReport_append]
  refine ⟨⟨⟨⟨⟨?_, ?_⟩, ?_⟩, ?_⟩, ?_⟩, ?_⟩
  all_goals exact nodeReport_demand_of_value rfl rfl

theorem nodeReport_minutiaViolations (place : Place) (m : Minutia) :
    NodeReport sound (r.minutiaViolations place m) := by
  have hreserved : NodeReport sound (demand (m.reserved = 0) place (.reserved m.reserved)) :=
    nodeReport_demand_of_value rfl rfl
  rw [minutiaViolations]
  split <;> simp [hreserved]

/-- The angle of a core is there or not as its type says. -/
theorem nodeReport_coreViolations (b : Landmarks) (place : Place) (c : Core) :
    NodeReport (c.angle.isSome = b.coreIsAngular r.variant c) (r.coreViolations b place c) := by
  simp only [coreViolations, nodeReport_append]
  refine ⟨⟨⟨?_, ?_⟩, ?_⟩, ?_⟩
  · split <;> simp
  · exact Capture.nodeReport_demandInside _ _ _ _
  · exact nodeReport_demand rfl id
  · exact nodeReport_flatMap fun _ _ => Variant.nodeReport_demandAngle _ _ _

theorem nodeReport_deltaViolations (b : Landmarks) (place : Place) (d : Delta) :
    NodeReport (d.angles.isSome = b.deltaIsAngular r.variant d) (r.deltaViolations b place d) := by
  simp only [deltaViolations, nodeReport_append]
  refine ⟨⟨⟨?_, ?_⟩, ?_⟩, ?_⟩
  · split <;> simp
  · exact Capture.nodeReport_demandInside _ _ _ _
  · exact nodeReport_demand rfl id
  · exact nodeReport_flatMap fun _ _ => Variant.nodeReport_demandAngle _ _ _

theorem nodeReport_landmarksViolations (b : Landmarks) (view data : Nat) :
    NodeReport (b.WellFormed r.variant) (r.landmarksViolations b view data) := by
  simp only [landmarksViolations, nodeReport_append]
  refine ⟨⟨⟨⟨?_, ?_⟩, ?_⟩, ?_⟩, ?_⟩
  · exact nodeReport_demand rfl Landmarks.WellFormed.numCores
  · exact nodeReport_demand rfl Landmarks.WellFormed.numDeltas
  · split <;> simp
  · refine nodeReport_flatMap_zipIdx fun c hc i => ?_
    exact (r.nodeReport_coreViolations b _ c).mono fun h => h.core_angle c hc
  · refine nodeReport_flatMap_zipIdx fun d hd i => ?_
    exact (r.nodeReport_deltaViolations b _ d).mono fun h => h.delta_angles d hd

theorem nodeReport_dataViolations (minutiae : UInt8) (view data : Nat) (d : ExtendedRecord) :
    NodeReport (d.WellFormed r.variant) (r.dataViolations minutiae view data d) := by
  refine nodeReport_append.mpr ⟨nodeReport_demand rfl ExtendedRecord.WellFormed.whole, ?_⟩
  cases hd : d.payload with
  | ridgeCounts b => exact b.nodeReport_violations _ minutiae view data
  | landmarks b =>
    refine (r.nodeReport_landmarksViolations b view data).mono fun h => ?_
    have hpayload := h.payload
    rwa [hd] at hpayload
  | raw typeId bytes => exact nodeReport_nil

theorem nodeReport_extendedViolations (minutiae : UInt8) (view : Nat) (b : ExtendedBlock) :
    NodeReport (b.WellFormed r.variant) (r.extendedViolations minutiae view b) := by
  simp only [extendedViolations, nodeReport_append]
  refine ⟨⟨?_, ?_⟩, ?_⟩
  · exact nodeReport_demand rfl ExtendedBlock.WellFormed.whole
  · exact nodeReport_demand rfl ExtendedBlock.WellFormed.length
  · refine nodeReport_flatMap_zipIdx fun d hd i => ?_
    exact (r.nodeReport_dataViolations minutiae view i d).mono fun h => h.records d hd

/-! ### Views -/

/-- The number of a view is judged in its header, if it has one, and nowhere else. -/
theorem exists_viewViolations_eq (view : Nat) (v : FingerView) (expected : UInt8) :
    ∃ before after, r.viewViolations view v expected
        = before ++ (if r.variant.hasHeader then
            demand (v.viewNumber = expected) (.view view)
              (.viewNumber v.position expected v.viewNumber)
          else []) ++ after ∧
      NodeReport (v.WellFormed r.variant) before ∧ NodeReport (v.WellFormed r.variant) after := by
  have hcounts : NodeReport (v.WellFormed r.variant)
      (demand (v.truncated = false) (.view view) .truncated
        ++ demand (v.numMinutiae.toNat = v.minutiae.length) (.view view)
          (.minutiaeCount v.numMinutiae.toNat v.minutiae.length)) :=
    nodeReport_append.mpr ⟨nodeReport_demand rfl FingerView.WellFormed.whole,
      nodeReport_demand rfl FingerView.WellFormed.numMinutiae⟩
  have hminutiae : NodeReport (v.WellFormed r.variant)
      (v.minutiae.zipIdx.flatMap fun x => r.minutiaViolations (.minutia view x.2) x.1) :=
    nodeReport_flatMap_zipIdx fun m _ i => r.nodeReport_minutiaViolations _ _ m
  have hextended : NodeReport (v.WellFormed r.variant)
      (v.extended.elim [] (r.extendedViolations v.numMinutiae view)) := by
    cases hv : v.extended with
    | none => exact nodeReport_nil
    | some b =>
      exact (r.nodeReport_extendedViolations v.numMinutiae view b).mono fun h => h.extended b hv
  have hrest := nodeReport_append.mpr ⟨hminutiae, hextended⟩
  cases hheader : r.variant.hasHeader with
  | false => exact ⟨_, _, by simp [viewViolations, hheader], hcounts, hrest⟩
  | true =>
    have hposition : NodeReport (v.WellFormed r.variant)
        (CodedField.fingerPosition.demand v.position (.view view)) :=
      CodedField.nodeReport_demand _ _ _
    have hcodes : NodeReport (v.WellFormed r.variant)
        (CodedField.impressionType.demand v.impression (.view view)
          ++ CodedField.fingerQuality.demand v.quality (.view view)) :=
      nodeReport_append.mpr ⟨CodedField.nodeReport_demand _ _ _, CodedField.nodeReport_demand _ _ _⟩
    refine ⟨_, _, ?_, nodeReport_append.mpr ⟨hcounts, hposition⟩,
      nodeReport_append.mpr ⟨hcodes, hrest⟩⟩
    simp [viewViolations, FingerView.headerViolations, hheader]

end Record

end FingerMinutiae
