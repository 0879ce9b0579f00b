import FingerMinutiae.Proofs.Conformance.Breaches
import FingerMinutiae.Proofs.Conformance.ViewNumbers
import FingerMinutiae.Proofs.Decoding.CardBytes
import FingerMinutiae.Proofs.Decoding.Image

/-!
# The structure of a decoded record

A decoder looks at nothing but structure, and the check looks at structure and values. Where the two
look at the same thing they agree. Of a record that was read whole the check finds nothing cut
short, and every count and every length inside the record right; only the length that the header
declares may be wrong, which a decoder does not look at. A record that was cut short never passes.

There are three ways in which a record that was cut short shows it, and the check has a rule for
each. A node that was begun is marked. Between two views there is no such node, but there are fewer
views than the header announces. And within the header there is nothing to mark or to count, but the
resolution comes last in it and is zero as long as it was not read. Only a card, which announces
nothing, can be cut short without a trace, where one of its minutiae ends.

## Main definitions

* `Breach.marksCut`: the breaches by which a record shows that it was cut short.

## Main results

* `Record.eq_recordLength_of_mem_violations`: the structural breaches of a well-formed record.
* `Record.exists_marksCut_of_decode`: what is reported of a record that was cut short.
* `Record.violations_of_decode`: the reports on decoded records.
-/

namespace FingerMinutiae

/-- The breach is one by which a record shows that not all of it was there. -/
def Breach.marksCut : Breach → Bool
  | truncated | viewCount _ _ | resolution _ _ => true
  | _ => false

namespace Record

variable {r : Record}

/-! ### Records that were read whole -/

/-- A well-formed view has no breach of structure. -/
theorem isStructural_of_mem_viewViolations {v : FingerView} (h : v.WellFormed r.variant)
    {view : Nat} {expected : UInt8} {x : Violation} (hx : x ∈ r.viewViolations view v expected) :
    x.breach.isStructural = false := by
  obtain ⟨before, after, hreport, hbefore, hafter⟩ := r.exists_viewViolations_eq view v expected
  rw [hreport, List.mem_append, List.mem_append] at hx
  rcases hx with (hx | hx) | hx
  · exact (hbefore x hx).2 h
  · split at hx
    · refine (forall_mem_demand_iff (Q := fun x => x.breach.isStructural = false)).mpr ?_ x hx
      exact .inr rfl
    · cases hx
  · exact (hafter x hx).2 h

/-- Of a record of which all views are there and as many as declared the record length is the only
thing in the structure that can be wrong. -/
theorem eq_recordLength_of_mem_violations {profile : Profile}
    (hcount : r.numViews.toNat = r.views.length) (hviews : ∀ v ∈ r.views, v.WellFormed r.variant)
    {x : Violation} (hx : x ∈ r.violations profile) (hstructural : x.breach.isStructural = true) :
    r.recordLength.toNat ≠ r.computedLength ∧
      x = ⟨.record, .recordLength r.recordLength.toNat r.computedLength⟩ := by
  have hheader : NodeReport True
      (if r.variant.hasHeader then r.headerViolations profile else []) := by
    split
    · exact r.nodeReport_headerViolations True profile
    · exact nodeReport_nil
  have hview : ∀ x ∈ (r.views.zip (expectedNumbers (fun _ => 0) r.views)).zipIdx.flatMap
      fun x => r.viewViolations x.2 x.1.1 x.1.2, x.breach.isStructural = false :=
    forall_mem_flatMap_zipIdx fun _ hv _ _ =>
      isStructural_of_mem_viewViolations (hviews _ (List.of_mem_zip hv).1)
  have hnot : ¬ x.breach.isStructural = false := by simp [hstructural]
  rw [violations, List.mem_append, List.mem_append, List.mem_append] at hx
  rcases hx with ((hx | hx) | hx) | hx
  · exact absurd ((hheader x hx).2 trivial) hnot
  · unfold demand at hx
    split at hx
    · cases hx
    · next hlength => exact ⟨hlength, List.mem_singleton.mp hx⟩
  · rw [demand, if_pos hcount] at hx
    cases hx
  · exact absurd (hview x hx) hnot

/-! ### Records that were cut short -/

theorem resolution_mem_violations {profile : Profile} (hheader : r.variant.hasHeader = true)
    (h : ¬(r.xResolution ≠ 0 ∧ r.yResolution ≠ 0)) :
    ⟨.record, .resolution r.xResolution r.yResolution⟩ ∈ r.violations profile := by
  have hmem := mem_demand_of_not h .record (.resolution r.xResolution r.yResolution)
  simp [violations, headerViolations, hheader, hmem]

theorem recordLength_mem_violations {profile : Profile}
    (h : r.recordLength.toNat ≠ r.computedLength) :
    ⟨.record, .recordLength r.recordLength.toNat r.computedLength⟩ ∈ r.violations profile := by
  have hmem := mem_demand_of_not h .record
    (.recordLength r.recordLength.toNat r.computedLength)
  simp [violations, hmem]

theorem viewCount_mem_violations {profile : Profile} (h : r.numViews.toNat ≠ r.views.length) :
    ⟨.record, .viewCount r.numViews.toNat r.views.length⟩ ∈ r.violations profile := by
  have hmem := mem_demand_of_not h .record (.viewCount r.numViews.toNat r.views.length)
  simp [violations, hmem]

/-- A view that was cut short is reported at its index. -/
theorem truncated_mem_violations (profile : Profile) {v : FingerView} (hv : v ∈ r.views)
    (h : v.truncated = true) : ∃ i, ⟨.view i, .truncated⟩ ∈ r.violations profile := by
  obtain ⟨i, hi, rfl⟩ := List.mem_iff_getElem.mp hv
  have hexpected : i < (expectedNumbers (fun _ => 0) r.views).length := by
    rwa [length_expectedNumbers]
  have hcut : ¬r.views[i].truncated = false := by simp [h]
  have hmem := mem_demand_of_not hcut (.view i) .truncated
  refine ⟨i, List.mem_append_right _ (List.mem_flatMap.mpr
    ⟨((r.views[i], (expectedNumbers (fun _ => 0) r.views)[i]), i), ?_, ?_⟩)⟩
  · exact List.mem_zipIdx_iff_getElem?.mpr (by simp [hi])
  · simp [viewViolations, hmem]

/-- A record that shows that it was cut short does so in its report. -/
theorem exists_marksCut_of_shows {profile : Profile}
    (h : r.variant.hasHeader = true ∧ r.toCapture = {} ∨ r.views.length < r.numViews.toNat ∨
      ∃ v ∈ r.views, v.truncated = true) :
    ∃ x ∈ r.violations profile, x.breach.marksCut = true := by
  rcases h with ⟨hheader, hcapture⟩ | hcount | ⟨v, hv, hcut⟩
  · -- The resolution is zero, since the header ended before it.
    exact ⟨_, resolution_mem_violations hheader (by simp [hcapture]), rfl⟩
  · exact ⟨_, viewCount_mem_violations (Nat.ne_of_gt hcount), rfl⟩
  · obtain ⟨i, hi⟩ := truncated_mem_violations profile hv hcut
    exact ⟨_, hi, rfl⟩

/-- Whatever the bytes of a variant end in shows that it was cut short. -/
theorem exists_marksCut_of_decode (profile : Profile) {variant : Variant} {bytes : Bytes}
    {p : Record} (h : decode variant bytes = .ok (.incomplete p)) :
    ∃ x ∈ p.violations profile, x.breach.marksCut = true := by
  refine exists_marksCut_of_shows ?_
  by_cases hcard : variant.isCard = true
  · obtain ⟨minutiae, -, -, hd | hd⟩ := exists_ofCard_of_decode hcard h
    · cases hd
    · cases hd
      exact .inr (.inr ⟨_, List.mem_singleton_self _, rfl⟩)
  · have hheader : variant.hasHeader = true := Variant.hasHeader_of_not_isCard hcard
    have hcut := headedCut_of_decode hheader h
    rcases hcut.shows with hcapture | hshows
    · exact .inl ⟨hcut.variant_eq ▸ hheader, hcapture⟩
    · exact .inr hshows

/-- A card that was read whole has the length that it is said to have. -/
theorem recordLength_eq_computedLength_of_decode {variant : Variant} {bytes : Bytes} {r : Record}
    (hcard : variant.isCard = true) (h : decode variant bytes = .ok (.complete r)) :
    r.recordLength.toNat = r.computedLength := by
  obtain ⟨-, minutiae, rfl, hlength, -, -⟩ := consumed_of_decode_card hcard h
  rw [recordLength_ofCard hcard hlength, computedLength_of_isCard hcard rfl]
  rfl

/-- A whole record is cut short by any bytes that are too few for it. A card announces no end, so
it has to be cut within a minutia. -/
theorem exists_incomplete_of_take {variant : Variant} {bytes : Bytes} {r : Record}
    (h : decode variant bytes = .ok (.complete r)) {k : Nat} (hk : k < consumed variant bytes)
    (hmod : variant.isCard = true → k % variant.minutiaLength ≠ 0) :
    ∃ p, decode variant (bytes.take k) = .ok (.incomplete p) := by
  by_cases hcard : variant.isCard = true
  · obtain ⟨hconsumed, minutiae, -, hcount, -, hlength⟩ := consumed_of_decode_card hcard h
    have hbound := Nat.mul_le_mul_right variant.minutiaLength hcount
    have htake : (bytes.take k).length = k := List.length_take_of_le (by omega)
    refine exists_incomplete_of_mod_ne_zero hcard ?_ ?_
    · rw [htake]
      omega
    · rw [htake]
      exact hmod hcard
  · exact exists_incomplete_of_lt_consumed (Variant.hasHeader_of_not_isCard hcard) h hk

/-- **The check and the decoder agree on what is there.** In a record that was read whole the check
finds no fault of structure, except that the declared length of a record with a header may be wrong.
A record that was cut short does not pass, and shows it by a node that is marked, by its count of
views or by its resolution. So bytes that are cut off anywhere within a record give no record that
passes, unless it is a card that is cut off at a minutia boundary. That is behind any number of
minutiae, none included, and what is left is the whole card of these. -/
theorem violations_of_decode (profile : Profile) (variant : Variant) (bytes : Bytes) :
    (∀ r, decode variant bytes = .ok (.complete r) → ∀ x ∈ r.violations profile,
        x.breach.isStructural = true → variant.isCard = false ∧
          ∃ declared computed, x.breach = .recordLength declared computed) ∧
      (∀ p, decode variant bytes = .ok (.incomplete p) → p.violations profile ≠ [] ∧
        ∃ x ∈ p.violations profile, x.breach.marksCut = true) ∧
      (∀ r, decode variant bytes = .ok (.complete r) → ∀ k < consumed variant bytes,
        (variant.isCard = true → k % variant.minutiaLength ≠ 0) →
          ∃ p, decode variant (bytes.take k) = .ok (.incomplete p) ∧
            p.violations profile ≠ []) ∧
      (variant.isCard = true → ∀ r, decode variant bytes = .ok (.complete r) →
        ∀ n, n * variant.minutiaLength < consumed variant bytes →
          decode variant (bytes.take (n * variant.minutiaLength))
            = .ok (.complete (r.takeMinutiae n))) := by
  have hcut : ∀ bytes' p, decode variant bytes' = .ok (.incomplete p) →
      p.violations profile ≠ [] := by
    intro bytes' p hp
    obtain ⟨x, hx, -⟩ := exists_marksCut_of_decode profile hp
    exact List.ne_nil_of_mem hx
  refine ⟨?_, ?_, ?_, ?_⟩
  · intro r hr x hx hstructural
    obtain ⟨rfl, hcount, hviews⟩ := views_wellFormed_of_decode hr
    obtain ⟨hlength, rfl⟩ := eq_recordLength_of_mem_violations hcount hviews hx hstructural
    refine ⟨?_, _, _, rfl⟩
    cases hcard : r.variant.isCard with
    | false => rfl
    | true => exact absurd (recordLength_eq_computedLength_of_decode hcard hr) hlength
  · exact fun p hp => ⟨hcut bytes p hp, exists_marksCut_of_decode profile hp⟩
  · intro r hr k hk hmod
    obtain ⟨p, hp⟩ := exists_incomplete_of_take hr hk hmod
    exact ⟨p, hp, hcut _ p hp⟩
  · intro hcard r hr n hn
    rw [(consumed_of_decode_card hcard hr).1] at hn
    exact decode_take_of_decode_card hcard hr hn.le

/-- The bytes of an ISO record of one view with one minutia, which declares a byte more than there
is. -/
def overstatedBytes : Bytes :=
  [0x46, 0x4d, 0x52, 0, 0x20, 0x32, 0x30, 0, 0, 0, 0, 37, 0, 0, 1, 0, 1, 0, 0, 197, 0, 197, 1, 0,
    1, 0, 80, 1, 0x40, 10, 0, 10, 5, 60, 0, 0]

/-- The bytes of a normal card with two minutiae. -/
def twoMinutiaeBytes : Bytes :=
  [0x40, 10, 0, 10, 5, 0x40, 20, 0, 20, 6]

theorem violations_of_decode_overstatedBytes :
    (∃ r, decode .iso overstatedBytes = .ok (.complete r) ∧ ∃ x ∈ r.violations .full,
        x.breach.isStructural = true ∧ Variant.iso.isCard = false ∧
          ∃ declared computed, x.breach = .recordLength declared computed) ∧
      (∃ p, decode .iso (overstatedBytes.take 20) = .ok (.incomplete p) ∧
        p.violations .full ≠ [] ∧ ∃ x ∈ p.violations .full, x.breach.marksCut = true) ∧
      (∃ r, decode .iso overstatedBytes = .ok (.complete r) ∧ 24 < consumed .iso overstatedBytes ∧
        ∃ p, decode .iso (overstatedBytes.take 24) = .ok (.incomplete p) ∧
          p.violations .full ≠ []) ∧
      ∃ r, decode .isoNormalCard twoMinutiaeBytes = .ok (.complete r) ∧
        1 * 5 < consumed .isoNormalCard twoMinutiaeBytes ∧
        decode .isoNormalCard (twoMinutiaeBytes.take (1 * 5))
          = .ok (.complete (r.takeMinutiae 1)) := by
  have hwhole : ∃ r, whole? (decode .iso overstatedBytes) = some r ∧
      ∃ x ∈ r.violations .full, x.breach.isStructural = true := by
    refine ⟨_, by rfl, ⟨.record, .recordLength 37 36⟩, by decide, rfl⟩
  have hshort : ∃ p, short? (decode .iso (overstatedBytes.take 20)) = some p := ⟨_, by rfl⟩
  have hcard : ∃ r, whole? (decode .isoNormalCard twoMinutiaeBytes) = some r := ⟨_, by rfl⟩
  have hconsumed : 24 < consumed .iso overstatedBytes := by decide
  have hconsumedCard : 1 * 5 < consumed .isoNormalCard twoMinutiaeBytes := by decide
  obtain ⟨r, hr, x, hx, hstructural⟩ := hwhole
  obtain ⟨p, hp⟩ := hshort
  obtain ⟨s, hs⟩ := hcard
  rw [whole?_eq_some_iff] at hr hs
  rw [short?_eq_some_iff] at hp
  obtain ⟨hwhole, -, hcut, -⟩ := violations_of_decode .full .iso overstatedBytes
  refine ⟨⟨r, hr, x, hx, hstructural, ?_⟩, ⟨p, hp, ?_⟩, ⟨r, hr, hconsumed, ?_⟩,
    s, hs, hconsumedCard, ?_⟩
  · exact hwhole r hr x hx hstructural
  · exact (violations_of_decode .full .iso (overstatedBytes.take 20)).2.1 p hp
  · exact hcut r hr 24 hconsumed (by decide)
  · exact (violations_of_decode .full .isoNormalCard twoMinutiaeBytes).2.2.2 rfl s hs 1
      hconsumedCard

/-- A card that is cut off between two minutiae does pass. -/
theorem not_forall_take_violations_ne_nil :
    ¬ ∀ (variant : Variant) (bytes : Bytes) (r : Record),
      decode variant bytes = .ok (.complete r) → ∀ k < consumed variant bytes, ∀ d,
        decode variant (bytes.take k) = .ok d → d.value.violations .full ≠ [] := by
  intro h
  have hwhole : ∃ r, whole? (decode .isoNormalCard twoMinutiaeBytes) = some r := ⟨_, by rfl⟩
  have hcut : ∃ r, whole? (decode .isoNormalCard (twoMinutiaeBytes.take 5)) = some r ∧
      r.violations .full = [] := ⟨_, by rfl, by decide⟩
  obtain ⟨r, hr⟩ := hwhole
  obtain ⟨r', hr', hpasses⟩ := hcut
  rw [whole?_eq_some_iff] at hr hr'
  exact h .isoNormalCard twoMinutiaeBytes r hr 5 (by decide) (.complete r') hr' hpasses

end Record

end FingerMinutiae
