import FingerMinutiae.Proofs.Conformance.Conforms
import FingerMinutiae.Proofs.DeclaredLength
import FingerMinutiae.Proofs.Decoding.Image
import FingerMinutiae.Proofs.Decoding.RoundTrip
import FingerMinutiae.Proofs.Selection.Select

/-!
# What a selection preserves

A record that conforms still does when it is selected from, one that can be written still can, and
one that was read is read back after it. Each of the three has rules of its own about counts,
lengths and bits. But all of these are about single minutiae, or about counts and lengths that the
selection makes anew, so they are closed under leaving out minutiae and extended data.

The new length is the only one that could be wrong, by not fitting its field. It is no larger than
the old one, which did fit if it was right.

## Main results

* `Record.Conforms.select`, `Record.WellFormed.select`: the two ways of being right are kept.
* `Record.SelectsTo.exists_encode_eq_ok`: what can be written still can, in as many bytes as
  declared.
* `Record.select_preserves`: all of it, for every policy, limit and shuffler.
-/

namespace FingerMinutiae

open Layout

variable {limit : Option Nat}

/-! ### Conformance -/

/-- A view is judged by the variant and the image of its record, which stay as they are. -/
theorem FingerView.Conforms.select {r : Record} {v w : FingerView} (h : v.Conforms r)
    (hw : v.SelectsTo limit w) (views : List FingerView) :
    w.Conforms (Record.withComputedLength { r with views }) := by
  have hnumber := hw.numMinutiae h.minutiae_length
  have hminutiae := hw.forall_minutiae h.minutiae
  cases hw with
  | of_minutiae _ _ =>
    exact {
      whole := h.whole
      numMinutiae := hnumber
      header := fun hheader =>
        ⟨(h.header hheader).position, (h.header hheader).impression, (h.header hheader).quality⟩
      minutiae := fun m hm =>
        have hconforms := hminutiae m hm
        ⟨hconforms.kind, hconforms.reserved, hconforms.angle, hconforms.quality, hconforms.inside⟩
      extended := by
        intro b hb
        cases hb }

namespace Record

variable {r s : Record} {profile : Profile}

theorem Conforms.select (h : r.Conforms profile) (hs : r.SelectsTo limit s) :
    s.Conforms profile := by
  have hlength : s.recordLength.toNat = s.computedLength := by
    refine hs.recordLength (Nat.lt_of_le_of_lt hs.computedLength_le ?_)
    rw [← h.recordLength]
    exact r.recordLength.toNat_lt
  cases hs with
  | @of_views views hviews =>
    refine ⟨fun hheader => ?_, hlength, ?_, ?_, fun hheader position => ?_⟩
    · have hconforms := h.header hheader
      refine ⟨hconforms.formatId, hconforms.specVersion, ?_, hconforms.productOwner,
        hconforms.xResolution, hconforms.yResolution, hconforms.reserved⟩
      rw [hlength]
      exact headerLength_le_computedLength hheader
    · exact h.numViews.trans hviews.length_eq
    · exact forall_mem_of_forall₂ hviews h.views fun v w hv hw => hv.select hw views
    · exact numbersOf_eq_range_congr (hviews.imp fun _ _ hw => hw.number_eq)
        (h.viewNumbers hheader position)

end Record

/-! ### Well-formed records -/

theorem FingerView.WellFormed.select {variant : Variant} {v w : FingerView}
    (h : v.WellFormed variant) (hw : v.SelectsTo limit w) : w.WellFormed variant := by
  have hnumber := hw.numMinutiae h.bounded.minutiae_length
  have hminutiae := hw.forall_minutiae h.minutiae
  cases hw with
  | of_minutiae _ _ =>
    exact {
      whole := h.whole
      header := ⟨h.header.viewNumber, h.header.impression⟩
      numMinutiae := hnumber
      minutiae := hminutiae
      extended := by
        intro b hb
        cases hb }

namespace Record

variable {r s : Record}

theorem HeadedWellFormed.select (h : r.HeadedWellFormed) (hs : r.SelectsTo limit s) :
    s.HeadedWellFormed := by
  cases hs with
  | of_views hviews =>
    exact ⟨h.product, h.capture, h.numViews.trans hviews.length_eq,
      forall_mem_of_forall₂ hviews h.views fun _ _ hv hw => hv.select hw⟩

/-- What is left of a card is a card: its count and its length are those of the minutiae. -/
theorem CardWellFormed.select (h : r.CardWellFormed) (hcard : r.variant.isCard = true)
    (hs : r.SelectsTo limit s) : s.CardWellFormed := by
  obtain ⟨minutiae, hview, hcount, hvalid, -⟩ := h.views
  have hscard : s.variant.isCard = true := by rwa [hs.variant_eq]
  have hdeclared : s.recordLength.toNat = s.computedLength := by
    refine hs.recordLength (hs.computedLength_lt ?_ ?_)
    · rw [hview]
      exact Nat.succ_le_succ (Nat.zero_le _)
    · rw [hview]
      exact List.forall_mem_singleton.mpr hcount
  cases hs with
  | @of_views views hviews =>
    rw [hview] at hviews
    obtain ⟨w, ws, hw, hws, rfl⟩ := List.forall₂_cons_left_iff.mp hviews
    obtain rfl := List.forall₂_nil_left_iff.mp hws
    have hminutiae := hw.forall_minutiae hvalid
    cases hw with
    | @of_minutiae ms hchosen _ =>
      have hlength : ms.length ≤ 255 := Nat.le_trans hchosen.length_le hcount
      have hmin : min ms.length 255 = ms.length := Nat.min_eq_left hlength
      refine ⟨h.identification, h.product, h.capture, ms, ?_, hlength, hminutiae, ?_⟩
      · show [FingerView.withMinutiae _ ms] = _
        rw [FingerView.withMinutiae, hmin]
      · exact hdeclared.trans (computedLength_of_isCard hscard rfl)

theorem WellFormed.select (h : r.WellFormed) (hs : r.SelectsTo limit s) : s.WellFormed := by
  rw [WellFormed, hs.variant_eq]
  by_cases hcard : r.variant.isCard = true
  · rw [WellFormed, if_pos hcard] at h
    rw [if_pos hcard]
    exact h.select hcard hs
  · rw [WellFormed, if_neg hcard] at h
    rw [if_neg hcard]
    exact h.select hs

/-! ### Written records -/

variable {bytes : Bytes}

theorem SelectsTo.exists_encode_of_isCard (hs : r.SelectsTo limit s)
    (hcard : r.variant.isCard = true) (h : r.encode = .ok bytes) :
    ∃ written, s.encode = .ok written := by
  obtain ⟨v, hview, hfits⟩ := exists_view_of_encode hcard h
  have hviews := hs.views
  rw [hview] at hviews
  obtain ⟨w, ws, hw, hws, hsviews⟩ := List.forall₂_cons_left_iff.mp hviews
  obtain rfl := List.forall₂_nil_left_iff.mp hws
  have hscard : s.variant.isCard = true := by rwa [hs.variant_eq]
  refine ⟨_, (encode_eq_ok_iff (pieces_of_isCard hscard hsviews)).mpr ⟨?_, rfl⟩⟩
  rw [hs.variant_eq]
  exact Piece.allFit_map.mpr (hw.forall_minutiae hfits)

theorem HeadedFits.select {variant : Variant} (h : HeadedFits variant r)
    (hs : r.SelectsTo limit s) : HeadedFits variant s where
  variant_eq := hs.variant_eq.trans h.variant_eq
  header := by
    have hcapture := allFit_headerPieces_iff.mp h.header
    cases hs
    exact allFit_headerPieces_iff.mpr hcapture
  views := by
    refine forall_mem_of_forall₂ hs.views h.views fun v w hv hw => ?_
    obtain ⟨hheader, hminutiae, -⟩ := FingerView.allFit_pieces_iff.mp hv
    refine FingerView.allFit_pieces_iff.mpr ⟨?_, hw.forall_minutiae hminutiae, ?_⟩
    · cases hw
      exact ⟨hheader.viewNumber, hheader.impression⟩
    · rw [hw.extended]
      intro b hb
      cases hb

/-- **Encodability is preserved.** What is left of a record that can be written can be written, in
as many bytes as it declares. -/
theorem SelectsTo.exists_encode_eq_ok (hs : r.SelectsTo limit s) (h : r.encode = .ok bytes)
    (hlt : s.computedLength < 2 ^ 32) :
    ∃ written, s.encode = .ok written ∧ written.length = s.recordLength.toNat := by
  have hblocks : s.BlocksDeclare := by
    intro w hw
    rw [hs.extended w hw]
    intro b hb
    cases hb
  obtain ⟨written, hwritten⟩ : ∃ written, s.encode = .ok written := by
    by_cases hcard : r.variant.isCard = true
    · exact hs.exists_encode_of_isCard hcard h
    · have hheader : r.variant.hasHeader = true := Variant.hasHeader_of_not_isCard hcard
      have hfits := ((encode_eq_ok_iff_headedFits hheader).mp h).1.select hs
      exact ⟨_, encode_of_headedFits hheader hfits⟩
  exact ⟨written, hwritten,
    length_eq_recordLength_of_encode hblocks hwritten (hs.recordLength hlt)⟩

/-! ### Every policy -/

/-- **What a selection preserves.** Whatever the policy, the limit and the shuffler: what is left of
a record that passes the check passes it; of one that can be written, it can be written in as many
bytes as it declares, if these can be declared at all; of one that was read, it is read back from
what is written for it. And a view keeps nothing but minutiae of its own, none of them more often
than it was there, and at most as many as the limit allows. -/
theorem select_preserves {γ : Type} (shuffler : Shuffler γ) (selection : Selection)
    (limit : Option Nat) (g : γ) {r s : Record}
    (h : (r.select shuffler selection limit g).1 = s) :
    (∀ profile, r.violations profile = [] → s.violations profile = []) ∧
      (∀ bytes, r.encode = .ok bytes → s.computedLength < 2 ^ 32 →
        ∃ written, s.encode = .ok written ∧ written.length = s.recordLength.toNat) ∧
      (∀ variant bytes, decode variant bytes = .ok (.complete r) →
        ∃ written, s.encode = .ok written ∧ decode r.variant written = .ok (.complete s)) ∧
      List.Forall₂ (fun v w => (∀ n ∈ limit, w.minutiae.length ≤ n) ∧
        w.minutiae.Subperm v.minutiae ∧ w.extended = none) r.views s.views := by
  have hs : r.SelectsTo limit s := by
    rw [← h]
    exact selectsTo_select shuffler selection limit g r
  refine ⟨fun profile hpasses => ?_, fun bytes => hs.exists_encode_eq_ok,
    fun variant bytes hread => ?_, ?_⟩
  · have hconforms := conforms_of_violations hpasses
    exact (hconforms.select hs).violations_eq_nil
  · have hwell := (wellFormed_of_decode hread).2.select hs
    obtain ⟨written, hencode, hdecode⟩ := hwell.exists_encode
    rw [hs.variant_eq] at hdecode
    exact ⟨written, hencode, hdecode⟩
  · exact hs.views.imp fun _ _ hw => ⟨hw.length_le_limit, hw.minutiae, hw.extended⟩

/-- An ISO record of one view with three minutiae and a ridge count. -/
def triangleRecord : Record :=
  withComputedLength {
    variant := .iso
    formatId := .finger
    specVersion := .version20
    xImageSize := 256
    yImageSize := 256
    xResolution := 197
    yResolution := 197
    numViews := 1
    views := [{
      position := 1
      quality := 80
      numMinutiae := 3
      minutiae := [{ kind := 1, x := 9, y := 9 }, { kind := 2, x := 200, y := 9 },
        { kind := 1, x := 100, y := 90, angle := 255, quality := 60 }]
      extended := some {
        blockLength := 8
        records := [{ length := 8, payload := .ridgeCounts { counts := [⟨1, 2, 7⟩] } }] } }] }

theorem select_preserves_triangleRecord :
    ∃ s, (triangleRecord.select Lottery.shuffler .random (some 2) {}).1 = s ∧
      s.violations .full = [] ∧
      ∃ written, s.encode = .ok written ∧ written.length = s.recordLength.toNat ∧
        decode .iso written = .ok (.complete s) := by
  obtain ⟨s, hs⟩ : ∃ s, (triangleRecord.select Lottery.shuffler .random (some 2) {}).1 = s :=
    ⟨_, rfl⟩
  have hwell : triangleRecord.WellFormed := by
    have hheaded : triangleRecord.HeadedWellFormed := by decide
    exact hheaded
  obtain ⟨bytes, hencode, hread⟩ := hwell.exists_encode
  have hpasses : triangleRecord.violations .full = [] := by decide
  have hlt : s.computedLength < 2 ^ 32 := by
    rw [← hs]
    decide
  obtain ⟨hconforms, hencodable, hreadable, -⟩ :=
    select_preserves Lottery.shuffler .random (some 2) {} hs
  obtain ⟨written, hwritten, hlength⟩ := hencodable bytes hencode hlt
  obtain ⟨written', hwritten', hdecode⟩ := hreadable .iso bytes hread
  rw [hwritten, Except.ok.injEq] at hwritten'
  subst hwritten'
  exact ⟨s, hs, hconforms .full hpasses, written, hwritten, hlength, hdecode⟩

end Record

end FingerMinutiae
