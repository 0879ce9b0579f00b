import FingerMinutiae.Proofs.Conformance.Conforms
import FingerMinutiae.Proofs.Conversion.Convert

/-!
# Converted records conform

Whether a record conforms is judged by the rules of its variant, and a conversion moves it under
other rules. It passes them all the same. The rules that differ between variants are about what the
conversion makes anew: angles are taken below a full turn of the target, counts and lengths are
those of what is there. What the conversion carries over is judged by the same rules before and
after, or not at all on a card.

The product owner is the exception. ANSI asks for one, ISO has none, and a conversion does not make
one up. So an ISO record is converted to a record that lacks a product owner and nothing else.

## Main results

* `Record.Conforms.convert`: a conforming record with a header is converted to a conforming one, if
  this has the product owner that is asked for.
* `Record.violations_full_of_minex`: the full rules ask for nothing else than those of MINEX.
* `Record.violations_of_convert`: the reports on converted records.
-/

namespace FingerMinutiae

/-! ### Angles -/

theorem toNat_maxAngle (variant : Variant) : variant.maxAngle.toNat + 1 = variant.angleLevels := by
  cases variant <;> rfl

/-- An angle below a full turn is converted to one. -/
theorem convertAngle_le_maxAngle {source target : Variant} {angle : UInt8}
    (h : angle ≤ source.maxAngle) : convertAngle source target angle ≤ target.maxAngle := by
  by_cases hsame : source = target
  · subst hsame
    rwa [convertAngle, if_pos rfl]
  · have hlt := toNat_convertAngle_lt hsame angle
    rw [← toNat_maxAngle] at hlt
    exact UInt8.le_iff_toNat_le.mpr (Nat.le_of_lt_succ hlt)

/-! ### Minutiae and views -/

section Nodes

variable {r c : Record} {resolution : Resolution}

/-- A minutia stays where it is in its image, and a card has no image. -/
theorem Minutia.Conforms.convert {m m' : Minutia} (hsource : r.variant.hasHeader = true)
    (himage : c.xImageSize = r.xImageSize ∧ c.yImageSize = r.yImageSize) (h : m.Conforms r)
    (hm : m.convert r.variant c.variant resolution = .ok m') : m'.Conforms c := by
  have hconverts := Minutia.convert_eq_ok_iff.mp hm
  refine ⟨?_, ?_, ?_, fun _ => ?_, fun htarget => ?_⟩
  · rw [hconverts.kind]
    exact h.kind
  · rw [hconverts.reserved, h.reserved, ite_self]
  · rw [hconverts.angle]
    exact convertAngle_le_maxAngle h.angle
  · rw [hconverts.quality]
    split
    · exact h.quality hsource
    · exact Nat.zero_le _
  · have hx := hconverts.x
    have hy := hconverts.y
    rw [rescale_of_hasHeader hsource htarget, UInt16.toNat_inj] at hx hy
    rw [Record.Inside, hx, hy, himage.1, himage.2]
    exact h.inside hsource

/-- A converted view has the header that it had, and a count of its own. -/
theorem FingerView.Conforms.convert {v w : FingerView} (hsource : r.variant.hasHeader = true)
    (himage : c.xImageSize = r.xImageSize ∧ c.yImageSize = r.yImageSize) (h : v.Conforms r)
    (hw : v.convert r.variant c.variant resolution = .ok w) : w.Conforms c := by
  obtain ⟨minutiae, hminutiae, rfl⟩ := FingerView.convert_eq_ok_iff.mp hw
  have hlength : minutiae.length < 2 ^ 8 := by
    rw [length_of_mapM hminutiae]
    exact Nat.lt_succ_of_le h.minutiae_length
  have hheader := h.header hsource
  exact {
    whole := rfl
    numMinutiae := UInt8.toNat_ofNat_of_lt' hlength
    header := fun _ => ⟨hheader.position, hheader.impression, hheader.quality⟩
    minutiae := forall_mem_of_mapM hminutiae h.minutiae fun _ _ hm => hm.convert hsource himage
    extended := by
      intro b hb
      cases hb }

end Nodes

namespace Record

variable {r c : Record} {target : Variant} {asked : Option Resolution} {profile : Profile}

/-! ### Headers -/

theorem isUsable_of_usableResolution? {resolution : Resolution}
    (h : r.usableResolution? asked = some resolution) : resolution.isUsable = true :=
  (Option.filter_eq_some_iff.mp h).2

section Header

variable (target : Variant) (resolution : Option Resolution)

/-- What a header holds goes over as it is, but for the product and the resolution. -/
theorem convertHeader_of_hasHeader (hsource : r.variant.hasHeader = true) :
    (r.convertHeader target resolution).toIdentification = r.toIdentification ∧
      (r.convertHeader target resolution).xImageSize = r.xImageSize ∧
      (r.convertHeader target resolution).yImageSize = r.yImageSize ∧
      (r.convertHeader target resolution).reserved = r.reserved := by
  cases resolution <;> cases htarget : target.hasHeader <;>
    simp [convertHeader, empty, hsource, htarget]

/-- A resolution that is not usable replaces nothing. -/
theorem resolution_convertHeader_ne_zero (hsource : r.variant.hasHeader = true)
    (hx : r.xResolution ≠ 0) (hy : r.yResolution ≠ 0)
    (husable : ∀ used ∈ resolution, used.isUsable = true) :
    (r.convertHeader target resolution).xResolution ≠ 0 ∧
      (r.convertHeader target resolution).yResolution ≠ 0 := by
  cases resolution with
  | none => simp [convertHeader, hsource, hx, hy]
  | some used =>
    have hused := husable used rfl
    rw [Resolution.isUsable, Bool.and_eq_true, bne_iff_ne, bne_iff_ne] at hused
    cases htarget : target.hasHeader with
    | false => simp [convertHeader, hsource, htarget, hx, hy]
    | true => simpa [convertHeader, hsource, htarget] using hused

end Header

/-! ### Records -/

/-- The product is carried over from ANSI to ANSI and is otherwise left out. -/
theorem toProduct_of_convert (hc : r.convert target asked = .ok c) : c.variant = target ∧
    c.toProduct = if r.variant = .ansi ∧ target = .ansi then r.toProduct else {} := by
  obtain ⟨-, -, -, views, -, rfl⟩ := convert_eq_ok_iff.mp hc
  exact ⟨variant_convertHeader r target _, toProduct_convertHeader r target _⟩

/-- What a conforming record with a header is converted to conforms, if it has the product owner
that is asked for. -/
theorem Conforms.convert (hsource : r.variant.hasHeader = true) (h : r.Conforms profile)
    (hc : r.convert target asked = .ok c)
    (howner : c.variant = .ansi → profile = .full → c.productOwner ≠ 0) : c.Conforms profile := by
  obtain ⟨-, -, -, views, hviews, rfl⟩ := convert_eq_ok_iff.mp hc
  have hviewsLength : views.length ≤ 255 := by
    rw [length_of_mapM hviews]
    exact h.views_length
  have hheader := h.header hsource
  have hvariant := variant_convertHeader r target (r.usableResolution? asked)
  obtain ⟨hidentification, hxImage, hyImage, hreserved⟩ :=
    convertHeader_of_hasHeader target (r.usableResolution? asked) hsource
  obtain ⟨hxResolution, hyResolution⟩ :=
    resolution_convertHeader_ne_zero target (r.usableResolution? asked) hsource
      hheader.xResolution hheader.yResolution fun _ hused => isUsable_of_usableResolution? hused
  -- Only these facts about the header are asked for.
  generalize r.convertHeader target (r.usableResolution? asked) = header at *
  subst hvariant
  have hconforms : ∀ v ∈ views, v.Conforms (withComputedLength
      { header with numViews := UInt8.ofNat views.length, views }) :=
    forall_mem_of_mapM hviews h.views fun _ _ hv hw => hv.convert hsource ⟨hxImage, hyImage⟩ hw
  have hbare : ∀ v ∈ views, v.extended = none :=
    forall_mem_of_mapM hviews h.views fun _ _ _ hw => FingerView.extended_of_convert hw
  have hlength := recordLength_withComputedLength
    (r := { header with numViews := UInt8.ofNat views.length, views })
    (computedLength_lt_of_bare hviewsLength (fun v hv => (hconforms v hv).minutiae_length) hbare)
  refine ⟨fun htarget => ⟨?_, ?_, ?_, howner, hxResolution, hyResolution, ?_⟩, hlength, ?_,
    hconforms, fun _ position => ?_⟩
  · exact (congrArg Identification.formatId hidentification).trans hheader.formatId
  · exact (congrArg Identification.specVersion hidentification).trans hheader.specVersion
  · rw [hlength]
    exact headerLength_le_computedLength htarget
  · exact hreserved.trans hheader.reserved
  · exact UInt8.toNat_ofNat_of_lt' (Nat.lt_succ_of_le hviewsLength)
  · have hsame : List.Forall₂ (fun v w => w.position = v.position ∧ w.viewNumber = v.viewNumber)
        r.views views := (mapM_eq_ok_iff.mp hviews).imp fun v w hw => by
      obtain ⟨minutiae, -, rfl⟩ := FingerView.convert_eq_ok_iff.mp hw
      exact ⟨rfl, rfl⟩
    exact numbersOf_eq_range_congr hsame (h.viewNumbers hsource position)

/-- The full rules ask for a product owner, and for nothing else that MINEX testing does not. -/
theorem violations_full_of_minex (h : r.violations .minex = []) :
    r.violations .full
      = demand (r.variant = .ansi → r.productOwner ≠ 0) .record .productOwner := by
  simp only [violations, List.append_eq_nil_iff] at h ⊢
  obtain ⟨⟨⟨hheader, hlength⟩, hcount⟩, hviews⟩ := h
  rw [hlength, hcount, hviews]
  cases hvariant : r.variant.hasHeader with
  | false =>
    simp [demand, Variant.ne_ansi_of_not_hasHeader hvariant]
  | true =>
    simp only [hvariant, if_true, headerViolations, List.append_eq_nil_iff] at hheader ⊢
    obtain ⟨⟨⟨⟨⟨hformat, hversion⟩, hshort⟩, -⟩, hresolution⟩, hreserved⟩ := hheader
    rw [hformat, hversion, hshort, hresolution, hreserved]
    simp [demand]

/-- A record that conforms to any rules conforms to those of MINEX testing. -/
theorem Conforms.minex (h : r.Conforms profile) : r.Conforms .minex :=
  { h with header := fun hheader => { h.header hheader with productOwner := nofun } }

/-- **Conversion preserves conformance.** A record with a header that passes is converted to a
record that passes, whatever the target, if it is an ANSI record. An ISO record can be converted to
ANSI only, and then the product owner is missing, which ISO does not have; MINEX testing does not
ask for it. -/
theorem violations_of_convert (hsource : r.variant.hasHeader = true)
    (hpasses : r.violations profile = []) (hc : r.convert target asked = .ok c) :
    (r.variant = .ansi → c.violations profile = []) ∧
      (r.variant = .iso → target = .ansi ∧ c.violations .full = [⟨.record, .productOwner⟩] ∧
        c.violations .minex = []) := by
  have hconforms := conforms_of_violations hpasses
  obtain ⟨hvariant, hproduct⟩ := toProduct_of_convert hc
  constructor
  · intro hansi
    refine (hconforms.convert hsource hc ?_).violations_eq_nil
    intro htarget hfull
    rw [hvariant] at htarget
    rw [hproduct, if_pos ⟨hansi, htarget⟩]
    exact (hconforms.header hsource).productOwner hansi hfull
  · intro hiso
    have hansi : target = .ansi := by
      have hpair := (convert_eq_ok_iff.mp hc).1
      rw [hiso] at hpair
      cases target with
      | ansi => rfl
      | iso | isoNormalCard | isoCompactCard => exact absurd ⟨rfl, rfl⟩ hpair
    have hminex : c.violations .minex = [] :=
      (hconforms.minex.convert hsource hc nofun).violations_eq_nil
    have howner : c.productOwner = 0 := by
      rw [hproduct, if_neg (by simp [hiso])]
    refine ⟨hansi, ?_, hminex⟩
    rw [violations_full_of_minex hminex, demand, if_neg]
    exact fun hasked => hasked (hvariant.trans hansi) howner

/-- A record of one view with one minutia, which conforms under ANSI and ISO but for its length,
and under ANSI for a product owner. -/
def plainRecord (variant : Variant) (productOwner : UInt16) : Record :=
  withComputedLength {
    variant
    formatId := .finger
    specVersion := .version20
    productOwner
    xImageSize := 256
    yImageSize := 256
    xResolution := 197
    yResolution := 197
    numViews := 1
    views := [{
      position := 1
      quality := 80
      numMinutiae := 1
      minutiae := [{ kind := 1, x := 9, y := 255, angle := 179, quality := 60 }] }] }

theorem violations_of_convert_plainRecord :
    ((plainRecord .ansi 259).violations .full = [] ∧
      ∃ c, (plainRecord .ansi 259).convert .iso none = .ok c ∧ c.violations .full = []) ∧
    ((plainRecord .iso 0).violations .full = [] ∧
      ∃ c, (plainRecord .iso 0).convert .ansi (some ⟨0, 500⟩) = .ok c ∧
        c.violations .full = [⟨.record, .productOwner⟩] ∧ c.violations .minex = []) := by
  have hansi : (plainRecord .ansi 259).violations .full = [] := by decide
  have hiso : (plainRecord .iso 0).violations .full = [] := by decide
  have htoIso : ∃ c, (plainRecord .ansi 259).convert .iso none = .ok c := ⟨_, by rfl⟩
  have htoAnsi : ∃ c, (plainRecord .iso 0).convert .ansi (some ⟨0, 500⟩) = .ok c := ⟨_, by rfl⟩
  obtain ⟨c, hc⟩ := htoIso
  obtain ⟨c', hc'⟩ := htoAnsi
  exact ⟨⟨hansi, c, hc, (violations_of_convert rfl hansi hc).1 rfl⟩,
    hiso, c', hc', ((violations_of_convert rfl hiso hc').2 rfl).2⟩

end Record

end FingerMinutiae
