import FingerMinutiae.Conversion.Convert
import FingerMinutiae.Proofs.ComputedLength
import FingerMinutiae.Proofs.Lists
import FingerMinutiae.Proofs.WellFormed

/-!
# What a conversion does

A conversion goes through the views and their minutiae in order, and it fails as soon as one of them
cannot be converted. So a converted list stands beside the source item by item, and what is said
about a converted record comes down to one minutia: everything it has fits the target, because
angles are taken modulo a full turn, positions are refused when they are too large, and what the
target has no place for is cleared.

## Main definitions

* `Minutia.ConvertsTo`: a minutia and what it is converted to.
* `Minutia.recoded`, `FingerView.recoded`, `Record.recoded`: what a conversion gives between records
  with a header.

## Main results

* `Minutia.convert_eq_ok_iff`, `FingerView.convert_eq_ok_iff`, `Record.convert_eq_ok_iff`: when a
  conversion succeeds, and what it gives.
* `Minutia.WellFormed.convert`, `FingerView.Bounded.convert`, `Record.Bounded.convert`: it fits the
  target.
* `Record.convert_eq_of_inReach`: conversions between records with a header succeed.
-/

namespace FingerMinutiae

/-! ### Angles -/

theorem angleLevels_pos (variant : Variant) : 0 < variant.angleLevels := by
  cases variant <;> decide

/-- Between two variants an angle ends up below a full turn. -/
theorem toNat_convertAngle_lt {source target : Variant} (h : source ≠ target) (angle : UInt8) :
    (convertAngle source target angle).toNat < target.angleLevels := by
  have hlevels : target.angleLevels ≤ 2 ^ 8 := by cases target <;> decide
  rw [convertAngle, if_neg h]
  have hlt := Nat.mod_lt (roundedQuotient (angleDegrees source angle * target.angleLevels) 360)
    (angleLevels_pos target)
  rw [UInt8.toNat_ofNat_of_lt' (Nat.lt_of_lt_of_le hlt hlevels)]
  exact hlt

/-! ### Minutiae -/

namespace Minutia

variable {source target : Variant} {resolution : Resolution} {m c : Minutia}

/-- A minutia and what it is converted to. -/
structure ConvertsTo (source target : Variant) (resolution : Resolution) (m c : Minutia) :
    Prop where
  kind : c.kind = m.kind
  x : c.x.toNat = rescale source target m.x resolution.x
  x_le : c.x.toNat ≤ maxCoordinate target
  y : c.y.toNat = rescale source target m.y resolution.y
  y_le : c.y.toNat ≤ maxCoordinate target
  angle : c.angle = convertAngle source target m.angle
  quality : c.quality = if keepsQuality source target then m.quality else 0
  reserved : c.reserved = if target.isCard then 0 else m.reserved

theorem toNat_ofNat_of_le_maxCoordinate {n : Nat} (h : n ≤ maxCoordinate target) :
    (UInt16.ofNat n).toNat = n := by
  have hmax : maxCoordinate target < 2 ^ 16 := by cases target <;> decide
  exact UInt16.toNat_ofNat_of_lt' (Nat.lt_of_le_of_lt h hmax)

theorem convert_eq_ok_iff :
    m.convert source target resolution = .ok c ↔ m.ConvertsTo source target resolution c := by
  rw [convert, convertPosition]
  dsimp only
  constructor
  · intro h
    split at h
    · cases h
    · next hfits =>
      have hx := toNat_ofNat_of_le_maxCoordinate (Nat.le_of_not_lt fun hlt => hfits (.inl hlt))
      have hy := toNat_ofNat_of_le_maxCoordinate (Nat.le_of_not_lt fun hlt => hfits (.inr hlt))
      cases h
      exact ⟨rfl, hx, by rw [hx]; omega, hy, by rw [hy]; omega, rfl, rfl, rfl⟩
  · intro h
    have hfits : ¬(maxCoordinate target < rescale source target m.x resolution.x ∨
        maxCoordinate target < rescale source target m.y resolution.y) := by
      rw [← h.x, ← h.y]
      have := h.x_le
      have := h.y_le
      omega
    rw [if_neg hfits, ← h.x, ← h.y, UInt16.ofNat_toNat, UInt16.ofNat_toNat]
    show Except.ok (Minutia.mk _ _ _ _ _ _) = _
    rw [← h.kind, ← h.angle, ← h.quality, ← h.reserved]

/-- The fields that every variant writes in two bits are within them. -/
theorem WellFormed.kind_lt {variant : Variant} (h : m.WellFormed variant) :
    m.kind.toNat < 2 ^ 2 := by
  cases variant with
  | ansi | iso => exact PositionFits.kind h
  | isoNormalCard => exact h.1.kind
  | isoCompactCard => exact CompactWellFormed.kind h

theorem WellFormed.reserved_lt {variant : Variant} (h : m.WellFormed variant) :
    m.reserved.toNat < 2 ^ 2 := by
  cases variant with
  | ansi | iso => exact PositionFits.reserved h
  | isoNormalCard => exact h.1.reserved
  | isoCompactCard =>
    rw [CompactWellFormed.reserved h]
    decide

/-- A minutia that fits the source is converted to one that fits the target. -/
theorem WellFormed.convert (h : m.WellFormed source)
    (hc : m.convert source target resolution = .ok c) : c.WellFormed target := by
  have hconverts := convert_eq_ok_iff.mp hc
  have hkind : c.kind.toNat < 2 ^ 2 := by
    rw [hconverts.kind]
    exact h.kind_lt
  have hreserved : c.reserved.toNat < 2 ^ 2 := by
    rw [hconverts.reserved]
    split
    · decide
    · exact h.reserved_lt
  have hx := Nat.lt_succ_of_le hconverts.x_le
  have hy := Nat.lt_succ_of_le hconverts.y_le
  cases target with
  | ansi | iso => exact ⟨hkind, hx, hreserved, hy⟩
  | isoNormalCard => exact ⟨⟨hkind, hx, hreserved, hy⟩, hconverts.quality⟩
  | isoCompactCard =>
    refine ⟨hkind, hx, hy, ?_, hconverts.quality, hconverts.reserved⟩
    rw [hconverts.angle]
    by_cases hsame : source = .isoCompactCard
    · subst hsame
      rw [convertAngle, if_pos rfl]
      exact CompactWellFormed.angle h
    · exact toNat_convertAngle_lt hsame m.angle

theorem unitsPerMm?_of_hasHeader {variant : Variant} (h : variant.hasHeader = true) :
    variant.unitsPerMm? = none := by
  cases variant <;> first | rfl | cases h

/-- Between variants that both count pixels a position stays as it is. -/
theorem rescale_of_hasHeader (hsource : source.hasHeader = true) (htarget : target.hasHeader = true)
    (coordinate scale : UInt16) : rescale source target coordinate scale = coordinate.toNat := by
  rw [rescale, unitsPerMm?_of_hasHeader hsource, unitsPerMm?_of_hasHeader htarget]

/-- A minutia between records with a header: it stays where it is. -/
def recoded (source target : Variant) (m : Minutia) : Minutia :=
  { m with
    angle := convertAngle source target m.angle
    quality := if keepsQuality source target then m.quality else 0 }

/-- Both coordinates fit the position words of a minutia. -/
def InReach (m : Minutia) : Prop :=
  m.x.toNat ≤ 0x3fff ∧ m.y.toNat ≤ 0x3fff

instance (m : Minutia) : Decidable m.InReach :=
  inferInstanceAs (Decidable (_ ∧ _))

/-- Between records with a header the position is all that can stand in the way. -/
theorem InReach.convert_eq (h : m.InReach) (hsource : source.hasHeader = true)
    (htarget : target.hasHeader = true) :
    m.convert source target resolution = .ok (m.recoded source target) := by
  have hmax : maxCoordinate target = 0x3fff := by
    cases target <;> first | rfl | cases htarget
  have hreserved : m.reserved = if target.isCard then 0 else m.reserved := by
    simp [Variant.isCard, htarget]
  refine convert_eq_ok_iff.mpr ⟨rfl, ?_, ?_, ?_, ?_, rfl, rfl, hreserved⟩
  · exact (rescale_of_hasHeader hsource htarget _ _).symm
  · rw [hmax]
    exact h.1
  · exact (rescale_of_hasHeader hsource htarget _ _).symm
  · rw [hmax]
    exact h.2

theorem WellFormed.inReach (hsource : source.hasHeader = true) (h : m.WellFormed source) :
    m.InReach := by
  have hfits : m.PositionFits := by
    cases source <;> first | exact h | cases hsource
  exact ⟨Nat.le_pred_of_lt hfits.x, Nat.le_pred_of_lt hfits.y⟩

end Minutia

/-! ### Views -/

namespace FingerView

variable {source target : Variant} {resolution : Resolution} {v c : FingerView}

theorem convert_eq_ok_iff : v.convert source target resolution = .ok c ↔
    ∃ minutiae, v.minutiae.mapM (Minutia.convert source target resolution) = .ok minutiae ∧
      c = {
        position := v.position
        viewNumber := v.viewNumber
        impression := v.impression
        quality := v.quality
        numMinutiae := UInt8.ofNat minutiae.length
        minutiae } := by
  rw [convert]
  cases hms : v.minutiae.mapM (Minutia.convert source target resolution) with
  | error e => simp [bind, Except.bind]
  | ok minutiae => simp [bind, Except.bind, pure, Except.pure, eq_comm]

/-- A converted view has nothing but minutiae. -/
theorem extended_of_convert (hc : v.convert source target resolution = .ok c) :
    c.extended = none := by
  obtain ⟨minutiae, -, rfl⟩ := convert_eq_ok_iff.mp hc
  rfl

/-- A view of which everything fits the source is converted to one that is well formed in the
target, whether or not all of it was there. -/
theorem Bounded.convert (h : v.Bounded source) (hc : v.convert source target resolution = .ok c) :
    c.WellFormed target := by
  obtain ⟨minutiae, hms, rfl⟩ := convert_eq_ok_iff.mp hc
  have hlength : minutiae.length < 2 ^ 8 := by
    rw [length_of_mapM hms]
    exact Nat.lt_succ_of_le h.minutiae_length
  exact {
    whole := rfl
    header := ⟨h.header.viewNumber, h.header.impression⟩
    numMinutiae := UInt8.toNat_ofNat_of_lt' hlength
    minutiae := forall_mem_of_mapM hms h.minutiae fun _ _ hm => hm.convert
    extended := by
      intro b hb
      cases hb }

/-- A view between records with a header. -/
def recoded (source target : Variant) (v : FingerView) : FingerView where
  position := v.position
  viewNumber := v.viewNumber
  impression := v.impression
  quality := v.quality
  numMinutiae := UInt8.ofNat v.minutiae.length
  minutiae := v.minutiae.map (Minutia.recoded source target)

theorem convert_eq_of_inReach (hsource : source.hasHeader = true)
    (htarget : target.hasHeader = true) (h : ∀ m ∈ v.minutiae, m.InReach) :
    v.convert source target resolution = .ok (v.recoded source target) := by
  have hminutiae : v.minutiae.mapM (Minutia.convert source target resolution)
      = .ok (v.minutiae.map (Minutia.recoded source target)) :=
    mapM_eq_ok_map fun m hm => (h m hm).convert_eq hsource htarget
  refine convert_eq_ok_iff.mpr ⟨_, hminutiae, ?_⟩
  rw [recoded, List.length_map]

end FingerView

/-! ### Records -/

namespace Record

variable {r c : Record} {target : Variant} {asked : Option Resolution}

/-- What a conversion asks for, in the order in which it is refused, and what it gives. -/
theorem convert_eq_ok_iff : r.convert target asked = .ok c ↔
    ¬(r.variant.isIsoFamily = true ∧ target.isIsoFamily = true) ∧
    (target.isCard = true → r.views.length = 1) ∧
    (r.variant.isCard = true ∨ target.isCard = true → (r.usableResolution? asked).isSome = true) ∧
    ∃ views, r.views.mapM (FingerView.convert r.variant target
        ((r.usableResolution? asked).getD ⟨0, 0⟩)) = .ok views ∧
      c = Record.withComputedLength { r.convertHeader target (r.usableResolution? asked) with
        numViews := UInt8.ofNat views.length, views } := by
  have hviews : (target.isCard && r.views.length != 1) = true
      ↔ ¬(target.isCard = true → r.views.length = 1) := by simp
  have hresolution :
      ((r.variant.isCard || target.isCard) && (r.usableResolution? asked).isNone) = true
      ↔ ¬(r.variant.isCard = true ∨ target.isCard = true →
        (r.usableResolution? asked).isSome = true) := by simp
  simp only [convert, Bool.and_eq_true (r.variant.isIsoFamily), hviews, hresolution]
  by_cases hpair : r.variant.isIsoFamily = true ∧ target.isIsoFamily = true
  · simp [hpair]
  rw [if_neg hpair]
  by_cases hone : target.isCard = true → r.views.length = 1
  · rw [if_neg (not_not_intro hone)]
    by_cases hsome : r.variant.isCard = true ∨ target.isCard = true →
        (r.usableResolution? asked).isSome = true
    · rw [if_neg (not_not_intro hsome)]
      cases r.views.mapM (FingerView.convert r.variant target
          ((r.usableResolution? asked).getD ⟨0, 0⟩)) with
      | error e => simp [bind, Except.bind]
      | ok views =>
        simp only [bind, Except.bind, pure, Except.pure, Except.ok.injEq, exists_eq_left']
        exact ⟨fun h => ⟨hpair, hone, hsome, h.symm⟩, fun h => h.2.2.2.symm⟩
    · rw [if_pos hsome]
      exact ⟨nofun, fun h => absurd h.2.2.1 hsome⟩
  · rw [if_pos hone]
    exact ⟨nofun, fun h => absurd h.2.1 hone⟩

/-! #### Headers -/

section Header

variable (r : Record) (target : Variant) (resolution : Option Resolution)

@[simp] theorem variant_convertHeader : (r.convertHeader target resolution).variant = target := by
  cases resolution <;> cases hsource : r.variant.hasHeader <;> cases htarget : target.hasHeader <;>
    simp [convertHeader, empty, hsource, htarget]

/-- Only from ANSI to ANSI there is a product to carry over. -/
theorem toProduct_convertHeader : (r.convertHeader target resolution).toProduct
    = if r.variant = .ansi ∧ target = .ansi then r.toProduct else {} := by
  have hcard : r.variant.hasHeader = false → r.variant ≠ .ansi := Variant.ne_ansi_of_not_hasHeader
  cases resolution <;> cases hsource : r.variant.hasHeader <;> cases htarget : target.hasHeader <;>
    simp_all [convertHeader, empty]

theorem toCapture_convertHeader_wellFormed (h : r.toCapture.WellFormed) :
    (r.convertHeader target resolution).toCapture.WellFormed := by
  cases resolution <;> cases hsource : r.variant.hasHeader <;> cases htarget : target.hasHeader <;>
    simp [convertHeader, empty, hsource, htarget, Capture.wellFormed_iff] <;>
    exact ⟨h.compliance, h.scannerId⟩

end Header

/-! #### Whole records -/

/-- What a record is converted to: well formed in the target, and of the length that it declares. -/
theorem Bounded.convert (h : r.Bounded) (hc : r.convert target asked = .ok c) :
    c.variant = target ∧ c.HeadedWellFormed ∧ c.recordLength.toNat = c.computedLength ∧
      (target.isCard = true → ∃ v, c.views = [v]) := by
  obtain ⟨-, hone, -, views, hviews, rfl⟩ := convert_eq_ok_iff.mp hc
  have hcount : views.length = r.views.length := length_of_mapM hviews
  have hwell : ∀ v ∈ views, v.WellFormed target :=
    forall_mem_of_mapM hviews h.views fun _ _ hv => hv.convert
  have hbare : ∀ v ∈ views, v.extended = none :=
    forall_mem_of_mapM hviews h.views fun _ _ _ hv => FingerView.extended_of_convert hv
  have hvariant := variant_convertHeader r target (r.usableResolution? asked)
  have hproduct : target ≠ .ansi →
      (r.convertHeader target (r.usableResolution? asked)).toProduct = {} := by
    intro htarget
    rw [toProduct_convertHeader, if_neg fun hboth => htarget hboth.2]
  have hcapture :=
    toCapture_convertHeader_wellFormed r target (r.usableResolution? asked) h.capture
  -- Of the header nothing else matters: every other field fits whatever it holds.
  generalize r.convertHeader target (r.usableResolution? asked) = header at *
  subst hvariant
  have hviewsLength : views.length ≤ 255 := by
    rw [hcount]
    exact h.views_length
  refine ⟨rfl, ⟨hproduct, ⟨hcapture.compliance, hcapture.scannerId⟩, ?_, hwell⟩, ?_, ?_⟩
  · exact UInt8.toNat_ofNat_of_lt' (Nat.lt_succ_of_le hviewsLength)
  · exact recordLength_withComputedLength (computedLength_lt_of_bare hviewsLength
      (fun v hv => (hwell v hv).bounded.minutiae_length) hbare)
  · intro hcard
    exact List.length_eq_one_iff.mp (hcount.trans (hone hcard))

/-- A record between two variants with a header. -/
def recoded (r : Record) (target : Variant) (asked : Option Resolution) : Record :=
  withComputedLength { r.convertHeader target (r.usableResolution? asked) with
    numViews := UInt8.ofNat r.views.length
    views := r.views.map (FingerView.recoded r.variant target) }

/-- Between records with a header, not both ISO, every record can be converted of which the
positions fit. -/
theorem convert_eq_of_inReach (hsource : r.variant.hasHeader = true)
    (htarget : target.hasHeader = true) (hpair : r.variant = .ansi ∨ target = .ansi)
    (h : ∀ v ∈ r.views, ∀ m ∈ v.minutiae, m.InReach) :
    r.convert target asked = .ok (r.recoded target asked) := by
  have hnotIso : ¬(r.variant.isIsoFamily = true ∧ target.isIsoFamily = true) := by
    rintro ⟨hr, ht⟩
    rcases hpair with hansi | hansi
    · rw [hansi] at hr
      cases hr
    · rw [hansi] at ht
      cases ht
  have hnotCard : ¬(r.variant.isCard = true ∨ target.isCard = true) := by
    simp [Variant.isCard, hsource, htarget]
  have hviews : r.views.mapM (FingerView.convert r.variant target
        ((r.usableResolution? asked).getD ⟨0, 0⟩))
      = .ok (r.views.map (FingerView.recoded r.variant target)) :=
    mapM_eq_ok_map fun v hv => FingerView.convert_eq_of_inReach hsource htarget (h v hv)
  refine convert_eq_ok_iff.mpr ⟨hnotIso, fun hcard => absurd (.inr hcard) hnotCard,
    fun hcard => absurd hcard hnotCard, _, hviews, ?_⟩
  rw [recoded, List.length_map]

theorem Bounded.exists_convert_eq_ok (h : r.Bounded) (hsource : r.variant.hasHeader = true)
    (htarget : target.hasHeader = true) (hpair : r.variant = .ansi ∨ target = .ansi) :
    ∃ c, r.convert target asked = .ok c :=
  ⟨_, convert_eq_of_inReach hsource htarget hpair fun v hv m hm =>
    ((h.views v hv).minutiae m hm).inReach hsource⟩

end Record

end FingerMinutiae
