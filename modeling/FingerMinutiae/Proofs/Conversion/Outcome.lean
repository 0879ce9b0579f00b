import FingerMinutiae.Proofs.Conversion.Convert
import Mathlib.Algebra.Order.Round
import Mathlib.Data.Rat.Floor
import Mathlib.Tactic.MkIffOfInductiveProp

/-!
# What comes of a conversion

A conversion is refused for one of four reasons or it gives a record, and which of these it is can
be read off the source, the target and the resolution asked for. Here that is written down as a
relation with one constructor for each, without the order in which the program goes about it: the
reasons exclude each other, because each comes with the denial of those before it. What a converted
record holds is written down field by field, with positions and angles by the formulas for the two
variants.

The last reason is a matter of the minutiae. The program goes through views and minutiae and stops
at a position that does not fit, halfway through a view and with other views already converted. What
it reports is the first minutia of the whole record that does not fit, and as there is none when the
conversion succeeds, no minutia is lost.

## Main definitions

* `Record.chosenResolution?`, `Record.LacksResolution`: what there is to scale positions by.
* `coordinateIn`, `angleIn`, `Record.positionIn`: positions and angles in the target.
* `Record.Misfit`, `Record.firstMisfit?`: those that do not fit.
* `Minutia.CarriedOver`, `FingerView.CarriedOver`, `Record.CarriedOver`: the converted record, field
  by field.
* `Record.Outcome`: what comes of a conversion.

## Main results

* `Record.mapM_convert_eq_error_iff`, `Record.mapM_convert_eq_ok_iff`: the pass through the views.
* `Record.exists_outcome`, `Record.Outcome.convert_eq`: there is an outcome, and it is what the
  conversion gives.
* `Record.convert_eq_iff_outcome`: both together.
-/

namespace FingerMinutiae

/-! ### What it depends on -/

/-- A coordinate in the target, by the resolution along its axis, which is in pixels to the
centimetre. A card counts hundredths of a millimetre, or tenths on the compact card. Pixels are
taken to millimetres and these to what the card counts, and the other way round from a card. This is
done in double precision and rounded half up at the end. Between two variants that both count pixels
nothing changes. -/
def coordinateIn (source target : Variant) (resolution coordinate : UInt16) : Nat :=
  match source, target with
  | .ansi, .isoNormalCard | .iso, .isoNormalCard =>
    (10.0 * coordinate.toFloat / resolution.toFloat * 100 + 0.5).toUInt32.toNat
  | .ansi, .isoCompactCard | .iso, .isoCompactCard =>
    (10.0 * coordinate.toFloat / resolution.toFloat * 10 + 0.5).toUInt32.toNat
  | .isoNormalCard, .ansi | .isoNormalCard, .iso =>
    (coordinate.toFloat / 100 * resolution.toFloat / 10.0 + 0.5).toUInt32.toNat
  | .isoCompactCard, .ansi | .isoCompactCard, .iso =>
    (coordinate.toFloat / 10 * resolution.toFloat / 10.0 + 0.5).toUInt32.toNat
  | _, _ => coordinate.toNat

/-- An angle in the target: in whole degrees, and these in the steps of the target, both times
rounded to the nearest, and without full turns. Within a variant nothing changes. -/
def angleIn (source target : Variant) (angle : UInt8) : Nat :=
  if source = target then angle.toNat
  else
    let degrees := round (angle.toNat * 360 / source.angleLevels : ℚ)
    let steps := round (degrees * target.angleLevels / 360 : ℚ)
    (steps % target.angleLevels).toNat

namespace Record

section Source

variable (r : Record) (target : Variant) (asked : Option Resolution)

/-- The resolution to scale by: the one asked for, or else that of a header. -/
def chosenResolution? : Option Resolution :=
  asked <|> if r.variant.hasHeader then some ⟨r.xResolution, r.yResolution⟩ else none

/-- Positions have to be scaled, and there is no resolution to do it or one of a zero component. -/
def LacksResolution : Prop :=
  (r.variant.isCard = true ∨ target.isCard = true) ∧
    ∀ s ∈ r.chosenResolution? asked, s.x = 0 ∨ s.y = 0

/-- Where a minutia is in the target. Without a resolution it stays where it is. -/
def positionIn (m : Minutia) : Nat × Nat :=
  match r.chosenResolution? asked with
  | some s => (coordinateIn r.variant target s.x m.x, coordinateIn r.variant target s.y m.y)
  | none => (m.x.toNat, m.y.toNat)

/-- A minutia is too far to the right or too far down for the target. -/
def Misfit (m : Minutia) : Prop :=
  let largest := if target = .isoCompactCard then 0xff else 0x3fff
  largest < (r.positionIn target asked m).1 ∨ largest < (r.positionIn target asked m).2

instance (m : Minutia) : Decidable (r.Misfit target asked m) :=
  inferInstanceAs (Decidable (_ ∨ _))

/-- The first minutia in file order that does not fit the target. -/
def firstMisfit? : Option Minutia :=
  (r.views.flatMap fun v => v.minutiae).find? fun m => r.Misfit target asked m

/-- The resolution in the header of the converted record: the one asked for, if there is a header to
put it in and neither component is zero, and else that of the source. -/
def resolutionIn : Resolution :=
  match asked with
  | some s =>
    if target.hasHeader = true ∧ s.x ≠ 0 ∧ s.y ≠ 0 then s else ⟨r.xResolution, r.yResolution⟩
  | none => ⟨r.xResolution, r.yResolution⟩

end Source

end Record

/-! ### What it leads to -/

/-- A minutia of a record and what it is in the target. -/
@[mk_iff]
structure Minutia.CarriedOver (r : Record) (target : Variant) (asked : Option Resolution)
    (m c : Minutia) : Prop where
  kind : c.kind = m.kind
  x : c.x.toNat = (r.positionIn target asked m).1
  y : c.y.toNat = (r.positionIn target asked m).2
  angle : c.angle.toNat = angleIn r.variant target m.angle
  quality : c.quality =
    if target.isCard = true ∨ (target = .ansi ∧ r.variant ≠ .ansi) then 0 else m.quality
  reserved : c.reserved = if target.isCard = true then 0 else m.reserved

/-- A view of a record and what it is in the target: its header and its minutiae in their order,
and nothing else. -/
@[mk_iff]
structure FingerView.CarriedOver (r : Record) (target : Variant) (asked : Option Resolution)
    (v c : FingerView) : Prop where
  header : c.toViewHeader =
    { v.toViewHeader with numMinutiae := UInt8.ofNat v.minutiae.length }
  minutiae : List.Forall₂ (Minutia.CarriedOver r target asked) v.minutiae c.minutiae
  extended : c.extended = none
  whole : c.truncated = false

/-- A record and what it is in the target. A header is carried over but for the product, which only
ANSI has, and the resolution. For a card there is none, so the converted record has the letters FMR
and a zero byte, a blank, the digits 20 and a zero byte, the resolution, and zeros. -/
structure Record.CarriedOver (r : Record) (target : Variant) (asked : Option Resolution)
    (c : Record) : Prop where
  variant : c.variant = target
  identification : c.toIdentification =
    if r.variant.hasHeader = true then r.toIdentification
    else ⟨⟨0x46, 0x4d, 0x52, 0⟩, ⟨0x20, 0x32, 0x30, 0⟩⟩
  product : c.toProduct = if r.variant = .ansi ∧ target = .ansi then r.toProduct else ⟨0, 0⟩
  capture : c.toCapture =
    { (if r.variant.hasHeader = true then r.toCapture else ⟨0, 0, 0, 0, 0, 0, 0, 0⟩) with
      xResolution := (r.resolutionIn target asked).x
      yResolution := (r.resolutionIn target asked).y
      numViews := UInt8.ofNat r.views.length }
  recordLength : c.recordLength = UInt32.ofNat c.computedLength
  views : List.Forall₂ (FingerView.CarriedOver r target asked) r.views c.views

/-- What comes of a conversion. -/
inductive Record.Outcome (r : Record) (target : Variant) (asked : Option Resolution) :
    Except ConvertError Record → Prop where
  /-- Both variants are ISO. -/
  | unsupportedPair (hpair : r.variant.isIsoFamily = true ∧ target.isIsoFamily = true) :
      r.Outcome target asked (.error (.unsupportedPair r.variant target))
  /-- Otherwise, the target is a card and there is not exactly one view to put on it. -/
  | viewCount (hpair : ¬(r.variant.isIsoFamily = true ∧ target.isIsoFamily = true))
      (hviews : target.isCard = true ∧ r.views.length ≠ 1) :
      r.Outcome target asked (.error (.viewCount r.views.length))
  /-- Otherwise, a card is involved and there is no resolution. -/
  | missingResolution (hpair : ¬(r.variant.isIsoFamily = true ∧ target.isIsoFamily = true))
      (hviews : ¬(target.isCard = true ∧ r.views.length ≠ 1))
      (hresolution : r.LacksResolution target asked) :
      r.Outcome target asked (.error .missingResolution)
  /-- Otherwise, there is a minutia that does not fit. -/
  | coordinateOverflow (hpair : ¬(r.variant.isIsoFamily = true ∧ target.isIsoFamily = true))
      (hviews : ¬(target.isCard = true ∧ r.views.length ≠ 1))
      (hresolution : ¬r.LacksResolution target asked) {m : Minutia}
      (hm : r.firstMisfit? target asked = some m) :
      r.Outcome target asked (.error
        (.coordinateOverflow (r.positionIn target asked m).1 (r.positionIn target asked m).2))
  /-- Otherwise, there is a record with everything carried over. -/
  | converted (hpair : ¬(r.variant.isIsoFamily = true ∧ target.isIsoFamily = true))
      (hviews : ¬(target.isCard = true ∧ r.views.length ≠ 1))
      (hresolution : ¬r.LacksResolution target asked)
      (hfits : r.firstMisfit? target asked = none) {c : Record}
      (hcarried : r.CarriedOver target asked c) : r.Outcome target asked (.ok c)

/-! ### Positions and angles -/

/-- The program rounds by a division of naturals. -/
theorem round_natCast_div (n : Nat) {d : Nat} (hd : 0 < d) :
    round (n / d : ℚ) = (roundedQuotient n d : Nat) := by
  have hne : (d : ℚ) ≠ 0 := by positivity
  have hhalf : (n / d + 1 / 2 : ℚ) = (2 * n + d : Nat) / (2 * d : Nat) := by
    push_cast
    field_simp
  rw [round_eq, hhalf, Rat.floor_natCast_div_natCast]
  rfl

theorem toNat_convertAngle (source target : Variant) (angle : UInt8) :
    (convertAngle source target angle).toNat = angleIn source target angle := by
  unfold angleIn convertAngle
  split
  · rfl
  · have hlevels : target.angleLevels ≤ 2 ^ 8 := by cases target <;> decide
    have hlt := Nat.mod_lt (roundedQuotient (angleDegrees source angle * target.angleLevels) 360)
      (angleLevels_pos target)
    have hdegrees : round (angle.toNat * 360 / source.angleLevels : ℚ)
        = (angleDegrees source angle : Nat) := by
      exact_mod_cast round_natCast_div (angle.toNat * 360) (angleLevels_pos source)
    have hsteps : round ((angleDegrees source angle : Nat) * target.angleLevels / 360 : ℚ)
        = (roundedQuotient (angleDegrees source angle * target.angleLevels) 360 : Nat) := by
      exact_mod_cast round_natCast_div (angleDegrees source angle * target.angleLevels)
        (d := 360) (by decide)
    dsimp only
    rw [UInt8.toNat_ofNat_of_lt' (Nat.lt_of_lt_of_le hlt hlevels), hdegrees, Int.cast_natCast,
      hsteps]
    rfl

/-- The program looks up what the two variants count and goes by that. -/
theorem coordinateIn_eq_rescale (source target : Variant) (resolution coordinate : UInt16) :
    coordinateIn source target resolution coordinate
      = rescale source target coordinate resolution := by
  cases source <;> cases target <;> rfl

namespace Record

variable {r : Record} {target : Variant} {asked : Option Resolution}

theorem lacksResolution_iff : r.LacksResolution target asked ↔
    (r.variant.isCard = true ∨ target.isCard = true) ∧ r.usableResolution? asked = none := by
  show _ ↔ _ ∧ (r.chosenResolution? asked).filter Resolution.isUsable = none
  rw [LacksResolution, Option.filter_eq_none_iff]
  simp [Resolution.isUsable, or_iff_not_imp_left]

/-- If positions have to be scaled there is a resolution to do it, and it is the one that is
used. -/
theorem exists_usableResolution (h : ¬r.LacksResolution target asked)
    (hcard : r.variant.isCard = true ∨ target.isCard = true) :
    ∃ s, r.chosenResolution? asked = some s ∧ r.usableResolution? asked = some s := by
  have husable : r.usableResolution? asked ≠ none := by
    intro hnone
    exact h (lacksResolution_iff.mpr ⟨hcard, hnone⟩)
  obtain ⟨s, hs⟩ := Option.ne_none_iff_exists'.mp husable
  exact ⟨s, (Option.filter_eq_some_iff.mp hs).1, hs⟩

/-- The resolution that the program scales by, which is of no account where nothing is scaled. -/
def scale (r : Record) (asked : Option Resolution) : Resolution :=
  (r.usableResolution? asked).getD ⟨0, 0⟩

/-- The program's own account of a position. -/
theorem positionIn_eq (h : ¬r.LacksResolution target asked) (m : Minutia) :
    r.positionIn target asked m
      = (rescale r.variant target m.x (r.scale asked).x,
        rescale r.variant target m.y (r.scale asked).y) := by
  by_cases hcard : r.variant.isCard = true ∨ target.isCard = true
  · obtain ⟨s, hchosen, husable⟩ := exists_usableResolution h hcard
    rw [positionIn, hchosen, scale, husable]
    simp only [coordinateIn_eq_rescale, Option.getD_some]
  · -- Nothing is scaled, so it does not matter what there is to scale by.
    obtain ⟨hsource, htarget⟩ : r.variant.hasHeader = true ∧ target.hasHeader = true := by
      simpa [Variant.isCard] using hcard
    rw [positionIn]
    split <;>
      simp only [coordinateIn_eq_rescale, Minutia.rescale_of_hasHeader hsource htarget]

theorem misfit_iff {m : Minutia} : r.Misfit target asked m ↔
    maxCoordinate target < (r.positionIn target asked m).1 ∨
      maxCoordinate target < (r.positionIn target asked m).2 := by
  have hlargest :
      maxCoordinate target = if target = .isoCompactCard then 0xff else 0x3fff := by
    cases target <;> rfl
  rw [hlargest]
  rfl

/-! ### Minutia by minutia -/

/-- The error that reports a minutia. -/
def overflowAt (r : Record) (target : Variant) (asked : Option Resolution) (m : Minutia) :
    ConvertError :=
  .coordinateOverflow (r.positionIn target asked m).1 (r.positionIn target asked m).2

/-- What the program does with the position of a minutia. -/
theorem convertPosition_eq (h : ¬r.LacksResolution target asked) (m : Minutia) :
    m.convertPosition r.variant target (r.scale asked)
      = if r.Misfit target asked m then .error (r.overflowAt target asked m)
        else .ok (UInt16.ofNat (r.positionIn target asked m).1,
          UInt16.ofNat (r.positionIn target asked m).2) := by
  simp only [misfit_iff, overflowAt, positionIn_eq h]
  rfl

theorem convert_minutia_eq_error_iff (h : ¬r.LacksResolution target asked) (m : Minutia)
    (e : ConvertError) :
    m.convert r.variant target (r.scale asked) = .error e
      ↔ ((Option.guard (fun m => r.Misfit target asked m) m).map (r.overflowAt target asked))
        = some e := by
  rw [Minutia.convert, convertPosition_eq h]
  by_cases hmisfit : r.Misfit target asked m <;>
    simp [hmisfit, bind, Except.bind, pure, Except.pure, Option.guard]

/-- A minutia keeps its quality where the target has a place for it and counts it alike. -/
theorem ite_keepsQuality (source target : Variant) (quality : UInt8) :
    (if keepsQuality source target then quality else 0)
      = if target.isCard = true ∨ (target = .ansi ∧ source ≠ .ansi) then 0 else quality := by
  cases source <;> cases target <;> rfl

theorem convert_minutia_eq_ok_iff (h : ¬r.LacksResolution target asked) (m c : Minutia) :
    m.convert r.variant target (r.scale asked) = .ok c
      ↔ ¬r.Misfit target asked m ∧ m.CarriedOver r target asked c := by
  have hposition := positionIn_eq h m
  rw [Minutia.convert_eq_ok_iff, Minutia.carriedOver_iff, misfit_iff, hposition,
    ← ite_keepsQuality, ← toNat_convertAngle, UInt8.toNat_inj]
  constructor
  · intro hc
    refine ⟨?_, hc.kind, hc.x, hc.y, hc.angle, hc.quality, hc.reserved⟩
    rw [not_or, ← hc.x, ← hc.y]
    exact ⟨hc.x_le.not_gt, hc.y_le.not_gt⟩
  · rintro ⟨hfits, hkind, hx, hy, hangle, hquality, hreserved⟩
    rw [not_or, ← hx, ← hy] at hfits
    exact ⟨hkind, hx, Nat.le_of_not_lt hfits.1, hy, Nat.le_of_not_lt hfits.2, hangle, hquality,
      hreserved⟩

/-! ### View by view -/

theorem convert_view_eq_error_iff (h : ¬r.LacksResolution target asked) (v : FingerView)
    (e : ConvertError) :
    v.convert r.variant target (r.scale asked) = .error e
      ↔ (v.minutiae.find? fun m => r.Misfit target asked m).map (r.overflowAt target asked)
        = some e := by
  have hpass : v.minutiae.mapM (Minutia.convert r.variant target (r.scale asked)) = .error e
      ↔ (v.minutiae.find? fun m => r.Misfit target asked m).map (r.overflowAt target asked)
        = some e := by
    rw [mapM_eq_error_iff (convert_minutia_eq_error_iff h), List.find?_eq_findSome?_guard,
      List.map_findSome?]
    rfl
  rw [← hpass, FingerView.convert]
  cases v.minutiae.mapM (Minutia.convert r.variant target (r.scale asked)) <;>
    simp [bind, Except.bind, pure, Except.pure]

theorem convert_view_eq_ok_iff (h : ¬r.LacksResolution target asked) (v c : FingerView) :
    v.convert r.variant target (r.scale asked) = .ok c
      ↔ (∀ m ∈ v.minutiae, ¬r.Misfit target asked m) ∧ v.CarriedOver r target asked c := by
  simp only [FingerView.convert_eq_ok_iff, mapM_eq_ok_iff, convert_minutia_eq_ok_iff h,
    List.forall₂_and_left]
  constructor
  · rintro ⟨minutiae, ⟨hfits, hminutiae⟩, rfl⟩
    refine ⟨hfits, ?_, hminutiae, rfl, rfl⟩
    rw [hminutiae.length_eq]
  · rintro ⟨hfits, hheader, hminutiae, hextended, hwhole⟩
    refine ⟨c.minutiae, ⟨hfits, hminutiae⟩, ?_⟩
    obtain ⟨header, minutiae, extended, truncated⟩ := c
    dsimp only at hheader hminutiae hextended hwhole ⊢
    rw [hheader, hextended, hwhole, hminutiae.length_eq]

/-- **Where the pass through the views stops**: at the first minutia that does not fit. -/
theorem mapM_convert_eq_error_iff (h : ¬r.LacksResolution target asked) (e : ConvertError) :
    r.views.mapM (FingerView.convert r.variant target (r.scale asked)) = .error e
      ↔ (r.firstMisfit? target asked).map (r.overflowAt target asked) = some e := by
  rw [mapM_eq_error_iff (convert_view_eq_error_iff h), firstMisfit?, List.find?_flatMap,
    List.map_findSome?]
  rfl

theorem firstMisfit?_eq_none_iff : r.firstMisfit? target asked = none ↔
    ∀ v ∈ r.views, ∀ m ∈ v.minutiae, ¬r.Misfit target asked m := by
  simp only [firstMisfit?, List.find?_eq_none, List.mem_flatMap, decide_eq_true_iff,
    forall_exists_index, and_imp]
  exact ⟨fun hall v hv m hm => hall m v hv hm, fun hall m v hv hm => hall v hv m hm⟩

/-- **What the pass through the views leaves** when it does not stop: everything. -/
theorem mapM_convert_eq_ok_iff (h : ¬r.LacksResolution target asked) (views : List FingerView) :
    r.views.mapM (FingerView.convert r.variant target (r.scale asked)) = .ok views
      ↔ r.firstMisfit? target asked = none ∧
        List.Forall₂ (FingerView.CarriedOver r target asked) r.views views := by
  simp only [mapM_eq_ok_iff, convert_view_eq_ok_iff h, List.forall₂_and_left,
    firstMisfit?_eq_none_iff]

/-! ### Headers -/

theorem resolutionIn_some (s : Resolution) : r.resolutionIn target (some s)
    = if target.hasHeader && s.isUsable then s else ⟨r.xResolution, r.yResolution⟩ := by
  simp [resolutionIn, Resolution.isUsable]

theorem convertHeader_eq_of_hasHeader (hsource : r.variant.hasHeader = true) :
    r.convertHeader target (r.usableResolution? asked) = { r with
      variant := target
      toProduct := if r.variant = .ansi ∧ target = .ansi then r.toProduct else ⟨0, 0⟩
      xResolution := (r.resolutionIn target asked).x
      yResolution := (r.resolutionIn target asked).y
      recordLength := 0
      numViews := 0
      views := [] } := by
  cases asked with
  | none =>
    cases husable : Resolution.isUsable ⟨r.xResolution, r.yResolution⟩ <;>
      simp [convertHeader, empty, usableResolution?, resolutionIn, Option.filter_some, hsource,
        husable]
  | some s =>
    cases husable : s.isUsable <;> cases htarget : target.hasHeader <;>
      simp [convertHeader, empty, usableResolution?, resolutionIn_some, Option.filter_some, hsource,
        husable, htarget]

section NotRefused

variable (hpair : ¬(r.variant.isIsoFamily = true ∧ target.isIsoFamily = true))
  (hresolution : ¬r.LacksResolution target asked)

include hpair hresolution

/-- From a card there is a conversion only to ANSI, and only with a resolution to put there. -/
theorem convertHeader_eq_of_isCard (hcard : r.variant.isCard = true) :
    r.convertHeader target (r.usableResolution? asked) = { empty target with
      formatId := .finger
      specVersion := .version20
      xResolution := (r.resolutionIn target asked).x
      yResolution := (r.resolutionIn target asked).y } := by
  have hsource : r.variant.hasHeader = false := by simpa [Variant.isCard] using hcard
  obtain rfl : target = .ansi := by
    cases target <;> first | rfl | exact absurd ⟨Variant.isIsoFamily_of_isCard hcard, rfl⟩ hpair
  obtain ⟨s, hchosen, husable⟩ := exists_usableResolution hresolution (.inl hcard)
  have hs : s.isUsable = true := (Option.filter_eq_some_iff.mp husable).2
  obtain rfl : asked = some s := by simpa [chosenResolution?, hsource] using hchosen
  have htarget : Variant.ansi.hasHeader = true := rfl
  rw [husable, resolutionIn_some]
  simp [convertHeader, hsource, htarget, hs]

/-- The record that the program starts from. -/
theorem convertHeader_eq :
    r.convertHeader target (r.usableResolution? asked) = {
      toIdentification :=
        if r.variant.hasHeader = true then r.toIdentification
        else ⟨⟨0x46, 0x4d, 0x52, 0⟩, ⟨0x20, 0x32, 0x30, 0⟩⟩
      toProduct := if r.variant = .ansi ∧ target = .ansi then r.toProduct else ⟨0, 0⟩
      toCapture :=
        { (if r.variant.hasHeader = true then r.toCapture else ⟨0, 0, 0, 0, 0, 0, 0, 0⟩) with
          xResolution := (r.resolutionIn target asked).x
          yResolution := (r.resolutionIn target asked).y
          numViews := 0 }
      variant := target } := by
  cases hsource : r.variant.hasHeader with
  | true =>
    rw [convertHeader_eq_of_hasHeader hsource]
    simp
  | false =>
    have hcard : r.variant.isCard = true := by simp [Variant.isCard, hsource]
    rw [convertHeader_eq_of_isCard hpair hresolution hcard]
    simp [Variant.ne_ansi_of_not_hasHeader hsource, empty, Tag.finger, Tag.version20]

/-- The program's own account of a record that is carried over. -/
theorem carriedOver_iff_exists {c : Record} :
    r.CarriedOver target asked c ↔ ∃ views,
      List.Forall₂ (FingerView.CarriedOver r target asked) r.views views ∧
        c = withComputedLength { r.convertHeader target (r.usableResolution? asked) with
          numViews := UInt8.ofNat r.views.length, views } := by
  rw [convertHeader_eq hpair hresolution]
  constructor
  · intro hc
    obtain ⟨identification, product, capture, variant, recordLength, views⟩ := c
    obtain ⟨hvariant, hidentification, hproduct, hcapture, hlength, hviews⟩ := hc
    dsimp only at hvariant hidentification hproduct hcapture hlength hviews
    subst hvariant hidentification hproduct hcapture
    exact ⟨views, hviews, congrArg (Record.mk _ _ _ _ · views) hlength⟩
  · rintro ⟨views, hviews, rfl⟩
    exact ⟨rfl, rfl, rfl, rfl, rfl, hviews⟩

/-! ### Whole records -/

/-- If there is no reason to refuse a conversion beforehand, it is the pass through the views. -/
theorem convert_eq_map (hviews : ¬(target.isCard = true ∧ r.views.length ≠ 1)) :
    r.convert target asked
      = (r.views.mapM (FingerView.convert r.variant target (r.scale asked))).map fun views =>
        withComputedLength { r.convertHeader target (r.usableResolution? asked) with
          numViews := UInt8.ofNat views.length, views } := by
  rw [lacksResolution_iff] at hresolution
  rw [convert, if_neg (by simpa using hpair), if_neg (by simpa using hviews),
    if_neg (by simpa using hresolution), ← scale]
  cases r.views.mapM (FingerView.convert r.variant target (r.scale asked)) <;> rfl

end NotRefused

/-- An outcome is what the conversion gives. -/
theorem Outcome.convert_eq {result : Except ConvertError Record}
    (h : r.Outcome target asked result) : r.convert target asked = result := by
  cases h with
  | unsupportedPair hpair => simp [convert, hpair]
  | viewCount hpair hviews =>
    rw [convert, if_neg (by simpa using hpair), if_pos (by simpa using hviews)]
  | missingResolution hpair hviews hresolution =>
    rw [lacksResolution_iff] at hresolution
    rw [convert, if_neg (by simpa using hpair), if_neg (by simpa using hviews),
      if_pos (by simpa using hresolution)]
  | coordinateOverflow hpair hviews hresolution hm =>
    have hpass := (mapM_convert_eq_error_iff hresolution _).mpr
      (congrArg (Option.map (r.overflowAt target asked)) hm)
    rw [convert_eq_map hpair hresolution hviews, hpass]
    rfl
  | converted hpair hviews hresolution hfits hcarried =>
    obtain ⟨views, hcarriedViews, rfl⟩ := (carriedOver_iff_exists hpair hresolution).mp hcarried
    have hpass := (mapM_convert_eq_ok_iff hresolution _).mpr ⟨hfits, hcarriedViews⟩
    rw [convert_eq_map hpair hresolution hviews, hpass, hcarriedViews.length_eq]
    rfl

/-- There always is an outcome. -/
theorem exists_outcome (r : Record) (target : Variant) (asked : Option Resolution) :
    ∃ result, r.Outcome target asked result := by
  by_cases hpair : r.variant.isIsoFamily = true ∧ target.isIsoFamily = true
  · exact ⟨_, .unsupportedPair hpair⟩
  by_cases hviews : target.isCard = true ∧ r.views.length ≠ 1
  · exact ⟨_, .viewCount hpair hviews⟩
  by_cases hresolution : r.LacksResolution target asked
  · exact ⟨_, .missingResolution hpair hviews hresolution⟩
  cases hm : r.firstMisfit? target asked with
  | some m => exact ⟨_, .coordinateOverflow hpair hviews hresolution hm⟩
  | none =>
    cases hpass : r.views.mapM (FingerView.convert r.variant target (r.scale asked)) with
    | error e =>
      rw [mapM_convert_eq_error_iff hresolution, hm] at hpass
      cases hpass
    | ok views =>
      obtain ⟨hfits, hcarriedViews⟩ := (mapM_convert_eq_ok_iff hresolution views).mp hpass
      have hcarried := (carriedOver_iff_exists hpair hresolution).mpr ⟨_, hcarriedViews, rfl⟩
      exact ⟨_, .converted hpair hviews hresolution hfits hcarried⟩

/-- **What comes of a conversion.** Source, target and resolution settle whether there is one and
else the reason why not, and what it gives. -/
theorem convert_eq_iff_outcome {result : Except ConvertError Record} :
    r.convert target asked = result ↔ r.Outcome target asked result := by
  constructor
  · rintro rfl
    obtain ⟨result, hresult⟩ := exists_outcome r target asked
    rwa [hresult.convert_eq]
  · exact Outcome.convert_eq

/-- Two views with a minutia each that is off the edge, in the first of them behind one that is
not. -/
def offTheEdge : Record where
  variant := .ansi
  views := [
    { minutiae := [{ x := 9, y := 9 }, { x := 9, y := 0x4000 }] },
    { viewNumber := 1, minutiae := [{ x := 0xffff, y := 9 }] }]

/-- A compact card without minutiae. -/
def blankCard : Record where
  variant := .isoCompactCard
  xResolution := 9
  recordLength := 9
  views := [{ quality := 60, truncated := true }]

/-- The minutia in the earlier view is reported; a card has room for neither view. The blank card
has no resolution of its own, and with one that is asked for its view is carried over. -/
theorem convert_eq_iff_outcome_offTheEdge :
    offTheEdge.convert .iso none = .error (.coordinateOverflow 9 0x4000) ∧
      offTheEdge.Outcome .isoNormalCard none (.error (.viewCount 2)) ∧
      blankCard.Outcome .iso none (.error (.unsupportedPair .isoCompactCard .iso)) ∧
      blankCard.Outcome .ansi none (.error .missingResolution) ∧
      blankCard.Outcome .ansi (some ⟨197, 300⟩) (.ok {
        formatId := ⟨0x46, 0x4d, 0x52, 0⟩
        specVersion := ⟨0x20, 0x32, 0x30, 0⟩
        xResolution := 197
        yResolution := 300
        numViews := 1
        variant := .ansi
        recordLength := 32
        views := [{ quality := 60 }] }) := by
  refine ⟨?_, ?_, ?_, ?_, ?_⟩
  · have hresolution : ¬offTheEdge.LacksResolution .iso none := fun h => absurd h.1 (by decide)
    exact convert_eq_iff_outcome.mpr
      (.coordinateOverflow (by decide) (by decide) hresolution (m := { x := 9, y := 0x4000 }) rfl)
  all_goals exact convert_eq_iff_outcome.mp rfl

end Record

end FingerMinutiae
