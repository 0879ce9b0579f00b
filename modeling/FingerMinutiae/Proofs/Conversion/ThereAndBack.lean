import FingerMinutiae.Proofs.Conversion.Headers

/-!
# There and back

A record that is converted from ANSI to ISO and back again is the record converted from ANSI to
ANSI, but for what is lost on the way: the product, which ISO does not have, and the quality of the
minutiae, which ANSI does not take from ISO.

An angle is rounded four times: to whole degrees and to steps, there and back. An ANSI step is two
degrees, so nothing is lost on the way to degrees. An ISO step is less than a degree and a half, so
the nearest one is less than a degree away, and back in whole degrees the angle is at most one off.
Halves are rounded up, so it ends where it was or one ANSI step on. An angle of a full turn and more
comes back as what is left of it.

## Main definitions

* `thereAndBack`: what becomes of an angle.
* `Minutia.ReturnsAs`, `FingerView.ReturnsAs`, `Record.ReturnsAs`: a node and what comes back of it.
* `Minutia.returned`, `FingerView.returned`: it.

## Main results

* `toNat_thereAndBack`: no angle drifts by more than one step, and none downward.
* `Record.convert_iso_convert_ansi`: what comes back of a record.
-/

namespace FingerMinutiae

/-! ### Angles -/

/-- An ANSI angle in ISO steps and again in ANSI steps. -/
def thereAndBack (angle : UInt8) : UInt8 :=
  convertAngle .iso .ansi (convertAngle .ansi .iso angle)

/-- An ANSI step is two degrees. -/
theorem angleDegrees_ansi (angle : UInt8) : angleDegrees .ansi angle = 2 * angle.toNat := by
  show (2 * (angle.toNat * 360) + 180) / (2 * 180) = 2 * angle.toNat
  omega

theorem toNat_convertAngle_ansi_iso (angle : UInt8) :
    (convertAngle .ansi .iso angle).toNat = (1024 * angle.toNat + 360) / 720 % 256 := by
  have hsteps : roundedQuotient (angleDegrees .ansi angle * Variant.iso.angleLevels) 360
      = (1024 * angle.toNat + 360) / 720 := by
    rw [angleDegrees_ansi]
    show (2 * (2 * angle.toNat * 256) + 360) / (2 * 360) = _
    omega
  rw [convertAngle, if_neg (by decide), hsteps]
  exact UInt8.toNat_ofNat_of_lt' (Nat.mod_lt _ (by decide))

theorem toNat_convertAngle_iso_ansi (angle : UInt8) :
    (convertAngle .iso .ansi angle).toNat = ((720 * angle.toNat + 256) / 512 + 1) / 2 % 180 := by
  have hsteps : roundedQuotient (angleDegrees .iso angle * Variant.ansi.angleLevels) 360
      = ((720 * angle.toNat + 256) / 512 + 1) / 2 := by
    show (2 * ((2 * (angle.toNat * 360) + 256) / (2 * 256) * 180) + 360) / (2 * 360) = _
    omega
  have hlt : ((720 * angle.toNat + 256) / 512 + 1) / 2 % 180 < 2 ^ 8 := by omega
  rw [convertAngle, if_neg (by decide), hsteps]
  exact UInt8.toNat_ofNat_of_lt' hlt

/-- The ISO step nearest to `n` ANSI steps is at most one degree off them, and half of its degrees,
rounded up, is at most one step more. -/
theorem steps_of_nearest {n steps : Nat} (hlow : 1024 * n < 720 * steps + 360)
    (hhigh : 720 * steps ≤ 1024 * n + 360) :
    ((720 * steps + 256) / 512 + 1) / 2 = n ∨ ((720 * steps + 256) / 512 + 1) / 2 = n + 1 := by
  have hdown : 2 * n ≤ (720 * steps + 256) / 512 + 1 := by omega
  have hup : (720 * steps + 256) / 512 ≤ 2 * n + 1 := by omega
  generalize (720 * steps + 256) / 512 = degrees at hdown hup
  omega

/-- Full turns of 180 ANSI steps are full turns of 256 ISO steps. -/
theorem isoSteps_mod (n : Nat) :
    (1024 * n + 360) / 720 % 256 = (1024 * (n % 180) + 360) / 720 := by
  have hlt : (1024 * (n % 180) + 360) / 720 < 256 := by omega
  calc (1024 * n + 360) / 720 % 256
      = (1024 * (n % 180) + 360 + 720 * (256 * (n / 180))) / 720 % 256 := by congr 2; omega
    _ = ((1024 * (n % 180) + 360) / 720 + 256 * (n / 180)) % 256 := by
        rw [Nat.add_mul_div_left _ _ (by decide)]
    _ = (1024 * (n % 180) + 360) / 720 := by rw [Nat.add_mul_mod_self_left, Nat.mod_eq_of_lt hlt]

/-- **Angles do not drift.** There and back an angle is taken to less than a full turn, and it stays
where it is or goes up by one step. -/
theorem toNat_thereAndBack (angle : UInt8) :
    (thereAndBack angle).toNat = angle.toNat % 180 ∨
      (thereAndBack angle).toNat = (angle.toNat + 1) % 180 := by
  rw [thereAndBack, toNat_convertAngle_iso_ansi, toNat_convertAngle_ansi_iso, isoSteps_mod]
  generalize hsteps : (1024 * (angle.toNat % 180) + 360) / 720 = steps
  have hlow : 1024 * (angle.toNat % 180) < 720 * steps + 360 := by omega
  have hhigh : 720 * steps ≤ 1024 * (angle.toNat % 180) + 360 := by omega
  obtain hsame | hnext := steps_of_nearest hlow hhigh
  · rw [hsame, Nat.mod_mod]
    exact .inl rfl
  · rw [hnext, Nat.mod_add_mod]
    exact .inr rfl

/-! ### What comes back -/

/-- A minutia and what comes back of it: without its quality, and with an angle that is below a full
turn and one step on at most. -/
structure Minutia.ReturnsAs (m c : Minutia) : Prop where
  rest : c = { m with angle := c.angle, quality := 0 }
  angle : c.angle.toNat = m.angle.toNat % 180 ∨ c.angle.toNat = (m.angle.toNat + 1) % 180

/-- A view and what comes back of it: the same but for the minutiae, which come back in order. -/
structure FingerView.ReturnsAs (v c : FingerView) : Prop where
  rest : c = { v with minutiae := c.minutiae }
  minutiae : List.Forall₂ Minutia.ReturnsAs v.minutiae c.minutiae

/-- A record and what comes back of it: without its product, and the views come back in order. -/
structure Record.ReturnsAs (r c : Record) : Prop where
  rest : c = { r with toProduct := {}, views := c.views }
  views : List.Forall₂ FingerView.ReturnsAs r.views c.views

/-- A minutia in ISO and again in ANSI. -/
def Minutia.returned (m : Minutia) : Minutia :=
  (m.recoded .ansi .iso).recoded .iso .ansi

/-- A view in ISO and again in ANSI. -/
def FingerView.returned (v : FingerView) : FingerView :=
  (v.recoded .ansi .iso).recoded .iso .ansi

theorem Minutia.returnsAs_returned (m : Minutia) : m.ReturnsAs m.returned :=
  ⟨rfl, toNat_thereAndBack m.angle⟩

theorem FingerView.minutiae_returned (v : FingerView) :
    v.returned.minutiae = v.minutiae.map Minutia.returned :=
  List.map_map

theorem FingerView.returnsAs_returned (v : FingerView) : v.bare.ReturnsAs v.returned where
  rest := by
    have hcount : (v.minutiae.map (Minutia.recoded .ansi .iso)).length = v.minutiae.length :=
      List.length_map _
    rw [returned, recoded, recoded, hcount]
    rfl
  minutiae := by
    rw [minutiae_returned, List.forall₂_map_right_iff]
    exact List.forall₂_same.mpr fun m _ => m.returnsAs_returned

/-! ### Records -/

namespace Record

variable {r s : Record}

/-- Every view comes back in as many bytes. -/
theorem bodyLength_of_returnsAs (hvariant : r.variant = s.variant)
    (hviews : List.Forall₂ FingerView.ReturnsAs r.views s.views) : r.bodyLength = s.bodyLength := by
  have hview : ∀ v c : FingerView, v.ReturnsAs c →
      v.encodedLength r.variant = c.encodedLength r.variant := by
    intro v c hreturns
    rw [hreturns.rest, FingerView.encodedLength, FingerView.encodedLength,
      hreturns.minutiae.length_eq]
  rw [bodyLength, bodyLength, ← hvariant]
  generalize r.views = vs, s.views = cs at hviews
  refine congrArg List.sum ?_
  induction hviews with
  | nil => rfl
  | cons hvc _ ih => exact congrArg₂ List.cons (hview _ _ hvc) ih

theorem recoded_recoded (hansi : r.variant = .ansi) :
    (r.recoded .iso none).recoded .ansi none = withComputedLength { r with
      toProduct := {}
      numViews := UInt8.ofNat r.views.length
      views := r.views.map FingerView.returned } := by
  obtain ⟨identification, product, capture, variant, recordLength, views⟩ := r
  obtain rfl : variant = .ansi := hansi
  have hcount : (views.map (FingerView.recoded .ansi .iso)).length = views.length :=
    List.length_map _
  have hviews : (views.map (FingerView.recoded .ansi .iso)).map (FingerView.recoded .iso .ansi)
      = views.map FingerView.returned := List.map_map
  have hiso :
      recoded ⟨identification, product, capture, .ansi, recordLength, views⟩ .iso none = _ :=
    recoded_eq rfl rfl
  rw [hiso, recoded_eq rfl rfl, ← hcount, ← hviews]
  rfl

theorem returnsAs_recoded (hansi : r.variant = .ansi) :
    r.bare.ReturnsAs ((r.recoded .iso none).recoded .ansi none) := by
  have hviews : List.Forall₂ FingerView.ReturnsAs (r.views.map FingerView.bare)
      (r.views.map FingerView.returned) := by
    rw [List.forall₂_map_left_iff, List.forall₂_map_right_iff]
    exact List.forall₂_same.mpr fun v _ => v.returnsAs_returned
  have hlength : computedLength { r with
        numViews := UInt8.ofNat r.views.length
        views := r.views.map FingerView.bare }
      = computedLength { r with
        toProduct := {}
        numViews := UInt8.ofNat r.views.length
        views := r.views.map FingerView.returned } :=
    computedLength_congr rfl (bodyLength_of_returnsAs rfl hviews)
  rw [recoded_recoded hansi]
  refine ⟨?_, hviews⟩
  rw [bare, withComputedLength, withComputedLength, hlength]

/-- **There and back.** An ANSI record of which the positions fit is converted to ISO and from there
to ANSI, and what comes back is what it is converted to from ANSI to ANSI, but for the product, for
the quality of the minutiae and for angles that are taken to less than a full turn and may be one
step on. From ANSI to ANSI it stays as it is, but for the extended data. -/
theorem convert_iso_convert_ansi (hansi : r.variant = .ansi)
    (h : ∀ v ∈ r.views, ∀ m ∈ v.minutiae, m.InReach) :
    ∃ there back copy, r.convert .iso none = .ok there ∧ there.convert .ansi none = .ok back ∧
      r.convert .ansi none = .ok copy ∧ copy = r.bare ∧ copy.ReturnsAs back := by
  have hheader : r.variant.hasHeader = true := by rw [hansi]; rfl
  have hviews : (r.recoded .iso none).views
      = r.views.map (FingerView.recoded r.variant .iso) := rfl
  have hthere : ∀ v ∈ (r.recoded .iso none).views, ∀ m ∈ v.minutiae, m.InReach := by
    rw [hviews]
    refine List.forall_mem_map.mpr fun v hv => List.forall_mem_map.mpr fun m hm => ?_
    exact h v hv m hm
  have hvariant : (r.recoded .iso none).variant = .iso := by rw [recoded_eq hheader rfl]; rfl
  refine ⟨_, _, _, convert_eq_of_inReach hheader rfl (.inl hansi) h,
    convert_eq_of_inReach (by rw [hvariant]; rfl) rfl (.inr rfl) hthere,
    convert_eq_of_inReach hheader rfl (.inl hansi) h, recoded_of_ansi hansi, ?_⟩
  rw [recoded_of_ansi hansi]
  exact returnsAs_recoded hansi

/-- An ANSI record of two views, of which the first was cut short and has extended data. Its angles
are the last step of a full turn and one of more than a full turn. -/
def turnedRecord : Record where
  variant := .ansi
  productOwner := 259
  xResolution := 197
  views := [
    { numMinutiae := 9
      minutiae := [{ kind := 1, x := 0x3fff, angle := 179, quality := 80, reserved := 3 }]
      extended := some { blockLength := 8, truncated := true }
      truncated := true },
    { viewNumber := 20, minutiae := [{ kind := 200, angle := 255, quality := 200 }] }]

theorem convert_iso_convert_ansi_turnedRecord :
    ∃ there back copy, turnedRecord.convert .iso none = .ok there ∧
      there.convert .ansi none = .ok back ∧ turnedRecord.convert .ansi none = .ok copy ∧
      copy = turnedRecord.bare ∧ copy.ReturnsAs back :=
  convert_iso_convert_ansi (r := turnedRecord) rfl (by decide)

end Record

end FingerMinutiae
