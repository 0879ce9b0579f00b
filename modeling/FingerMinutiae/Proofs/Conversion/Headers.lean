import FingerMinutiae.Proofs.Conversion.Convert
import FingerMinutiae.Proofs.Decoding.Image

/-!
# Conversions between records with a header

Between records with a header no position is scaled, so nothing that is converted depends on a
resolution. One that is asked for leaves its mark all the same: if it is usable, the header of the
converted record has it in place of the source's own. From ANSI to ANSI nothing else changes, but
that the extended data is gone, and with it the marks of a stream that ended, and that the counts
and the length are those of what is there.

## Main definitions

* `FingerView.bare`, `Record.bare`: what is left without extended data.
* `Record.withResolution`: a record with the resolution that was asked for.

## Main results

* `Record.convert_eq_map_withResolution`: where the resolution shows.
* `Record.recoded_of_ansi`: from ANSI to ANSI.
* `Record.convert_overrides_resolution`: both together, of decoded records too.
-/

namespace FingerMinutiae

/-! ### Without extended data -/

/-- The view as it is without extended data, whole, and with the count of its minutiae. -/
def FingerView.bare (v : FingerView) : FingerView :=
  { v with
    numMinutiae := UInt8.ofNat v.minutiae.length
    extended := none
    truncated := false }

namespace Record

/-- The record as it is without extended data, with the count of its views and its length. -/
def bare (r : Record) : Record :=
  withComputedLength { r with
    numViews := UInt8.ofNat r.views.length
    views := r.views.map FingerView.bare }

/-- The record with a resolution that is usable in place of its own. -/
def withResolution (r : Record) (asked : Option Resolution) : Record :=
  match asked.filter Resolution.isUsable with
  | some resolution => { r with xResolution := resolution.x, yResolution := resolution.y }
  | none => r

end Record

/-! ### Where the resolution shows -/

section Unscaled

variable {source target : Variant} (hsource : source.hasHeader = true)
  (htarget : target.hasHeader = true) (resolution resolution' : Resolution)

include hsource htarget

theorem Minutia.convert_of_hasHeader :
    Minutia.convert source target resolution = Minutia.convert source target resolution' := by
  funext m
  simp only [convert, convertPosition, rescale_of_hasHeader hsource htarget]

theorem FingerView.convert_of_hasHeader :
    FingerView.convert source target resolution = FingerView.convert source target resolution' := by
  funext v
  rw [convert, convert, Minutia.convert_of_hasHeader hsource htarget resolution resolution']

end Unscaled

namespace Record

variable {r : Record} {target : Variant} {asked : Option Resolution}

/-- The header goes over as it is, but for the product. -/
theorem convertHeader_none (hsource : r.variant.hasHeader = true) :
    r.convertHeader target none = { r with
      variant := target
      toProduct := if r.variant = .ansi ∧ target = .ansi then r.toProduct else {}
      recordLength := 0
      numViews := 0
      views := [] } := by
  simp [convertHeader, empty, hsource]

/-- The resolution of the source, put in place of itself, is not seen. -/
theorem convertHeader_usableResolution? (hsource : r.variant.hasHeader = true)
    (htarget : target.hasHeader = true) :
    r.convertHeader target (r.usableResolution? asked)
      = (r.convertHeader target none).withResolution asked := by
  cases asked with
  | some resolution =>
    cases husable : resolution.isUsable <;>
      simp [convertHeader, usableResolution?, withResolution, Option.filter_some, hsource, htarget,
        husable]
  | none =>
    cases husable : Resolution.isUsable ⟨r.xResolution, r.yResolution⟩ <;>
      simp [convertHeader, usableResolution?, withResolution, Option.filter_some, hsource, htarget,
        husable]

/-- A record stays as it is where none is asked for that is usable and not its own. -/
theorem withResolution_eq_self_iff : r.withResolution asked = r ↔
    ∀ resolution ∈ asked, resolution.isUsable = true →
      resolution = ⟨r.xResolution, r.yResolution⟩ := by
  cases asked with
  | none => simp [withResolution]
  | some resolution =>
    cases husable : resolution.isUsable with
    | false => simp [withResolution, Option.filter_some, husable]
    | true =>
      simp only [withResolution, Option.filter_some, husable, if_true, Option.mem_some_iff,
        forall_eq', true_imp_iff]
      constructor
      · intro hsame
        have hx := congrArg (·.xResolution) hsame
        have hy := congrArg (·.yResolution) hsame
        rw [← hx, ← hy]
      · rintro rfl
        rfl

/-- The views and the length are put into a record in whatever resolution. -/
theorem withResolution_withViews (header : Record) (views : List FingerView) :
    withComputedLength { header.withResolution asked with
        numViews := UInt8.ofNat views.length, views }
      = (withComputedLength { header with
          numViews := UInt8.ofNat views.length, views }).withResolution asked := by
  simp only [withResolution]
  split <;> rfl

/-- The resolution that is asked for is put into the converted record and has no other effect. -/
theorem convert_eq_map_withResolution (hsource : r.variant.hasHeader = true)
    (htarget : target.hasHeader = true) :
    r.convert target asked = (r.convert target none).map (·.withResolution asked) := by
  have hnotCard : target.isCard = false ∧ r.variant.isCard = false := by
    simp [Variant.isCard, hsource, htarget]
  have hviews : ∀ resolution, r.views.mapM (FingerView.convert r.variant target resolution)
      = r.views.mapM (FingerView.convert r.variant target ⟨0, 0⟩) := fun resolution => by
    rw [FingerView.convert_of_hasHeader hsource htarget resolution]
  have hnone : (r.convertHeader target (r.usableResolution? none))
      = r.convertHeader target none := convertHeader_usableResolution? hsource htarget
  simp only [convert, hnotCard, hviews, hnone, convertHeader_usableResolution? hsource htarget,
    Bool.or_false, Bool.false_and, Bool.false_eq_true, if_false]
  split
  · rfl
  · cases r.views.mapM (FingerView.convert r.variant target ⟨0, 0⟩) with
    | error e => rfl
    | ok views => exact congrArg Except.ok (withResolution_withViews _ views)

/-- The source's own resolution stays where none is asked for. -/
theorem resolution_of_convert {c : Record} (hsource : r.variant.hasHeader = true)
    (htarget : target.hasHeader = true) (hc : r.convert target none = .ok c) :
    c.xResolution = r.xResolution ∧ c.yResolution = r.yResolution := by
  obtain ⟨-, -, -, views, -, rfl⟩ := convert_eq_ok_iff.mp hc
  rw [convertHeader_usableResolution? hsource htarget]
  simp [withComputedLength, withResolution, convertHeader, hsource]

/-- What a record is converted to, as a change of the record. -/
theorem recoded_eq (hsource : r.variant.hasHeader = true) (htarget : target.hasHeader = true) :
    r.recoded target asked = (withComputedLength { r with
      variant := target
      toProduct := if r.variant = .ansi ∧ target = .ansi then r.toProduct else {}
      numViews := UInt8.ofNat r.views.length
      views := r.views.map (FingerView.recoded r.variant target) }).withResolution asked := by
  have hcount : (r.views.map (FingerView.recoded r.variant target)).length = r.views.length :=
    List.length_map _
  rw [recoded, convertHeader_usableResolution? hsource htarget, convertHeader_none hsource,
    ← hcount]
  exact withResolution_withViews _ _

/-! ### From ANSI to ANSI -/

/-- From ANSI to ANSI nothing is lost but extended data. -/
theorem recoded_of_ansi (hansi : r.variant = .ansi) :
    r.recoded .ansi asked = r.bare.withResolution asked := by
  have hminutia : Minutia.recoded .ansi .ansi = id := rfl
  have hview : FingerView.recoded .ansi .ansi = FingerView.bare := by
    funext v
    rw [FingerView.recoded, hminutia, List.map_id]
    rfl
  have hheader : r.variant.hasHeader = true := by rw [hansi]; rfl
  rw [recoded_eq hheader rfl, hansi, hview, if_pos ⟨rfl, rfl⟩, ← hansi]
  rfl

/-- **A resolution that is asked for overrides the header's.** Between records with a header it is
put into the converted record, if it is usable, and changes nothing else; so it makes no difference
exactly when it is the source's own, which stays without it. A record that is read from ANSI bytes,
whole or not, is so converted to ANSI: all it loses is its extended data, and the counts and the
length are those of what is left. -/
theorem convert_overrides_resolution (asked : Option Resolution) :
    (∀ (r : Record) (target : Variant), r.variant.hasHeader = true → target.hasHeader = true →
      r.convert target asked = (r.convert target none).map (·.withResolution asked) ∧
        ∀ c, r.convert target none = .ok c →
          c.xResolution = r.xResolution ∧ c.yResolution = r.yResolution ∧
          (r.convert target asked = .ok c ↔ ∀ resolution ∈ asked, resolution.isUsable = true →
            resolution = ⟨r.xResolution, r.yResolution⟩)) ∧
    ∀ (bytes : Bytes) (d : Decoded Record), decode .ansi bytes = .ok d →
      d.value.convert .ansi asked = .ok (d.value.bare.withResolution asked) := by
  constructor
  · intro r target hsource htarget
    have hasked : r.convert target asked = (r.convert target none).map (·.withResolution asked) :=
      convert_eq_map_withResolution hsource htarget
    refine ⟨hasked, fun c hc => ?_⟩
    obtain ⟨hx, hy⟩ := resolution_of_convert hsource htarget hc
    have hconvert : r.convert target asked = .ok (c.withResolution asked) := by rw [hasked, hc]; rfl
    rw [hconvert, Except.ok.injEq, withResolution_eq_self_iff, hx, hy]
    exact ⟨rfl, rfl, Iff.rfl⟩
  · intro bytes d h
    obtain ⟨hansi, hbounded⟩ := bounded_of_decode h
    have hheader : d.value.variant.hasHeader = true := by rw [hansi]; rfl
    rw [← recoded_of_ansi hansi]
    exact convert_eq_of_inReach hheader rfl (.inl hansi) fun v hv m hm =>
      ((hbounded.views v hv).minutiae m hm).inReach hheader

/-- An ANSI record without views, at 197 pixels per centimetre. -/
def viewlessRecord : Record where
  variant := .ansi
  formatId := .finger
  specVersion := .version20
  productOwner := 0x103
  xImageSize := 400
  yImageSize := 500
  xResolution := 197
  yResolution := 197
  recordLength := 26

/-- The bytes of an ANSI record of one view, up to the first byte of the length of its extended
data. -/
def cutViewBytes : Bytes :=
  [0x46, 0x4d, 0x52, 0, 0x20, 0x32, 0x30, 0, 0, 38, 1, 3, 0, 0,
    0, 0, 1, 144, 1, 244, 0, 197, 0, 197, 1, 0, 1, 0, 80, 1, 0x40, 10, 0x80, 20, 200, 60, 0]

theorem convert_overrides_resolution_viewlessRecord :
    (∃ c, viewlessRecord.convert .iso none = .ok c ∧ c.xResolution = 197 ∧
      viewlessRecord.convert .iso (some ⟨500, 300⟩)
        = .ok { c with xResolution := 500, yResolution := 300 }) ∧
      ∃ p, decode .ansi cutViewBytes = .ok (.incomplete p) ∧
        p.convert .ansi (some ⟨0, 300⟩) = .ok p.bare := by
  constructor
  · obtain ⟨hasked, hnone⟩ :=
      (convert_overrides_resolution (some ⟨500, 300⟩)).1 viewlessRecord .iso rfl rfl
    have hconvert : ∃ c, viewlessRecord.convert .iso none = .ok c := ⟨_, rfl⟩
    obtain ⟨c, hc⟩ := hconvert
    rw [hc] at hasked
    exact ⟨c, hc, (hnone c hc).1, hasked⟩
  · have hshort : (short? (decode .ansi cutViewBytes)).isSome = true := by decide +kernel
    obtain ⟨p, hp⟩ := Option.isSome_iff_exists.mp hshort
    rw [short?_eq_some_iff] at hp
    exact ⟨p, hp, (convert_overrides_resolution (some ⟨0, 300⟩)).2 cutViewBytes _ hp⟩

/-- It is not true that a resolution makes no difference between records with a header. -/
theorem not_forall_convert_some_eq_convert_none :
    ¬∀ (r : Record) (target : Variant) (resolution : Resolution),
      r.variant.hasHeader = true → target.hasHeader = true →
      r.variant = .ansi ∨ target = .ansi →
      r.convert target (some resolution) = r.convert target none := by
  intro h
  have hsame := h viewlessRecord .ansi ⟨500, 500⟩ rfl rfl (.inl rfl)
  have hresolution : ∀ c, viewlessRecord.convert .ansi none = .ok c → c.xResolution = 197 :=
    fun c hc => (resolution_of_convert rfl rfl hc).1
  rw [← hsame] at hresolution
  exact absurd (hresolution _ rfl) (by decide)

end Record

end FingerMinutiae
