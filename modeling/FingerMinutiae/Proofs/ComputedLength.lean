import FingerMinutiae.Record
import Mathlib.Algebra.Order.BigOperators.Group.List
import Mathlib.Algebra.Order.Ring.Nat

/-!
# Computed lengths

The length of a record is added up from its views and then kept in 32 bits. Nothing in the type of
a record says that it fits: a list may be longer than any count, and only the counts bound what a
conforming record or a record that was read has in it. With at most 255 views of at most 255
minutiae and no extended data the length is far below the bound, and that is what conversions and
selections leave.

Extended data counts with the length that it declares. So a view never gets longer by losing it.

## Main results

* `Record.computedLength_mono`: fewer bytes of views, no more bytes of record.
* `Record.computedLength_lt_of_bare`: the length of a record without extended data fits.
* `Record.recordLength_withComputedLength`: a length that fits is declared as it is.
-/

namespace FingerMinutiae

/-! ### Views -/

namespace FingerView

variable {variant : Variant} {v w : FingerView}

theorem encodedLength_of_isCard (hcard : variant.isCard = true) (v : FingerView) :
    v.encodedLength variant = v.minutiae.length * variant.minutiaLength := by
  rw [encodedLength, if_pos hcard]

/-- A view of fewer minutiae and without extended data takes no more bytes. -/
theorem encodedLength_mono (hlength : w.minutiae.length ≤ v.minutiae.length)
    (hbare : w.extended = none) : w.encodedLength variant ≤ v.encodedLength variant := by
  have hminutiae := Nat.mul_le_mul_right variant.minutiaLength hlength
  rw [encodedLength, encodedLength, hbare, Option.elim_none]
  split
  · exact hminutiae
  · omega

/-- A view without extended data takes no more bytes than its frame and 255 minutiae. -/
theorem encodedLength_le_of_bare (hlength : v.minutiae.length ≤ 255) (hbare : v.extended = none) :
    v.encodedLength variant ≤ 1536 := by
  have hwidth : variant.minutiaLength ≤ 6 := by cases variant <;> decide
  have hminutiae := Nat.mul_le_mul hlength hwidth
  rw [encodedLength, hbare, Option.elim_none, frameLength]
  split <;> omega

end FingerView

/-! ### Records -/

namespace Record

variable {r s : Record}

theorem computedLength_of_ansi (h : r.variant = .ansi) :
    r.computedLength =
      if ansiHeaderLength + r.bodyLength < 2 ^ 16 then ansiHeaderLength + r.bodyLength
      else ansiLongHeaderLength + r.bodyLength := by
  rw [computedLength, h]

theorem computedLength_of_isCard {v : FingerView} (hcard : r.variant.isCard = true)
    (hviews : r.views = [v]) :
    r.computedLength = v.minutiae.length * r.variant.minutiaLength := by
  have hbody : r.computedLength = r.bodyLength := by
    rw [computedLength]
    split
    · next hansi => simp [hansi, Variant.isCard, Variant.hasHeader] at hcard
    · next hiso => simp [hiso, Variant.isCard, Variant.hasHeader] at hcard
    · rfl
    · rfl
  rw [hbody, bodyLength, hviews, List.map_singleton, List.sum_singleton,
    FingerView.encodedLength_of_isCard hcard]

theorem computedLength_le (r : Record) :
    r.computedLength ≤ ansiLongHeaderLength + r.bodyLength := by
  rw [computedLength, ansiLongHeaderLength, ansiHeaderLength, isoHeaderLength]
  split
  · split <;> omega
  · omega
  · omega
  · omega

/-- A record with a header is no shorter than the smallest header. -/
theorem headerLength_le_computedLength (hheader : r.variant.hasHeader = true) :
    (if r.variant = .ansi then 26 else 24) ≤ r.computedLength := by
  cases hvariant : r.variant with
  | ansi =>
    rw [if_pos rfl, computedLength_of_ansi hvariant, ansiHeaderLength, ansiLongHeaderLength]
    by_cases hfits : 26 + r.bodyLength < 2 ^ 16
    · rw [if_pos hfits]
      exact Nat.le_add_right _ _
    · rw [if_neg hfits]
      omega
  | iso =>
    rw [if_neg (by decide), computedLength, hvariant]
    exact Nat.le_add_right _ _
  | isoNormalCard => simp [hvariant, Variant.hasHeader] at hheader
  | isoCompactCard => simp [hvariant, Variant.hasHeader] at hheader

/-- Of the views only their bytes count. -/
theorem computedLength_congr (hvariant : s.variant = r.variant)
    (hbody : s.bodyLength = r.bodyLength) : s.computedLength = r.computedLength := by
  rw [computedLength, computedLength, hvariant, hbody]

/-- The length grows with the bytes of the views, also where an ANSI header changes its form. -/
theorem computedLength_mono (hvariant : s.variant = r.variant)
    (hbody : s.bodyLength ≤ r.bodyLength) : s.computedLength ≤ r.computedLength := by
  rw [computedLength, computedLength, hvariant, ansiLongHeaderLength, ansiHeaderLength]
  split
  · split <;> split <;> omega
  · exact Nat.add_le_add_left hbody _
  · exact hbody
  · exact hbody

theorem bodyLength_le {n m : Nat} (hcount : r.views.length ≤ n)
    (h : ∀ v ∈ r.views, v.encodedLength r.variant ≤ m) : r.bodyLength ≤ n * m := by
  have hsum : r.bodyLength ≤ r.views.length * m := by
    simpa [bodyLength] using
      List.sum_le_card_nsmul (r.views.map fun v => v.encodedLength r.variant) m (by simpa using h)
  exact Nat.le_trans hsum (Nat.mul_le_mul_right m hcount)

/-- A record without extended data that can count its views and their minutiae has a length that
fits. -/
theorem computedLength_lt_of_bare (hcount : r.views.length ≤ 255)
    (hminutiae : ∀ v ∈ r.views, v.minutiae.length ≤ 255)
    (hbare : ∀ v ∈ r.views, v.extended = none) : r.computedLength < 2 ^ 32 := by
  have hbody : r.bodyLength ≤ 255 * 1536 := bodyLength_le hcount fun v hv =>
    FingerView.encodedLength_le_of_bare (hminutiae v hv) (hbare v hv)
  calc r.computedLength ≤ ansiLongHeaderLength + r.bodyLength := computedLength_le r
    _ ≤ ansiLongHeaderLength + 255 * 1536 := Nat.add_le_add_left hbody _
    _ < 2 ^ 32 := by decide

theorem recordLength_withComputedLength (h : r.computedLength < 2 ^ 32) :
    r.withComputedLength.recordLength.toNat = r.withComputedLength.computedLength :=
  UInt32.toNat_ofNat_of_lt' h

end Record

end FingerMinutiae
