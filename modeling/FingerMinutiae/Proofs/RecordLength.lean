import FingerMinutiae.Proofs.Conformance.Structure
import FingerMinutiae.Proofs.DeclaredLength
import FingerMinutiae.Proofs.Decoding.RoundTrip

/-!
# The length of a record

A record has three lengths: the one that it declares, the one that is computed from its contents,
and that of the bytes that it was read from. The check compares the first two. They agree with the
third where the contents decide how long the header is, which they do except for an ANSI record:
its record length may stand in six bytes although two would do. Such a header is longer than it has
to be, and the computed length is that of the record without the surplus.

The other form is no exception. A record length in two bytes cannot be right for a record that is
too long for it, and neither length that it is compared with fits two bytes then.

## Main definitions

* `Record.surplusIn`: the bytes by which a header is longer than it has to be.

## Main results

* `Record.HeadedRead.length_eq`: the bytes of a record are its header and its views.
* `Record.HeadedWellFormed.encode_of_recordLength`: a record that declares its computed length.
* `Record.recordLength_eq_computedLength_iff`: the two comparisons.
* `Record.recordLength_breach_iff`: what the check says about the record length.
-/

namespace FingerMinutiae

namespace Record

variable {variant : Variant} {bytes : Bytes} {r : Record}

/-! ### Headers and views -/

/-- The bytes that a record with a header was read from are its header and its views. -/
theorem HeadedRead.length_eq (hheader : variant.hasHeader = true) (h : HeadedRead variant bytes r)
    (rest : Bytes) : bytes.length = headerLengthIn variant (bytes ++ rest) + r.bodyLength := by
  obtain ⟨rfl, hwell, header, body, rfl, hread, hspells⟩ := h
  have hviews : r.views.map (fun v => (v.mask r.variant).length)
      = r.views.map fun v => v.encodedLength r.variant :=
    List.map_congr_left fun v hv => FingerView.length_mask hheader (hwell.views v hv)
  have hbody : body.length = r.bodyLength := by
    rw [bodyLength, ← hviews, ← List.length_flatMap, hspells.length_mask]
  rw [List.append_assoc, hread.headerLengthIn_eq, List.length_append, hbody]

/-- A record length that is read from two bytes fits two bytes. -/
theorem LengthRead.lt_of_length_eq_two {length : UInt32} (h : LengthRead variant length bytes)
    (htwo : bytes.length = 2) : length.toNat < 2 ^ 16 := by
  cases h with
  | written =>
    rw [lengthBytes] at htwo
    split at htwo
    · obtain ⟨w, -, rfl, -⟩ | ⟨-, hbytes⟩ := ansiLengthBytes_cases length
      · rw [UInt16.toNat_toUInt32]
        exact w.toNat_lt
      · rw [hbytes] at htwo
        cases htwo
    · cases htwo
  | padded => cases htwo

theorem HeaderRead.recordLength_lt (h : HeaderRead .ansi bytes r)
    (hlength : bytes.length = ansiHeaderLength) : r.recordLength.toNat < 2 ^ 16 := by
  obtain ⟨hvariant, -, -, length, hread, rfl⟩ := h
  rw [length_headerBytes, if_pos hvariant, ansiHeaderLength] at hlength
  exact hread.lt_of_length_eq_two (by omega)

/-! ### Written records -/

theorem HeadedWellFormed.blocksDeclare (h : r.HeadedWellFormed) : r.BlocksDeclare := by
  intro v hv b hb
  have hwell := (h.views v hv).extended b hb
  rw [hwell.length, ExtendedBlock.recordsLength]
  exact congrArg List.sum (List.map_congr_left fun d hd => (hwell.records d hd).length)

/-- A well-formed record that declares its computed length is written in as many bytes, and it is
read back. -/
theorem HeadedWellFormed.encode_of_recordLength (h : r.HeadedWellFormed)
    (hheader : r.variant.hasHeader = true) (hlength : r.recordLength.toNat = r.computedLength) :
    ∃ bytes, r.encode = .ok bytes ∧ bytes.length = r.recordLength.toNat ∧
      decode r.variant bytes = .ok (.complete r) := by
  obtain ⟨bytes, hencode, hrun⟩ := h.exists_encode hheader
  have hwritten := length_eq_recordLength_of_encode h.blocksDeclare hencode hlength
  exact ⟨bytes, hencode, hwritten, decode_of_forall_run hrun⟩

/-! ### Whole records -/

/-- By how many bytes the header at the front of some bytes is longer than it has to be. An ANSI
record length takes six bytes where two would do for the rest of what is read. -/
def surplusIn (variant : Variant) (bytes : Bytes) : Nat :=
  if headerLengthIn variant bytes = ansiLongHeaderLength ∧ consumed variant bytes < 2 ^ 16 + 4
  then 4 else 0

theorem surplusIn_eq_zero (h : headerLengthIn variant bytes ≠ ansiLongHeaderLength) :
    surplusIn variant bytes = 0 :=
  if_neg fun hsurplus => h hsurplus.1

theorem surplusIn_of_ne_ansi (h : variant ≠ .ansi) : surplusIn variant bytes = 0 := by
  refine surplusIn_eq_zero ?_
  rw [headerLengthIn, if_neg h]
  decide

/-- Behind a header with the long record length the surplus makes up for the form that the computed
length is taken with. -/
theorem computedLength_add_surplusIn_of_long (hansi : r.variant = .ansi)
    (hlong : headerLengthIn .ansi bytes = ansiLongHeaderLength)
    (hconsumed : consumed .ansi bytes = ansiLongHeaderLength + r.bodyLength) :
    r.computedLength + surplusIn .ansi bytes = consumed .ansi bytes := by
  rw [computedLength_of_ansi hansi, surplusIn, hlong, hconsumed, ansiHeaderLength,
    ansiLongHeaderLength]
  by_cases hfits : 26 + r.bodyLength < 2 ^ 16
  · have hsurplus : 30 + r.bodyLength < 2 ^ 16 + 4 := by omega
    rw [if_pos hfits, if_pos ⟨rfl, hsurplus⟩]
    omega
  · have hsurplus : ¬30 + r.bodyLength < 2 ^ 16 + 4 := by omega
    rw [if_neg hfits, if_neg fun h => hsurplus h.2, Nat.add_zero]

/-- Behind a header with the short record length the two lengths differ if the record is too long
for that, but the declared length is then less than either. -/
theorem recordLength_eq_computedLength_iff_of_short (hansi : r.variant = .ansi)
    (hlt : r.recordLength.toNat < 2 ^ 16)
    (hconsumed : consumed .ansi bytes = ansiHeaderLength + r.bodyLength) :
    r.recordLength.toNat = r.computedLength ↔ r.recordLength.toNat = consumed .ansi bytes := by
  rw [computedLength_of_ansi hansi, hconsumed, ansiHeaderLength, ansiLongHeaderLength]
  by_cases hfits : 26 + r.bodyLength < 2 ^ 16
  · rw [if_pos hfits]
  · rw [if_neg hfits]
    omega

/-- The declared length is the computed one exactly if it is that of the bytes, less the surplus. -/
theorem recordLength_eq_computedLength_iff (h : decode variant bytes = .ok (.complete r)) :
    r.recordLength.toNat = r.computedLength
      ↔ r.recordLength.toNat + surplusIn variant bytes = consumed variant bytes := by
  by_cases hcard : variant.isCard = true
  · obtain ⟨hconsumed, minutiae, rfl, hcount, -, hlength⟩ := consumed_of_decode_card hcard h
    have hiso : variant ≠ .ansi :=
      Variant.ne_ansi_of_not_hasHeader (by simpa [Variant.isCard] using hcard)
    have hcomputed := recordLength_eq_computedLength_of_decode hcard h
    rw [← hcomputed, surplusIn_of_ne_ansi hiso, hconsumed, hlength,
      recordLength_ofCard hcard hcount]
    simp
  · have hheader : variant.hasHeader = true := Variant.hasHeader_of_not_isCard hcard
    obtain ⟨front, rest, rfl, hconsumed, hread⟩ := exists_headedRead_of_decode hheader h
    have hlength := hread.length_eq hheader rest
    rw [hlength] at hconsumed
    obtain ⟨hvariant, -, header, body, rfl, hheaderRead, -⟩ := hread
    have hin := hheaderRead.headerLengthIn_eq (body ++ rest)
    rw [← List.append_assoc] at hin
    cases variant with
    | ansi =>
      by_cases hlong : headerLengthIn .ansi (header ++ body ++ rest) = ansiLongHeaderLength
      · rw [hlong] at hconsumed
        have hsum := computedLength_add_surplusIn_of_long hvariant hlong hconsumed
        omega
      · have hshort : headerLengthIn .ansi (header ++ body ++ rest) = ansiHeaderLength := by
          rw [headerLengthIn, if_pos rfl] at hlong ⊢
          exact if_neg fun h => hlong (if_pos h)
        have hlt := hheaderRead.recordLength_lt (hin.symm.trans hshort)
        rw [hshort] at hconsumed
        rw [surplusIn_eq_zero hlong]
        exact recordLength_eq_computedLength_iff_of_short hvariant hlt hconsumed
    | iso =>
      rw [surplusIn_of_ne_ansi (by decide), hconsumed, computedLength, hvariant]
      rfl
    | isoNormalCard => cases hheader
    | isoCompactCard => cases hheader

/-- **The check of the record length.** Of a record that is read whole the check reports the record
length exactly if it is not the number of bytes that were read, less the surplus of the header. A
record that passes takes just as many bytes as it declares and as its header has in surplus. -/
theorem recordLength_breach_iff (profile : Profile)
    (h : decode variant bytes = .ok (.complete r)) :
    ((∃ x ∈ r.violations profile, ∃ declared computed, x.breach = .recordLength declared computed)
        ↔ r.recordLength.toNat + surplusIn variant bytes ≠ consumed variant bytes) ∧
      (r.violations profile = [] →
        consumed variant bytes = r.recordLength.toNat + surplusIn variant bytes) := by
  have hiff := not_congr (recordLength_eq_computedLength_iff h)
  have hbreach : (∃ x ∈ r.violations profile, ∃ declared computed,
      x.breach = .recordLength declared computed) ↔ r.recordLength.toNat ≠ r.computedLength := by
    constructor
    · rintro ⟨x, hx, declared, computed, hbreach⟩
      obtain ⟨-, hcount, hviews⟩ := views_wellFormed_of_decode h
      exact (eq_recordLength_of_mem_violations hcount hviews hx (by rw [hbreach]; rfl)).1
    · intro hne
      exact ⟨_, recordLength_mem_violations hne, _, _, rfl⟩
  refine ⟨hbreach.trans hiff, fun hpasses => ?_⟩
  by_contra hne
  obtain ⟨x, hx, -⟩ := hbreach.mpr (hiff.mpr fun heq => hne heq.symm)
  rw [hpasses] at hx
  cases hx

/-- The bytes of an ANSI record without views, of which the record length stands in six bytes. -/
def longFormBytes (declared : UInt8) : Bytes :=
  [0x46, 0x4d, 0x52, 0, 0x20, 0x32, 0x30, 0, 0, 0, 0, 0, 0, declared, 1, 3, 0, 0,
    0, 0, 1, 144, 1, 244, 0, 197, 0, 197, 0, 0]

theorem recordLength_breach_iff_longFormBytes :
    (∃ r, decode .ansi (longFormBytes 26) = .ok (.complete r) ∧ r.violations .full = [] ∧
        consumed .ansi (longFormBytes 26)
          = r.recordLength.toNat + surplusIn .ansi (longFormBytes 26)) ∧
      ∃ r, decode .ansi (longFormBytes 30) = .ok (.complete r) ∧
        r.recordLength.toNat + surplusIn .ansi (longFormBytes 30)
          ≠ consumed .ansi (longFormBytes 30) ∧
        ∃ x ∈ r.violations .full, ∃ declared computed,
          x.breach = .recordLength declared computed := by
  constructor
  · have hwhole : ∃ r, whole? (decode .ansi (longFormBytes 26)) = some r ∧
        r.violations .full = [] := ⟨_, by rfl, by decide⟩
    obtain ⟨r, hr, hpasses⟩ := hwhole
    rw [whole?_eq_some_iff] at hr
    exact ⟨r, hr, hpasses, (recordLength_breach_iff .full hr).2 hpasses⟩
  · have hwhole : ∃ r, whole? (decode .ansi (longFormBytes 30)) = some r ∧
        r.recordLength.toNat + surplusIn .ansi (longFormBytes 30)
          ≠ consumed .ansi (longFormBytes 30) := ⟨_, by rfl, by decide⟩
    obtain ⟨r, hr, hne⟩ := hwhole
    rw [whole?_eq_some_iff] at hr
    exact ⟨r, hr, hne, (recordLength_breach_iff .full hr).1.mpr hne⟩

/-- A record that declares all the bytes it takes does not pass when its header has a surplus. -/
theorem not_forall_recordLength_breach_iff :
    ¬ ∀ (variant : Variant) (bytes : Bytes) (r : Record),
      decode variant bytes = .ok (.complete r) →
        ((∃ x ∈ r.violations .full, ∃ declared computed, x.breach = .recordLength declared computed)
          ↔ r.recordLength.toNat ≠ consumed variant bytes) := by
  intro h
  have hwhole : ∃ r, whole? (decode .ansi (longFormBytes 30)) = some r ∧
      (⟨.record, .recordLength 30 26⟩ ∈ r.violations .full ∧
        r.recordLength.toNat = consumed .ansi (longFormBytes 30)) :=
    ⟨_, by rfl, by decide⟩
  obtain ⟨r, hr, hmem, hdeclared⟩ := hwhole
  rw [whole?_eq_some_iff] at hr
  exact (h .ansi (longFormBytes 30) r hr).mp ⟨_, hmem, _, _, rfl⟩ hdeclared

end Record

end FingerMinutiae
