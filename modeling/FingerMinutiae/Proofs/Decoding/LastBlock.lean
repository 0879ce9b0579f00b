import FingerMinutiae.Proofs.Decoding.CutShortViews
import FingerMinutiae.Proofs.Decoding.Reaching
import FingerMinutiae.Proofs.Decoding.Requests

/-!
# The block in which a record ends

Only extended data can be malformed, so a record that is found malformed ends within the block of
one of its views. A record that the bytes cut short may end there as well. In either case the
decoder of the record has become that of the block, with what is known of the record around it: the
views before are whole, and the bytes taken so far are theirs and those of the header.

## Main definitions

* `FingerView.withBlock`, `Record.withBlock`: what becomes of a view or a record behind a block.
* `Record.ReachesBlock`: some bytes lead to the block of a view.

## Main results

* `Record.exists_reachesBlock_of_ends`: the block in which a record ends.
-/

namespace FingerMinutiae

open Decoder Layout

variable {variant : Variant} {bytes front : Bytes}

/-! ### Views -/

namespace FingerView

/-- What becomes of a view behind its block. -/
def withBlock (draft : FingerView) : Decoded ExtendedBlock → Decoder (Option (Decoded FingerView))
  | .complete block => done (some (.complete { draft with extended := some block }))
  | .incomplete block =>
    done (some (.incomplete { draft with extended := some block, truncated := true }))

/-- The bytes lead to the block of a view, of which everything else has been read. -/
structure ReachesBlock (variant : Variant) (index : Nat) (front : Bytes) (draft : FingerView)
    (blockLength : UInt16) : Prop where
  reaches : (FingerView.decoder variant index).Reaches front
    ((ExtendedBlock.decoder variant index blockLength).bind draft.withBlock)
  nonzero : blockLength ≠ 0
  length : front.length = frameLength + draft.minutiae.length * variant.minutiaLength

/-- A view ends in its block when there is a defect, or when the bytes run out and the block is
there. -/
def EndsInBlock : Ending (Option (Decoded FingerView)) → Prop
  | .value _ => False
  | .defect _ _ _ => True
  | .short v => ∃ view, v = some (.incomplete view) ∧ view.extended.isSome = true

/-- The block length and the block are read last. -/
theorem exists_block_of_ends_extended {index : Nat} {draft : FingerView}
    (hdraft : draft.extended = none) {e : Ending (Option (Decoded FingerView))}
    (h : (extendedDecoder variant index draft).Ends bytes e) (he : EndsInBlock e) :
    ∃ piece back blockLength e', bytes = piece ++ back ∧ piece.length = 2 ∧ blockLength ≠ 0 ∧
      (extendedDecoder variant index draft).Reaches piece
        ((ExtendedBlock.decoder variant index blockLength).bind draft.withBlock) ∧
      (ExtendedBlock.decoder variant index blockLength).Ends back e' ∧
      Passes draft.withBlock e' e := by
  rcases h.readPiece_cases with ⟨piece, back, rfl, hpiece, hback⟩ | ⟨-, v, hv, rfl⟩
  · have hreaches : (extendedDecoder variant index draft).Reaches piece _ :=
      reaches_readPiece_bind hpiece
    generalize half.parse piece = blockLength at hback hreaches
    dsimp only at hback hreaches
    split at hback
    · cases hback
      exact he.elim
    · next hnonzero =>
      rw [if_neg hnonzero] at hreaches
      change (Decoder.bind _ draft.withBlock).Ends back e at hback
      rcases hback.bind_cases with ⟨first, later, b, rfl, -, hlater⟩ | ⟨e', he', hpasses⟩
      · rcases b with b | b
        · cases hlater
          exact he.elim
        · cases hlater
          exact he.elim
      · exact ⟨piece, back, blockLength, e', rfl, hpiece, hnonzero, hreaches, he', hpasses⟩
  · cases hv
    obtain ⟨view, hview, hextended⟩ := he
    cases hview
    rw [hdraft] at hextended
    cases hextended

/-- Minutiae are read or cut short, and have no defect. -/
theorem exists_block_of_ends_minutiae {index : Nat} {header : ViewHeader}
    {e : Ending (Option (Decoded FingerView))}
    (h : (minutiaeDecoder variant index header).Ends bytes e) (he : EndsInBlock e) :
    ∃ front back minutiae, bytes = front ++ back ∧
      front.length = minutiae.length * variant.minutiaLength ∧
      (minutiaeDecoder variant index header).Reaches front
        (extendedDecoder variant index { toViewHeader := header, minutiae }) ∧
      (extendedDecoder variant index { toViewHeader := header, minutiae }).Ends back e := by
  have hreads := reads_minutiae_length variant header.numMinutiae.toNat
  have hfaultless : (several (fun _ => item (minutia variant)) header.numMinutiae.toNat).LimitedTo
      Request.Short False := limitedTo_several (fun _ => limitedTo_item (short_minutia variant)) _
  rcases h.bind_cases with ⟨front, back, ms, rfl, hms, hback⟩ | ⟨_, hms, @⟨ms, _, hsettled⟩ | _⟩
  · have hread := hreads.of_ends_value hms
    rcases ms with minutiae | minutiae
    · exact ⟨front, back, minutiae, rfl, hread.2, hms.reaches_bind, hback⟩
    · exact hread.elim
  · have hcut := hreads.of_ends_short hms
    rcases ms with minutiae | minutiae
    · exact hcut.elim
    · cases hsettled
      obtain ⟨view, hview, hextended⟩ := he
      cases hview
      cases hextended
  · exact absurd hms hfaultless.not_ends_defect

/-- **The block in which a view ends.** -/
theorem exists_block_of_ends {index : Nat} {e : Ending (Option (Decoded FingerView))}
    (h : (FingerView.decoder variant index).Ends bytes e) (he : EndsInBlock e) :
    ∃ front back draft blockLength e', bytes = front ++ back ∧
      ReachesBlock variant index front draft blockLength ∧
      (ExtendedBlock.decoder variant index blockLength).Ends back e' ∧
      Passes draft.withBlock e' e := by
  rcases h.readPiece_cases with ⟨piece, back, rfl, hpiece, hback⟩ | ⟨-, v, hv, rfl⟩
  · change (minutiaeDecoder variant index (viewHeader.parse piece)).Ends back e at hback
    have hreaches : (FingerView.decoder variant index).Reaches piece
        (minutiaeDecoder variant index (viewHeader.parse piece)) := reaches_readPiece_bind hpiece
    obtain ⟨front, back, minutiae, rfl, hlength, hminutiae, hback⟩ :=
      exists_block_of_ends_minutiae hback he
    obtain ⟨piece', back, blockLength, e', rfl, hpiece', hnonzero, hblock, hends, hpasses⟩ :=
      exists_block_of_ends_extended rfl hback he
    refine ⟨piece ++ (front ++ piece'), back, _, blockLength, e', ?_, ?_, hends, hpasses⟩
    · rw [List.append_assoc, List.append_assoc]
    · refine ⟨hreaches.trans (hminutiae.trans hblock), hnonzero, ?_⟩
      have hfour : piece.length = 4 := hpiece
      rw [List.length_append, List.length_append, hfour, hlength, hpiece', frameLength]
      dsimp only
      omega
  · obtain ⟨view, rfl, hextended⟩ := he
    cases hgot : bytes.length with
    | zero =>
      rw [hgot] at hv
      cases hv
    | succ got =>
      rw [hgot] at hv
      cases hv
      cases hextended

end FingerView

/-! ### Records -/

namespace Record

/-- The record with the views that were read. -/
def withViews (r : Record) (views : Decoded (List FingerView)) : Decoder (Decoded Record) :=
  done (views.map fun views => { r with views })

/-- What becomes of a record behind the block of a view, when `left` more views are to be read. The
views before are in the record. -/
def withBlock (r : Record) (left : Nat) (draft : FingerView) (block : Decoded ExtendedBlock) :
    Decoder (Decoded Record) :=
  (draft.withBlock block).bind fun view =>
    (severalNext (FingerView.decoder r.variant) r.views.length left r.views.reverse view).bind
      r.withViews

/-- The record ends where a block does that is not whole. -/
theorem withBlock_incomplete (r : Record) (left : Nat) (draft : FingerView) (b : ExtendedBlock) :
    r.withBlock left draft (.incomplete b) = done (.incomplete { r with
      views := r.views ++ [{ draft with extended := some b, truncated := true }] }) := by
  have hviews : (({ draft with extended := some b, truncated := true } : FingerView)
      :: r.views.reverse).reverse
        = r.views ++ [{ draft with extended := some b, truncated := true }] := by simp
  rw [← hviews]
  rfl

/-- The bytes lead to the block of a view, behind the header and the whole views of a record. -/
structure ReachesBlock (variant : Variant) (front : Bytes) (r : Record) (left : Nat)
    (draft : FingerView) (blockLength : UInt16) : Prop where
  reaches : (headedDecoder variant).Reaches front
    ((ExtendedBlock.decoder variant r.views.length blockLength).bind (r.withBlock left draft))
  nonzero : blockLength ≠ 0
  whole : ∀ v ∈ r.views, v.truncated = false
  length : ∀ rest, front.length = headerLengthIn variant (front ++ rest)
    + (r.views.map fun v => v.encodedLength variant).sum
    + (FingerView.frameLength + draft.minutiae.length * variant.minutiaLength)

/-- A record ends in a block when there is a defect, or when the bytes run out and the block is
there in a view that is not whole. -/
def EndsInBlock : Ending (Decoded Record) → Prop
  | .value _ => False
  | .defect _ _ _ => True
  | .short answer => ∃ r v, answer = .incomplete r ∧ r.views.getLast? = some v ∧
      v.truncated = true ∧ v.extended.isSome = true

/-- The views behind a header. -/
def viewsDecoder (variant : Variant) (r : Record) : Decoder (Decoded Record) :=
  (several (FingerView.decoder variant) r.numViews.toNat).bind r.withViews

/-- The view within which a record ends in a block ends in that block: the views before it are
whole, so none of them is the marked one. -/
theorem endsInBlock_of_passes {r : Record} {index left : Nat} {views : List FingerView}
    (hwhole : ∀ v ∈ views, v.truncated = false) {e₂ : Ending (Option (Decoded FingerView))}
    {e₁ : Ending (Decoded (List FingerView))} {e : Ending (Decoded Record)}
    (hends : (FingerView.decoder variant index).Ends bytes e₂)
    (h₂ : Passes (severalNext (FingerView.decoder variant) index left views.reverse) e₂ e₁)
    (h₁ : Passes r.withViews e₁ e)
    (he : EndsInBlock e) : FingerView.EndsInBlock e₂ := by
  cases h₂ with
  | defect => trivial
  | @short v as hnext =>
    cases h₁ with
    | short hmap =>
      cases hmap
      obtain ⟨r', last, hr', hlast, htruncated, hextended⟩ := he
      rcases v with _ | v | v
      · -- Nothing of the next view is there, so the last view is one of the whole ones.
        cases hnext
        cases hr'
        rw [List.reverse_reverse] at hlast
        rw [hwhole last (List.mem_of_getLast? hlast)] at htruncated
        cases htruncated
      · exact ((FingerView.readsItem_decoder variant index).of_ends_short hends).elim
      · cases hnext
        cases hr'
        rw [List.reverse_cons, List.reverse_reverse, List.getLast?_concat] at hlast
        cases hlast
        exact ⟨_, rfl, hextended⟩

/-- Behind the header: the views before the one that ends in its block are whole. -/
theorem exists_block_of_ends_views (hheader : variant.hasHeader = true) {r : Record}
    (hvariant : r.variant = variant) {e : Ending (Decoded Record)}
    (h : (viewsDecoder variant r).Ends bytes e) (he : EndsInBlock e) :
    ∃ front back views left draft blockLength e', bytes = front ++ back ∧ blockLength ≠ 0 ∧
      (viewsDecoder variant r).Reaches front
        ((ExtendedBlock.decoder variant views.length blockLength).bind
          (withBlock { r with views } left draft)) ∧
      (∀ v ∈ views, v.truncated = false) ∧
      front.length = (views.map fun v => v.encodedLength variant).sum
        + (FingerView.frameLength + draft.minutiae.length * variant.minutiaLength) ∧
      (ExtendedBlock.decoder variant views.length blockLength).Ends back e' ∧
      Passes (withBlock { r with views } left draft) e' e := by
  subst hvariant
  rcases h.bind_cases with ⟨_, _, _, rfl, _, hback⟩ | ⟨e₁, h₁, hmap⟩
  · cases hback
    exact he.elim
  · rcases h₁.several_cases (FingerView.readsItem_decoder r.variant) with
      ⟨_, rfl⟩ | ⟨front, back, views, left, e₂, rfl, hviews, hreaches, h₂, hnext⟩
    · cases hmap
    · have hwhole := hviews.forall fun _ _ hv => hv.wellFormed.whole
      obtain ⟨front', back, draft, blockLength, e', rfl, hblock, hends, hpasses⟩ :=
        FingerView.exists_block_of_ends h₂ (endsInBlock_of_passes hwhole h₂ hnext hmap he)
      refine ⟨front ++ front', back, views, left, draft, blockLength, e', ?_, hblock.nonzero, ?_,
        hwhole, ?_, hends, hpasses.trans (hnext.trans hmap)⟩
      · rw [List.append_assoc]
      · have hinner := hreaches.trans hblock.reaches.bind
        have hall : (viewsDecoder r.variant r).Reaches _ _ := hinner.bind
        rw [bind_assoc, bind_assoc] at hall
        exact hall
      · rw [List.length_append, hblock.length,
          hviews.length_eq (FingerView.Read.length_eq hheader)]

/-- **The block in which a record ends.** -/
theorem exists_reachesBlock_of_ends (hheader : variant.hasHeader = true)
    {e : Ending (Decoded Record)} (h : (headedDecoder variant).Ends bytes e) (he : EndsInBlock e) :
    ∃ front back r left draft blockLength e', bytes = front ++ back ∧
      ReachesBlock variant front r left draft blockLength ∧
      (ExtendedBlock.decoder variant r.views.length blockLength).Ends back e' ∧
      Passes (r.withBlock left draft) e' e := by
  rcases h.bind_cases with ⟨front, back, r, rfl, hr, hback⟩ | ⟨_, hr, @⟨r, _, hsettled⟩ | _⟩
  · have hread := (reads_headerDecoder variant).of_ends_value hr
    rcases r with r | r
    · obtain ⟨hread, -⟩ := hread
      obtain ⟨front', back, views, left, draft, blockLength, e', rfl, hnonzero, hreaches, hwhole,
        hlength, hends, hpasses⟩ := exists_block_of_ends_views hheader hread.variant_eq hback he
      refine ⟨front ++ front', back, { r with views }, left, draft, blockLength, e', ?_,
        ⟨hr.reaches_bind.trans hreaches, hnonzero, hwhole, ?_⟩, hends, hpasses⟩
      · rw [List.append_assoc]
      · intro rest
        rw [List.append_assoc, hread.headerLengthIn_eq, List.length_append, hlength, Nat.add_assoc]
    · exact hread.elim
  · have hcut := (reads_headerDecoder variant).of_ends_short hr
    rcases r with r | r
    · exact hcut.elim
    · -- A record that is cut short in its header has no views.
      cases hsettled
      obtain ⟨r, v, hr, hlast, -⟩ := he
      cases hr
      rw [hcut.views] at hlast
      cases hlast
  · exact absurd hr (limitedTo_headerDecoder variant).not_ends_defect

end Record

end FingerMinutiae
