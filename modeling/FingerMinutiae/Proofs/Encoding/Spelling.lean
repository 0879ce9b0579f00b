import FingerMinutiae.Proofs.Decoding.Ensures
import FingerMinutiae.Proofs.Encoding.Fits

/-!
# Bytes that spell a node

Some bits of an encoding have no field in a record. Bytes spell a node when, with these bits
cleared, they are what is written for it. All strings that spell a node are read as the same node,
and the one that is written is the one in which the bits without a field are zero.

Which bits these are depends on the node, since a landmark has two more under ANSI than under ISO
and a core with an angle is a byte longer than one without. So every node has a mask as long as its
bytes; everywhere but in cores and deltas it has all bits.

## Main definitions

* `Landmarks.mask`, `Payload.mask`, `ExtendedRecord.mask`, `FingerView.mask`, `Record.mask`.
* `Spells`: the bytes are those of the pieces but for bits outside the mask.

## Main results

* `Layout.Lawful.spells`: the bytes of a layout spell what is read from them.
* `Spells.append`, `spells_of_concat`: nodes in sequence.
-/

namespace FingerMinutiae

open Layout

/-! ### The bits that have a field -/

namespace Landmarks

/-- The bits read of a core and its angle. -/
def coreMask (variant : Variant) (b : Landmarks) (c : Core) : Bytes :=
  landmarkMask variant ++ if b.coreIsAngular variant c then allBits 1 else []

/-- The bits read of a delta and its angles. -/
def deltaMask (variant : Variant) (b : Landmarks) (d : Delta) : Bytes :=
  landmarkMask variant ++ if b.deltaIsAngular variant d then allBits 3 else []

/-- The bits read of cores and deltas. -/
def mask (variant : Variant) (b : Landmarks) : Bytes :=
  (coresMask variant ++ b.cores.flatMap (b.coreMask variant)) ++
    (deltasMask variant ++ b.deltas.flatMap (b.deltaMask variant))

end Landmarks

/-- The bits read of a payload. -/
def Payload.mask (variant : Variant) : Payload → Bytes
  | ridgeCounts b => allBits (1 + 3 * b.counts.length)
  | landmarks b => b.mask variant
  | raw _ data => allBits data.length

/-- The bits read of an extended data record. -/
def ExtendedRecord.mask (variant : Variant) (d : ExtendedRecord) : Bytes :=
  allBits headerLength ++ d.payload.mask variant

/-- The bits read of a block and its length. -/
def ExtendedBlock.mask (variant : Variant) (b : ExtendedBlock) : Bytes :=
  allBits 2 ++ b.records.flatMap (ExtendedRecord.mask variant)

/-- The bits read of a view of a record with a header. -/
def FingerView.mask (variant : Variant) (v : FingerView) : Bytes :=
  (allBits 4 ++ v.minutiae.flatMap fun _ => allBits variant.minutiaLength) ++
    v.extended.elim (allBits 2) (ExtendedBlock.mask variant)

/-- The bits read of a record of which the header has so many bytes. -/
def Record.mask (headerLength : Nat) (r : Record) : Bytes :=
  allBits headerLength ++ r.views.flatMap (FingerView.mask r.variant)

/-! ### Spelling -/

/-- The bytes are those of the pieces but for bits outside the mask. -/
structure Spells (mask : Bytes) (pieces : List Piece) (bytes : Bytes) : Prop where
  /-- The mask covers the bytes. -/
  length_mask : mask.length = bytes.length
  /-- What is written is what is left of the bytes. -/
  written : Piece.allBytes pieces = clearOutside mask bytes

theorem spells_nil : Spells [] [] [] := ⟨rfl, rfl⟩

theorem Spells.append {mask mask' bytes bytes' : Bytes} {pieces pieces' : List Piece}
    (h : Spells mask pieces bytes) (h' : Spells mask' pieces' bytes') :
    Spells (mask ++ mask') (pieces ++ pieces') (bytes ++ bytes') where
  length_mask := by rw [List.length_append, List.length_append, h.length_mask, h'.length_mask]
  written := by
    rw [Piece.allBytes_append, h.written, h'.written, clearOutside_append h.length_mask]

/-- What is written for a node is as long as the bytes that spell it. -/
theorem Spells.length_allBytes {mask bytes : Bytes} {pieces : List Piece}
    (h : Spells mask pieces bytes) : (Piece.allBytes pieces).length = bytes.length := by
  rw [h.written, length_clearOutside h.length_mask]

theorem Layout.Lawful.spells {α : Type} {layout : Layout α} {valid : α → Prop} {mask bytes : Bytes}
    (h : layout.Lawful valid mask) (hbytes : bytes.length = layout.width) :
    Spells mask [layout.piece (layout.parse bytes)] bytes where
  length_mask := h.length_mask.trans hbytes.symm
  written := (List.append_nil _).trans (h.bytes_parse bytes hbytes)

/-- The mask of a list of which every item has all its bits. -/
theorem flatMap_allBits {α : Type} (as : List α) (n : Nat) :
    (as.flatMap fun _ => allBits n) = allBits (n * as.length) := by
  induction as with
  | nil => rfl
  | cons a as ih => rw [List.flatMap_cons, ih, ← allBits_add, List.length_cons, Nat.mul_succ,
      Nat.add_comm]

/-- Bytes kept as they are spell themselves. -/
theorem spells_plain (bytes : Bytes) :
    Spells (allBits bytes.length) [Piece.plain bytes] bytes where
  length_mask := length_allBits _
  written := (List.append_nil _).trans (clearOutside_allBits bytes).symm

theorem spells_of_concat {α : Type} {P : Bytes → α → Prop} {mask : α → Bytes}
    {pieces : α → List Piece} (hP : ∀ bytes a, P bytes a → Spells (mask a) (pieces a) bytes)
    {bytes : Bytes} {as : List α} (h : Concat P bytes as) :
    Spells (as.flatMap mask) (as.flatMap pieces) bytes := by
  induction h with
  | nil => exact spells_nil
  | cons head tail ih => exact (hP _ _ head).append ih

/-- The items of a list of which each is one piece. -/
theorem spells_map_of_concat {α : Type} {P : Bytes → α → Prop} {mask : α → Bytes}
    {piece : α → Piece} (hP : ∀ bytes a, P bytes a → Spells (mask a) [piece a] bytes)
    {bytes : Bytes} {as : List α} (h : Concat P bytes as) :
    Spells (as.flatMap mask) (as.map piece) bytes := by
  have hmap : as.map piece = as.flatMap fun a => [piece a] := List.map_eq_flatMap
  rw [hmap]
  exact spells_of_concat hP h

end FingerMinutiae
