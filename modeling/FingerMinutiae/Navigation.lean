import FingerMinutiae.Record

/-!
# Navigating records

A node of a record is its contents alone and does not know where it stands. A reference has the
way to the node as well: the record, and the indices that lead to it.

## Main definitions

* `ViewRef` and `MinutiaRef`.
* `Record.viewRef?`, `Record.viewRefs`, `ViewRef.minutiaRefs`.
-/

namespace FingerMinutiae

/-- A view of the record `r`. -/
structure ViewRef (r : Record) where
  /-- The index of the view among those of the record. -/
  index : Fin r.views.length
deriving DecidableEq

namespace ViewRef

variable {r : Record}

/-- The record the view belongs to. -/
def record (_ : ViewRef r) : Record := r

/-- The view itself. -/
def view (v : ViewRef r) : FingerView :=
  r.views[v.index]

end ViewRef

/-- A minutia of a view of the record `r`. -/
structure MinutiaRef (r : Record) where
  /-- The view the minutia belongs to. -/
  view : ViewRef r
  /-- The index of the minutia among those of the view. -/
  index : Fin view.view.minutiae.length

/-- The minutia itself. -/
def MinutiaRef.minutia {r : Record} (m : MinutiaRef r) : Minutia :=
  m.view.view.minutiae[m.index]

/-- The view at an index, if there is one. -/
def Record.viewRef? (r : Record) (index : Nat) : Option (ViewRef r) :=
  if h : index < r.views.length then some ⟨⟨index, h⟩⟩ else none

/-- All views, in file order. -/
def Record.viewRefs (r : Record) : List (ViewRef r) :=
  (List.finRange r.views.length).map ViewRef.mk

/-- All minutiae of a view, in file order. -/
def ViewRef.minutiaRefs {r : Record} (v : ViewRef r) : List (MinutiaRef r) :=
  (List.finRange v.view.minutiae.length).map fun i => ⟨v, i⟩

end FingerMinutiae
