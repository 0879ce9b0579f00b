import FingerMinutiae.Record
import FingerMinutiae.Selection.Order
import FingerMinutiae.Selection.Shuffler

/-!
# Selecting minutiae

A selection orders or prunes the minutiae of a view, and a limit keeps the first of them. The new
view has no extended data, since ridge counts refer to minutiae by their place in the old one. A
record is selected from view by view and gets a length of its own.

## Main definitions

* `Selection`, `Selection.apply`.
* `FingerView.select`, `Record.select`.
-/

namespace FingerMinutiae

/-- A way of choosing minutiae. -/
inductive Selection where
  /-- By distance from the centroid, nearest first. -/
  | polar
  /-- In random order. -/
  | random
  /-- Those in an ellipse about the centroid, with the semi-axes `a` along x and `b` along y. -/
  | elliptical (a b : UInt16)
  /-- Those in a rectangle. -/
  | rectangular (x y width height : UInt16)
deriving DecidableEq

section

variable {γ : Type} (shuffler : Shuffler γ) (selection : Selection)

/-- The minutiae chosen, and the state of the shuffler after it. -/
def Selection.apply (g : γ) (ms : List Minutia) : List Minutia × γ :=
  match selection with
  | polar => (sortPolar ms, g)
  | random => shuffler.draw g ms
  | elliptical a b => (pruneElliptical a b ms, g)
  | rectangular x y width height => (pruneRectangular x y width height ms, g)

/-- The first minutiae up to a limit, or all of them without one. -/
def limited (limit : Option Nat) (ms : List Minutia) : List Minutia :=
  limit.elim ms ms.take

/-- The view with the given minutiae in place of its own and without extended data. The declared
count is that of the minutiae, or 255 when there are more. -/
def FingerView.withMinutiae (v : FingerView) (minutiae : List Minutia) : FingerView :=
  { v with numMinutiae := UInt8.ofNat (min minutiae.length 255), minutiae, extended := none }

/-- The view with the minutiae chosen, at most as many as a limit allows. -/
def FingerView.select (limit : Option Nat) (g : γ) (v : FingerView) : FingerView × γ :=
  let (chosen, g) := selection.apply shuffler g v.minutiae
  (v.withMinutiae (limited limit chosen), g)

/-- The views of a record, each with the minutiae chosen. -/
def selectViews (limit : Option Nat) (g : γ) : List FingerView → List FingerView × γ
  | [] => ([], g)
  | v :: vs =>
    let (v, g) := v.select shuffler selection limit g
    let (vs, g) := selectViews limit g vs
    (v :: vs, g)

/-- The record with the minutiae chosen in each view, and with the length that its contents
take. -/
def Record.select (limit : Option Nat) (g : γ) (r : Record) : Record × γ :=
  let (views, g) := selectViews shuffler selection limit g r.views
  ({ r with views }.withComputedLength, g)

end

end FingerMinutiae
