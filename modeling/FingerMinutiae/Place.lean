/-!
# Places in a record

Reports name the node of a record that they are about: the record itself, a view by its index, and
inside a view a minutia, the extended data, one of its records or an entry of that.

## Main definitions

* `Place` and its `Place.text`, such as `view[1]/minutia[4]`.
-/

namespace FingerMinutiae

/-- A node of a record, by the indices that lead to it. -/
inductive Place where
  | record
  | view (view : Nat)
  | minutia (view index : Nat)
  | extended (view : Nat)
  | data (view index : Nat)
  | ridgeCount (view data index : Nat)
  | core (view data index : Nat)
  | delta (view data index : Nat)
deriving DecidableEq

/-- The written form of a place. -/
def Place.text : Place → String
  | record => "record"
  | view v => s!"view[{v}]"
  | minutia v i => s!"view[{v}]/minutia[{i}]"
  | extended v => s!"view[{v}]/extended"
  | data v j => s!"view[{v}]/extended/data[{j}]"
  | ridgeCount v j i => s!"view[{v}]/extended/data[{j}]/ridge_count[{i}]"
  | core v j i => s!"view[{v}]/extended/data[{j}]/core[{i}]"
  | delta v j i => s!"view[{v}]/extended/data[{j}]/delta[{i}]"

end FingerMinutiae
