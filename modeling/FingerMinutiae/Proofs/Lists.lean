import Mathlib.Data.List.Forall2

/-!
# Lists item by item

A list that is made of another one item by item stands beside it, and what is said about the items
of the one is carried over to those of the other. A list of conversions that may fail is such a
list as long as none of them does.

## Main results

* `forall_mem_of_forall₂`: what holds of all items of the one list holds of those of the other.
* `mapM_eq_ok_iff`: the lists of conversions that succeed.
* `mapM_eq_error_iff`: those that fail do so as the first item does that cannot be converted.
-/

namespace FingerMinutiae

section Lists

variable {ε α β : Type} {as : List α}

/-- What is true of every item on the left is carried over to those on the right. -/
theorem forall_mem_of_forall₂ {R : α → β → Prop} {P : α → Prop} {Q : β → Prop} {bs : List β}
    (h : List.Forall₂ R as bs) (has : ∀ a ∈ as, P a) (hR : ∀ a b, P a → R a b → Q b) :
    ∀ b ∈ bs, Q b := by
  induction h with
  | nil => simp
  | cons hab _ ih =>
    obtain ⟨ha, has⟩ := List.forall_mem_cons.mp has
    exact List.forall_mem_cons.mpr ⟨hR _ _ ha hab, ih has⟩

variable {f : α → Except ε β}

theorem mapM_eq_ok_iff {bs : List β} :
    as.mapM f = .ok bs ↔ List.Forall₂ (fun a b => f a = .ok b) as bs := by
  induction as generalizing bs with
  | nil =>
    rw [List.mapM_nil, List.forall₂_nil_left_iff]
    exact ⟨fun h => (Except.ok.inj h).symm, fun h => congrArg Except.ok h.symm⟩
  | cons a as ih =>
    rw [List.mapM_cons, List.forall₂_cons_left_iff]
    cases ha : f a with
    | error e => simp [bind, Except.bind]
    | ok b =>
      cases has : as.mapM f with
      | error e =>
        have hnone : ∀ bs, ¬ List.Forall₂ (fun a b => f a = .ok b) as bs := by
          intro bs h
          rw [← ih, has] at h
          cases h
        simp [bind, Except.bind, hnone]
      | ok bs' =>
        simp only [bind, Except.bind, pure, Except.pure, ← ih, has, Except.ok.injEq]
        constructor
        · rintro rfl
          exact ⟨b, bs', rfl, rfl, rfl⟩
        · rintro ⟨_, _, rfl, rfl, rfl⟩
          rfl

/-- The items are converted in order, and the first failure is that of the whole. -/
theorem mapM_eq_error_iff {fails : α → Option ε} (h : ∀ a e, f a = .error e ↔ fails a = some e)
    {e : ε} : as.mapM f = .error e ↔ as.findSome? fails = some e := by
  induction as with
  | nil => simp [pure, Except.pure]
  | cons a as ih =>
    rw [List.mapM_cons, List.findSome?_cons]
    cases ha : f a with
    | error e' => simp [(h a e').mp ha, bind, Except.bind]
    | ok b =>
      have hnone : fails a = none := by
        rw [Option.eq_none_iff_forall_ne_some]
        intro e' hfails
        rw [(h a e').mpr hfails] at ha
        cases ha
      rw [hnone, ← ih]
      cases as.mapM f <;> simp [bind, Except.bind, pure, Except.pure]

theorem mapM_eq_ok_map {g : α → β} (h : ∀ a ∈ as, f a = .ok (g a)) :
    as.mapM f = .ok (as.map g) := by
  rw [mapM_eq_ok_iff, List.forall₂_map_right_iff, List.forall₂_same]
  exact h

/-- What is true of every source item is carried over to what it is converted to. -/
theorem forall_mem_of_mapM {P : α → Prop} {Q : β → Prop} {bs : List β} (h : as.mapM f = .ok bs)
    (has : ∀ a ∈ as, P a) (hf : ∀ a b, P a → f a = .ok b → Q b) : ∀ b ∈ bs, Q b :=
  forall_mem_of_forall₂ (mapM_eq_ok_iff.mp h) has hf

theorem length_of_mapM {bs : List β} (h : as.mapM f = .ok bs) : bs.length = as.length :=
  (mapM_eq_ok_iff.mp h).length_eq.symm

end Lists

end FingerMinutiae
