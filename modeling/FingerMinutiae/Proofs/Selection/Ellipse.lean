import FingerMinutiae.Proofs.Selection.Select
import Mathlib.Algebra.Order.BigOperators.Group.List
import Mathlib.Algebra.Order.Ring.Abs
import Mathlib.Tactic.Linarith
import Mathlib.Tactic.Ring

/-!
# Inside an ellipse

An offset is in the ellipse with the semi-axes `a` and `b` if `(dx / a) ^ 2 + (dy / b) ^ 2 ≤ 1`.
Without fractions this is `(b * dx) ^ 2 + (a * dy) ^ 2 ≤ (a * b) ^ 2`. With a semi-axis of zero that
says too little, and the test has cases of its own for it: it holds all along the other axis. So the
law here asks for the box around the ellipse as well. With positive semi-axes the box follows from
the edge, and with others it is what was missing, so one law covers all cases.

The box also makes the law monotone without a division. For a fixed `b` the edge is
`(b * dx) ^ 2 ≤ a ^ 2 * (b ^ 2 - dy ^ 2)`, and the right-hand side grows with `a` because the box
keeps the difference from being negative. The semi-axes are widened one after the other.

## Main definitions

* `InEllipse`: the law.
* `word128?`, `insideEllipse128?`: the test in signed words of 128 bits.

## Main results

* `insideEllipse_iff`: the test decides the law.
* `InEllipse.mono`: a larger ellipse has the smaller one in it.
* `insideEllipse128?_eq`: the test does not overflow.
* `pruneElliptical_exact`: what pruning keeps.
-/

namespace FingerMinutiae

/-! ### The law -/

/-- The offset is in the ellipse with the semi-axes `a` and `b`: in the box around it, and on the
inner side of its edge. -/
def InEllipse (a b dx dy : Int) : Prop :=
  |dx| ≤ a ∧ |dy| ≤ b ∧ (b * dx) ^ 2 + (a * dy) ^ 2 ≤ (a * b) ^ 2

instance (a b dx dy : Int) : Decidable (InEllipse a b dx dy) :=
  inferInstanceAs (Decidable (_ ∧ _))

namespace InEllipse

variable {a b a' b' dx dy : Int}

/-- The two axes are alike. -/
theorem swap (h : InEllipse a b dx dy) : InEllipse b a dy dx := by
  obtain ⟨hx, hy, hedge⟩ := h
  refine ⟨hy, hx, ?_⟩
  calc (a * dy) ^ 2 + (b * dx) ^ 2 = (b * dx) ^ 2 + (a * dy) ^ 2 := add_comm _ _
    _ ≤ (a * b) ^ 2 := hedge
    _ = (b * a) ^ 2 := by rw [mul_comm]

/-- What is inside stays inside when the ellipse gets wider. -/
theorem widen (ha : a ≤ a') (h : InEllipse a b dx dy) : InEllipse a' b dx dy := by
  obtain ⟨hx, hy, hedge⟩ := h
  have hnonneg : 0 ≤ a := (abs_nonneg dx).trans hx
  have hslack : 0 ≤ b ^ 2 - dy ^ 2 := sub_nonneg.mpr (sq_le_sq' (abs_le.mp hy).1 (abs_le.mp hy).2)
  have hgrow : a ^ 2 ≤ a' ^ 2 := (sq_le_sq₀ hnonneg (hnonneg.trans ha)).mpr ha
  have hleft : (b * dx) ^ 2 ≤ a ^ 2 * (b ^ 2 - dy ^ 2) := by
    calc (b * dx) ^ 2 ≤ (a * b) ^ 2 - (a * dy) ^ 2 := by linarith
      _ = a ^ 2 * (b ^ 2 - dy ^ 2) := by ring
  have hright : (b * dx) ^ 2 ≤ a' ^ 2 * (b ^ 2 - dy ^ 2) :=
    hleft.trans (mul_le_mul_of_nonneg_right hgrow hslack)
  refine ⟨hx.trans ha, hy, ?_⟩
  calc (b * dx) ^ 2 + (a' * dy) ^ 2 ≤ a' ^ 2 * (b ^ 2 - dy ^ 2) + (a' * dy) ^ 2 := by linarith
    _ = (a' * b) ^ 2 := by ring

/-- A larger ellipse has the smaller one in it, also one that was a segment or a point. -/
theorem mono (ha : a ≤ a') (hb : b ≤ b') (h : InEllipse a b dx dy) : InEllipse a' b' dx dy :=
  ((h.widen ha).swap.widen hb).swap

/-- On the inner side of the edge an offset is in the box, unless the other semi-axis is zero. -/
theorem abs_le_of_edge (ha : 0 ≤ a) (hb : 0 < b)
    (hedge : (b * dx) ^ 2 + (a * dy) ^ 2 ≤ (a * b) ^ 2) : |dx| ≤ a := by
  have hsq : (b * dx) ^ 2 ≤ (b * a) ^ 2 := by
    rw [mul_comm b a]
    linarith [sq_nonneg (a * dy)]
  have habs : |b * dx| ≤ b * a := abs_le_of_sq_le_sq hsq (mul_nonneg hb.le ha)
  rw [abs_mul, abs_of_pos hb] at habs
  exact le_of_mul_le_mul_left habs hb

theorem iff_edge (ha : 0 < a) (hb : 0 < b) :
    InEllipse a b dx dy ↔ (b * dx) ^ 2 + (a * dy) ^ 2 ≤ (a * b) ^ 2 := by
  refine ⟨fun h => h.2.2, fun hedge => ⟨abs_le_of_edge ha.le hb hedge, ?_, hedge⟩⟩
  have hswapped : (a * dy) ^ 2 + (b * dx) ^ 2 ≤ (b * a) ^ 2 := by
    rw [add_comm, mul_comm b a]
    exact hedge
  exact abs_le_of_edge hb.le ha hswapped

/-- Without a width the ellipse is a segment of the vertical axis. -/
theorem zero_left_iff : InEllipse 0 b dx dy ↔ dx = 0 ∧ |dy| ≤ b := by
  constructor
  · rintro ⟨hx, hy, -⟩
    exact ⟨abs_nonpos_iff.mp hx, hy⟩
  · rintro ⟨rfl, hy⟩
    exact ⟨by simp, hy, by simp⟩

/-- Without a height it is a segment of the horizontal axis. -/
theorem zero_right_iff : InEllipse a 0 dx dy ↔ dy = 0 ∧ |dx| ≤ a :=
  ⟨fun h => zero_left_iff.mp h.swap, fun h => (zero_left_iff.mpr h).swap⟩

end InEllipse

/-! ### The test -/

theorem natAbs_le_iff_abs_le {n : Nat} {d : Int} : d.natAbs ≤ n ↔ |d| ≤ (n : Int) := by
  rw [Int.abs_eq_natAbs, Int.ofNat_le]

/-- The test decides the law, with its cases for a semi-axis of zero. -/
theorem insideEllipse_iff {a b : Nat} {dx dy : Int} :
    insideEllipse a b dx dy = true ↔ InEllipse a b dx dy := by
  rw [insideEllipse]
  by_cases ha : a = 0
  · subst ha
    rw [if_pos rfl, decide_eq_true_iff, natAbs_le_iff_abs_le]
    exact InEllipse.zero_left_iff.symm
  by_cases hb : b = 0
  · subst hb
    rw [if_neg ha, if_pos rfl, decide_eq_true_iff, natAbs_le_iff_abs_le]
    exact InEllipse.zero_right_iff.symm
  have hedge : dx * b * (dx * b) + dy * a * (dy * a) = (b * dx) ^ 2 + (a * dy) ^ 2 := by ring
  have hbound : ((a * b * (a * b) : Nat) : Int) = ((a : Int) * b) ^ 2 := by
    push_cast
    ring
  rw [if_neg ha, if_neg hb, decide_eq_true_iff, hedge, hbound,
    InEllipse.iff_edge (by omega) (by omega)]

/-! ### The test in machine words -/

/-- A number, if a signed word of 128 bits holds it. -/
def word128? (n : Int) : Option Int :=
  if -2 ^ 127 ≤ n ∧ n < 2 ^ 127 then some n else none

/-- The test with every product and sum in a signed word of 128 bits, and without an answer if one
of them does not fit. -/
def insideEllipse128? (a b : Nat) (dx dy : Int) : Option Bool := do
  let area ← word128? (a * b)
  let bound ← word128? (area * area)
  if a = 0 then return decide (dx = 0 ∧ dy.natAbs ≤ b)
  else if b = 0 then return decide (dy = 0 ∧ dx.natAbs ≤ a)
  else
    let x ← word128? (dx * b)
    let xSq ← word128? (x * x)
    let y ← word128? (dy * a)
    let ySq ← word128? (y * y)
    let sum ← word128? (xSq + ySq)
    return decide (sum ≤ bound)

/-- A number with room to spare goes on as it is. -/
theorem word128?_bind {α : Type} {n : Int} {i : Nat} (hi : i ≤ 127) (h : |n| < 2 ^ i)
    (f : Int → Option α) : (word128? n >>= f) = f n := by
  obtain ⟨hlow, hhigh⟩ := abs_lt.mp (h.trans_le (pow_le_pow_right₀ one_le_two hi))
  rw [word128?, if_pos ⟨hlow.le, hhigh⟩]
  rfl

theorem abs_mul_lt {m n : Int} {i j : Nat} (hm : |m| < 2 ^ i) (hn : |n| < 2 ^ j) :
    |m * n| < 2 ^ (i + j) := by
  rw [abs_mul, pow_add]
  exact mul_lt_mul'' hm hn (abs_nonneg m) (abs_nonneg n)

theorem abs_add_lt {m n : Int} {i : Nat} (hm : |m| < 2 ^ i) (hn : |n| < 2 ^ i) :
    |m + n| < 2 ^ (i + 1) :=
  calc |m + n| ≤ |m| + |n| := abs_add_le m n
    _ < 2 ^ i + 2 ^ i := add_lt_add hm hn
    _ = 2 ^ (i + 1) := by ring

/-- Offsets and semi-axes of sixteen bits have products far within a word of 128 bits. -/
theorem insideEllipse128?_eq {a b : Nat} {dx dy : Int} (ha : |(a : Int)| < 2 ^ 16)
    (hb : |(b : Int)| < 2 ^ 16) (hx : |dx| < 2 ^ 16) (hy : |dy| < 2 ^ 16) :
    insideEllipse128? a b dx dy = some (insideEllipse a b dx dy) := by
  have harea := abs_mul_lt ha hb
  have hxb := abs_mul_lt hx hb
  have hya := abs_mul_lt hy ha
  have hxSq := abs_mul_lt hxb hxb
  have hySq := abs_mul_lt hya hya
  rw [insideEllipse128?, insideEllipse, word128?_bind (by decide) harea,
    word128?_bind (by decide) (abs_mul_lt harea harea)]
  split
  · rfl
  split
  · rfl
  rw [word128?_bind (by decide) hxb, word128?_bind (by decide) hxSq,
    word128?_bind (by decide) hya, word128?_bind (by decide) hySq,
    word128?_bind (by decide) (abs_add_lt hxSq hySq), Int.natCast_mul, Int.natCast_mul]
  rfl

/-! ### Offsets -/

theorem sum_div_length_lt {ns : List Nat} {n : Nat} (hn : 0 < n) (h : ∀ k ∈ ns, k < n) :
    ns.sum / ns.length < n := by
  have hsum : ns.sum ≤ ns.length * (n - 1) := by
    simpa using List.sum_le_card_nsmul ns (n - 1) fun k hk => Nat.le_sub_one_of_lt (h k hk)
  have hdiv : ns.sum / ns.length ≤ n - 1 := Nat.div_le_of_le_mul hsum
  omega

theorem abs_toNat_lt (n : UInt16) : |(n.toNat : Int)| < 2 ^ 16 := by
  have hlt := n.toNat_lt
  rw [abs_lt]
  omega

/-- The centroid of minutiae is a position that a minutia can have. -/
theorem centroid?_lt {ms : List Minutia} {centre : Point} (h : centroid? ms = some centre) :
    centre.x < 2 ^ 16 ∧ centre.y < 2 ^ 16 := by
  rw [centroid?] at h
  split at h
  · cases h
  · cases h
    constructor
    · rw [← List.length_map (fun m : Minutia => m.x.toNat)]
      refine sum_div_length_lt (by decide) (List.forall_mem_map.mpr fun m _ => m.x.toNat_lt)
    · rw [← List.length_map (fun m : Minutia => m.y.toNat)]
      refine sum_div_length_lt (by decide) (List.forall_mem_map.mpr fun m _ => m.y.toNat_lt)

theorem abs_offset_lt {ms : List Minutia} {centre : Point} (h : centroid? ms = some centre)
    (m : Minutia) : |m.offsetX centre| < 2 ^ 16 ∧ |m.offsetY centre| < 2 ^ 16 := by
  obtain ⟨hx, hy⟩ := centroid?_lt h
  have hmx := m.x.toNat_lt
  have hmy := m.y.toNat_lt
  rw [abs_lt, abs_lt, Minutia.offsetX, Minutia.offsetY]
  omega

/-! ### Pruning -/

section Pruning

variable {a b a' b' : UInt16} {ms ns : List Minutia}

theorem pruneElliptical_eq_filter {centre : Point} (h : centroid? ms = some centre) :
    pruneElliptical a b ms = ms.filter fun m =>
      InEllipse a.toNat b.toNat (m.offsetX centre) (m.offsetY centre) := by
  rw [pruneElliptical, h]
  refine List.filter_congr fun m _ => ?_
  rw [Bool.eq_iff_iff, decide_eq_true_iff, insideEllipse_iff]

theorem pruneElliptical_mono (ha : a ≤ a') (hb : b ≤ b') :
    (pruneElliptical a b ms).Sublist (pruneElliptical a' b' ms) := by
  cases hcentre : centroid? ms with
  | none =>
    rw [centroid?_eq_none_iff.mp hcentre]
    exact .slnil
  | some centre =>
    rw [pruneElliptical_eq_filter hcentre, pruneElliptical_eq_filter hcentre]
    refine List.monotone_filter_right ms fun m hm => ?_
    rw [decide_eq_true_iff] at hm ⊢
    exact hm.mono (Int.ofNat_le.mpr ha) (Int.ofNat_le.mpr hb)

theorem pruneElliptical_perm (h : ns.Perm ms) :
    (pruneElliptical a b ns).Perm (pruneElliptical a b ms) := by
  rw [pruneElliptical, pruneElliptical, centroid?_perm h]
  cases centroid? ms with
  | none => exact .nil
  | some centre => exact h.filter _

end Pruning

/-- Five minutiae in the centre and on the axes through it, and two next to the diagonal ends. -/
def crossMinutiae : List Minutia :=
  [{ x := 5 }, { x := 9, y := 9 }, { y := 5 }, { x := 5, y := 5 }, { x := 10, y := 5 },
    { x := 1, y := 1 }, { x := 5, y := 10 }]

/-- Flat, the ellipse is a segment of the vertical axis. -/
example : (pruneElliptical 0 5 crossMinutiae).map (fun m => (m.x, m.y))
    = [(5, 0), (5, 5), (5, 10)] := by
  decide

end FingerMinutiae
