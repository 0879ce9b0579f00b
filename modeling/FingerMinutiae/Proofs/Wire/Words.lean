import FingerMinutiae.Wire.Layout

/-!
# Words, bytes and their parts

Splitting a word and joining it again lose nothing, in either order. Everything is read through
`toNat`: a part is a quotient or a remainder by a power of two, and what is left is arithmetic.

A part of a word is again the content of a byte or word, so a quotient may only be taken when it
fits there. For a word of sixteen bits that asks `8 ≤ k` of the place `k` of the split.

## Main results

* `bytes16_word16`, `word16_bytes16`, `bytes32_word32`, `word32_bytes32`.
* `join16_split`, `highBits16_join16`, `lowBits16_join16`, and the same for a byte.
* `lowBits8_eq_and`, `bytes16_lowBits16`: taking the low bits is clearing the others.
-/

namespace FingerMinutiae

/-! ### Big-endian words -/

theorem toNat_word16 (a b : UInt8) : (word16 a b).toNat = a.toNat * 2 ^ 8 + b.toNat := by
  have ha := a.toNat_lt
  have hb := b.toNat_lt
  rw [word16, UInt16.toNat_ofNat_of_lt']
  simp only [UInt16.size]
  omega

theorem bytes16_word16 (a b : UInt8) : bytes16 (word16 a b) = [a, b] := by
  have hb := b.toNat_lt
  have hhigh : (word16 a b).toNat / 2 ^ 8 = a.toNat := by rw [toNat_word16]; omega
  have hlow : (word16 a b).toNat % 2 ^ 8 = b.toNat := by rw [toNat_word16]; omega
  rw [bytes16, hhigh, hlow, UInt8.ofNat_toNat, UInt8.ofNat_toNat]

theorem word16_bytes16 (w : UInt16) :
    word16 (UInt8.ofNat (w.toNat / 2 ^ 8)) (UInt8.ofNat (w.toNat % 2 ^ 8)) = w := by
  have hw := w.toNat_lt
  apply UInt16.toNat_inj.mp
  rw [toNat_word16, UInt8.toNat_ofNat_of_lt', UInt8.toNat_ofNat_of_lt']
  · omega
  · exact Nat.mod_lt _ (by decide)
  · simp only [UInt8.size]; omega

theorem toNat_word32 (a b c d : UInt8) : (word32 a b c d).toNat
    = ((a.toNat * 2 ^ 8 + b.toNat) * 2 ^ 8 + c.toNat) * 2 ^ 8 + d.toNat := by
  have ha := a.toNat_lt
  have hb := b.toNat_lt
  have hc := c.toNat_lt
  have hd := d.toNat_lt
  rw [word32, UInt32.toNat_ofNat_of_lt']
  simp only [UInt32.size]
  omega

theorem bytes32_word32 (a b c d : UInt8) : bytes32 (word32 a b c d) = [a, b, c, d] := by
  have hb := b.toNat_lt
  have hc := c.toNat_lt
  have hd := d.toNat_lt
  have h₁ : (word32 a b c d).toNat / 2 ^ 24 = a.toNat := by rw [toNat_word32]; omega
  have h₂ : (word32 a b c d).toNat / 2 ^ 16 % 2 ^ 8 = b.toNat := by rw [toNat_word32]; omega
  have h₃ : (word32 a b c d).toNat / 2 ^ 8 % 2 ^ 8 = c.toNat := by rw [toNat_word32]; omega
  have h₄ : (word32 a b c d).toNat % 2 ^ 8 = d.toNat := by rw [toNat_word32]; omega
  rw [bytes32, h₁, h₂, h₃, h₄]
  simp only [UInt8.ofNat_toNat]

theorem word32_bytes32 (w : UInt32) :
    word32 (UInt8.ofNat (w.toNat / 2 ^ 24)) (UInt8.ofNat (w.toNat / 2 ^ 16 % 2 ^ 8))
      (UInt8.ofNat (w.toNat / 2 ^ 8 % 2 ^ 8)) (UInt8.ofNat (w.toNat % 2 ^ 8)) = w := by
  have hw := w.toNat_lt
  have byte : ∀ n : Nat, n < 2 ^ 8 → (UInt8.ofNat n).toNat = n := fun n hn =>
    UInt8.toNat_ofNat_of_lt' hn
  apply UInt32.toNat_inj.mp
  rw [toNat_word32, byte _ (by omega), byte _ (by omega), byte _ (by omega), byte _ (by omega)]
  omega

@[simp] theorem length_bytes16 (w : UInt16) : (bytes16 w).length = 2 := rfl

@[simp] theorem length_bytes32 (w : UInt32) : (bytes32 w).length = 4 := rfl

/-! ### Two fields in a word -/

variable {k : Nat}

theorem toNat_highBits16 (hk : 8 ≤ k) (w : UInt16) : (highBits16 k w).toNat = w.toNat / 2 ^ k := by
  have hw := w.toNat_lt
  have hpow : 2 ^ 8 ≤ 2 ^ k := Nat.pow_le_pow_right (by decide) hk
  apply UInt8.toNat_ofNat_of_lt'
  apply Nat.div_lt_of_lt_mul
  simp only [UInt8.size]
  omega

theorem toNat_lowBits16 (k : Nat) (w : UInt16) : (lowBits16 k w).toNat = w.toNat % 2 ^ k :=
  UInt16.toNat_ofNat_of_lt' (Nat.lt_of_le_of_lt (Nat.mod_le _ _) w.toNat_lt)

theorem lowBits16_lt (k : Nat) (w : UInt16) : (lowBits16 k w).toNat < 2 ^ k := by
  rw [toNat_lowBits16]
  exact Nat.mod_lt _ (Nat.two_pow_pos k)

theorem highBits16_lt (hk : 8 ≤ k) (hk' : k ≤ 16) (w : UInt16) :
    (highBits16 k w).toNat < 2 ^ (16 - k) := by
  rw [toNat_highBits16 hk]
  apply Nat.div_lt_of_lt_mul
  rw [← Nat.pow_add, Nat.add_sub_cancel' hk']
  exact w.toNat_lt

theorem join16_split (hk : 8 ≤ k) (w : UInt16) :
    join16 k (highBits16 k w) (lowBits16 k w) = w := by
  rw [join16, toNat_highBits16 hk, toNat_lowBits16, Nat.div_add_mod', UInt16.ofNat_toNat]

theorem toNat_join16 (hk : k ≤ 16) {high : UInt8} {low : UInt16}
    (hhigh : high.toNat < 2 ^ (16 - k)) (hlow : low.toNat < 2 ^ k) :
    (join16 k high low).toNat = high.toNat * 2 ^ k + low.toNat := by
  apply UInt16.toNat_ofNat_of_lt'
  calc high.toNat * 2 ^ k + low.toNat
      < (high.toNat + 1) * 2 ^ k := by rw [Nat.succ_mul]; omega
    _ ≤ 2 ^ (16 - k) * 2 ^ k := Nat.mul_le_mul_right _ hhigh
    _ = 2 ^ 16 := by rw [← Nat.pow_add, Nat.sub_add_cancel hk]

theorem highBits16_join16 (hk : k ≤ 16) {high : UInt8} {low : UInt16}
    (hhigh : high.toNat < 2 ^ (16 - k)) (hlow : low.toNat < 2 ^ k) :
    highBits16 k (join16 k high low) = high := by
  rw [highBits16, toNat_join16 hk hhigh hlow, Nat.add_comm,
    Nat.add_mul_div_right _ _ (Nat.two_pow_pos k), Nat.div_eq_of_lt hlow, Nat.zero_add,
    UInt8.ofNat_toNat]

theorem lowBits16_join16 (hk : k ≤ 16) {high : UInt8} {low : UInt16}
    (hhigh : high.toNat < 2 ^ (16 - k)) (hlow : low.toNat < 2 ^ k) :
    lowBits16 k (join16 k high low) = low := by
  rw [lowBits16, toNat_join16 hk hhigh hlow, Nat.mul_add_mod_self_right, Nat.mod_eq_of_lt hlow,
    UInt16.ofNat_toNat]

theorem lowBits16_of_lt {w : UInt16} (hw : w.toNat < 2 ^ k) : lowBits16 k w = w := by
  rw [lowBits16, Nat.mod_eq_of_lt hw, UInt16.ofNat_toNat]

/-! ### Two fields in a byte -/

theorem toNat_highBits8 (k : Nat) (b : UInt8) : (highBits8 k b).toNat = b.toNat / 2 ^ k :=
  UInt8.toNat_ofNat_of_lt' (Nat.lt_of_le_of_lt (Nat.div_le_self _ _) b.toNat_lt)

theorem toNat_lowBits8 (k : Nat) (b : UInt8) : (lowBits8 k b).toNat = b.toNat % 2 ^ k :=
  UInt8.toNat_ofNat_of_lt' (Nat.lt_of_le_of_lt (Nat.mod_le _ _) b.toNat_lt)

theorem lowBits8_lt (k : Nat) (b : UInt8) : (lowBits8 k b).toNat < 2 ^ k := by
  rw [toNat_lowBits8]
  exact Nat.mod_lt _ (Nat.two_pow_pos k)

theorem highBits8_lt (hk : k ≤ 8) (b : UInt8) : (highBits8 k b).toNat < 2 ^ (8 - k) := by
  rw [toNat_highBits8]
  apply Nat.div_lt_of_lt_mul
  rw [← Nat.pow_add, Nat.add_sub_cancel' hk]
  exact b.toNat_lt

theorem join8_split (k : Nat) (b : UInt8) : join8 k (highBits8 k b) (lowBits8 k b) = b := by
  rw [join8, toNat_highBits8, toNat_lowBits8, Nat.div_add_mod', UInt8.ofNat_toNat]

theorem toNat_join8 (hk : k ≤ 8) {high low : UInt8}
    (hhigh : high.toNat < 2 ^ (8 - k)) (hlow : low.toNat < 2 ^ k) :
    (join8 k high low).toNat = high.toNat * 2 ^ k + low.toNat := by
  apply UInt8.toNat_ofNat_of_lt'
  calc high.toNat * 2 ^ k + low.toNat
      < (high.toNat + 1) * 2 ^ k := by rw [Nat.succ_mul]; omega
    _ ≤ 2 ^ (8 - k) * 2 ^ k := Nat.mul_le_mul_right _ hhigh
    _ = 2 ^ 8 := by rw [← Nat.pow_add, Nat.sub_add_cancel hk]

theorem highBits8_join8 (hk : k ≤ 8) {high low : UInt8}
    (hhigh : high.toNat < 2 ^ (8 - k)) (hlow : low.toNat < 2 ^ k) :
    highBits8 k (join8 k high low) = high := by
  rw [highBits8, toNat_join8 hk hhigh hlow, Nat.add_comm,
    Nat.add_mul_div_right _ _ (Nat.two_pow_pos k), Nat.div_eq_of_lt hlow, Nat.zero_add,
    UInt8.ofNat_toNat]

theorem lowBits8_of_lt {b : UInt8} (hb : b.toNat < 2 ^ k) : lowBits8 k b = b := by
  rw [lowBits8, Nat.mod_eq_of_lt hb, UInt8.ofNat_toNat]

/-- The low field may be read with fewer bits than the split leaves for it. -/
theorem lowBits8_join8 {j : Nat} (hk : k ≤ 8) (hj : j ≤ k) {high low : UInt8}
    (hhigh : high.toNat < 2 ^ (8 - k)) (hlow : low.toNat < 2 ^ j) :
    lowBits8 j (join8 k high low) = low := by
  have hlow' : low.toNat < 2 ^ k :=
    Nat.lt_of_lt_of_le hlow (Nat.pow_le_pow_right (by decide) hj)
  have hsplit : 2 ^ k = 2 ^ (k - j) * 2 ^ j := by rw [← Nat.pow_add, Nat.sub_add_cancel hj]
  rw [lowBits8, toNat_join8 hk hhigh hlow', hsplit, ← Nat.mul_assoc, Nat.mul_add_mod_self_right,
    Nat.mod_eq_of_lt hlow, UInt8.ofNat_toNat]

/-! ### Clearing bits -/

theorem lowBits8_eq_and (k : Nat) (hk : k ≤ 8) (b : UInt8) :
    lowBits8 k b = b &&& UInt8.ofNat (2 ^ k - 1) := by
  have hmask : (UInt8.ofNat (2 ^ k - 1)).toNat = 2 ^ k - 1 := by
    apply UInt8.toNat_ofNat_of_lt'
    have : 2 ^ k ≤ 2 ^ 8 := Nat.pow_le_pow_right (by decide) hk
    have := Nat.two_pow_pos k
    simp only [UInt8.size]
    omega
  apply UInt8.toNat_inj.mp
  rw [toNat_lowBits8, UInt8.toNat_and, hmask, Nat.and_two_pow_sub_one_eq_mod]

/-- A word without its top two bits has a high byte without its top two. -/
theorem bytes16_lowBits16 (a b : UInt8) :
    bytes16 (lowBits16 14 (word16 a b)) = [a &&& 0x3f, b] := by
  have hb := b.toNat_lt
  have hlow : lowBits16 14 (word16 a b) = word16 (lowBits8 6 a) b := by
    apply UInt16.toNat_inj.mp
    rw [toNat_lowBits16, toNat_word16, toNat_word16, toNat_lowBits8]
    omega
  rw [hlow, bytes16_word16, lowBits8_eq_and 6 (by decide)]
  rfl

end FingerMinutiae
