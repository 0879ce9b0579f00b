import FingerMinutiae.Minutia

/-!
# Shuffling

A random selection takes its order from a shuffler: a source of random orders that is drawn from
again and again. All that anything else relies on is that it neither drops, adds nor changes a
minutia, and this is part of what a shuffler is.

## Main definitions

* `Shuffler`: draws an order and moves on.
* `Lottery`: a generator of pseudo-random numbers, and `Lottery.shuffler` over it.
-/

namespace FingerMinutiae

/-- A source of random orders with the state `γ`. -/
structure Shuffler (γ : Type) where
  /-- Draws an order for some minutiae, and the state after it. -/
  draw : γ → List Minutia → List Minutia × γ
  /-- The minutiae drawn are those given. -/
  draw_perm : ∀ g ms, (draw g ms).1.Perm ms

/-- A generator of pseudo-random numbers. -/
structure Lottery where
  /-- The state of the generator. -/
  state : UInt64 := 0x9e3779b97f4a7c15
deriving DecidableEq

namespace Lottery

/-- A number below `n`, which is positive: the high half of the state after a linear congruential
step, taken modulo `n`. -/
def below (g : Lottery) (n : Nat) : Nat × Lottery :=
  let state := g.state * 6364136223846793005 + 1442695040888963407
  ((state.toNat / 2 ^ 32) % n, { state })

theorem below_lt (g : Lottery) {n : Nat} (h : 0 < n) : (g.below n).1 < n :=
  Nat.mod_lt _ h

/-- Puts each minutia into a random place among those behind it. -/
def shuffle (g : Lottery) : List Minutia → List Minutia × Lottery
  | [] => ([], g)
  | m :: ms =>
    let (shuffled, g) := g.shuffle ms
    let (i, g) := g.below (ms.length + 1)
    (shuffled.insertIdx i m, g)

theorem shuffle_perm (g : Lottery) (ms : List Minutia) : (g.shuffle ms).1.Perm ms := by
  induction ms generalizing g with
  | nil => exact .refl _
  | cons m ms ih =>
    have hplace : ((g.shuffle ms).2.below (ms.length + 1)).1 ≤ (g.shuffle ms).1.length := by
      rw [(ih g).length_eq]
      exact Nat.le_of_lt_succ (below_lt _ ms.length.succ_pos)
    exact (List.perm_insertIdx m _ hplace).trans ((ih g).cons m)

/-- The shuffler that draws from the generator. -/
def shuffler : Shuffler Lottery where
  draw := shuffle
  draw_perm := shuffle_perm

end Lottery

end FingerMinutiae
