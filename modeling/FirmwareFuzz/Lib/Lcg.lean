import Mathlib.Algebra.BigOperators.Intervals
import Mathlib.Algebra.BigOperators.Ring.Finset
import Mathlib.Algebra.Order.Ring.Int
import Mathlib.Algebra.Ring.Int.Parity
import Mathlib.Data.Int.ModEq
import Mathlib.RingTheory.Coprime.Lemmas
import Mathlib.Tactic.LinearCombination
import Mathlib.Tactic.Ring
import Mathlib.Tactic.WLOG

/-!
# Linear congruential generators

A linear congruential generator goes from `x` to `a * x + c`, modulo a power of
two. What it does to a number in `n` steps is to add a multiple of what it adds
in one, by the sum of the first `n` powers of `a` (`iterate_affine`). If `a` is
one modulo 4, that sum is divisible by as high a power of two as `n`
(`two_pow_dvd_geomSum_iff`); so, if `c` is odd, two numbers of a sequence agree
modulo `2 ^ k` exactly if their positions do (`iterate_modEq_iff`): every low
part of the numbers has the longest period there is, and every value occurs (`exists_of_injective`).
-/

namespace Lcg

open Finset

/-- The map of a generator, without the reduction. -/
def affine (a c x : ℤ) : ℤ := a * x + c

/-- The sum of the first `n` powers of `a`. -/
def geomSum (a : ℤ) (n : ℕ) : ℤ := ∑ i ∈ range n, a ^ i

variable {a c : ℤ}

theorem geomSum_succ (a : ℤ) (n : ℕ) : geomSum a (n + 1) = a * geomSum a n + 1 := by
  rw [geomSum, sum_range_succ', geomSum, mul_sum]
  exact congrArg₂ _ (sum_congr rfl fun i _ => pow_succ' a i) (pow_zero a)

/-- The sum of an even number of powers. -/
theorem geomSum_add_self (a : ℤ) (n : ℕ) : geomSum a (n + n) = (a ^ n + 1) * geomSum a n := by
  have hsum : ∑ i ∈ range n, a ^ (n + i) = a ^ n * geomSum a n := by
    rw [geomSum, mul_sum]
    exact sum_congr rfl fun i _ => pow_add a n i
  rw [geomSum, sum_range_add, hsum, add_one_mul, add_comm]
  rfl

theorem iterate_affine (a c x : ℤ) (n : ℕ) :
    (affine a c)^[n] x = x + geomSum a n * ((a - 1) * x + c) := by
  induction n with
  | zero => simp [geomSum]
  | succ n ih =>
    rw [Function.iterate_succ_apply', ih, affine, geomSum_succ]
    ring

/-- An odd number of odd powers has an odd sum. -/
theorem odd_geomSum (ha : Odd a) {n : ℕ} (hn : Odd n) : Odd (geomSum a n) := by
  obtain ⟨m, rfl⟩ := hn
  rw [geomSum_succ, two_mul, geomSum_add_self]
  exact ((ha.pow.add_odd odd_one).mul_right _).mul_left _ |>.add_odd odd_one

/-- Twice an odd number. -/
theorem exists_pow_add_one (ha : a % 4 = 1) (n : ℕ) : ∃ m, a ^ n + 1 = 2 * (2 * m + 1) := by
  have hmod : a ^ n ≡ 1 [ZMOD 4] := by
    simpa using (show a ≡ 1 [ZMOD 4] from ha).pow n
  obtain ⟨m, hm⟩ := hmod.symm.dvd
  exact ⟨m, by linear_combination hm⟩

/-- An odd factor takes no part in the divisibility by a power of two. -/
theorem two_pow_dvd_mul_odd_iff {m q : ℤ} (hq : Odd q) (k : ℕ) : 2 ^ k ∣ m * q ↔ 2 ^ k ∣ m := by
  obtain ⟨q, rfl⟩ := hq
  have hcoprime : IsCoprime ((2 : ℤ) ^ k) (2 * q + 1) := IsCoprime.pow_left ⟨-q, 1, by ring⟩
  exact ⟨hcoprime.dvd_of_dvd_mul_right, fun h => h.mul_right _⟩

theorem two_pow_dvd_geomSum_iff (ha : a % 4 = 1) (k n : ℕ) : 2 ^ k ∣ geomSum a n ↔ 2 ^ k ∣ n := by
  have hodd : Odd a := Int.odd_iff.2 (by omega)
  induction k generalizing n with
  | zero => simp
  | succ k ih =>
    rcases Nat.even_or_odd n with ⟨m, rfl⟩ | hn
    · -- Both have a factor of two more than the halves.
      obtain ⟨q, hq⟩ := exists_pow_add_one ha m
      rw [geomSum_add_self, hq, ← two_mul, pow_succ', pow_succ', mul_assoc,
        mul_dvd_mul_iff_left two_ne_zero, Nat.mul_dvd_mul_iff_left two_pos, mul_comm,
        two_pow_dvd_mul_odd_iff (odd_two_mul_add_one q)]
      exact ih m
    · refine iff_of_false (fun h => ?_) fun h => ?_
      · have heven := (dvd_pow_self 2 k.succ_ne_zero).trans h
        exact Int.not_even_iff_odd.2 (odd_geomSum hodd hn) (even_iff_two_dvd.2 heven)
      · have heven := (dvd_pow_self 2 k.succ_ne_zero).trans h
        exact Nat.not_even_iff_odd.2 hn (even_iff_two_dvd.2 heven)

/-- The sequence is back modulo `2 ^ k` after the multiples of `2 ^ k` steps. -/
theorem iterate_modEq_self_iff (ha : a % 4 = 1) (hc : Odd c) (x : ℤ) (k n : ℕ) :
    (affine a c)^[n] x ≡ x [ZMOD 2 ^ k] ↔ 2 ^ k ∣ n := by
  -- One step adds an odd number.
  have hodd : Odd ((a - 1) * x + c) := by
    have heven : Even (a - 1) := Int.even_iff.2 (by omega)
    exact (heven.mul_right x).add_odd hc
  rw [Int.modEq_comm, Int.modEq_iff_dvd, iterate_affine, add_sub_cancel_left,
    two_pow_dvd_mul_odd_iff hodd]
  exact two_pow_dvd_geomSum_iff ha k n

/-- Numbers of the sequence agree modulo `2 ^ k` if their positions do, and only then. -/
theorem iterate_modEq_iff (ha : a % 4 = 1) (hc : Odd c) (x : ℤ) (k i j : ℕ) :
    (affine a c)^[i] x ≡ (affine a c)^[j] x [ZMOD 2 ^ k] ↔ i ≡ j [MOD 2 ^ k] := by
  wlog hij : i ≤ j generalizing i j with hwlog
  · rw [Int.modEq_comm, Nat.ModEq.comm]
    exact hwlog j i (le_of_not_ge hij)
  obtain ⟨n, rfl⟩ := Nat.exists_eq_add_of_le hij
  have hback := iterate_modEq_self_iff ha hc ((affine a c)^[i] x) k n
  rw [← Function.iterate_add_apply, add_comm n] at hback
  rw [Int.modEq_comm, hback, Nat.modEq_iff_dvd' hij, Nat.add_sub_cancel_left]

/-- A sequence below `N` whose first `N` numbers are different takes every value. -/
theorem exists_of_injective {N : ℕ} {g : ℕ → ℕ} (hlt : ∀ n, g n < N)
    (hinj : ∀ i < N, ∀ j < N, g i = g j → i = j) {v : ℕ} (hv : v < N) : ∃ n < N, g n = v := by
  let f : Fin N → Fin N := fun n => ⟨g n, hlt n⟩
  have hf : Function.Injective f := fun i j hij =>
    Fin.ext (hinj i i.2 j j.2 (congrArg Fin.val hij))
  obtain ⟨n, hn⟩ := Finite.surjective_of_injective hf ⟨v, hv⟩
  exact ⟨n, n.2, congrArg Fin.val hn⟩

end Lcg
