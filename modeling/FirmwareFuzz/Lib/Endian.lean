import Mathlib.Algebra.Order.Ring.Nat
import Mathlib.Data.List.Basic

/-!
# Words of bytes

A number in a fixed number of bytes, the least significant one first (`le`) or
last (`be`). Reading the bytes is the inverse of writing them, on the numbers
that fit (`ofLe_le`, `ofBe_be`) and on all words (`le_ofLe`, `be_ofBe`).
-/

namespace Endian

/-- The bytes of a number, `n` of them, the least significant one first. -/
def le : (n k : ℕ) → List UInt8
  | 0, _ => []
  | n + 1, k => UInt8.ofNat k :: le n (k / 256)

/-- The number the bytes write, the least significant one first. -/
def ofLe : List UInt8 → ℕ
  | [] => 0
  | b :: bs => b.toNat + 256 * ofLe bs

/-- The bytes of a number, `n` of them, the most significant one first. -/
def be (n k : ℕ) : List UInt8 := (le n k).reverse

/-- The number the bytes write, the most significant one first. -/
def ofBe (bs : List UInt8) : ℕ := ofLe bs.reverse

variable {n k : ℕ}

@[simp]
theorem length_le (n k : ℕ) : (le n k).length = n := by
  induction n generalizing k with
  | zero => rfl
  | succ n ih => rw [le, List.length_cons, ih]

@[simp]
theorem length_be (n k : ℕ) : (be n k).length = n := by rw [be, List.length_reverse, length_le]

theorem ofLe_le (hk : k < 256 ^ n) : ofLe (le n k) = k := by
  induction n generalizing k with
  | zero => exact (Nat.lt_one_iff.1 hk).symm
  | succ n ih =>
    have hdiv : k / 256 < 256 ^ n := by
      rw [Nat.div_lt_iff_lt_mul (by decide), ← pow_succ]
      exact hk
    rw [le, ofLe, ih hdiv, UInt8.toNat_ofNat']
    exact Nat.mod_add_div k 256

theorem ofBe_be (hk : k < 256 ^ n) : ofBe (be n k) = k := by
  rw [ofBe, be, List.reverse_reverse, ofLe_le hk]

theorem ofLe_lt (bs : List UInt8) : ofLe bs < 256 ^ bs.length := by
  induction bs with
  | nil => exact Nat.one_pos
  | cons b bs ih =>
    have hb := b.toNat_lt
    rw [ofLe, List.length_cons, pow_succ]
    omega

theorem ofBe_lt (bs : List UInt8) : ofBe bs < 256 ^ bs.length := by
  rw [← List.length_reverse]
  exact ofLe_lt _

theorem le_ofLe (bs : List UInt8) : le bs.length (ofLe bs) = bs := by
  induction bs with
  | nil => rfl
  | cons b bs ih =>
    have hb := b.toNat_lt
    have hdiv : (b.toNat + 256 * ofLe bs) / 256 = ofLe bs := by omega
    have hmod : UInt8.ofNat (b.toNat + 256 * ofLe bs) = b := by
      rw [← UInt8.toNat_inj, UInt8.toNat_ofNat']
      omega
    rw [ofLe, List.length_cons, le, hdiv, hmod, ih]

theorem be_ofBe (bs : List UInt8) : be bs.length (ofBe bs) = bs := by
  rw [be, ofBe, ← List.length_reverse, le_ofLe, List.reverse_reverse]

/-- The number in the first `n` bytes of a stream, and what follows them. -/
def takeLe (n : ℕ) (s : List UInt8) : Option (ℕ × List UInt8) :=
  if n ≤ s.length then some (ofLe (s.take n), s.drop n) else none

theorem takeLe_le (hk : k < 256 ^ n) (s : List UInt8) : takeLe n (le n k ++ s) = some (k, s) := by
  have hlen : n ≤ (le n k ++ s).length := by
    rw [List.length_append, length_le]
    exact Nat.le_add_right _ _
  have htake := @List.take_left _ (le n k) s
  have hdrop := @List.drop_left _ (le n k) s
  rw [length_le] at htake hdrop
  rw [takeLe, if_pos hlen, htake, hdrop, ofLe_le hk]

end Endian
