import FirmwareFuzz.Lib.CMemory
import FirmwareFuzz.Lib.Except
import FirmwareFuzz.Lib.Lcg
import Mathlib.Data.Nat.Bitwise

/-!
# The random numbers of the lwIP harness

`lwip_fuzz_rand` returns the same sequence in every execution: that of a linear
congruential generator, or, to simulate the C library, a table over and over.
The generator returns every number of 31 bits once before it starts over, and
its low bits do so in turn: the last `k` bits agree in every `2 ^ k`-th number
(`randResult_cycle`).
-/

namespace FirmwareFuzz.Lwip

open CLang

/-- A number, and the next state of the generator. -/
def lwipFuzzRand (state : Int32) : UInt32 × Int32 :=
  let val : UInt64 := (state.toUInt32 &&& 0xffffffff).toUInt64
  let val := (val * 1103515245 + 12345) &&& 0x7fffffff
  (val.toUInt32, val.toUInt32.toInt32)

/-- The state after a number of calls. -/
def randState : ℕ → Int32
  | 0 => (0xdeadbeef : UInt32).toInt32
  | n + 1 => (lwipFuzzRand (randState n)).2

/-- What a call returns, after others. -/
def randResult (n : ℕ) : UInt32 := (lwipFuzzRand (randState n)).1

/-- The numbers the C library returns, the first 20. -/
def randNrs : List UInt32 :=
  [0x6b8b4567, 0x327b23c6, 0x643c9869, 0x66334873, 0x74b0dc51, 0x19495cff, 0x2ae8944a, 0x625558ec,
    0x238e1f29, 0x46e87ccd, 0x3d1b58ba, 0x507ed7ab, 0x2eb141f2, 0x41b71efb, 0x79e2a9e3, 0x7545e146,
    0x515f007c, 0x5bd062c2, 0x12200854, 0x4db127f8]

/-! ## The generator -/

theorem toNat_lwipFuzzRand (state : Int32) :
    (lwipFuzzRand state).1.toNat = (1103515245 * state.toUInt32.toNat + 12345) % 2 ^ 31 := by
  have hlt := state.toUInt32.toNat_lt
  have hmask : (0xffffffff : UInt32) = -1 := rfl
  have hval : (((state.toUInt32 &&& 0xffffffff).toUInt64 * 1103515245 + 12345 : UInt64)).toNat =
      1103515245 * state.toUInt32.toNat + 12345 := by
    rw [hmask, UInt32.and_neg_one, UInt64.toNat_add, UInt64.toNat_mul, UInt32.toNat_toUInt64]
    show (state.toUInt32.toNat * 1103515245 % 2 ^ 64 + 12345) % 2 ^ 64 = _
    omega
  rw [lwipFuzzRand, UInt64.toNat_toUInt32, UInt64.toNat_and, hval]
  show ((_ &&& 2 ^ 31 - 1) % 2 ^ 32 : ℕ) = _
  rw [Nat.and_two_pow_sub_one_eq_mod]
  exact Nat.mod_eq_of_lt ((Nat.mod_lt _ (by decide)).trans (by decide))

/-- The state is the number returned before. -/
theorem toUInt32_randState_succ (n : ℕ) : (randState (n + 1)).toUInt32 = randResult n := rfl

theorem randResult_lt (n : ℕ) : (randResult n).toNat < 2 ^ 31 := by
  rw [randResult, toNat_lwipFuzzRand]
  exact Nat.mod_lt _ (by decide)

/-- The numbers are those of the linear congruential generator. -/
theorem randResult_modEq (n : ℕ) :
    ((randResult n).toNat : ℤ) ≡
      (Lcg.affine 1103515245 12345)^[n + 1] 0xdeadbeef [ZMOD 2 ^ 31] := by
  have hnext : ∀ state : Int32, (((lwipFuzzRand state).1.toNat : ℕ) : ℤ) ≡
      Lcg.affine 1103515245 12345 state.toUInt32.toNat [ZMOD 2 ^ 31] := by
    intro state
    rw [toNat_lwipFuzzRand]
    push_cast
    exact Int.mod_modEq _ _
  induction n with
  | zero => exact hnext (randState 0)
  | succ n ih =>
    refine (hnext (randState (n + 1))).trans ?_
    rw [toUInt32_randState_succ, Function.iterate_succ_apply']
    exact (ih.mul_left _).add_right _

/-- The last bits of two numbers agree if their positions do as far, and only then. -/
theorem randResult_mod_eq_iff {k : ℕ} (hk : k ≤ 31) (i j : ℕ) :
    (randResult i).toNat % 2 ^ k = (randResult j).toNat % 2 ^ k ↔ i % 2 ^ k = j % 2 ^ k := by
  have hdvd : (2 : ℤ) ^ k ∣ 2 ^ 31 := pow_dvd_pow 2 hk
  have hi := (randResult_modEq i).of_dvd hdvd
  have hj := (randResult_modEq j).of_dvd hdvd
  have hiff := Lcg.iterate_modEq_iff (a := 1103515245) (c := 12345) (by decide) (by decide)
    0xdeadbeef k (i + 1) (j + 1)
  calc
    _ ↔ ((randResult i).toNat : ℤ) ≡ (randResult j).toNat [ZMOD 2 ^ k] := by
      have hcast := Int.natCast_modEq_iff (a := (randResult i).toNat) (b := (randResult j).toNat)
        (n := 2 ^ k)
      rw [Nat.cast_pow] at hcast
      exact hcast.symm
    _ ↔ i + 1 ≡ j + 1 [MOD 2 ^ k] := by
      rw [← hiff]
      exact ⟨fun h => hi.symm.trans (h.trans hj), fun h => hi.trans (h.trans hj.symm)⟩
    _ ↔ i ≡ j [MOD 2 ^ k] := ⟨Nat.ModEq.add_right_cancel' 1, Nat.ModEq.add_right 1⟩

/-- The generator returns every number of 31 bits, and two numbers agree in
    their last `k` bits exactly if their positions do. -/
theorem randResult_cycle :
    (∀ n, (randResult n).toNat < 2 ^ 31) ∧ (∀ v < 2 ^ 31, ∃ n < 2 ^ 31, (randResult n).toNat = v) ∧
      ∀ k i j, k ≤ 31 →
        ((randResult i).toNat % 2 ^ k = (randResult j).toNat % 2 ^ k ↔ i % 2 ^ k = j % 2 ^ k) := by
  refine ⟨randResult_lt, fun v hv => ?_, fun k i j hk => randResult_mod_eq_iff hk i j⟩
  refine Lcg.exists_of_injective randResult_lt (fun i hi j hj hij => ?_) hv
  have hpos := (randResult_mod_eq_iff le_rfl i j).1 (congrArg (· % 2 ^ 31) hij)
  rwa [Nat.mod_eq_of_lt hi, Nat.mod_eq_of_lt hj] at hpos

/-! ## The table -/

/-- A number of the table, and the next index. -/
def lwipFuzzRandGlibc (idx : ℕ) : Except Fault (UInt32 × ℕ) := do
  let ret ← load randNrs idx
  let idx := idx + 1
  return (ret, if idx ≥ randNrs.length then 0 else idx)

/-- The table is read over and over, and never outside of it. -/
theorem lwipFuzzRandGlibc_mod (n : ℕ) :
    lwipFuzzRandGlibc (n % 20) =
      .ok (randNrs.get ⟨n % 20, Nat.mod_lt n (by decide)⟩, (n + 1) % 20) := by
  have hlt : n % 20 < randNrs.length := Nat.mod_lt n (by decide)
  have hnext : (if n % 20 + 1 ≥ randNrs.length then 0 else n % 20 + 1) = (n + 1) % 20 := by
    show (if n % 20 + 1 ≥ 20 then 0 else n % 20 + 1) = _
    split_ifs <;> omega
  rw [lwipFuzzRandGlibc, load_of_lt hlt, Except.ok_bind]
  simp only [hnext]
  rfl

end FirmwareFuzz.Lwip
