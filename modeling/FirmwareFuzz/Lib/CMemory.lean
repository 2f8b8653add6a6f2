import Mathlib.Data.List.Basic
import Mathlib.Tactic.Ring

/-!
# C integers and memory

An `int` is an `Int32`, a `size_t` a natural number. A conversion between them
is explicit: `sizeOfInt` wraps a negative `int` to the top of `size_t`, and
`intOfSize` keeps the low 32 bits.

A memory block is the list of its cells. Reading (`load`, `copyFrom`) or
writing (`copyTo`) outside of a block is undefined in C: it is a `Fault` here,
so that a result is only given for an execution that stays inside its blocks.
-/

namespace CLang

/-- What makes an execution undefined. -/
inductive Fault
  | outOfBounds
  deriving DecidableEq, Repr

instance : Subsingleton Fault := ⟨fun .outOfBounds .outOfBounds => rfl⟩

/-! ## Integers -/

/-- The size of the largest object (`PTRDIFF_MAX`). -/
def ptrdiffMax : ℕ := 2 ^ 63 - 1

/-- The largest `int` (`INT_MAX`). -/
def intMax : ℕ := 2 ^ 31 - 1

/-- The conversion `(size_t)i`. -/
def sizeOfInt (i : Int32) : ℕ := (i.toInt % 2 ^ 64).toNat

/-- The conversion `(int)n`. -/
def intOfSize (n : ℕ) : Int32 := Int32.ofNat n

/-- The difference of two sizes, that wraps below zero. -/
def sizeSub (m n : ℕ) : ℕ := (m + 2 ^ 64 - n) % 2 ^ 64

theorem sizeOfInt_of_nonneg {i : Int32} (hi : 0 ≤ i.toInt) : sizeOfInt i = i.toInt.toNat := by
  have := i.toInt_lt
  rw [sizeOfInt, Int.emod_eq_of_lt hi (by omega)]

/-- A negative `int` becomes a size no object has. -/
theorem nonneg_of_sizeOfInt_le {i : Int32} (hi : sizeOfInt i ≤ ptrdiffMax) : 0 ≤ i.toInt := by
  by_contra hneg
  have := i.le_toInt
  have hmod : i.toInt % 2 ^ 64 = i.toInt + 2 ^ 64 := by
    rw [← Int.add_emod_right, Int.emod_eq_of_lt (by omega) (by omega)]
  rw [sizeOfInt, hmod, ptrdiffMax] at hi
  omega

theorem sizeOfInt_lt {i : Int32} (hi : 0 ≤ i.toInt) : sizeOfInt i < 2 ^ 31 := by
  have := i.toInt_lt
  rw [sizeOfInt_of_nonneg hi]
  omega

theorem toInt_intOfSize {n : ℕ} (hn : n < 2 ^ 31) : (intOfSize n).toInt = n :=
  Int32.toInt_ofNat_of_lt hn

theorem sizeOfInt_intOfSize {n : ℕ} (hn : n < 2 ^ 31) : sizeOfInt (intOfSize n) = n := by
  have hnonneg : 0 ≤ (intOfSize n).toInt := by
    rw [toInt_intOfSize hn]
    omega
  rw [sizeOfInt_of_nonneg hnonneg, toInt_intOfSize hn, Int.toNat_natCast]

/-- Truncating a size to a nonnegative `int` does not increase it. -/
theorem sizeOfInt_intOfSize_le {n : ℕ} (hn : 0 ≤ (intOfSize n).toInt) :
    sizeOfInt (intOfSize n) ≤ n := by
  have hmod : (intOfSize n).toInt = (n : ℤ).bmod (2 ^ 32) := Int32.toInt_ofNat'
  rw [sizeOfInt_of_nonneg hn]
  rw [hmod, Int.bmod_def] at hn ⊢
  split_ifs at hn ⊢ <;> omega

theorem toInt_intOfSize_pos_iff {n : ℕ} :
    0 < (intOfSize n).toInt ↔ 0 < n % 2 ^ 32 ∧ n % 2 ^ 32 < 2 ^ 31 := by
  have hmod : (intOfSize n).toInt = (n : ℤ).bmod (2 ^ 32) := Int32.toInt_ofNat'
  rw [hmod, Int.bmod_def]
  split_ifs <;> omega

theorem sizeSub_of_le {m n : ℕ} (hm : m ≤ ptrdiffMax) (hn : n ≤ m) : sizeSub m n = m - n := by
  rw [ptrdiffMax] at hm
  rw [sizeSub, Nat.sub_add_comm hn, Nat.add_mod_right, Nat.mod_eq_of_lt (by omega)]

/-! ## Blocks -/

variable {α : Type*}

/-- The cell `block[i]`. -/
def load (block : List α) (i : ℕ) : Except Fault α :=
  match block[i]? with
  | some x => .ok x
  | none => .error .outOfBounds

/-- The cells a `memcpy` of `n` cells from `block + off` reads. -/
def copyFrom (block : List α) (off n : ℕ) : Except Fault (List α) :=
  if n ≤ ptrdiffMax ∧ off + n ≤ block.length then .ok ((block.drop off).take n)
  else .error .outOfBounds

/-- The block after a `memcpy` of `data` to `block + off`. -/
def copyTo (block : List α) (off : ℕ) (data : List α) : Except Fault (List α) :=
  if off + data.length ≤ block.length then
    .ok (block.take off ++ data ++ block.drop (off + data.length))
  else .error .outOfBounds

/-- `realloc(block, n)`, failing (`none`) unless `mem`: the cells that fit are
    kept, the new ones are indeterminate (here `default`). The null pointer is
    the empty block. -/
def realloc [Inhabited α] (block : List α) (n : ℕ) (mem : Bool) : Option (List α) :=
  if mem then some (block.take n ++ List.replicate (n - block.length) default) else none

theorem load_of_lt {block : List α} {i : ℕ} (hi : i < block.length) :
    load block i = .ok block[i] := by
  rw [load, List.getElem?_eq_getElem hi]

theorem copyFrom_eq_ok_iff {block bs : List α} {off n : ℕ} :
    copyFrom block off n = .ok bs ↔
      n ≤ ptrdiffMax ∧ off + n ≤ block.length ∧ (block.drop off).take n = bs := by
  rw [copyFrom]
  split_ifs with h
  · simp [h.1, h.2]
  · exact ⟨nofun, fun ⟨h₁, h₂, _⟩ => absurd ⟨h₁, h₂⟩ h⟩

theorem length_of_copyFrom {block bs : List α} {off n : ℕ} (h : copyFrom block off n = .ok bs) :
    bs.length = n := by
  obtain ⟨-, hle, rfl⟩ := copyFrom_eq_ok_iff.1 h
  rw [List.length_take, List.length_drop]
  omega

theorem copyFrom_of_le {block : List α} {off n : ℕ} (hblock : block.length ≤ ptrdiffMax)
    (h : off + n ≤ block.length) : copyFrom block off n = .ok ((block.drop off).take n) :=
  copyFrom_eq_ok_iff.2 ⟨by omega, h, rfl⟩

/-- Growing a block by `data`, behind its first `used` cells: `realloc` to the
    new size, then `memcpy`. -/
theorem copyTo_realloc [Inhabited α] {block : List α} {used : ℕ} (hused : used ≤ block.length)
    (data : List α) {block' : List α}
    (h : realloc block (used + data.length) true = some block') :
    copyTo block' used data = .ok (block.take used ++ data) := by
  rw [realloc, if_pos rfl, Option.some_inj] at h
  have hlen : block'.length = used + data.length := by
    rw [← h]
    simp only [List.length_append, List.length_take, List.length_replicate]
    omega
  have htake : block'.take used = block.take used := by
    rw [← h, List.take_append_of_le_length (by rw [List.length_take]; omega), List.take_take,
      Nat.min_eq_left (Nat.le_add_right _ _)]
  rw [copyTo, if_pos hlen.ge, htake, List.drop_of_length_le hlen.le, List.append_nil]

end CLang
