import FirmwareFuzz.Lib.CString
import Mathlib.Data.List.TakeWhile

/-!
# Decimal integers

A decimal integer is written with a minus sign or none, and digits (`Numeral`).
What `strtol` takes from the front of a string is a numeral, and its value
clamped to a `long` (`strtol_render`, `strtolEnd_render`); in general, it is
a sign, of either kind, and the digits behind it (`strtolEnd_text`). Printing
a number writes its numeral (`render_ofInt`), so that reading is the inverse of
printing over the range of a `long` (`clampLong_eq_iff`).
-/

namespace CLang

/-! ## Printing -/

/-- The decimal digits of a number. -/
def digits (n : ℕ) : List UInt8 :=
  if n < 10 then [UInt8.ofNat (0x30 + n)] else digits (n / 10) ++ [UInt8.ofNat (0x30 + n % 10)]
termination_by n

/-- `%ld`. -/
def decimal (n : ℤ) : List UInt8 := if n < 0 then 0x2D :: digits n.natAbs else digits n.natAbs

theorem length_digits_le {n k : ℕ} (h : n < 10 ^ (k + 1)) : (digits n).length ≤ k + 1 := by
  induction k generalizing n with
  | zero =>
    rw [digits, if_pos (by simpa using h)]
    exact Nat.le_refl _
  | succ k ih =>
    rw [digits]
    split_ifs
    · exact Nat.le_add_left _ _
    · have hdiv : n / 10 < 10 ^ (k + 1) := by
        rw [Nat.div_lt_iff_lt_mul (by decide), ← pow_succ]
        exact h
      rw [List.length_append, List.length_singleton]
      exact Nat.succ_le_succ (ih hdiv)

/-- A `long` has at most 19 digits. -/
theorem length_decimal_le {n : ℤ} (h : -2 ^ 63 ≤ n ∧ n < 2 ^ 63) : (decimal n).length ≤ 20 := by
  have hlt : n.natAbs < 10 ^ (18 + 1) := by omega
  have := length_digits_le hlt
  rw [decimal]
  split_ifs
  · rw [List.length_cons]
    omega
  · omega

/-! ## Digits -/

/-- The nearest `long`. -/
def clampLong (n : ℤ) : ℤ := max (-2 ^ 63) (min n (2 ^ 63 - 1))

/-- The sign, if any, and the digits at the front, if there are any. -/
def integerText (x : List UInt8) : List UInt8 :=
  let ds := (skipSign x).takeWhile isdigit
  if ds = [] then [] else x.take (x.length - (skipSign x).length) ++ ds

/-- What may stand behind a number without being read as a part of it. -/
def NoDigit (x : List UInt8) : Prop := ∀ c ∈ x.head?, isdigit c = false

variable {x ds : List UInt8} {c : UInt8}

theorem clampLong_mem (n : ℤ) : -2 ^ 63 ≤ clampLong n ∧ clampLong n < 2 ^ 63 := by
  rw [clampLong]
  omega

theorem clampLong_eq_iff {n : ℤ} : clampLong n = n ↔ -2 ^ 63 ≤ n ∧ n < 2 ^ 63 := by
  rw [clampLong]
  omega

theorem isdigit_ofNat {d : ℕ} (hd : d < 10) : isdigit (UInt8.ofNat (0x30 + d)) = true := by
  have h : ∀ d < 10, isdigit (UInt8.ofNat (0x30 + d)) = true := by decide
  exact h d hd

theorem toNat_digit {d : ℕ} (hd : d < 10) : (UInt8.ofNat (0x30 + d) - 0x30).toNat = d := by
  have h : ∀ d < 10, (UInt8.ofNat (0x30 + d) - 0x30).toNat = d := by decide
  exact h d hd

theorem isspace_of_isdigit (hc : isdigit c = true) : isspace c = false := by
  simp only [isdigit, Bool.and_eq_true, decide_eq_true_eq, UInt8.le_iff_toNat_le] at hc
  have hlo : (0x30 : UInt8).toNat = 48 := rfl
  have hcr : (0x0D : UInt8).toNat = 13 := rfl
  have hle : ¬c ≤ 0x0D := fun h => by
    rw [UInt8.le_iff_toNat_le] at h
    omega
  have hne : c ≠ 0x20 := by
    rintro rfl
    exact absurd hc.1 (by decide)
  simp [isspace, hle, hne]

theorem digits_ne_nil (n : ℕ) : digits n ≠ [] := by
  rw [digits]
  split_ifs
  · exact List.cons_ne_nil _ _
  · exact List.append_ne_nil_of_right_ne_nil _ (List.cons_ne_nil _ _)

theorem isdigit_of_mem_digits {n : ℕ} {d : UInt8} (hd : d ∈ digits n) : isdigit d = true := by
  induction n using digits.induct with
  | case1 n hn =>
    rw [digits, if_pos hn, List.mem_singleton] at hd
    rw [hd]
    exact isdigit_ofNat hn
  | case2 n hn ih =>
    rw [digits, if_neg hn, List.mem_append, List.mem_singleton] at hd
    rcases hd with hd | rfl
    · exact ih hd
    · exact isdigit_ofNat (Nat.mod_lt _ (by decide))

/-- The digits of a number write it. -/
theorem digitsValue_digits (n : ℕ) : digitsValue 0 (digits n) = n := by
  induction n using digits.induct with
  | case1 n hn =>
    rw [digits, if_pos hn]
    exact (Nat.zero_add _).trans (toNat_digit hn)
  | case2 n hn ih =>
    rw [digitsValue] at ih
    rw [digits, if_neg hn, digitsValue, List.foldl_append, ih]
    show 10 * (n / 10) + (UInt8.ofNat (0x30 + n % 10) - 0x30).toNat = n
    rw [toNat_digit (Nat.mod_lt _ (by decide)), Nat.div_add_mod]

/-- Only the digits in front of anything else are read. -/
theorem takeWhile_isdigit_append (hds : ∀ d ∈ ds, isdigit d = true) (hx : NoDigit x) :
    (ds ++ x).takeWhile isdigit = ds := by
  have hnil : x.takeWhile isdigit = [] := by
    cases x with
    | nil => rfl
    | cons c x => exact List.takeWhile_cons_of_neg (by rw [hx c rfl]; exact Bool.false_ne_true)
  rw [List.takeWhile_append_of_pos hds, hnil, List.append_nil]

/-- Where `strtol` stops, in a text without spaces in front. -/
theorem strtolEnd_text (hx : x.dropWhile isspace = x) (m : List UInt8) :
    strtolEnd (x ++ 0 :: m) = .ok (integerText x).length := by
  simp only [strtolEnd, skipSpace_append, Except.ok_bind, hx, skipSign_append, countDigits_text]
  rw [integerText]
  by_cases hds : (skipSign x).takeWhile isdigit = []
  · rw [if_pos hds, hds]
    rfl
  · have hlen : ((skipSign x).takeWhile isdigit).length ≠ 0 := mt List.length_eq_zero_iff.1 hds
    have hsign : (x ++ 0 :: m).length - (skipSign x ++ 0 :: m).length =
        (x.take (x.length - (skipSign x).length)).length := by
      rw [List.length_append, List.length_append, Nat.add_sub_add_right, List.length_take,
        Nat.min_eq_left (Nat.sub_le _ _)]
    rw [if_neg hds, if_neg hlen, hsign, List.length_append]
    rfl

/-! ## Numerals -/

/-- One digit or more. -/
structure Digits where
  ds : List UInt8
  ds_ne_nil : ds ≠ []
  isdigit_of_mem : ∀ d ∈ ds, isdigit d = true

theorem Digits.zero_notMem (d : Digits) : 0 ∉ d.ds := fun h =>
  absurd (d.isdigit_of_mem 0 h) (by decide)

/-- The number the digits write. -/
def Digits.value (d : Digits) : ℕ := digitsValue 0 d.ds

/-- A decimal integer, as it is written: a minus sign or none, and digits. -/
structure Numeral extends Digits where
  minus : Bool

namespace Numeral

/-- The text of a numeral. -/
def render (n : Numeral) : List UInt8 := if n.minus then 0x2D :: n.ds else n.ds

/-- The integer a numeral writes. -/
def value (n : Numeral) : ℤ := if n.minus then -n.toDigits.value else n.toDigits.value

/-- The numeral of an integer. -/
def ofInt (i : ℤ) : Numeral where
  ds := digits i.natAbs
  ds_ne_nil := digits_ne_nil _
  isdigit_of_mem _ := isdigit_of_mem_digits
  minus := i < 0

theorem render_ofInt (i : ℤ) : (ofInt i).render = decimal i := by
  rw [render, decimal, ofInt]
  simp only [decide_eq_true_eq]

theorem value_ofInt (i : ℤ) : (ofInt i).value = i := by
  simp only [value, Digits.value, ofInt, digitsValue_digits, decide_eq_true_eq]
  split_ifs <;> omega

variable {n : Numeral}

theorem eq_minus_or_isdigit_of_mem {b : UInt8} (hb : b ∈ n.render) :
    b = 0x2D ∨ isdigit b = true := by
  rw [render] at hb
  split_ifs at hb
  · rcases List.mem_cons.1 hb with hb | hb
    · exact .inl hb
    · exact .inr (n.isdigit_of_mem b hb)
  · exact .inr (n.isdigit_of_mem b hb)

/-- A numeral starts with a minus sign or a digit. -/
theorem exists_render_eq_cons (n : Numeral) :
    ∃ b x, n.render = b :: x ∧ (b = 0x2D ∨ isdigit b = true) := by
  have hne : n.render ≠ [] := by
    rw [render]
    split_ifs
    · exact List.cons_ne_nil _ _
    · exact n.ds_ne_nil
  obtain ⟨b, x, hx⟩ := List.exists_cons_of_ne_nil hne
  exact ⟨b, x, hx, eq_minus_or_isdigit_of_mem (hx ▸ List.mem_cons_self)⟩

theorem zero_notMem_render (n : Numeral) : 0 ∉ n.render := fun h =>
  (eq_minus_or_isdigit_of_mem h).elim (fun h => absurd h (by decide)) fun h => absurd h (by decide)

/-- No space is in front of a numeral. -/
theorem dropWhile_render (n : Numeral) (x : List UInt8) :
    (n.render ++ x).dropWhile isspace = n.render ++ x := by
  obtain ⟨b, y, hy, hb⟩ := n.exists_render_eq_cons
  have hspace : isspace b = false := by
    rcases hb with rfl | hb
    · rfl
    · exact isspace_of_isdigit hb
  rw [hy, List.cons_append, List.dropWhile_cons_of_neg (by rw [hspace]; exact Bool.false_ne_true)]

/-- A digit is no sign. -/
theorem ne_sign_of_isdigit {d : UInt8} (hd : isdigit d = true) : d ≠ 0x2D ∧ d ≠ 0x2B := by
  constructor <;> rintro rfl <;> exact absurd hd (by decide)

theorem skipSign_render (n : Numeral) (m : List UInt8) : skipSign (n.render ++ m) = n.ds ++ m := by
  rw [render]
  split_ifs
  · rfl
  · obtain ⟨d, ds, hds⟩ := List.exists_cons_of_ne_nil n.ds_ne_nil
    obtain ⟨hminus, hplus⟩ := ne_sign_of_isdigit (n.isdigit_of_mem d (hds ▸ List.mem_cons_self))
    rw [hds, List.cons_append, skipSign] <;> simp [hminus, hplus]

/-- The text of a numeral is all of it that is read. -/
theorem integerText_render (hx : NoDigit x) (n : Numeral) :
    integerText (n.render ++ x) = n.render := by
  have hsign : (n.render ++ x).take ((n.render ++ x).length - (n.ds ++ x).length) ++ n.ds =
      n.render := by
    rw [List.length_append, List.length_append, Nat.add_sub_add_right, render]
    split_ifs
    · rw [List.length_cons, Nat.add_sub_cancel_left]
      rfl
    · rw [Nat.sub_self]
      rfl
  simp only [integerText, skipSign_render, takeWhile_isdigit_append n.isdigit_of_mem hx,
    n.ds_ne_nil, if_false, hsign]

theorem readInteger_render (hx : NoDigit x) (n : Numeral) (m : List UInt8) :
    readInteger (n.render ++ x ++ 0 :: m) = .ok n.value := by
  have hread : readDigits 0 (n.ds ++ x ++ 0 :: m) = .ok n.toDigits.value := by
    rw [readDigits_text, takeWhile_isdigit_append n.isdigit_of_mem hx]
    rfl
  rw [render, value]
  split_ifs
  · rw [List.cons_append, List.cons_append, readInteger, hread]
    rfl
  · obtain ⟨d, ds, hds⟩ := List.exists_cons_of_ne_nil n.ds_ne_nil
    obtain ⟨hminus, hplus⟩ := ne_sign_of_isdigit (n.isdigit_of_mem d (hds ▸ List.mem_cons_self))
    rw [hds, List.cons_append, List.cons_append] at hread ⊢
    rw [readInteger, hread]
    · rfl
    all_goals simp [hminus, hplus]

/-- A text is the numeral of one number only. -/
theorem value_eq_of_render_eq {n' : Numeral} (h : n.render = n'.render) : n.value = n'.value := by
  have hnil : NoDigit [] := fun _ h => by cases h
  have hread := readInteger_render hnil n []
  rw [h, readInteger_render hnil, Except.ok.injEq] at hread
  exact hread.symm

/-- `strtol` reads a numeral, up to the range of a `long`. -/
theorem strtol_render (hx : NoDigit x) (n : Numeral) (m : List UInt8) :
    strtol (n.render ++ x ++ 0 :: m) = .ok (clampLong n.value) := by
  rw [strtol, skipSpace_append, dropWhile_render, Except.ok_bind, readInteger_render hx]
  rfl

/-- `strtol` stops behind a numeral. -/
theorem strtolEnd_render (hx : NoDigit x) (n : Numeral) (m : List UInt8) :
    strtolEnd (n.render ++ x ++ 0 :: m) = .ok n.render.length := by
  rw [strtolEnd_text (dropWhile_render n x), integerText_render hx]

end Numeral

theorem zero_notMem_decimal (i : ℤ) : 0 ∉ decimal i :=
  Numeral.render_ofInt i ▸ (Numeral.ofInt i).zero_notMem_render

end CLang
