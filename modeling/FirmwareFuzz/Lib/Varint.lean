import Mathlib.Data.Nat.Log
import Mathlib.Data.List.Basic
import Mathlib.Tactic.Ring
import Mathlib.Tactic.Linarith

/-!
# Variable-length integers

A number is written in base `b`, least significant digit first, on symbols
that carry a digit and a mark telling whether more symbols follow. The notation
is the shortest one without leading zeros (`length_encode_le_iff`).

A reader scans symbols up to the first one without the mark, and gives up after
a limit (`scan`). Its value is bounded whatever it reads (`scan_fst_lt_pow_snd`);
on a number below the limit, it gives the number back and stops at the end of its
notation (`scan_encode`). A strict reader fails instead of giving up (`read`), and
reads what is scanned up to a last symbol (`scan_of_read`).
-/

/-- The symbols of a base-`b` notation. -/
structure Varint (b : ℕ) (δ : Type*) where
  /-- The symbol with the digit `d`, followed by more symbols or not. -/
  symbol : (d : ℕ) → (more : Bool) → δ
  digit : δ → ℕ
  more : δ → Bool
  one_lt : 1 < b
  digit_lt : ∀ x, digit x < b
  digit_symbol : ∀ {d} m, d < b → digit (symbol d m) = d
  more_symbol : ∀ {d} m, d < b → more (symbol d m) = m

namespace Varint

variable {b : ℕ} {δ : Type*} (v : Varint b δ)

/-- The notation of a number. -/
def encode (n : ℕ) : List δ :=
  have _ := v.one_lt
  if n < b then [v.symbol n false] else v.symbol (n % b) true :: encode (n / b)
termination_by n
decreasing_by exact Nat.div_lt_self (by omega) (by assumption)

/-- Scanning at most `limit` symbols: the value, and the number of symbols read. -/
def scan : (limit : ℕ) → List δ → ℕ × ℕ
  | 0, _ => (0, 0)
  | _ + 1, [] => (0, 0)
  | k + 1, x :: xs =>
    if v.more x then (v.digit x + b * (scan k xs).1, (scan k xs).2 + 1) else (v.digit x, 1)

/-- Reading at most `limit` symbols, up to the last one: the value, and what
    follows; `none` if there is no last one among them. -/
def read : (limit : ℕ) → List δ → Option (ℕ × List δ)
  | 0, _ => none
  | _ + 1, [] => none
  | k + 1, x :: xs =>
    if v.more x then (read k xs).map fun (n, rest) => (v.digit x + b * n, rest)
    else some (v.digit x, xs)

theorem encode_of_lt {n : ℕ} (h : n < b) : v.encode n = [v.symbol n false] := by
  rw [encode, if_pos h]

theorem encode_of_le {n : ℕ} (h : b ≤ n) :
    v.encode n = v.symbol (n % b) true :: v.encode (n / b) := by
  rw [encode, if_neg (Nat.not_lt.2 h)]

theorem length_encode_pos (n : ℕ) : 0 < (v.encode n).length := by
  rw [encode]
  split_ifs <;> simp

/-- `k + 1` symbols are enough for the numbers below `b ^ (k + 1)`, and only for them. -/
theorem length_encode_le_iff {n k : ℕ} : (v.encode n).length ≤ k + 1 ↔ n < b ^ (k + 1) := by
  induction k generalizing n with
  | zero =>
    rcases Nat.lt_or_ge n b with h | h
    · simp [v.encode_of_lt h, h]
    · have := v.length_encode_pos (n / b)
      rw [v.encode_of_le h, List.length_cons, zero_add, pow_one]
      omega
  | succ k ih =>
    rcases Nat.lt_or_ge n b with h | h
    · have hpow : b ^ 1 ≤ b ^ (k + 1 + 1) :=
        Nat.pow_le_pow_right (by have := v.one_lt; omega) (by omega)
      rw [pow_one] at hpow
      simp [v.encode_of_lt h, h.trans_le hpow]
    · rw [v.encode_of_le h, List.length_cons, Nat.succ_le_succ_iff, ih, pow_succ b (k + 1),
        Nat.div_lt_iff_lt_mul (by have := v.one_lt; omega)]

/-- The notation ends at the first symbol without the mark. -/
theorem tail_dropWhile_encode (n : ℕ) (s : List δ) :
    ((v.encode n ++ s).dropWhile v.more).tail = s := by
  induction n using Nat.strongRecOn with
  | ind n ih =>
    have hb := v.one_lt
    rcases Nat.lt_or_ge n b with h | h
    · simp [v.encode_of_lt h, v.more_symbol _ h]
    · have hmod : n % b < b := Nat.mod_lt _ (by omega)
      rw [v.encode_of_le h, List.cons_append, List.dropWhile_cons_of_pos (v.more_symbol _ hmod),
        ih _ (Nat.div_lt_self (by omega) hb)]

/-- The marks in the notation are those of all its symbols but the last. -/
theorem length_takeWhile_encode (n : ℕ) (s : List δ) :
    ((v.encode n ++ s).takeWhile v.more).length + 1 = (v.encode n).length := by
  induction n using Nat.strongRecOn with
  | ind n ih =>
    have hb := v.one_lt
    rcases Nat.lt_or_ge n b with h | h
    · simp [v.encode_of_lt h, v.more_symbol _ h]
    · have hmod : n % b < b := Nat.mod_lt _ (by omega)
      rw [v.encode_of_le h, List.cons_append, List.takeWhile_cons_of_pos (v.more_symbol _ hmod),
        List.length_cons, ih _ (Nat.div_lt_self (by omega) hb), List.length_cons]

/-! ## Scanning -/

/-- The value scanned fits in the symbols read. -/
theorem scan_fst_lt_pow_snd (k : ℕ) (xs : List δ) : (v.scan k xs).1 < b ^ (v.scan k xs).2 := by
  induction k generalizing xs with
  | zero => simp [scan]
  | succ k ih =>
    cases xs with
    | nil => simp [scan]
    | cons x xs =>
      have hd := v.digit_lt x
      rw [scan]
      split_ifs
      · have hv : b * ((v.scan k xs).1 + 1) ≤ b * b ^ (v.scan k xs).2 :=
          Nat.mul_le_mul_left b (ih xs)
        rw [pow_succ, mul_comm _ b]
        linarith
      · rwa [pow_one]

/-- A number below the limit is scanned back from its notation, and nothing
    after it is read. -/
theorem scan_encode {k n : ℕ} (h : n < b ^ (k + 1)) (s : List δ) :
    v.scan (k + 1) (v.encode n ++ s) = (n, (v.encode n).length) := by
  induction k generalizing n with
  | zero =>
    rw [zero_add, pow_one] at h
    simp [v.encode_of_lt h, scan, v.more_symbol _ h, v.digit_symbol _ h]
  | succ k ih =>
    rcases Nat.lt_or_ge n b with hn | hn
    · simp [v.encode_of_lt hn, scan, v.more_symbol _ hn, v.digit_symbol _ hn]
    · have hmod : n % b < b := Nat.mod_lt _ (by have := v.one_lt; omega)
      have hdiv : n / b < b ^ (k + 1) := by
        rwa [Nat.div_lt_iff_lt_mul (by have := v.one_lt; omega), ← pow_succ]
      rw [v.encode_of_le hn, List.cons_append, scan, v.more_symbol _ hmod, if_pos rfl, ih hdiv,
        v.digit_symbol _ hmod, Nat.mod_add_div, List.length_cons]

/-- A scan of a notation that is cut short reads it all. -/
theorem scan_take_encode {k n j : ℕ} (hj : j < (v.encode n).length) (hk : j ≤ k) :
    (v.scan k ((v.encode n).take j)).2 = j := by
  induction j generalizing k n with
  | zero => cases k <;> rfl
  | succ j ih =>
    obtain ⟨k, rfl⟩ := Nat.exists_eq_add_of_le' (Nat.one_le_of_lt hk)
    rcases Nat.lt_or_ge n b with hn | hn
    · rw [v.encode_of_lt hn, List.length_singleton] at hj
      omega
    · have hmod : n % b < b := Nat.mod_lt _ (by have := v.one_lt; omega)
      rw [v.encode_of_le hn, List.length_cons] at hj
      rw [v.encode_of_le hn, List.take_succ_cons, scan, v.more_symbol _ hmod, if_pos rfl]
      exact congrArg (· + 1) (ih (Nat.lt_of_succ_lt_succ hj) (Nat.le_of_succ_le_succ hk))

/-- No notation is the beginning of another. -/
theorem eq_of_encode_prefix {m n : ℕ} (h : v.encode m <+: v.encode n) : m = n := by
  obtain ⟨s, hs⟩ := h
  -- A limit that is enough for both.
  have hlt : ∀ i ≤ m + n, i < b ^ (m + n + 1) := fun i hi =>
    (Nat.lt_pow_self v.one_lt).trans (Nat.pow_lt_pow_right v.one_lt (by omega))
  have h₁ := v.scan_encode (hlt m (by omega)) s
  have h₂ := v.scan_encode (hlt n (by omega)) []
  rw [List.append_nil, ← hs, h₁, Prod.mk.injEq] at h₂
  exact h₂.1

/-- The notation is the shortest: whatever a scan reads as `n`, to its end, is
    at least as long. -/
theorem length_encode_le_of_scan {k n : ℕ} {xs : List δ} (hne : xs ≠ [])
    (h : v.scan k xs = (n, xs.length)) : (v.encode n).length ≤ xs.length := by
  obtain ⟨l, hl⟩ := Nat.exists_eq_succ_of_ne_zero (List.length_pos_iff.2 hne).ne'
  have hlt := v.scan_fst_lt_pow_snd k xs
  rw [h, hl] at hlt
  rw [hl]
  exact v.length_encode_le_iff.2 hlt

/-! ## Reading -/

/-- A number below the limit is read back from its notation. -/
theorem read_encode {k n : ℕ} (h : n < b ^ (k + 1)) (s : List δ) :
    v.read (k + 1) (v.encode n ++ s) = some (n, s) := by
  induction k generalizing n with
  | zero =>
    rw [zero_add, pow_one] at h
    simp [v.encode_of_lt h, read, v.more_symbol _ h, v.digit_symbol _ h]
  | succ k ih =>
    rcases Nat.lt_or_ge n b with hn | hn
    · simp [v.encode_of_lt hn, read, v.more_symbol _ hn, v.digit_symbol _ hn]
    · have hmod : n % b < b := Nat.mod_lt _ (by have := v.one_lt; omega)
      have hdiv : n / b < b ^ (k + 1) := by
        rwa [Nat.div_lt_iff_lt_mul (by have := v.one_lt; omega), ← pow_succ]
      rw [v.encode_of_le hn, List.cons_append, read, v.more_symbol _ hmod, if_pos rfl, ih hdiv,
        v.digit_symbol _ hmod, Option.map_some]
      simp only [Nat.mod_add_div]

/-- What is read up to a last symbol is what is scanned. -/
theorem scan_of_read {k n : ℕ} {xs rest : List δ} (h : v.read k xs = some (n, rest)) :
    (v.scan k xs).1 = n ∧ xs.drop (v.scan k xs).2 = rest := by
  induction k generalizing n xs with
  | zero => exact absurd h nofun
  | succ k ih =>
    cases xs with
    | nil => exact absurd h nofun
    | cons x xs =>
      rw [read] at h
      rw [scan]
      split_ifs at h ⊢ with hx
      · obtain ⟨⟨m, rest'⟩, hm, heq⟩ := Option.map_eq_some_iff.1 h
        obtain ⟨rfl, rfl⟩ := Prod.mk.inj heq
        obtain ⟨hn, hrest⟩ := ih hm
        exact ⟨by rw [hn], by rwa [List.drop_succ_cons]⟩
      · obtain ⟨rfl, rfl⟩ := Prod.mk.inj (Option.some.inj h)
        exact ⟨rfl, rfl⟩

/-- A reader fails when there is no last symbol among those to read. -/
theorem read_eq_none_iff {k : ℕ} {xs : List δ} :
    v.read k xs = none ↔ ∀ x ∈ xs.take k, v.more x = true := by
  induction k generalizing xs with
  | zero => exact iff_of_true rfl (List.forall_mem_nil _)
  | succ k ih =>
    cases xs with
    | nil => exact iff_of_true rfl (List.forall_mem_nil _)
    | cons x xs =>
      rw [read, List.take_succ_cons, List.forall_mem_cons, ← ih]
      split_ifs with hx
      · rw [Option.map_eq_none_iff, and_iff_right hx]
      · exact iff_of_false nofun fun h => hx h.1

/-- A scan reads on through symbols that are not the last. -/
theorem scan_snd_of_more {k : ℕ} {xs : List δ} (h : ∀ x ∈ xs.take k, v.more x = true) :
    (v.scan k xs).2 = min k xs.length := by
  induction k generalizing xs with
  | zero => exact (Nat.zero_min _).symm
  | succ k ih =>
    cases xs with
    | nil => exact (Nat.min_zero _).symm
    | cons x xs =>
      rw [List.take_succ_cons, List.forall_mem_cons] at h
      rw [scan, if_pos h.1, List.length_cons, ih h.2]
      omega

end Varint
