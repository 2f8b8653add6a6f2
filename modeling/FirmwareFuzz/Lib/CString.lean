import FirmwareFuzz.Lib.CMemory
import FirmwareFuzz.Lib.Except

/-!
# C strings

A string is a block of memory: its text, without NUL, and the terminator, in
front of whatever else the block holds. The functions of `string.h` read
a block up to its terminator. Comparing strings compares their texts in
lexicographic order (`strcmp_text`), up to a length for `strncmp`
(`strncmp_text`).
-/

namespace CLang

/-- The text of a string literal. -/
def text (s : String) : List UInt8 := s.toList.map fun c => UInt8.ofNat c.toNat

/-- The block of a string literal. -/
def cString (s : String) : List UInt8 := text s ++ [0]

def strcmp : List UInt8 → List UInt8 → Except Fault Ordering
  | a :: p, b :: q => if a = b then if a = 0 then .ok .eq else strcmp p q else .ok (compare a b)
  | _, _ => .error .outOfBounds

def strncmp : (n : ℕ) → List UInt8 → List UInt8 → Except Fault Ordering
  | 0, _, _ => .ok .eq
  | n + 1, a :: p, b :: q =>
    if a = b then if a = 0 then .ok .eq else strncmp n p q else .ok (compare a b)
  | _ + 1, _, _ => .error .outOfBounds

/-- A limit that is not reached changes nothing. -/
theorem strcmp_eq_strncmp {p q : List UInt8} {n : ℕ} (hn : p.length ≤ n) :
    strcmp p q = strncmp (n + 1) p q := by
  induction p generalizing q n with
  | nil => rfl
  | cons a p ih =>
    obtain ⟨n, rfl⟩ := Nat.exists_eq_add_of_le' (Nat.one_le_of_lt hn)
    cases q with
    | nil => rfl
    | cons b q => rw [strcmp, strncmp, ih (Nat.le_of_succ_le_succ hn)]

/-- The terminator is smaller than any other byte. -/
theorem compare_zero {a : UInt8} (ha : a ≠ 0) : compare 0 a = .lt ∧ compare a 0 = .gt := by
  have hpos : 0 < a := UInt8.pos_iff_ne_zero.2 ha
  have hnot : ¬a < 0 := UInt8.not_lt_zero
  simp [compare, compareOfLessAndEq, hpos, ha, hnot]

/-- `strncmp` compares the first `n` bytes of two texts. -/
theorem strncmp_text {x y : List UInt8} (hx : 0 ∉ x) (hy : 0 ∉ y) (n : ℕ) (m m' : List UInt8) :
    strncmp n (x ++ 0 :: m) (y ++ 0 :: m') = .ok (compare (x.take n) (y.take n)) := by
  induction n generalizing x y with
  | zero => rfl
  | succ n ih =>
    rcases x with _ | ⟨a, x⟩ <;> rcases y with _ | ⟨b, y⟩
    · rfl
    · -- The text that ends first is the smaller one.
      have hb : b ≠ 0 := fun h => hy (h ▸ List.mem_cons_self)
      rw [List.nil_append, List.cons_append, strncmp, if_neg hb.symm, (compare_zero hb).1]
      rfl
    · have ha : a ≠ 0 := fun h => hx (h ▸ List.mem_cons_self)
      rw [List.nil_append, List.cons_append, strncmp, if_neg ha, (compare_zero ha).2]
      rfl
    · have ha : a ≠ 0 := fun h => hx (h ▸ List.mem_cons_self)
      rw [List.cons_append, List.cons_append, strncmp, List.take_succ_cons, List.take_succ_cons,
        List.compare_cons_cons]
      by_cases hab : a = b
      · subst hab
        rw [if_pos rfl, if_neg ha, ih (mt (List.mem_cons_of_mem _) hx)
          (mt (List.mem_cons_of_mem _) hy), Std.compare_self]
        rfl
      · have hne : compare a b ≠ .eq := fun h => hab (Std.compare_eq_iff_eq.1 h)
        rw [if_neg hab]
        cases h : compare a b with
        | eq => exact absurd h hne
        | lt => rfl
        | gt => rfl

/-- `strcmp` compares two texts. -/
theorem strcmp_text {x y : List UInt8} (hx : 0 ∉ x) (hy : 0 ∉ y) (m m' : List UInt8) :
    strcmp (x ++ 0 :: m) (y ++ 0 :: m') = .ok (compare x y) := by
  have hle : (x ++ 0 :: m).length ≤ (x ++ 0 :: m).length + y.length := by omega
  rw [strcmp_eq_strncmp hle, strncmp_text hx hy, List.take_of_length_le, List.take_of_length_le]
  · omega
  · rw [List.length_append]
    omega

/-- Comparing with a literal. -/
theorem strcmp_cString {x : List UInt8} (hx : 0 ∉ x) (m : List UInt8) {s : String}
    (hs : 0 ∉ text s) : strcmp (x ++ 0 :: m) (cString s) = .ok (compare x (text s)) :=
  strcmp_text hx hs m []

theorem strncmp_cString {x : List UInt8} (hx : 0 ∉ x) (m : List UInt8) {s : String}
    (hs : 0 ∉ text s) (n : ℕ) :
    strncmp n (x ++ 0 :: m) (cString s) = .ok (compare (x.take n) ((text s).take n)) :=
  strncmp_text hx hs n m []

/-- Comparing up to the length of a literal looks for a prefix. -/
theorem exists_strncmp {x : List UInt8} (hx : 0 ∉ x) (m : List UInt8) {s : String}
    (hs : 0 ∉ text s) {n : ℕ} (hn : (text s).length = n) :
    ∃ o, strncmp n (x ++ 0 :: m) (cString s) = .ok o ∧ (o = .eq ↔ text s <+: x) := by
  refine ⟨_, strncmp_cString hx m hs n, ?_⟩
  rw [← hn, List.take_length, Std.compare_eq_iff_eq, List.prefix_iff_eq_take, eq_comm]

/-! ## Numbers -/

/-- `isspace`, in the C locale. -/
def isspace (b : UInt8) : Bool := b = 0x20 || (0x09 ≤ b && b ≤ 0x0D)

def isdigit (b : UInt8) : Bool := 0x30 ≤ b && b ≤ 0x39

/-- The block from the first byte on that is no space. -/
def skipSpace : List UInt8 → Except Fault (List UInt8)
  | [] => .error .outOfBounds
  | b :: p => if isspace b then skipSpace p else .ok (b :: p)

/-- The number written by the digits at the front, behind those of `n`. -/
def readDigits (n : ℕ) : List UInt8 → Except Fault ℕ
  | [] => .error .outOfBounds
  | b :: p => if isdigit b then readDigits (10 * n + (b - 0x30).toNat) p else .ok n

/-- The number written by digits, behind those of `n`. -/
def digitsValue (n : ℕ) (ds : List UInt8) : ℕ := ds.foldl (fun n d => 10 * n + (d - 0x30).toNat) n

/-- The integer written by a sign, if any, and digits. -/
def readInteger : List UInt8 → Except Fault ℤ
  | 0x2D :: p => return -(← readDigits 0 p)
  | 0x2B :: p => readDigits 0 p
  | p => readDigits 0 p

/-- `strtol(p, NULL, 10)`, with a `long` of 64 bits: numbers out of range are
    clamped to it. -/
def strtol (p : List UInt8) : Except Fault ℤ := do
  let n ← readInteger (← skipSpace p)
  return max (-2 ^ 63) (min n (2 ^ 63 - 1))

/-- `atoi(p)`, the low bits of `strtol`. -/
def atoi (p : List UInt8) : Except Fault Int32 := return Int32.ofInt (← strtol p)

/-- The number of digits at the front. -/
def countDigits : List UInt8 → Except Fault ℕ
  | [] => .error .outOfBounds
  | b :: p => if isdigit b then return (← countDigits p) + 1 else .ok 0

/-- The block behind a sign, if there is one. -/
def skipSign : List UInt8 → List UInt8
  | 0x2D :: p | 0x2B :: p => p
  | p => p

/-- Where `strtol` stops reading: behind the digits, or at the front if there is
    none. -/
def strtolEnd (p : List UInt8) : Except Fault ℕ := do
  let q := skipSign (← skipSpace p)
  let n ← countDigits q
  return if n = 0 then 0 else p.length - q.length + n

theorem skipSpace_append (x m : List UInt8) :
    skipSpace (x ++ 0 :: m) = .ok (x.dropWhile isspace ++ 0 :: m) := by
  induction x with
  | nil => rfl
  | cons b x ih =>
    rw [List.cons_append, skipSpace, List.dropWhile_cons]
    split_ifs
    · exact ih
    · rfl

/-- Skipping spaces only moves on. -/
theorem skipSpace_suffix {p q : List UInt8} (h : skipSpace p = .ok q) : q <:+ p := by
  induction p with
  | nil => exact nomatch h
  | cons b p ih =>
    rw [skipSpace] at h
    split_ifs at h
    · exact (ih h).trans (List.suffix_cons b p)
    · exact Except.ok.inj h ▸ List.suffix_refl _

/-- The digits at the front of a text are read. -/
theorem readDigits_text (n : ℕ) (x m : List UInt8) :
    readDigits n (x ++ 0 :: m) = .ok (digitsValue n (x.takeWhile isdigit)) := by
  induction x generalizing n with
  | nil => rfl
  | cons b x ih =>
    rw [List.cons_append, readDigits, List.takeWhile_cons]
    split_ifs
    · exact ih _
    · rfl

theorem countDigits_text (x m : List UInt8) :
    countDigits (x ++ 0 :: m) = .ok (x.takeWhile isdigit).length := by
  induction x with
  | nil => rfl
  | cons b x ih =>
    rw [List.cons_append, countDigits, List.takeWhile_cons]
    split_ifs
    · rw [ih]
      rfl
    · rfl

theorem skipSign_append (x m : List UInt8) : skipSign (x ++ 0 :: m) = skipSign x ++ 0 :: m := by
  cases x with
  | nil => rfl
  | cons b x =>
    by_cases hminus : b = 0x2D
    · subst hminus
      rfl
    · by_cases hplus : b = 0x2B
      · subst hplus
        rfl
      · rw [List.cons_append, skipSign, skipSign] <;> simp [hminus, hplus]

theorem exists_readInteger (x m : List UInt8) : ∃ n, readInteger (x ++ 0 :: m) = .ok n := by
  cases x with
  | nil => exact ⟨0, rfl⟩
  | cons b x =>
    rw [List.cons_append, readInteger.eq_def]
    split
    · obtain ⟨-, rfl⟩ := List.cons.inj ‹_›
      exact ⟨_, by rw [readDigits_text]; rfl⟩
    · obtain ⟨-, rfl⟩ := List.cons.inj ‹_›
      exact ⟨_, by rw [readDigits_text]; rfl⟩
    · exact ⟨_, by rw [← List.cons_append, readDigits_text]; rfl⟩

/-- Reading a number from a string stays inside of the string. -/
theorem exists_strtol (x m : List UInt8) :
    ∃ n : ℤ, strtol (x ++ 0 :: m) = .ok n ∧ -2 ^ 63 ≤ n ∧ n < 2 ^ 63 := by
  obtain ⟨n, hn⟩ := exists_readInteger (x.dropWhile isspace) m
  refine ⟨max (-2 ^ 63) (min n (2 ^ 63 - 1)), ?_, by omega, by omega⟩
  rw [strtol, skipSpace_append, Except.ok_bind, hn]
  rfl

theorem exists_strtolEnd (x m : List UInt8) : ∃ n, strtolEnd (x ++ 0 :: m) = .ok n := by
  simp only [strtolEnd, skipSpace_append, Except.ok_bind, skipSign_append, countDigits_text]
  exact ⟨_, rfl⟩

end CLang
