import FirmwareFuzz.Lib.CString

/-!
# Searching and copying C strings

The functions of `string.h` that look for something in a string, or copy it.
A pointer into a block is the block from there on, and a pointer found is the
distance to it. On a text with its terminator, each is a search in the text
(`strchr_append`, `strchr_of_notMem`, `strstr_text`), that reads nothing behind
the terminator.

A text cut at the first occurrence of a byte (`cut`) is what `strchr` is used
for; the first occurrence of a text in another (`find`), what `strstr` is.
-/

namespace CLang

/-! ## Reading -/

/-- The text of the string at the front of a block. -/
def strText : List UInt8 → Except Fault (List UInt8)
  | [] => .error .outOfBounds
  | b :: p => if b = 0 then .ok [] else return b :: (← strText p)

def strlen (p : List UInt8) : Except Fault ℕ := return (← strText p).length

def strchr (c : UInt8) : List UInt8 → Except Fault (Option ℕ)
  | [] => .error .outOfBounds
  | b :: p =>
    if b = c then .ok (some 0)
    else if b = 0 then .ok none
    else return (← strchr c p).map (· + 1)

/-- `strcspn`, for a set of a single byte. -/
def strcspn (c : UInt8) : List UInt8 → Except Fault ℕ
  | [] => .error .outOfBounds
  | b :: p => if b = c ∨ b = 0 then .ok 0 else return (← strcspn c p) + 1

/-- The first occurrence of `needle` in a text. -/
def find (needle : List UInt8) : List UInt8 → Option ℕ
  | [] => if needle = [] then some 0 else none
  | b :: x => if needle <+: b :: x then some 0 else (find needle x).map (· + 1)

def strstr (p needle : List UInt8) : Except Fault (Option ℕ) :=
  return find (← strText needle) (← strText p)

/-- `strcpy(block, src)`, or `sprintf` of a text. -/
def strcpy (block src : List UInt8) : Except Fault (List UInt8) := do
  copyTo block 0 ((← strText src) ++ [0])

/-- The `n` bytes `strncpy` writes: the text, padded with zeros. -/
def strncpy : (n : ℕ) → List UInt8 → Except Fault (List UInt8)
  | 0, _ => .ok []
  | _ + 1, [] => .error .outOfBounds
  | n + 1, b :: p =>
    if b = 0 then .ok (List.replicate (n + 1) 0) else return b :: (← strncpy n p)

variable {x : List UInt8}

theorem strText_append (hx : 0 ∉ x) (m : List UInt8) : strText (x ++ 0 :: m) = .ok x := by
  induction x with
  | nil => rfl
  | cons b x ih =>
    have hb : b ≠ 0 := fun h => hx (h ▸ List.mem_cons_self)
    rw [List.cons_append, strText, if_neg hb, ih (mt (List.mem_cons_of_mem _) hx)]
    rfl

/-- A string that can be read has a terminator. -/
theorem strText_eq_ok {p : List UInt8} (h : strText p = .ok x) :
    0 ∉ x ∧ ∃ m, p = x ++ 0 :: m := by
  induction p generalizing x with
  | nil => exact nomatch h
  | cons b p ih =>
    rw [strText] at h
    split_ifs at h with hb
    · obtain rfl := Except.ok.inj h
      exact ⟨List.not_mem_nil, p, by rw [hb]; rfl⟩
    · obtain ⟨y, hy, h⟩ := Except.bind_eq_ok_iff.1 h
      obtain rfl := Except.ok.inj h
      obtain ⟨hmem, m, rfl⟩ := ih hy
      exact ⟨List.not_mem_cons_of_ne_of_not_mem (Ne.symm hb) hmem, m, rfl⟩

theorem strlen_append (hx : 0 ∉ x) (m : List UInt8) : strlen (x ++ 0 :: m) = .ok x.length := by
  rw [strlen, strText_append hx]
  rfl

theorem strchr_append {c : UInt8} (hc : c ∉ x) (hx : 0 ∉ x) (m : List UInt8) :
    strchr c (x ++ c :: m) = .ok (some x.length) := by
  induction x with
  | nil => rw [List.nil_append, strchr, if_pos rfl, List.length_nil]
  | cons b x ih =>
    have hb : b ≠ c := fun h => hc (h ▸ List.mem_cons_self)
    have hb' : b ≠ 0 := fun h => hx (h ▸ List.mem_cons_self)
    rw [List.cons_append, strchr, if_neg hb, if_neg hb',
      ih (mt (List.mem_cons_of_mem _) hc) (mt (List.mem_cons_of_mem _) hx)]
    rfl

/-- A search that finds nothing gets to a terminator. -/
theorem zero_mem_of_strchr {c : UInt8} {p : List UInt8} (h : strchr c p = .ok none) : 0 ∈ p := by
  induction p with
  | nil => cases h
  | cons b p ih =>
    rw [strchr] at h
    split_ifs at h with hc hb
    · cases h
    · exact hb ▸ List.mem_cons_self
    · obtain ⟨n, hn, hnone⟩ := Except.bind_eq_ok_iff.1 h
      obtain rfl := Option.map_eq_none_iff.1 (Except.ok.inj hnone)
      exact List.mem_cons_of_mem _ (ih hn)

theorem strchr_of_notMem {c : UInt8} (hc : c ≠ 0) (hcx : c ∉ x) (hx : 0 ∉ x) (m : List UInt8) :
    strchr c (x ++ 0 :: m) = .ok none := by
  induction x with
  | nil => rw [List.nil_append, strchr, if_neg hc.symm, if_pos rfl]
  | cons b x ih =>
    have hb : b ≠ c := fun h => hcx (h ▸ List.mem_cons_self)
    have hb' : b ≠ 0 := fun h => hx (h ▸ List.mem_cons_self)
    rw [List.cons_append, strchr, if_neg hb, if_neg hb',
      ih (mt (List.mem_cons_of_mem _) hcx) (mt (List.mem_cons_of_mem _) hx)]
    rfl

theorem strcspn_append {c b : UInt8} (hc : c ∉ x) (hx : 0 ∉ x) (hb : b = c ∨ b = 0)
    (m : List UInt8) : strcspn c (x ++ b :: m) = .ok x.length := by
  induction x with
  | nil => rw [List.nil_append, strcspn, if_pos hb, List.length_nil]
  | cons a x ih =>
    have ha : ¬(a = c ∨ a = 0) := by
      rintro (h | h)
      · exact hc (h ▸ List.mem_cons_self)
      · exact hx (h ▸ List.mem_cons_self)
    rw [List.cons_append, strcspn, if_neg ha,
      ih (mt (List.mem_cons_of_mem _) hc) (mt (List.mem_cons_of_mem _) hx)]
    rfl

theorem strstr_text {y : List UInt8} (hx : 0 ∉ x) (hy : 0 ∉ y) (m m' : List UInt8) :
    strstr (x ++ 0 :: m) (y ++ 0 :: m') = .ok (find y x) := by
  rw [strstr, strText_append hy, strText_append hx]
  rfl

/-- A block with just the room for a string becomes the string. -/
theorem strcpy_append (hx : 0 ∉ x) (m : List UInt8) {block : List UInt8}
    (hblock : block.length = x.length + 1) : strcpy block (x ++ 0 :: m) = .ok (x ++ [0]) := by
  have hlen : 0 + (x ++ [0]).length = block.length := by
    rw [Nat.zero_add, hblock, List.length_append, List.length_singleton]
  rw [strcpy, strText_append hx, Except.ok_bind, copyTo, if_pos hlen.le, List.take_zero, hlen,
    List.drop_length, List.nil_append, List.append_nil]

/-- A text found lies inside of the text searched. -/
theorem find_add_length_le {y : List UInt8} {i : ℕ} (h : find y x = some i) :
    i + y.length ≤ x.length := by
  induction x generalizing i with
  | nil =>
    rw [find] at h
    split_ifs at h with hy
    obtain rfl := Option.some.inj h
    rw [hy, List.length_nil]
  | cons b x ih =>
    rw [find] at h
    split_ifs at h with hy
    · obtain rfl := Option.some.inj h
      rw [Nat.zero_add]
      exact hy.length_le
    · obtain ⟨j, hj, rfl⟩ := Option.map_eq_some_iff.1 h
      have := ih hj
      rw [List.length_cons]
      omega

/-- A text found is where it was found. -/
theorem isPrefix_of_find {y : List UInt8} {i : ℕ} (h : find y x = some i) : y <+: x.drop i := by
  induction x generalizing i with
  | nil =>
    rw [find] at h
    split_ifs at h with hy
    rw [hy]
    exact List.nil_prefix
  | cons b x ih =>
    rw [find] at h
    split_ifs at h with hy
    · obtain rfl := Option.some.inj h
      exact hy
    · obtain ⟨j, hj, rfl⟩ := Option.map_eq_some_iff.1 h
      exact ih hj

/-- A text that occurs is found, there or earlier. -/
theorem exists_find_le {y : List UInt8} {j : ℕ} (h : y <+: x.drop j) :
    ∃ i ≤ j, find y x = some i := by
  induction x generalizing j with
  | nil =>
    rw [List.drop_nil, List.prefix_nil] at h
    exact ⟨0, Nat.zero_le _, by rw [find, if_pos h]⟩
  | cons b x ih =>
    rw [find]
    split_ifs with hy
    · exact ⟨0, Nat.zero_le _, rfl⟩
    · cases j with
      | zero => exact absurd h hy
      | succ j =>
        obtain ⟨i, hi, hfind⟩ := ih h
        exact ⟨i + 1, Nat.succ_le_succ hi, by rw [hfind]; rfl⟩

/-- A string written to a block with room for it. -/
theorem copyTo_string {block : List UInt8} (h : x.length < block.length) :
    copyTo block 0 (x ++ [0]) = .ok (x ++ 0 :: block.drop (x.length + 1)) := by
  have hle : 0 + (x ++ [0]).length ≤ block.length := by
    rw [Nat.zero_add, List.length_append]
    exact h
  rw [copyTo, if_pos hle, List.take_zero, Nat.zero_add, List.length_append, List.nil_append,
    List.append_assoc]
  rfl

/-- There was room for a string that was written. -/
theorem copyTo_string_eq_ok {block block' : List UInt8}
    (h : copyTo block 0 (x ++ [0]) = .ok block') :
    block' = x ++ 0 :: block.drop (x.length + 1) := by
  by_cases hlt : x.length < block.length
  · rw [copyTo_string hlt, Except.ok.injEq] at h
    exact h.symm
  · have hle : ¬0 + (x ++ [0]).length ≤ block.length := by
      rw [List.length_append, List.length_singleton]
      omega
    rw [copyTo, if_neg hle] at h
    cases h

theorem strncpy_append (hx : 0 ∉ x) (m : List UInt8) : strncpy x.length (x ++ m) = .ok x := by
  induction x with
  | nil => rfl
  | cons b x ih =>
    have hb : b ≠ 0 := fun h => hx (h ▸ List.mem_cons_self)
    rw [List.length_cons, List.cons_append, strncpy, if_neg hb, ih (mt (List.mem_cons_of_mem _) hx)]
    rfl

/-- A copy that ends inside of the text. -/
theorem strncpy_take (hx : 0 ∉ x) {n : ℕ} (hn : n ≤ x.length) (m : List UInt8) :
    strncpy n (x ++ m) = .ok (x.take n) := by
  have h := strncpy_append (mt List.mem_of_mem_take hx) (x.drop n ++ m) (x := x.take n)
  rwa [List.length_take_of_le hn, ← List.append_assoc, List.take_append_drop] at h

/-! ## Cutting -/

/-- The text in front of the first `c`, and the text behind it. -/
def cut (c : UInt8) : List UInt8 → Option (List UInt8 × List UInt8)
  | [] => none
  | b :: x => if b = c then some ([], x) else (cut c x).map fun (l, r) => (b :: l, r)

theorem cut_eq_none_iff {c : UInt8} : cut c x = none ↔ c ∉ x := by
  induction x with
  | nil => simp [cut]
  | cons b x ih =>
    rw [cut]
    split_ifs with hb
    · simp [hb]
    · rw [Option.map_eq_none_iff, ih, List.mem_cons, not_or]
      exact (and_iff_right (Ne.symm hb)).symm

theorem cut_eq_some_iff {c : UInt8} {l r : List UInt8} :
    cut c x = some (l, r) ↔ x = l ++ c :: r ∧ c ∉ l := by
  induction x generalizing l with
  | nil => simp [cut]
  | cons b x ih =>
    rw [cut]
    split_ifs with hb
    · subst hb
      cases l with
      | nil => simp [eq_comm]
      | cons a l =>
        refine ⟨fun h => ?_, fun ⟨h, hl⟩ => ?_⟩
        · simp at h
        · obtain ⟨rfl, -⟩ := List.cons.inj h
          exact absurd List.mem_cons_self hl
    · rw [Option.map_eq_some_iff]
      constructor
      · rintro ⟨⟨l', r'⟩, h, heq⟩
        obtain ⟨rfl, rfl⟩ := Prod.mk.inj heq
        obtain ⟨rfl, hl⟩ := ih.1 h
        exact ⟨rfl, List.not_mem_cons_of_ne_of_not_mem (Ne.symm hb) hl⟩
      · rintro ⟨h, hl⟩
        cases l with
        | nil => exact absurd (List.cons.inj h).1 hb
        | cons a l =>
          obtain ⟨rfl, rfl⟩ := List.cons.inj h
          exact ⟨(l, r), ih.2 ⟨rfl, List.not_mem_of_not_mem_cons hl⟩, rfl⟩

/-- A byte cuts a text where it first stands. -/
theorem cut_append {c : UInt8} {l : List UInt8} (hl : c ∉ l) (r : List UInt8) :
    cut c (l ++ c :: r) = some (l, r) :=
  cut_eq_some_iff.2 ⟨rfl, hl⟩

theorem drop_cut (l r : List UInt8) (c : UInt8) : (l ++ c :: r).drop (l.length + 1) = r := by
  rw [← List.drop_drop, List.drop_left]
  rfl

/-- Overwriting the byte a block is cut at. -/
theorem copyTo_cut (l r : List UInt8) (c d : UInt8) :
    copyTo (l ++ c :: r) l.length [d] = .ok (l ++ d :: r) := by
  have hle : l.length + 1 ≤ (l ++ c :: r).length := by
    rw [List.length_append, List.length_cons]
    omega
  rw [copyTo, List.length_singleton, if_pos hle, List.take_left, drop_cut, List.append_assoc]
  rfl

/-- A byte found by `strchr` cuts the text. -/
theorem strchr_text {c : UInt8} (hc : c ≠ 0) (hx : 0 ∉ x) (m : List UInt8) :
    strchr c (x ++ 0 :: m) = .ok ((cut c x).map fun (l, _) => l.length) := by
  cases h : cut c x with
  | none => exact strchr_of_notMem hc (cut_eq_none_iff.1 h) hx m
  | some q =>
    obtain ⟨rfl, hl⟩ := cut_eq_some_iff.1 h
    rw [List.append_assoc, List.cons_append]
    exact strchr_append hl (mt (List.mem_append_left _) hx) _

end CLang
