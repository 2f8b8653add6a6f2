import FirmwareFuzz.Lib.CStruct
import Mathlib.Data.List.TakeWhile

/-!
# Strings that overrun a member

In a flat memory a string too long for its member goes on into the next ones,
and nobody notices: the struct is still a block. But the string at the member
is found to be too long afterwards, even when the next members have been written
since (`length_lt_of_strText`): it fills the member, and ends behind it.

A write that stays in its member is the same in both memories (`write_object`),
and so is a string that does (`strText_room_object`).
-/

namespace CLang

variable {x y p : List UInt8} {k : ℕ}

/-- The text of a block of characters that a terminator is put behind. -/
def cText (s : List UInt8) : List UInt8 := s.takeWhile (· ≠ 0)

theorem zero_notMem_cText (s : List UInt8) : 0 ∉ cText s := by
  intro h
  have hne := List.mem_takeWhile_imp h
  exact absurd rfl (of_decide_eq_true hne)

theorem cText_prefix_self (s : List UInt8) : cText s <+: s := List.takeWhile_prefix _

/-- The text ends at the first terminator. -/
theorem exists_cText (s m : List UInt8) :
    cText (s ++ 0 :: m) = cText s ∧ ∃ m', s ++ 0 :: m = cText s ++ 0 :: m' := by
  induction s with
  | nil => exact ⟨rfl, m, rfl⟩
  | cons b s ih =>
    simp only [cText, List.cons_append, List.takeWhile_cons]
    split_ifs with hb
    · obtain ⟨htext, m', hm'⟩ := ih
      exact ⟨congrArg (b :: ·) htext, m', congrArg (b :: ·) hm'⟩
    · have hzero : b = 0 := by simpa using hb
      exact ⟨rfl, s ++ 0 :: m, by rw [hzero]; rfl⟩

/-- A string is as long as the cells without a terminator are. -/
theorem le_length_of_strText (h : strText p = .ok x) (hk : k ≤ p.length) (hzero : 0 ∉ p.take k) :
    k ≤ x.length := by
  obtain ⟨-, m, rfl⟩ := strText_eq_ok h
  by_contra hlt
  refine hzero ?_
  rw [List.take_append, List.mem_append]
  right
  obtain ⟨n, hn⟩ : ∃ n, k - x.length = n + 1 := ⟨k - x.length - 1, by omega⟩
  rw [hn]
  exact List.mem_cons_self

namespace Field

variable {f : Field} {b : Bounds} {obj obj₁ obj₂ data : List UInt8} {i : ℕ}

/-- A write that may overrun succeeds within the struct. -/
theorem exists_write_object_iff :
    (∃ obj', f.write .object obj i data = .ok obj') ↔ f.off + i + data.length ≤ obj.length := by
  simp only [write_eq_ok_iff, room, List.length_drop]
  constructor
  · rintro ⟨obj', -, hi, -⟩
    exact hi
  · intro hi
    exact ⟨_, by omega, hi, rfl⟩

/-- A write that may overrun, and then what can be done with any struct of the
    same length. -/
theorem exists_write_object_bind_iff {α : Type} {k : List UInt8 → Except Fault α} {c : Prop}
    (hk : ∀ obj', obj'.length = obj.length → ((∃ a, k obj' = .ok a) ↔ c)) :
    (∃ a, f.write .object obj i data >>= k = .ok a) ↔
      f.off + i + data.length ≤ obj.length ∧ c := by
  simp only [Except.bind_eq_ok_iff]
  constructor
  · rintro ⟨a, obj', hw, ha⟩
    exact ⟨exists_write_object_iff.1 ⟨obj', hw⟩, (hk obj' (length_write hw)).1 ⟨a, ha⟩⟩
  · rintro ⟨hi, hc⟩
    obtain ⟨obj', hw⟩ := exists_write_object_iff.2 hi
    obtain ⟨a, ha⟩ := (hk obj' (length_write hw)).2 hc
    exact ⟨a, obj', hw, ha⟩

/-- A write that stays in the member stays in the struct. -/
theorem write_object (h : f.write .field obj i data = .ok obj₁) :
    f.write .object obj i data = .ok obj₁ := by
  obtain ⟨hroom, hlen, heq⟩ := write_eq_ok_iff.1 h
  refine write_eq_ok_iff.2 ⟨hroom.trans ?_, hlen, heq⟩
  exact List.length_take_le' _ _

/-- A string that ends in the member is the string there. -/
theorem strText_room_object (h : strText (f.room .field obj) = .ok x) :
    strText (f.room .object obj) = .ok x := by
  obtain ⟨hx, m, hm⟩ := strText_eq_ok h
  have hsplit := List.take_append_drop f.size (f.room .object obj)
  change f.room .field obj ++ _ = _ at hsplit
  rw [← hsplit, hm, List.append_assoc]
  exact strText_append hx _

/-- A string that was written to a member, where only what is behind the member
    was written since, did fit the member if the string there does. -/
theorem length_lt_of_strText (h : f.write .object obj 0 (x ++ [0]) = .ok obj₁) (hx : 0 ∉ x)
    (hkeep : obj₂.take (f.off + f.size) = obj₁.take (f.off + f.size))
    (hlen : f.off + f.size ≤ obj₂.length) (hy : strText (f.room .object obj₂) = .ok y)
    (hlt : y.length < f.size) : x.length < f.size := by
  obtain ⟨m, hm⟩ := room_write_string h
  have hcells : (f.room .object obj₂).take f.size = (x ++ 0 :: m).take f.size := by
    rw [← hm, room, room, List.take_drop, List.take_drop, hkeep]
  by_contra hge
  have hroom : f.size ≤ (f.room .object obj₂).length := by
    rw [room, List.length_drop]
    omega
  -- The cells of the member hold no terminator.
  refine absurd (le_length_of_strText hy hroom ?_) (Nat.not_le.2 hlt)
  rw [hcells, List.take_append_of_le_length (Nat.not_lt.1 hge)]
  exact mt List.mem_of_mem_take hx

end Field

end CLang
