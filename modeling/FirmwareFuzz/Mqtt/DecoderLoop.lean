import FirmwareFuzz.Lib.Lts
import FirmwareFuzz.Mqtt.RemainingLength

/-!
# The loop of the decoder

`parse_varint_remaining`, one iteration after the other: a system whose steps
are labelled with the index they read (`VarintLoop.system`). Its runs end
(`VarintLoop.exists_run`), with what the decoder returns
(`VarintLoop.parseVarintRemaining_of_run`), and an invariant carries the bounds
of its variables through them, whatever the continuation bits are
(`VarintLoop.inv_of_run`).
-/

namespace FirmwareFuzz

open CLang

/-- The variables of the loop, and whether it was left by a `break`. -/
structure VarintLoop where
  mul : ℕ
  value : ℕ
  i : ℕ
  done : Bool
  deriving DecidableEq, Repr

namespace VarintLoop

/-- The variables in front of the loop. -/
def init : VarintLoop := ⟨1, 0, 0, false⟩

/-- The body of the loop. -/
def body (p : List UInt8) (s : VarintLoop) : Except Fault VarintLoop := do
  let b ← load p s.i
  let s := { s with i := s.i + 1, value := s.value + (b &&& 0x7F).toNat * s.mul }
  if b &&& 0x80 = 0 then return { s with done := true }
  else
    let s := { s with mul := s.mul * 128 }
    return { s with done := s.mul > 128 * 128 * 128 }

/-- The loop goes on. -/
def Goes (inLen : Int32) (s : VarintLoop) : Prop := s.done = false ∧ s.i < inLen.toInt

/-- The loop: a step is an iteration, labelled with the index it reads. -/
def system (p : List UInt8) (inLen : Int32) : Lts VarintLoop ℕ :=
  ⟨fun s l s' => s.Goes inLen ∧ l = s.i ∧ body p s = .ok s'⟩

/-- The invariant of the loop: the number read so far has `i` digits, and as
    long as the loop goes on, the multiplier is the weight of the next one. -/
structure Inv (inLen : Int32) (s : VarintLoop) : Prop where
  i_le : s.i ≤ 4
  i_le_inLen : s.i ≤ inLen.toInt
  value_lt : s.value < 128 ^ s.i
  mul_le : s.mul ≤ 128 ^ 4
  next : s.done = false → s.mul = 128 ^ s.i ∧ s.i ≤ 3

variable {p : List UInt8} {inLen : Int32} {s s' : VarintLoop} {l : ℕ} {ls : List ℕ}

/-- What an iteration does. -/
theorem body_eq_ok_iff : body p s = .ok s' ↔ ∃ b, load p s.i = .ok b ∧
    s' = if b &&& 0x80 = 0 then ⟨s.mul, s.value + (b &&& 0x7F).toNat * s.mul, s.i + 1, true⟩
      else ⟨s.mul * 128, s.value + (b &&& 0x7F).toNat * s.mul, s.i + 1,
        s.mul * 128 > 128 * 128 * 128⟩ := by
  rw [body, Except.bind_eq_ok_iff]
  refine exists_congr fun b => and_congr_right fun _ => ?_
  split_ifs <;> exact Except.pure_eq_ok_iff.trans eq_comm

theorem inv_init (h : 0 ≤ inLen.toInt) : Inv inLen init where
  i_le := by decide
  i_le_inLen := h
  value_lt := by decide
  mul_le := by decide
  next _ := by decide

/-- An iteration keeps the invariant. -/
theorem inv_of_step (h : Inv inLen s) (hst : (system p inLen).step s l s') : Inv inLen s' := by
  obtain ⟨⟨hdone, hlt⟩, -, hbody⟩ := hst
  obtain ⟨hmul, hi⟩ := h.next hdone
  obtain ⟨b, -, rfl⟩ := body_eq_ok_iff.1 hbody
  have hdigit : (b &&& 0x7F).toNat < 128 := byteVarint.digit_lt b
  have hvalue : s.value + (b &&& 0x7F).toNat * s.mul < 128 ^ (s.i + 1) := by
    have hlt := h.value_lt
    have hle : (b &&& 0x7F).toNat * 128 ^ s.i ≤ 127 * 128 ^ s.i :=
      Nat.mul_le_mul_right _ (Nat.le_of_lt_succ hdigit)
    rw [hmul, pow_succ]
    omega
  have hpow : s.mul * 128 = 128 ^ (s.i + 1) := by rw [hmul, pow_succ]
  have hcap : s.mul * 128 ≤ 128 ^ 4 := hpow ▸ Nat.pow_le_pow_right (by decide) (by omega)
  have hi' : s.i + 1 ≤ 4 := Nat.succ_le_succ hi
  have hlen : ((s.i + 1 : ℕ) : ℤ) ≤ inLen.toInt := by omega
  split_ifs
  · exact ⟨hi', hlen, hvalue, h.mul_le, fun hd => by cases hd⟩
  · refine ⟨hi', hlen, hvalue, hcap, fun hd => ⟨hpow, ?_⟩⟩
    -- The cap is exceeded after the fourth byte.
    have hle : s.mul * 128 ≤ 128 ^ 3 := not_lt.1 (of_decide_eq_false hd)
    rw [hpow] at hle
    exact (Nat.pow_le_pow_iff_right (by decide)).1 hle

theorem inv_of_run (h : 0 ≤ inLen.toInt) (hr : (system p inLen).Run init ls s) : Inv inLen s :=
  hr.invariant (fun _ _ _ => inv_of_step) (inv_init h)

/-- The indices are read one after the other. -/
theorem range_of_run (hr : (system p inLen).Run s ls s') :
    List.range s.i ++ ls = List.range s'.i := by
  induction hr with
  | nil => exact List.append_nil _
  | cons hst _ ih =>
    obtain ⟨-, rfl, hbody⟩ := hst
    obtain ⟨b, -, rfl⟩ := body_eq_ok_iff.1 hbody
    rw [apply_ite VarintLoop.i, ite_self, List.range_succ] at ih
    rw [← ih, List.append_assoc]
    rfl

/-! ## The result -/

/-- What the decoder returns from a point of the loop on. -/
def rest (p : List UInt8) (inLen : Int32) (s : VarintLoop) : Except Fault (ℕ × ℕ) :=
  if s.done then .ok (s.value, s.i)
  else parseVarintRemaining.loop (inLen.toInt.toNat - s.i) (p.drop s.i) s.mul s.value s.i

/-- An iteration is one of the decoder. -/
theorem rest_of_step (hst : (system p inLen).step s l s') : rest p inLen s = rest p inLen s' := by
  obtain ⟨⟨hdone, hlt⟩, -, hbody⟩ := hst
  obtain ⟨b, hb, rfl⟩ := body_eq_ok_iff.1 hbody
  have hi : s.i < p.length := by
    by_contra hge
    rw [load, List.getElem?_eq_none (not_lt.1 hge)] at hb
    cases hb
  have hget : p[s.i] = b := by
    rw [load_of_lt hi] at hb
    exact Except.ok.inj hb
  have hrem : inLen.toInt.toNat - s.i = inLen.toInt.toNat - (s.i + 1) + 1 := by omega
  rw [rest, hdone, List.drop_eq_getElem_cons hi, hget, hrem]
  simp only [Bool.false_eq_true, if_false, parseVarintRemaining.loop]
  split_ifs with hzero hcap
  · rfl
  · rw [rest, if_pos (decide_eq_true hcap)]
  · rw [rest, if_neg (by rw [decide_eq_true_eq]; exact hcap)]

theorem rest_of_run (hr : (system p inLen).Run s ls s') : rest p inLen s = rest p inLen s' := by
  induction hr with
  | nil => rfl
  | cons hst _ ih => exact (rest_of_step hst).trans ih

/-- A loop that has ended returns what it has. -/
theorem rest_of_not_goes (h : ¬s.Goes inLen) : rest p inLen s = .ok (s.value, s.i) := by
  rw [rest]
  split_ifs with hdone
  · rfl
  · have hrem : inLen.toInt.toNat - s.i = 0 := by
      by_contra hne
      exact h ⟨Bool.eq_false_iff.2 hdone, by omega⟩
    rw [hrem]
    rfl

/-- At the end of a run is the result of the decoder. -/
theorem parseVarintRemaining_of_run (hr : (system p inLen).Run init ls s) (h : ¬s.Goes inLen) :
    parseVarintRemaining p inLen = .ok (s.value, s.i) :=
  (rest_of_run hr).trans (rest_of_not_goes h)

/-- An iteration does not read behind the block. -/
theorem exists_step (hlen : inLen.toInt ≤ p.length) (h : s.Goes inLen) :
    ∃ s', (system p inLen).step s s.i s' ∧ s'.i = s.i + 1 := by
  have hi : s.i < p.length := by
    have := h.2
    omega
  refine ⟨_, ⟨h, rfl, body_eq_ok_iff.2 ⟨p[s.i], load_of_lt hi, rfl⟩⟩, ?_⟩
  rw [apply_ite VarintLoop.i, ite_self]

/-- The loop ends. -/
theorem exists_run (hlen : inLen.toInt ≤ p.length) (s : VarintLoop) :
    ∃ ls s', (system p inLen).Run s ls s' ∧ ¬s'.Goes inLen := by
  -- Every iteration comes closer to `in_len`.
  induction hn : inLen.toInt.toNat - s.i using Nat.strongRecOn generalizing s with
  | ind n ih =>
    by_cases hgoes : s.Goes inLen
    · obtain ⟨s₁, hst, hi⟩ := exists_step hlen hgoes
      have hlt := hgoes.2
      obtain ⟨ls, s', hr, hend⟩ := ih (inLen.toInt.toNat - s₁.i) (by omega) s₁ rfl
      exact ⟨s.i :: ls, s', .cons hst hr, hend⟩
    · exact ⟨[], s, .nil s, hgoes⟩

end VarintLoop

end FirmwareFuzz
