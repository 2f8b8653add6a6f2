import Mathlib
import FirmwareFuzz.Lib.CMemory
import FirmwareFuzz.Lib.Varint

/-!
# The Remaining Length

MQTT writes the length of a packet's body as a variable-length integer of at
most four bytes. The repository has an encoder, `enc_remaining_length` of the
seed generator (Python), and a decoder, `parse_varint_remaining` of the fuzz
transport (C).

Both are the same notation in base 128 (`byteVarint`): the encoder writes it
(`encRemainingLength_ofNat`), and the decoder scans at most four symbols of it
(`parseVarintRemaining_eq_scan`). They are inverse up to the largest Remaining
Length, and the encoding is a prefix code (`remainingLength_inverse`).
-/

namespace FirmwareFuzz

open CLang

/-- The exceptions the seed generator raises, with their messages. -/
inductive PyError
  | valueError (message : String)
  | overflowError (message : String)
  | unicodeEncodeError (message : String)
  deriving DecidableEq, Repr

/-- The largest body of an MQTT packet. -/
def maxRemainingLength : ℕ := 268435455

/-! ## The encoder -/

/-- The bytes the loop of `enc_remaining_length` appends, from `n` on. -/
def encRemainingLength.loop (n : ℕ) : List UInt8 :=
  let byte := n % 128
  let n' := n / 128
  let byte := if n' > 0 then byte ||| 0x80 else byte
  if n' = 0 then [UInt8.ofNat byte] else UInt8.ofNat byte :: loop n'
termination_by n

def encRemainingLength (n : ℤ) : Except PyError (List UInt8) :=
  if n < 0 then .error (.valueError "remaining length must be >= 0")
  else .ok (encRemainingLength.loop n.toNat)

/-! ## The decoder -/

/-- The loop of `parse_varint_remaining`, with `rem` more bytes to go before
    `in_len`, the first of them at `p`. -/
def parseVarintRemaining.loop :
    (rem : ℕ) → (p : List UInt8) → (mul value i : ℕ) → Except Fault (ℕ × ℕ)
  | 0, _, _, value, i => .ok (value, i)
  | _ + 1, [], _, _, _ => .error .outOfBounds
  | rem + 1, b :: p, mul, value, i =>
    let i := i + 1
    let value := value + (b &&& 0x7F).toNat * mul
    if b &&& 0x80 = 0 then .ok (value, i)
    else
      let mul := mul * 128
      if mul > 128 * 128 * 128 then .ok (value, i) else loop rem p mul value i

/-- The value, and the number of bytes consumed (`*out_len`). -/
def parseVarintRemaining (p : List UInt8) (inLen : Int32) : Except Fault (ℕ × ℕ) :=
  parseVarintRemaining.loop inLen.toInt.toNat p 1 0 0

/-! ## The notation -/

/-- The bytes of the notation: seven bits of digit, and the continuation bit. -/
def byteVarint : Varint 128 UInt8 where
  symbol d more := UInt8.ofNat (if more then d ||| 0x80 else d)
  digit x := (x &&& 0x7F).toNat
  more x := x &&& 0x80 != 0
  one_lt := by decide
  digit_lt x := by
    rw [UInt8.toNat_and]
    exact Nat.lt_succ_of_le Nat.and_le_right
  digit_symbol {d} m hd := by
    have h : ∀ d : Fin 128, ∀ m : Bool,
      (UInt8.ofNat (if m then d.1 ||| 0x80 else d.1) &&& 0x7F).toNat = d := by decide +kernel
    exact h ⟨d, hd⟩ m
  more_symbol {d} m hd := by
    have h : ∀ d : Fin 128, ∀ m : Bool,
      (UInt8.ofNat (if m then d.1 ||| 0x80 else d.1) &&& 0x80 != 0) = m := by decide +kernel
    exact h ⟨d, hd⟩ m

@[simp] theorem byteVarint_symbol (d : ℕ) (more : Bool) :
    byteVarint.symbol d more = UInt8.ofNat (if more then d ||| 0x80 else d) := rfl
@[simp] theorem byteVarint_digit (x : UInt8) : byteVarint.digit x = (x &&& 0x7F).toNat := rfl
@[simp] theorem byteVarint_more (x : UInt8) : byteVarint.more x = (x &&& 0x80 != 0) := rfl

theorem encRemainingLength_loop (n : ℕ) : encRemainingLength.loop n = byteVarint.encode n := by
  induction n using Nat.strongRecOn with
  | ind n ih =>
    rw [encRemainingLength.loop]
    rcases Nat.lt_or_ge n 128 with h | h
    · have hdiv : n / 128 = 0 := Nat.div_eq_of_lt h
      simp [byteVarint.encode_of_lt h, hdiv, Nat.mod_eq_of_lt h]
    · have hdiv : n / 128 ≠ 0 := by omega
      simp only [hdiv, if_false, gt_iff_lt, Nat.pos_of_ne_zero hdiv, if_true,
        ih (n / 128) (by omega), byteVarint.encode_of_le h, byteVarint_symbol]

/-- On a natural number, the encoder writes the notation. -/
theorem encRemainingLength_ofNat (n : ℕ) : encRemainingLength n = .ok (byteVarint.encode n) := by
  rw [encRemainingLength, if_neg (by omega), Int.toNat_natCast, encRemainingLength_loop]

theorem encRemainingLength_eq_ok_iff {n : ℕ} {e : List UInt8} :
    encRemainingLength n = .ok e ↔ byteVarint.encode n = e := by
  rw [encRemainingLength_ofNat, Except.ok.injEq]

/-- After `3 - k` bytes with the continuation bit, the loop goes on as a scan of
    the `k + 1` bytes left before the multiplier exceeds its cap. -/
theorem parseVarintRemaining_loop {k : ℕ} (hk : k ≤ 3) {rem : ℕ} {p : List UInt8}
    (hrem : rem ≤ p.length) (value i : ℕ) :
    parseVarintRemaining.loop rem p (128 ^ (3 - k)) value i =
      .ok (value + 128 ^ (3 - k) * (byteVarint.scan (k + 1) (p.take rem)).1,
        i + (byteVarint.scan (k + 1) (p.take rem)).2) := by
  induction k generalizing rem p value i with
  | zero =>
    match rem, p with
    | 0, _ => simp [parseVarintRemaining.loop, Varint.scan]
    | rem + 1, [] => simp at hrem
    | rem + 1, b :: p =>
      simp [parseVarintRemaining.loop, Varint.scan, mul_comm]
  | succ k ih =>
    match rem, p with
    | 0, _ => simp [parseVarintRemaining.loop, Varint.scan]
    | rem + 1, [] => simp at hrem
    | rem + 1, b :: p =>
      have hpow : 128 ^ (3 - (k + 1)) * 128 = 128 ^ (3 - k) := by
        rw [← pow_succ]
        congr 1
        omega
      -- The cap is only exceeded after the fourth byte.
      have hcap : ¬128 ^ (3 - k) > 128 * 128 * 128 := by
        have : 128 ^ (3 - k) ≤ 128 ^ 3 := Nat.pow_le_pow_right (by decide) (by omega)
        omega
      rw [parseVarintRemaining.loop, List.take_succ_cons, Varint.scan]
      by_cases hb : b &&& 0x80 = 0
      · simp [hb, mul_comm]
      · simp only [hb, if_false, hpow, hcap, ih (by omega) (Nat.le_of_succ_le_succ hrem)]
        simp only [byteVarint_more, byteVarint_digit, bne_iff_ne, ne_eq, hb, not_false_eq_true,
          if_true, Except.ok.injEq, Prod.mk.injEq, ← hpow]
        constructor <;> ring

/-- The decoder scans at most four bytes of the notation, and none beyond `in_len`. -/
theorem parseVarintRemaining_eq_scan {p : List UInt8} {inLen : Int32}
    (h : inLen.toInt ≤ p.length) :
    parseVarintRemaining p inLen = .ok (byteVarint.scan 4 (p.take inLen.toInt.toNat)) := by
  have hrem : inLen.toInt.toNat ≤ p.length := by omega
  simpa [parseVarintRemaining] using parseVarintRemaining_loop (le_refl 3) hrem 0 0

/-- The decoder gives back what the encoder wrote, whatever follows it. -/
theorem parseVarintRemaining_encode {n : ℕ} (hn : n ≤ maxRemainingLength) {s : List UInt8}
    {inLen : Int32} (h₁ : (byteVarint.encode n).length ≤ inLen.toInt)
    (h₂ : inLen.toInt ≤ (byteVarint.encode n ++ s).length) :
    parseVarintRemaining (byteVarint.encode n ++ s) inLen =
      .ok (n, (byteVarint.encode n).length) := by
  have hlt : n < 128 ^ (3 + 1) := Nat.lt_succ_of_le hn
  rw [parseVarintRemaining_eq_scan h₂, List.take_append, List.take_of_length_le (by omega),
    byteVarint.scan_encode hlt]

/-- One byte below `128`, two below `16384`, three below `2097152`, else four. -/
theorem length_encode {n : ℕ} (hn : n ≤ maxRemainingLength) :
    (byteVarint.encode n).length =
      if n < 128 then 1 else if n < 16384 then 2 else if n < 2097152 then 3 else 4 := by
  have hlt : n < 128 ^ (3 + 1) := Nat.lt_succ_of_le hn
  have h₀ := byteVarint.length_encode_pos n
  have h₁ := byteVarint.length_encode_le_iff (n := n) (k := 0)
  have h₂ := byteVarint.length_encode_le_iff (n := n) (k := 1)
  have h₃ := byteVarint.length_encode_le_iff (n := n) (k := 2)
  have h₄ := byteVarint.length_encode_le_iff.2 hlt
  norm_num at h₁ h₂ h₃
  split_ifs <;> omega

/-! ## Encoder and decoder -/

/-- The encoder and the decoder of the Remaining Length are inverse, whatever
    follows the encoding; the encoding has one to four bytes and is the shortest
    the decoder accepts; and no encoding is the beginning of another. -/
theorem remainingLength_inverse (n : ℕ) (hn : n ≤ maxRemainingLength) :
    ∃ e, encRemainingLength n = .ok e ∧
      (∀ (s : List UInt8) (inLen : Int32), inLen.toInt = (e ++ s).length →
        parseVarintRemaining (e ++ s) inLen = .ok (n, e.length)) ∧
      e.length = (if n < 128 then 1 else if n < 16384 then 2 else if n < 2097152 then 3 else 4) ∧
      (∀ (p : List UInt8) (inLen : Int32), p ≠ [] → inLen.toInt = p.length →
        parseVarintRemaining p inLen = .ok (n, p.length) → e.length ≤ p.length) ∧
      ∀ (m : ℕ) (e' : List UInt8), m ≠ n → encRemainingLength m = .ok e' →
        ¬e <+: e' ∧ ¬e' <+: e := by
  refine ⟨byteVarint.encode n, encRemainingLength_ofNat n, fun s inLen h => ?_, length_encode hn,
    fun p inLen hp hlen h => ?_, fun m e' hm he' => ?_⟩
  · exact parseVarintRemaining_encode hn (by rw [h, List.length_append]; omega) h.le
  · rw [parseVarintRemaining_eq_scan hlen.le, List.take_of_length_le (by omega),
      Except.ok.injEq] at h
    exact byteVarint.length_encode_le_of_scan hp h
  · rw [encRemainingLength_eq_ok_iff] at he'
    subst he'
    exact ⟨fun h => hm (byteVarint.eq_of_encode_prefix h).symm,
      fun h => hm (byteVarint.eq_of_encode_prefix h)⟩

theorem remainingLength_inverse_300 :
    ∃ e, encRemainingLength (300 : ℕ) = .ok e ∧ e.length = 2 ∧
      ∀ e', encRemainingLength (301 : ℕ) = .ok e' → ¬e <+: e' :=
  let ⟨e, he, _, hlen, _, hpre⟩ := remainingLength_inverse 300 (by decide)
  ⟨e, he, hlen, fun e' he' => (hpre 301 e' (by decide) he').1⟩

end FirmwareFuzz
