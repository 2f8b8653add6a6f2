import FirmwareFuzz.Lib.CString

/-!
# The platform

The functions of the host behind the client: a clock that counts its calls,
random numbers, and a client identifier drawn from them. Their state belongs to
the process (`Platform`).
-/

namespace FirmwareFuzz

open CLang

/-- The state of the process the platform keeps: `ticks`, and the state of `rand`. -/
structure Platform (γ : Type) where
  ticks : UInt64
  gen : γ
  deriving DecidableEq, Repr

/-- A hexadecimal digit, in lower case. -/
def hexDigit (n : ℕ) : UInt8 := if n < 10 then UInt8.ofNat (0x30 + n) else UInt8.ofNat (0x57 + n)

/-- `%08x`, for a number of 32 bits. -/
def hex8 (n : ℕ) : List UInt8 := (List.range 8).map fun i => hexDigit (n / 16 ^ (7 - i) % 16)

variable {γ : Type} (rand : γ → ℕ × γ)

/-- The identifier has 18 characters: the limit of 31 does not cut it. -/
def platformCreateIdString (p : Platform γ) (mem : Bool) : Option (List UInt8) × Platform γ :=
  if !mem then (none, p)
  else
    let (n, gen) := rand p.gen
    (some (text "host_mqtt_" ++ hex8 n), { p with gen := gen })

def platformRandom (p : Platform γ) (max : Int32) : Int32 × Platform γ :=
  if max > 0 then
    let (n, gen) := rand p.gen
    (intOfSize (n % sizeOfInt max), { p with gen := gen })
  else (0, p)

def platformTickGetMs (p : Platform γ) : UInt64 × Platform γ :=
  let ticks := p.ticks + 1
  (ticks, { p with ticks := ticks })

/-! Only `platformTickGetMs` changes `ticks`; the other two depend on the state of
`rand` alone. -/

theorem ticks_platformCreateIdString (p : Platform γ) (mem : Bool) :
    (platformCreateIdString rand p mem).2.ticks = p.ticks := by
  cases mem <;> rfl

theorem ticks_platformRandom (p : Platform γ) (max : Int32) :
    (platformRandom rand p max).2.ticks = p.ticks := by
  rw [platformRandom]
  split_ifs <;> rfl

variable {rand} {p₁ p₂ : Platform γ}

theorem platformCreateIdString_congr {mem : Bool} (h : p₁.gen = p₂.gen ∨ mem = false) :
    (platformCreateIdString rand p₁ mem).1 = (platformCreateIdString rand p₂ mem).1 ∧
      (p₁.gen = p₂.gen → (platformCreateIdString rand p₁ mem).2.gen =
        (platformCreateIdString rand p₂ mem).2.gen) := by
  cases mem with
  | false => exact ⟨rfl, id⟩
  | true =>
    have heq : p₁.gen = p₂.gen := h.resolve_right nofun
    simp [platformCreateIdString, heq]

theorem platformRandom_congr {max : Int32} (h : p₁.gen = p₂.gen ∨ ¬max > 0) :
    (platformRandom rand p₁ max).1 = (platformRandom rand p₂ max).1 ∧
      (p₁.gen = p₂.gen →
        (platformRandom rand p₁ max).2.gen = (platformRandom rand p₂ max).2.gen) := by
  by_cases hmax : max > 0
  · have heq : p₁.gen = p₂.gen := h.resolve_right (not_not.2 hmax)
    simp [platformRandom, hmax, heq]
  · simp [platformRandom, hmax]

end FirmwareFuzz
