import FirmwareFuzz.Iot.Json
import Mathlib.Algebra.Field.Rat
import Mathlib.Data.Rat.Cast.Defs
import Mathlib.Tactic.NormNum

/-!
# Number literals

A number of a JSON text is written with a fraction and an exponent, if any
(`Literal`). `extract_json_value` reads a `long`: it stops behind the integer
part, and a larger integer is clamped. What it leaves in the array denotes the
number of the literal, and all of the literal is counted, for the literals that
are integers in the range of a `long` (`faithful_iff`).
-/

namespace FirmwareFuzz.Iot

open CLang

/-! ## Literals -/

/-- An exponent: a letter, a sign of either kind or none, and digits. -/
structure Exponent extends Digits where
  upper : Bool
  minus : Option Bool

/-- A number literal. -/
structure Literal where
  integer : Numeral
  fraction : Option Digits
  exponent : Option Exponent

namespace Exponent

/-- The sign of an exponent. -/
def sign : Option Bool → List UInt8
  | none => []
  | some minus => [if minus then 0x2D else 0x2B]

/-- The text of an exponent. -/
def render (e : Exponent) : List UInt8 := (if e.upper then 0x45 else 0x65) :: sign e.minus ++ e.ds

/-- The power of ten of an exponent. -/
def value (e : Exponent) : ℤ :=
  if e.minus = some true then -e.toDigits.value else e.toDigits.value

end Exponent

namespace Literal

/-- The text of a literal behind its integer part. -/
def tail (l : Literal) : List UInt8 :=
  (l.fraction.elim [] fun f => 0x2E :: f.ds) ++ l.exponent.elim [] Exponent.render

/-- The text of a literal. -/
def render (l : Literal) : List UInt8 := l.integer.render ++ l.tail

/-- The number a literal denotes. -/
def value (l : Literal) : ℚ :=
  (if l.integer.minus then -1 else 1) *
    (l.integer.toDigits.value + l.fraction.elim 0 fun f => f.value / 10 ^ f.ds.length) *
    10 ^ l.exponent.elim 0 Exponent.value

/-- A literal that is a `long`, and short enough to be counted. -/
def IsLong (l : Literal) : Prop :=
  l.fraction = none ∧ l.exponent = none ∧ (-2 ^ 63 ≤ l.integer.value ∧ l.integer.value < 2 ^ 63) ∧
    l.integer.render.length < 2 ^ 31

/-- The literal of an integer. -/
def ofInt (i : ℤ) : Literal := ⟨.ofInt i, none, none⟩

end Literal

/-- A text denotes a number. -/
def Denotes (t : List UInt8) (q : ℚ) : Prop := ∃ l : Literal, l.render = t ∧ l.value = q

variable {l : Literal} {C : Place} {i : ℤ}

namespace Literal

theorem tail_eq_nil_iff : l.tail = [] ↔ l.fraction = none ∧ l.exponent = none := by
  rw [tail, List.append_eq_nil_iff]
  refine and_congr ?_ ?_
  · cases l.fraction <;> simp
  · cases l.exponent <;> simp [Exponent.render]

/-- Without a fraction and an exponent, a literal denotes its integer. -/
theorem value_of_tail_eq_nil (h : l.tail = []) : l.value = l.integer.value := by
  obtain ⟨hf, he⟩ := tail_eq_nil_iff.1 h
  rw [value, hf, he, Numeral.value]
  split_ifs <;> simp

/-- What is behind the integer part does not start as an integer goes on. -/
theorem tail_cases (l : Literal) :
    l.tail = [] ∨ ∃ c s, l.tail = c :: s ∧ c ≠ 0x2D ∧ isdigit c = false := by
  rw [tail]
  cases l.fraction with
  | some f => exact .inr ⟨0x2E, _, rfl, by decide, rfl⟩
  | none =>
    cases l.exponent with
    | none => exact .inl rfl
    | some e =>
      refine .inr ⟨_, _, rfl, ?_⟩
      cases e.upper <;> decide

theorem noDigit_tail_append {s : List UInt8} (hs : NoDigit s) : NoDigit (l.tail ++ s) := by
  rcases l.tail_cases with hnil | ⟨c, r, hcons, -, hc⟩
  · rwa [hnil]
  · rw [hcons]
    rintro d ⟨⟩
    exact hc

theorem zero_notMem_render (l : Literal) : 0 ∉ l.render := by
  have hexponent : ∀ e : Exponent, 0 ∉ e.render := by
    intro e
    have hsign : 0 ∉ Exponent.sign e.minus := by
      rcases e.minus with _ | _ | _ <;> decide
    have hletter : (0 : UInt8) ≠ if e.upper then 0x45 else 0x65 := by
      split_ifs <;> decide
    rw [Exponent.render, List.cons_append, List.mem_cons, List.mem_append, not_or, not_or]
    exact ⟨hletter, hsign, e.zero_notMem⟩
  rw [render, tail, List.mem_append, List.mem_append, not_or, not_or]
  refine ⟨l.integer.zero_notMem_render, ?_, ?_⟩
  · cases l.fraction with
    | none => exact List.not_mem_nil
    | some f => exact List.not_mem_cons_of_ne_of_not_mem (by decide) f.zero_notMem
  · cases l.exponent with
    | none => exact List.not_mem_nil
    | some e => exact hexponent e

theorem dropWhile_render (l : Literal) (s : List UInt8) :
    (l.render ++ s).dropWhile isspace = l.render ++ s := by
  rw [render, List.append_assoc, Numeral.dropWhile_render]

/-- The integer part of a literal is what is stored and counted. -/
theorem extractJsonValue_fill (hfirst : C.IsFirst l.render) (hsuf : NoDigit C.suf)
    (m m' value : List UInt8) :
    extractJsonValue (C.fill l.render ++ 0 :: m) (C.key ++ 0 :: m') value = (do
      let value ← copyTo value 0 (decimal (clampLong l.integer.value) ++ [0])
      return (intOfSize l.integer.render.length, value)) := by
  rw [Place.extractJsonValue_fill hfirst l.zero_notMem_render (l.dropWhile_render C.suf), render,
    List.append_assoc l.integer.render, extractValue_numeral (noDigit_tail_append hsuf)]

/-- A text of a sign and digits is only the literal of its integer. -/
theorem value_of_render_eq_decimal (h : l.render = decimal i) : l.value = i := by
  rw [← Numeral.render_ofInt] at h
  rcases l.tail_cases with hnil | ⟨c, s, hcons, hminus, hdigit⟩
  · rw [render, hnil, List.append_nil] at h
    rw [value_of_tail_eq_nil hnil, Numeral.value_eq_of_render_eq h, Numeral.value_ofInt]
  · have hmem : c ∈ (Numeral.ofInt i).render := by
      rw [← h, render, hcons]
      exact List.mem_append_right _ List.mem_cons_self
    rcases Numeral.eq_minus_or_isdigit_of_mem hmem with hc | hc
    · exact absurd hc hminus
    · rw [hdigit] at hc
      exact absurd hc Bool.false_ne_true

end Literal

/-- The text printed for an integer denotes it, and no other number. -/
theorem denotes_decimal_iff {q : ℚ} : Denotes (decimal i) q ↔ q = i := by
  constructor
  · rintro ⟨l, hl, rfl⟩
    exact Literal.value_of_render_eq_decimal hl
  · rintro rfl
    refine ⟨.ofInt i, ?_, ?_⟩
    · exact (List.append_nil _).trans (Numeral.render_ofInt i)
    · rw [Literal.value_of_tail_eq_nil rfl, Literal.ofInt, Numeral.value_ofInt]

/-! ## What is reported -/

/-- A value found for the literal at a place denotes its number, and all of it
    is counted. -/
def Faithful (C : Place) (l : Literal) : Prop :=
  ∀ m m' value n value',
    extractJsonValue (C.fill l.render ++ 0 :: m) (C.key ++ 0 :: m') value = .ok (n, value') →
    0 < n.toInt → ∃ t, strText value' = .ok t ∧ Denotes t l.value ∧ n.toInt = l.render.length

theorem length_render_le_iff : l.render.length ≤ l.integer.render.length ↔
    l.fraction = none ∧ l.exponent = none := by
  rw [← Literal.tail_eq_nil_iff, Literal.render, List.length_append, ← List.length_eq_zero_iff]
  omega

theorem faithful_of_isLong (hfirst : C.IsFirst l.render) (hsuf : NoDigit C.suf) (h : l.IsLong) :
    Faithful C l := by
  obtain ⟨hf, he, hlong, hlen⟩ := h
  intro m m' value n value' hextract _
  have htail : l.tail = [] := Literal.tail_eq_nil_iff.2 ⟨hf, he⟩
  rw [Literal.extractJsonValue_fill hfirst hsuf, clampLong_eq_iff.2 hlong] at hextract
  obtain ⟨value₁, hcopy, h⟩ := Except.bind_eq_ok_iff.1 hextract
  obtain ⟨rfl, rfl⟩ := Prod.mk.inj (Except.ok.inj h)
  obtain rfl := copyTo_string_eq_ok hcopy
  refine ⟨_, strText_append (zero_notMem_decimal _) _, ?_, ?_⟩
  · rw [denotes_decimal_iff]
    exact Literal.value_of_tail_eq_nil htail
  · rw [toInt_intOfSize hlen, Literal.render, htail, List.append_nil]

/-- Where a number is reported, all of it is. -/
theorem isLong_of_faithful (hfirst : C.IsFirst l.render) (hsuf : NoDigit C.suf)
    (h : Faithful C l) (hpos : 0 < (intOfSize l.integer.render.length).toInt) : l.IsLong := by
  have hroom : (decimal (clampLong l.integer.value)).length <
      (List.replicate 21 (0 : UInt8)).length :=
    Nat.lt_succ_of_le (length_decimal_le (clampLong_mem _))
  have hextract := Literal.extractJsonValue_fill hfirst hsuf [] [] (List.replicate 21 0)
  rw [copyTo_string hroom] at hextract
  obtain ⟨t, ht, hdenotes, hlen⟩ := h _ _ _ _ _ hextract hpos
  rw [strText_append (zero_notMem_decimal _), Except.ok.injEq] at ht
  subst ht
  -- No more is counted than the integer part.
  have hcount : sizeOfInt (intOfSize l.integer.render.length) ≤ l.integer.render.length :=
    sizeOfInt_intOfSize_le hpos.le
  rw [sizeOfInt_of_nonneg hpos.le] at hcount
  have hint := (intOfSize l.integer.render.length).toInt_lt
  have hle : l.render.length ≤ l.integer.render.length := by omega
  have htail := length_render_le_iff.1 hle
  have hge : l.integer.render.length ≤ l.render.length := by
    rw [Literal.render, List.length_append]
    exact Nat.le_add_right _ _
  -- What is stored is the integer part, if that was not clamped.
  rw [denotes_decimal_iff,
    Literal.value_of_tail_eq_nil (Literal.tail_eq_nil_iff.2 htail)] at hdenotes
  have hvalue : l.integer.value = clampLong l.integer.value := Int.cast_injective hdenotes
  exact ⟨htail.1, htail.2, clampLong_eq_iff.1 hvalue.symm, by omega⟩

/-- A number is reported faithfully if it is a `long`, or if the length of its
    integer part is not positive as an `int`, so that none is reported. -/
theorem faithful_iff (hfirst : C.IsFirst l.render) (hsuf : NoDigit C.suf) :
    Faithful C l ↔ l.IsLong ∨ l.integer.render.length % 2 ^ 32 = 0 ∨
      2 ^ 31 ≤ l.integer.render.length % 2 ^ 32 := by
  constructor
  · intro h
    by_cases hpos : 0 < (intOfSize l.integer.render.length).toInt
    · exact .inl (isLong_of_faithful hfirst hsuf h hpos)
    · rw [toInt_intOfSize_pos_iff] at hpos
      exact .inr (by omega)
  · rintro (hlong | hzero)
    · exact faithful_of_isLong hfirst hsuf hlong
    · intro m m' value n value' hextract hpos
      rw [Literal.extractJsonValue_fill hfirst hsuf] at hextract
      obtain ⟨value₁, -, h⟩ := Except.bind_eq_ok_iff.1 hextract
      obtain ⟨rfl, -⟩ := Prod.mk.inj (Except.ok.inj h)
      rw [toInt_intOfSize_pos_iff] at hpos
      omega

/-- The place of the temperature in a message of the program. -/
def temperaturePlace : Place where
  pre := text "\x7b\"device_id\":\"sensor01\","
  key := text "temperature"
  ws := []
  suf := text ",\"status\":\"active\"\x7d"
  zero_notMem := by decide
  length_key_le := by decide
  isspace_ws _ h := absurd h List.not_mem_nil

/-- The literal `23.5`. -/
def temperature : Literal where
  integer := ⟨⟨text "23", by decide, List.all_eq_true.1 rfl⟩, false⟩
  fraction := some ⟨text "5", by decide, List.all_eq_true.1 rfl⟩
  exponent := none

theorem noDigit_temperaturePlace : NoDigit temperaturePlace.suf := by
  rintro c ⟨⟩
  rfl

theorem faithful_iff_25 : Faithful temperaturePlace (.ofInt 25) := by
  have hfirst : temperaturePlace.IsFirst (Literal.ofInt 25).render := by
    show find _ _ = _
    decide +kernel
  have hvalue : (Literal.ofInt 25).integer.value = 25 := Numeral.value_ofInt 25
  refine (faithful_iff hfirst noDigit_temperaturePlace).2 (.inl ⟨rfl, rfl, ?_, ?_⟩)
  · rw [hvalue]
    decide
  · decide +kernel

/-- The fraction is dropped. -/
theorem temperature_truncated :
    temperaturePlace.fill temperature.render =
        text "\x7b\"device_id\":\"sensor01\",\"temperature\":23.5,\"status\":\"active\"\x7d" ∧
      temperaturePlace.IsFirst temperature.render ∧ NoDigit temperaturePlace.suf ∧
      extractJsonValue (temperaturePlace.fill temperature.render ++ [0]) (cString "temperature")
        (List.replicate maxValueSize 0) = .ok (2, text "23" ++ List.replicate 62 0) ∧
      ¬Faithful temperaturePlace temperature := by
  have hextract : extractJsonValue (temperaturePlace.fill temperature.render ++ [0])
      (cString "temperature") (List.replicate maxValueSize 0) =
      .ok (2, text "23" ++ List.replicate 62 0) := by decide +kernel
  have hfirst : temperaturePlace.IsFirst temperature.render := by
    show find _ _ = _
    decide +kernel
  refine ⟨by decide +kernel, hfirst, noDigit_temperaturePlace, hextract, fun h => ?_⟩
  obtain ⟨t, -, -, hlen⟩ := h [] [] _ 2 _ hextract (by decide)
  exact absurd hlen (by decide)

end FirmwareFuzz.Iot
