import FirmwareFuzz.Iot.Strings

/-!
# The members of a JSON text

A value stands at a place in a JSON text (`Place`): behind a key and spaces,
with anything around them. As long as the key does not occur earlier, what
`extract_json_value` sees is the value and what is behind it
(`extractJsonValue_fill`), and it gives back what was stored there: a quoted
text, or a number in the range of a `long` (`extractJsonValue_render`).
-/

namespace FirmwareFuzz.Iot

open CLang

/-! ## Places -/

/-- A place for a value in a JSON text: what is in front of the key, the key, the
    spaces behind its colon, and what is behind the value. -/
structure Place where
  pre : List UInt8
  key : List UInt8
  ws : List UInt8
  suf : List UInt8
  zero_notMem : 0 ∉ pre ++ key ++ suf
  length_key_le : key.length ≤ maxKeySize
  isspace_ws : ∀ c ∈ ws, isspace c = true

namespace Place

variable {C : Place} {t value : List UInt8}

/-- The text with a value at its place. -/
def fill (C : Place) (t : List UInt8) : List UInt8 :=
  C.pre ++ keyText C.key ++ (C.ws ++ (t ++ C.suf))

/-- The key in front of the value is the first one in the text. -/
def IsFirst (C : Place) (t : List UInt8) : Prop :=
  find (keyText C.key) (C.fill t) = some C.pre.length

theorem zero_notMem_key (C : Place) : 0 ∉ C.key := fun h =>
  C.zero_notMem (List.mem_append_left _ (List.mem_append_right _ h))

theorem zero_notMem_suf (C : Place) : 0 ∉ C.suf := fun h =>
  C.zero_notMem (List.mem_append_right _ h)

theorem zero_notMem_fill (C : Place) (ht : 0 ∉ t) : 0 ∉ C.fill t := by
  have hpre : 0 ∉ C.pre := fun h =>
    C.zero_notMem (List.mem_append_left _ (List.mem_append_left _ h))
  have hws : 0 ∉ C.ws := fun h => absurd (C.isspace_ws 0 h) (by decide)
  simp only [fill, List.mem_append, not_or]
  exact ⟨⟨hpre, zero_notMem_keyText C.zero_notMem_key⟩, hws, ht, C.zero_notMem_suf⟩

theorem behind_fill (hfirst : C.IsFirst t)
    (ht : (t ++ C.suf).dropWhile isspace = t ++ C.suf) :
    behind (keyText C.key) (C.fill t) = some (t ++ C.suf) := by
  rw [behind, hfirst, Option.map_some, fill, ← List.length_append, List.drop_left,
    List.dropWhile_append_of_pos C.isspace_ws, ht]

/-- What `extract_json_value` sees of a text with a value in it. -/
theorem extractJsonValue_fill (hfirst : C.IsFirst t) (hzero : 0 ∉ t)
    (ht : (t ++ C.suf).dropWhile isspace = t ++ C.suf) (m m' : List UInt8) :
    extractJsonValue (C.fill t ++ 0 :: m) (C.key ++ 0 :: m') value =
      extractValue (t ++ C.suf ++ 0 :: m) value := by
  rw [extractJsonValue_text (C.zero_notMem_fill hzero) C.zero_notMem_key,
    cutKey_of_length_le C.length_key_le, behind_fill hfirst ht]

end Place

/-! ## Values -/

variable {n : Numeral} {x value : List UInt8}

/-- A number is stored as it is printed, clamped to a `long`, and its text is counted. -/
theorem extractValue_numeral (hx : NoDigit x) (n : Numeral) (m : List UInt8) :
    extractValue (n.render ++ x ++ 0 :: m) value = (do
      let value ← copyTo value 0 (decimal (clampLong n.value) ++ [0])
      return (intOfSize n.render.length, value)) := by
  obtain ⟨b, y, hy, hb⟩ := n.exists_render_eq_cons
  have hquote : b ≠ quote := by
    rintro rfl
    rcases hb with hb | hb <;> exact absurd hb (by decide)
  have hload : load (n.render ++ x ++ 0 :: m) 0 = .ok b := by
    rw [hy]
    rfl
  simp only [extractValue, hload, Except.ok_bind, if_neg hquote, extractNumber,
    Numeral.strtol_render hx, Numeral.strtolEnd_render hx]

/-- A value of a member: a text, or an integer. -/
inductive Member
  | quoted (v : List UInt8)
  | number (n : ℤ)

namespace Member

/-- The text of a value. -/
def text : Member → List UInt8
  | .quoted v => v
  | .number n => decimal n

/-- A value as it is written. -/
def render : Member → List UInt8
  | .quoted v => quote :: v ++ [quote]
  | .number n => decimal n

/-- A quoted text that ends at its quotes and fits its array; or a `long` that
    ends in front of what is behind it. -/
def Valid (suf : List UInt8) : Member → Prop
  | .quoted v => 0 ∉ v ∧ quote ∉ v ∧ v.length < maxValueSize
  | .number n => (-2 ^ 63 ≤ n ∧ n < 2 ^ 63) ∧ NoDigit suf

variable {t : Member} {suf : List UInt8}

theorem zero_notMem_text (ht : t.Valid suf) : 0 ∉ t.text := by
  cases t with
  | quoted v => exact ht.1
  | number n => exact zero_notMem_decimal n

theorem zero_notMem_render (ht : t.Valid suf) : 0 ∉ t.render := by
  cases t with
  | quoted v =>
    rw [render, List.cons_append, List.mem_cons, List.mem_append, List.mem_singleton, not_or,
      not_or]
    exact ⟨quote_ne_zero.symm, ht.1, quote_ne_zero.symm⟩
  | number n => exact zero_notMem_decimal n

theorem length_text_lt (ht : t.Valid suf) : t.text.length < maxValueSize := by
  cases t with
  | quoted v => exact ht.2.2
  | number n => exact Nat.lt_of_le_of_lt (length_decimal_le ht.1) (by decide)

/-- No space is in front of a value. -/
theorem dropWhile_render (t : Member) (suf : List UInt8) :
    (t.render ++ suf).dropWhile isspace = t.render ++ suf := by
  cases t with
  | quoted v => rfl
  | number n =>
    rw [render, ← Numeral.render_ofInt]
    exact Numeral.dropWhile_render _ _

/-- A value is stored as its text, and its length is returned. -/
theorem extractValue_render (ht : t.Valid suf) (hsuf : 0 ∉ suf) (m : List UInt8) :
    extractValue (t.render ++ suf ++ 0 :: m) value = (do
      let value ← copyTo value 0 (t.text ++ [0])
      return (intOfSize t.text.length, value)) := by
  have hmem : 0 ∉ t.render ++ suf := by
    rw [List.mem_append, not_or]
    exact ⟨zero_notMem_render ht, hsuf⟩
  cases t with
  | quoted v =>
    obtain ⟨hzero, hquote, hlen⟩ := ht
    have hv : v.length < 2 ^ 31 := hlen.trans (by decide)
    have hquoted : Iot.quoted (quote :: v ++ [quote] ++ suf) = some v := by
      rw [List.cons_append, List.cons_append, List.append_assoc]
      exact quoted_append hquote suf
    exact extractValue_quoted hmem hv hquoted m
  | number n =>
    obtain ⟨hlong, hend⟩ := ht
    rw [render, text, ← Numeral.render_ofInt, extractValue_numeral hend, Numeral.value_ofInt,
      clampLong_eq_iff.2 hlong, Numeral.render_ofInt]

end Member

/-- A value is given back as it was stored, wherever it stands behind the first
    occurrence of its key. -/
theorem extractJsonValue_render {C : Place} {t : Member} (ht : t.Valid C.suf)
    (hfirst : C.IsFirst t.render) {value : List UInt8} (hvalue : maxValueSize ≤ value.length)
    (m m' : List UInt8) :
    ∃ n value', extractJsonValue (C.fill t.render ++ 0 :: m) (C.key ++ 0 :: m') value =
        .ok (n, value') ∧
      n.toInt = t.text.length ∧ strText value' = .ok t.text := by
  have hlt := Member.length_text_lt ht
  have hint : t.text.length < 2 ^ 31 := hlt.trans (by decide)
  refine ⟨intOfSize t.text.length, t.text ++ 0 :: value.drop (t.text.length + 1), ?_,
    toInt_intOfSize hint, strText_append (Member.zero_notMem_text ht) _⟩
  rw [Place.extractJsonValue_fill hfirst (Member.zero_notMem_render ht) (t.dropWhile_render C.suf),
    Member.extractValue_render ht C.zero_notMem_suf, copyTo_string (hlt.trans_le hvalue)]
  rfl

/-- The place of a value alone in an object, with a space in front of it. -/
def valuePlace : Place where
  pre := [0x7B]
  key := text "value"
  ws := [space]
  suf := [0x7D]
  zero_notMem := by decide
  length_key_le := by decide
  isspace_ws := List.all_eq_true.1 rfl

theorem extractJsonValue_render_min :
    ∃ n value', extractJsonValue (valuePlace.fill (Member.number (-2 ^ 63)).render ++ [0])
        (cString "value") (List.replicate 64 0) = .ok (n, value') ∧
      n.toInt = (Member.number (-2 ^ 63)).text.length ∧
      strText value' = .ok (Member.number (-2 ^ 63)).text := by
  have hvalid : (Member.number (-2 ^ 63)).Valid valuePlace.suf := by
    refine ⟨by decide, ?_⟩
    rintro c ⟨⟩
    rfl
  have hfirst : valuePlace.IsFirst (Member.number (-2 ^ 63)).render := by
    show find _ _ = _
    decide +kernel
  exact extractJsonValue_render hvalid hfirst (by decide) [] []

end FirmwareFuzz.Iot
