import FirmwareFuzz.Iot.Parser
import Mathlib.Data.List.TakeWhile

/-!
# The IoT message parser on strings

The equations of the parser on texts with their terminators: the message is
the line on `stdin` (`readMessage_eq`), it is cut at its spaces
(`parseMqttTopic_of_some`, `parseHttpRequest_of_some`), and a value is the
quoted text behind its key (`extractJsonValue_quoted`) or a number, which
always fits its array (`extractJsonValue_unquoted`).
-/

namespace FirmwareFuzz.Iot

open CLang

/-- A topic and a payload stored. -/
def storeMqtt (b : Bounds) (msg t p : List UInt8) : Except Fault (List UInt8) := do
  let msg ← topic.write b msg 0 (t ++ [0])
  payload.write b msg 0 (p ++ [0])

/-- A path and a body stored, if there are any. -/
def storeTarget (b : Bounds) (msg : List UInt8) :
    Option (List UInt8 × List UInt8) → Except Fault (List UInt8)
  | none => .ok msg
  | some (p, t) => do
    let msg ← path.write b msg 0 (p ++ [0])
    body.write b msg 0 (t ++ [0])

/-- A method stored, and then what there is of the rest. -/
def storeHttp (b : Bounds) (msg v : List UInt8) (q : Option (List UInt8 × List UInt8)) :
    Except Fault (List UInt8) := do
  let msg ← method.write b msg 0 (v ++ [0])
  storeTarget b msg q

/-! ## Splitting a message -/

variable {b : Bounds} {l t p r v x y msg value : List UInt8} {s : String}

theorem space_ne_zero : space ≠ 0 := by decide

theorem parseMqttTopic_of_none (hl : 0 ∉ l) (h4 : 4 ≤ l.length) (h : cut space (l.drop 4) = none)
    (m : List UInt8) : parseMqttTopic b (l ++ 0 :: m) msg = .ok msg := by
  have hdrop : (l ++ 0 :: m).drop 4 = l.drop 4 ++ 0 :: m := List.drop_append_of_le_length h4
  have hzero : 0 ∉ l.drop 4 := mt List.mem_of_mem_drop hl
  rw [parseMqttTopic, hdrop, strchr_text space_ne_zero hzero, h]
  rfl

theorem parseMqttTopic_of_some (hl : 0 ∉ l) (h4 : 4 ≤ l.length) (hlen : l.length < 2 ^ 31)
    (h : cut space (l.drop 4) = some (t, p)) (m : List UInt8) :
    parseMqttTopic b (l ++ 0 :: m) msg = storeMqtt b msg t p := by
  have hdrop : (l ++ 0 :: m).drop 4 = l.drop 4 ++ 0 :: m := List.drop_append_of_le_length h4
  have hzero : 0 ∉ l.drop 4 := mt List.mem_of_mem_drop hl
  obtain ⟨hcut, -⟩ := cut_eq_some_iff.1 h
  have hlt : t.length < 2 ^ 31 := by
    have hle := congrArg List.length hcut
    rw [List.length_append, List.length_drop] at hle
    omega
  rw [parseMqttTopic, hdrop, strchr_text space_ne_zero hzero, h]
  rw [hcut] at hzero ⊢
  rw [List.mem_append, not_or] at hzero
  simp only [Except.ok_bind, Option.map_some, sizeOfInt_intOfSize hlt, List.append_assoc,
    List.cons_append, strncpy_append hzero.1, drop_cut,
    Field.strcpy_append (List.not_mem_of_not_mem_cons hzero.2)]
  -- The terminator is written behind the topic.
  rw [storeMqtt, ← Field.write_append, bind_assoc, Nat.zero_add]

theorem parseHttpRequest_of_none (hl : 0 ∉ l) (h : cut space l = none) (m : List UInt8) :
    parseHttpRequest b (l ++ 0 :: m) msg = .ok msg := by
  simp only [parseHttpRequest, strlen_append hl, strcpy_append hl m List.length_replicate,
    strchr_text space_ne_zero hl, h, Except.ok_bind]
  rfl

theorem parseHttpRequest_of_some (hl : 0 ∉ l) (h : cut space l = some (v, r)) (m : List UInt8) :
    parseHttpRequest b (l ++ 0 :: m) msg = storeHttp b msg v (cut space r) := by
  simp only [parseHttpRequest, strlen_append hl, strcpy_append hl m List.length_replicate,
    strchr_text space_ne_zero hl, h, Except.ok_bind, Option.map_some]
  obtain ⟨rfl, -⟩ := cut_eq_some_iff.1 h
  rw [List.mem_append, not_or] at hl
  have hr : 0 ∉ r := List.not_mem_of_not_mem_cons hl.2
  simp only [List.append_assoc, List.cons_append, copyTo_cut, Except.ok_bind,
    Field.strcpy_append hl.1, drop_cut, strchr_text space_ne_zero hr]
  cases hc : cut space r with
  | none => rfl
  | some q =>
    obtain ⟨p, t⟩ := q
    obtain ⟨rfl, -⟩ := cut_eq_some_iff.1 hc
    rw [List.mem_append, not_or] at hr
    -- The second space cuts the copy behind the method and the path.
    have hcopy : copyTo (v ++ 0 :: (p ++ space :: (t ++ [0]))) (v.length + 1 + p.length) [0] =
        .ok (v ++ 0 :: (p ++ 0 :: (t ++ [0]))) := by
      have hlen : (v ++ 0 :: p).length = v.length + 1 + p.length := by
        rw [List.length_append, List.length_cons]
        omega
      have := copyTo_cut (v ++ 0 :: p) (t ++ [0]) space 0
      rwa [hlen, List.append_assoc, List.append_assoc] at this
    have hdrop : (v ++ 0 :: (p ++ 0 :: (t ++ [0]))).drop (v.length + 1 + p.length + 1) =
        t ++ [0] := by
      rw [Nat.add_assoc (v.length + 1), ← List.drop_drop, drop_cut, drop_cut]
    simp only [Option.map_some, List.append_assoc, List.cons_append, hcopy, Except.ok_bind,
      drop_cut, hdrop, Field.strcpy_append hr.1,
      Field.strcpy_append (List.not_mem_of_not_mem_cons hr.2)]
    rfl

/-! ## Keys -/

/-- The text of a key in a JSON text. -/
def keyText (k : List UInt8) : List UInt8 := quote :: k ++ [quote, 0x3A]

/-- The text searched for a key: what of it fits the array. -/
def cutKey (k : List UInt8) : List UInt8 := (keyText k).take (maxKeySize + 4 - 1)

/-- What is behind the first occurrence of a text and the spaces after it. -/
def behind (y x : List UInt8) : Option (List UInt8) :=
  (find y x).map fun i => (x.drop (i + y.length)).dropWhile isspace

variable {k : List UInt8}

theorem quote_ne_zero : quote ≠ 0 := by decide

theorem zero_notMem_keyText (hk : 0 ∉ k) : 0 ∉ keyText k := by
  rw [keyText, List.cons_append, List.mem_cons, List.mem_append, not_or, not_or]
  exact ⟨quote_ne_zero.symm, hk, by decide⟩

theorem zero_notMem_cutKey (hk : 0 ∉ k) : 0 ∉ cutKey k :=
  mt List.mem_of_mem_take (zero_notMem_keyText hk)

theorem length_keyText (k : List UInt8) : (keyText k).length = k.length + 3 := by
  rw [keyText, List.length_append, List.length_cons]
  rfl

/-- A key that fits is searched as a whole. -/
theorem cutKey_of_length_le (hk : k.length ≤ maxKeySize) : cutKey k = keyText k :=
  List.take_of_length_le ((length_keyText k).trans_le (Nat.add_le_add_right hk 3))

theorem searchKey_append (hk : 0 ∉ k) (m : List UInt8) :
    searchKey (k ++ 0 :: m) = .ok (cutKey k ++ [0]) := by
  rw [searchKey, strText_append hk]
  rfl

/-- Where `extract_json_value` looks for the value. -/
theorem extractJsonValue_text (hx : 0 ∉ x) (hk : 0 ∉ k) (m m' : List UInt8) :
    extractJsonValue (x ++ 0 :: m) (k ++ 0 :: m') value =
      match behind (cutKey k) x with
      | none => .ok (0, value)
      | some y => extractValue (y ++ 0 :: m) value := by
  rw [extractJsonValue, searchKey_append hk, Except.ok_bind,
    strstr_text hx (zero_notMem_cutKey hk), behind, Except.ok_bind]
  cases h : find (cutKey k) x with
  | none => rfl
  | some i =>
    have hdrop : (x ++ 0 :: m).drop (i + (cutKey k).length) =
        x.drop (i + (cutKey k).length) ++ 0 :: m :=
      List.drop_append_of_le_length (find_add_length_le h)
    simp only [strlen_append (zero_notMem_cutKey hk), Except.ok_bind, hdrop, skipSpace_append,
      Option.map_some]

theorem behind_suffix {y r : List UInt8} (h : behind y x = some r) : r <:+ x := by
  obtain ⟨i, -, rfl⟩ := Option.map_eq_some_iff.1 h
  exact (List.dropWhile_suffix _).trans (List.drop_suffix _ _)

theorem zero_notMem_behind {y r : List UInt8} (hx : 0 ∉ x) (h : behind y x = some r) : 0 ∉ r :=
  fun hmem => hx ((behind_suffix h).mem hmem)

/-! ## Values -/

/-- The text between quotes at the front. -/
def quoted : List UInt8 → Option (List UInt8)
  | [] => none
  | c :: x => if c = quote then (cut quote x).map Prod.fst else none

/-- The quoted value of a key. -/
def quotedValue (s : String) (x : List UInt8) : Option (List UInt8) :=
  (behind (keyText (text s)) x).bind quoted

/-- A text without NUL that fits the search key. -/
def IsKey (s : String) : Prop := 0 ∉ text s ∧ (text s).length ≤ maxKeySize

instance (s : String) : Decidable (IsKey s) := inferInstanceAs (Decidable (_ ∧ _))

variable {s : String}

/-- Where `extract_json_value` looks for the value of a key of the program. -/
theorem extractJsonValue_eq (hs : IsKey s) (hx : 0 ∉ x) (m : List UInt8) :
    extractJsonValue (x ++ 0 :: m) (cString s) value =
      match behind (keyText (text s)) x with
      | none => .ok (0, value)
      | some y => extractValue (y ++ 0 :: m) value := by
  rw [cString, extractJsonValue_text hx hs.1, cutKey_of_length_le hs.2]

theorem quoted_eq_some (h : quoted y = some v) :
    ∃ r, y = quote :: (v ++ quote :: r) ∧ quote ∉ v := by
  cases y with
  | nil => exact nomatch h
  | cons c y =>
    rw [quoted] at h
    split_ifs at h with hc
    obtain ⟨⟨w, r⟩, hcut, rfl⟩ := Option.map_eq_some_iff.1 h
    obtain ⟨rfl, hw⟩ := cut_eq_some_iff.1 hcut
    exact ⟨r, by rw [hc], hw⟩

theorem quoted_append (hv : quote ∉ v) (r : List UInt8) :
    quoted (quote :: (v ++ quote :: r)) = some v := by
  rw [quoted, if_pos rfl, cut_append hv]
  rfl

/-- A text that starts with quotes. -/
theorem extractValue_quote (hy : 0 ∉ y) (m : List UInt8) :
    extractValue (quote :: y ++ 0 :: m) value =
      match cut quote y with
      | none => .ok (0, value)
      | some (w, _) => do
        let len := intOfSize w.length
        let value ← copyTo value 0 (← strncpy (sizeOfInt len) (y ++ 0 :: m))
        let value ← copyTo value (sizeOfInt len) [0]
        return (len, value) := by
  have hload : load (quote :: y ++ 0 :: m) 0 = .ok quote := rfl
  have htail : (quote :: y ++ 0 :: m).drop 1 = y ++ 0 :: m := rfl
  simp only [extractValue, hload, htail, Except.ok_bind, if_true, strchr_text quote_ne_zero hy]
  cases cut quote y <;> rfl

/-- A text that does not start with quotes. -/
theorem extractValue_of_ne (hy : y.head? ≠ some quote) (m : List UInt8) :
    extractValue (y ++ 0 :: m) value = extractNumber (y ++ 0 :: m) value := by
  cases y with
  | nil => rfl
  | cons c y =>
    have hload : load (c :: y ++ 0 :: m) 0 = .ok c := rfl
    have hc : c ≠ quote := fun h => hy (congrArg some h)
    simp only [extractValue, hload, Except.ok_bind, if_neg hc]

/-- A value between quotes, as many bytes of it as an `int` counts. -/
theorem extractValue_take (hy : 0 ∉ y) (h : quoted y = some v)
    (hv : 0 ≤ (intOfSize v.length).toInt) (m : List UInt8) :
    extractValue (y ++ 0 :: m) value = (do
      let value ← copyTo value 0 (v.take (sizeOfInt (intOfSize v.length)) ++ [0])
      return (intOfSize v.length, value)) := by
  obtain ⟨r, rfl, hquote⟩ := quoted_eq_some h
  have hzero : 0 ∉ v ++ quote :: r := List.not_mem_of_not_mem_cons hy
  have hle : sizeOfInt (intOfSize v.length) ≤ v.length := sizeOfInt_intOfSize_le hv
  rw [extractValue_quote hzero, cut_append hquote]
  rw [List.mem_append, not_or] at hzero
  simp only [List.append_assoc, strncpy_take hzero.1 hle, Except.ok_bind]
  -- The terminator is written behind the value.
  rw [← copyTo_append, bind_assoc, Nat.zero_add, List.length_take_of_le hle]

theorem extractValue_quoted (hy : 0 ∉ y) (hv : v.length < 2 ^ 31) (h : quoted y = some v)
    (m : List UInt8) :
    extractValue (y ++ 0 :: m) value = (do
      let value ← copyTo value 0 (v ++ [0])
      return (intOfSize v.length, value)) := by
  have hnonneg : 0 ≤ (intOfSize v.length).toInt := (toInt_intOfSize hv).symm ▸ Int.natCast_nonneg _
  rw [extractValue_take hy h hnonneg, sizeOfInt_intOfSize hv, List.take_length]

/-- A number takes 21 cells. -/
theorem exists_extractNumber (y m : List UInt8) (hvalue : 21 ≤ value.length) :
    ∃ n value', extractNumber (y ++ 0 :: m) value = .ok (n, value') ∧
      ∃ x, strText value' = .ok x := by
  obtain ⟨n, hn, hrange⟩ := exists_strtol y m
  obtain ⟨e, he⟩ := exists_strtolEnd y m
  have hlt : (decimal n).length < value.length := by
    have := length_decimal_le hrange
    omega
  refine ⟨intOfSize e, decimal n ++ 0 :: value.drop ((decimal n).length + 1), ?_,
    decimal n, strText_append (zero_notMem_decimal n) _⟩
  simp only [extractNumber, hn, copyTo_string hlt, he, Except.ok_bind]
  rfl

theorem extractValue_unquoted (hy : 0 ∉ y) (h : quoted y = none) (m : List UInt8)
    (hvalue : 21 ≤ value.length) :
    ∃ n value', extractValue (y ++ 0 :: m) value = .ok (n, value') ∧
      (n ≠ 0 → ∃ x, strText value' = .ok x) := by
  by_cases hc : y.head? = some quote
  · -- The quotes are not closed.
    obtain ⟨y, rfl⟩ := List.head?_eq_some_iff.1 hc
    rw [quoted, if_pos rfl, Option.map_eq_none_iff] at h
    refine ⟨0, value, ?_, fun h => absurd rfl h⟩
    rw [extractValue_quote (List.not_mem_of_not_mem_cons hy), h]
  · obtain ⟨n, value', hn, hx⟩ := exists_extractNumber y m hvalue
    exact ⟨n, value', (extractValue_of_ne hc m).trans hn, fun _ => hx⟩

theorem isInfix_of_quoted (h : quoted y = some v) : v <:+: y := by
  obtain ⟨r, rfl, -⟩ := quoted_eq_some h
  exact ⟨[quote], quote :: r, by simp⟩

theorem isInfix_of_quotedValue (h : quotedValue s x = some v) : v <:+: x := by
  obtain ⟨y, hy, hv⟩ := Option.bind_eq_some_iff.1 h
  exact (isInfix_of_quoted hv).trans (behind_suffix hy).isInfix

theorem extractJsonValue_quoted (hs : IsKey s) (hx : 0 ∉ x) (hlen : x.length < 2 ^ 31)
    (h : quotedValue s x = some v) (m : List UInt8) :
    extractJsonValue (x ++ 0 :: m) (cString s) value = (do
      let value ← copyTo value 0 (v ++ [0])
      return (intOfSize v.length, value)) := by
  have hvlen : v.length < 2 ^ 31 := (isInfix_of_quotedValue h).length_le.trans_lt hlen
  obtain ⟨y, hy, hv⟩ := Option.bind_eq_some_iff.1 h
  rw [extractJsonValue_eq hs hx, hy]
  exact extractValue_quoted (zero_notMem_behind hx hy) hvlen hv m

theorem extractJsonValue_unquoted (hs : IsKey s) (hx : 0 ∉ x) (h : quotedValue s x = none)
    (m : List UInt8) (hvalue : 21 ≤ value.length) :
    ∃ n value', extractJsonValue (x ++ 0 :: m) (cString s) value = .ok (n, value') ∧
      (n ≠ 0 → ∃ t, strText value' = .ok t) := by
  rw [extractJsonValue_eq hs hx]
  cases hy : behind (keyText (text s)) x with
  | none => exact ⟨0, value, rfl, fun h => absurd rfl h⟩
  | some y =>
    rw [quotedValue, hy] at h
    exact extractValue_unquoted (zero_notMem_behind hx hy) h m hvalue

/-! ## The warning -/

/-- A method that is there gets no warning. -/
theorem warnEmptyMethod_of_ne_nil (hv : strText (method.room b msg) = .ok v) (h : v ≠ []) :
    warnEmptyMethod b msg = pure () := by
  have hlen : strlen (method.room b msg) = .ok v.length := by
    rw [strlen, hv]
    rfl
  simp only [warnEmptyMethod, Stdout.liftM_eq, hlen, Stdout.lift_ok_bind]
  exact if_neg (mt List.length_eq_zero_iff.1 h)

/-- Without a method and a path, the warning is the text of the source. -/
theorem warnEmptyMethod_of_nil (hv : strText (method.room b msg) = .ok [])
    (hp : strText (path.room b msg) = .ok []) :
    warnEmptyMethod b msg = printf (text "Warning: Empty method in request: ") [] := by
  have hlen : strlen (method.room b msg) = .ok 0 := by
    rw [strlen, hv]
    rfl
  have hcopy : copyTo (List.replicate 100 0) 0 (text "Warning: Empty method in request: " ++ [0]) =
      .ok (text "Warning: Empty method in request: " ++ 0 :: List.replicate 65 0) := by decide
  have hzero : 0 ∉ text "Warning: Empty method in request: " := by decide
  simp only [warnEmptyMethod, Stdout.liftM_eq, hlen, hp, Stdout.lift_ok_bind, if_true,
    List.append_nil, hcopy, strText_append hzero]

/-! ## The line -/

/-- The bytes of a line, as a message has them. -/
def inLine (c : UInt8) : Bool := c ≠ 0x0A && c ≠ 0

/-- The message on `stdin`: the array takes 511 bytes of it, and the message ends
    at the first NUL or end of line. -/
def line (stdin : List UInt8) : List UInt8 := (stdin.take (maxBufferSize * 2 - 1)).takeWhile inLine

theorem notMem_line {c : UInt8} (hc : inLine c = false) (stdin : List UInt8) : c ∉ line stdin :=
  fun h => absurd (List.mem_takeWhile_imp h) (by rw [hc]; exact Bool.false_ne_true)

theorem zero_notMem_line (stdin : List UInt8) : 0 ∉ line stdin := notMem_line rfl stdin

theorem length_line_le (stdin : List UInt8) : (line stdin).length ≤ 511 :=
  (List.takeWhile_prefix _).length_le.trans (List.length_take_le _ _)

theorem length_takeLine_le (n : ℕ) (stdin : List UInt8) : (takeLine n stdin).length ≤ n := by
  induction n generalizing stdin with
  | zero => exact Nat.le_refl _
  | succ n ih =>
    cases stdin with
    | nil => exact Nat.zero_le _
    | cons c stdin =>
      rw [takeLine, List.length_cons]
      split_ifs
      · exact Nat.le_add_left _ _
      · exact Nat.succ_le_succ (ih stdin)

/-- What `fgets` leaves out is not in the line. -/
theorem takeWhile_takeLine (n : ℕ) (stdin : List UInt8) :
    (takeLine n stdin).takeWhile inLine = (stdin.take n).takeWhile inLine := by
  induction n generalizing stdin with
  | zero => rfl
  | succ n ih =>
    cases stdin with
    | nil => rfl
    | cons c stdin =>
      rw [takeLine, List.take_succ_cons, List.takeWhile_cons, List.takeWhile_cons]
      split_ifs with hc h
      · rw [h] at hc
        exact absurd hc (by decide)
      · rw [ih]
      · rfl

/-- A byte that is not in a line ends it. -/
theorem exists_append_takeWhile (x m : List UInt8) {d : UInt8} (hd : inLine d = false) :
    ∃ c m', x ++ d :: m = x.takeWhile inLine ++ c :: m' ∧ inLine c = false := by
  induction x with
  | nil => exact ⟨d, m, rfl, hd⟩
  | cons a x ih =>
    rw [List.takeWhile_cons]
    split_ifs with ha
    · obtain ⟨c, m', h, hc⟩ := ih
      exact ⟨c, m', congrArg (a :: ·) h, hc⟩
    · exact ⟨a, x ++ d :: m, rfl, Bool.eq_false_iff.2 ha⟩

/-- The array holds the line as a string. -/
theorem readMessage_eq {input stdin : List UInt8} (hinput : input.length = maxBufferSize * 2)
    (hstdin : stdin ≠ []) : ∃ m, readMessage input stdin = .ok (some (line stdin ++ 0 :: m)) := by
  let read := takeLine (maxBufferSize * 2 - 1) stdin
  have hfgets : fgets input (maxBufferSize * 2) stdin =
      .ok (some (read ++ 0 :: input.drop (read.length + 1))) := by
    have hle : read.length + 1 ≤ input.length := by
      rw [hinput]
      exact Nat.succ_le_succ (length_takeLine_le _ stdin)
    rw [fgets, if_neg hstdin, copyTo, List.length_append, List.length_singleton, Nat.zero_add,
      if_pos hle, List.take_zero, List.nil_append, List.append_assoc]
    rfl
  have hzero : inLine 0 = false := rfl
  obtain ⟨c, m, hblock, hc⟩ := exists_append_takeWhile read (input.drop (read.length + 1)) hzero
  rw [takeWhile_takeLine, ← line] at hblock
  have hend : c = 0x0A ∨ c = 0 := by
    simpa [inLine, or_iff_not_imp_left] using hc
  refine ⟨m, ?_⟩
  rw [readMessage, hfgets, hblock]
  simp only [Except.ok_bind, strcspn_append (notMem_line rfl stdin) (zero_notMem_line stdin) hend,
    copyTo_cut]
  rfl

end FirmwareFuzz.Iot
