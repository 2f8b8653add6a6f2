import FirmwareFuzz.Iot.Strings
import Mathlib.Data.List.DropRight

/-!
# Looking up a key

`extract_json_value` takes a value from behind the first occurrence of its
search key (`extractJsonValue_eq_valuePos`). That key is printed to an array
of 36 bytes, and `snprintf` cuts it there: a key of more than 32 bytes loses
its colon. A text behind the cut key is then taken for the value, although the
key is not there, or not as a key (`lookupSound_iff`).
-/

namespace FirmwareFuzz.Iot

open CLang

/-- Where `value_start` points to, behind the spaces. -/
def valuePos (json key : List UInt8) : Except Fault (Option ℕ) := do
  let search_key ← searchKey key
  match ← strstr json search_key with
  | none => return none
  | some key_pos =>
    let value_start ← skipSpace (json.drop (key_pos + (← strlen search_key)))
    return some (json.length - value_start.length)

/-- The text of the value at the front: between quotes, or an integer. -/
def valueText (y : List UInt8) : List UInt8 := (quoted y).getD (integerText y)

/-- A value is at the front, and its length is positive as an `int`. -/
def HasValue (y : List UInt8) : Prop :=
  0 < (valueText y).length % 2 ^ 32 ∧ (valueText y).length % 2 ^ 32 < 2 ^ 31

instance (y : List UInt8) : Decidable (HasValue y) := inferInstanceAs (Decidable (_ ∧ _))

/-- A value found for a key starts behind the key, its quotes and colon, and
    spaces. -/
def LookupSound (x k : List UInt8) : Prop :=
  ∀ m m' value n value', extractJsonValue (x ++ 0 :: m) (k ++ 0 :: m') value = .ok (n, value') →
    0 < n.toInt → ∃ pre ws, pre ++ keyText k ++ ws <+: x ∧ (∀ c ∈ ws, isspace c = true) ∧
      valuePos (x ++ 0 :: m) (k ++ 0 :: m') = .ok (some (pre ++ keyText k ++ ws).length)

variable {k x y z v value value' : List UInt8} {n : Int32}

/-! ## The position -/

theorem extractJsonValue_eq_valuePos (json key value : List UInt8) :
    extractJsonValue json key value = (do
      match ← valuePos json key with
      | none => return (0, value)
      | some i => extractValue (json.drop i) value) := by
  simp only [extractJsonValue, valuePos, bind_assoc]
  refine bind_congr fun search_key => bind_congr fun key_pos => ?_
  cases key_pos with
  | none => rfl
  | some key_pos =>
    simp only [bind_assoc, pure_bind]
    refine bind_congr fun len => Except.bind_congr_ok fun value_start h => ?_
    have hsuffix := (skipSpace_suffix h).trans (List.drop_suffix _ _)
    rw [← List.suffix_iff_eq_drop.1 hsuffix]

theorem valuePos_text (hx : 0 ∉ x) (hk : 0 ∉ k) (m m' : List UInt8) :
    valuePos (x ++ 0 :: m) (k ++ 0 :: m') =
      .ok ((behind (cutKey k) x).map fun y => x.length - y.length) := by
  rw [valuePos, searchKey_append hk, Except.ok_bind, strstr_text hx (zero_notMem_cutKey hk),
    Except.ok_bind, behind]
  cases h : find (cutKey k) x with
  | none => rfl
  | some i =>
    have hdrop : (x ++ 0 :: m).drop (i + (cutKey k).length) =
        x.drop (i + (cutKey k).length) ++ 0 :: m :=
      List.drop_append_of_le_length (find_add_length_le h)
    simp only [strlen_append (zero_notMem_cutKey hk), Except.ok_bind, hdrop, skipSpace_append,
      Option.map_some, List.length_append, Nat.add_sub_add_right]
    rfl

/-- What is in front of the text behind another. -/
theorem behind_split (h : behind z x = some y) :
    ∃ pre ws, x = pre ++ z ++ ws ++ y ∧ (∀ c ∈ ws, isspace c = true) ∧
      find z x = some pre.length := by
  obtain ⟨i, hi, rfl⟩ := Option.map_eq_some_iff.1 h
  obtain ⟨r, hr⟩ := isPrefix_of_find hi
  have hle := find_add_length_le hi
  have hdrop : x.drop (i + z.length) = r := by
    rw [← List.drop_drop, ← hr, List.drop_left]
  refine ⟨x.take i, r.takeWhile isspace, ?_, fun c hc => List.mem_takeWhile_imp hc, ?_⟩
  · rw [hdrop, List.append_assoc, List.takeWhile_append_dropWhile, List.append_assoc, hr,
      List.take_append_drop]
  · rw [hi, List.length_take_of_le (by omega)]

/-- Behind a key that was cut, there is no whole key: its colon is no space. -/
theorem not_keyText_of_behind (hk : maxKeySize < k.length) (h : behind (cutKey k) x = some y)
    {pre ws : List UInt8} (hx : x = pre ++ keyText k ++ ws ++ y) : False := by
  obtain ⟨pre₀, sp, hx₀, hsp, hfind⟩ := behind_split h
  have hcut : (cutKey k).length = maxKeySize + 3 :=
    List.length_take_of_le ((Nat.add_le_add_right hk.le 3).trans (length_keyText k).ge)
  -- The cut key is found no later than the key.
  have hle : pre₀.length ≤ pre.length := by
    have hpre : cutKey k <+: x.drop pre.length := by
      rw [hx, List.append_assoc, List.append_assoc, List.drop_left]
      exact (List.take_prefix _ _).trans (List.prefix_append _ _)
    obtain ⟨i, hi, hfind'⟩ := exists_find_le hpre
    rw [hfind, Option.some_inj] at hfind'
    exact hfind' ▸ hi
  have heq : pre ++ keyText k ++ ws = pre₀ ++ cutKey k ++ sp :=
    List.append_cancel_right (hx.symm.trans hx₀)
  have hlen := congrArg List.length heq
  simp only [List.length_append, length_keyText, hcut] at hlen
  -- So the colon is one of the spaces that were skipped.
  have hcolon : 0x3A :: ws <:+ pre ++ keyText k ++ ws := by
    refine ⟨pre ++ quote :: k ++ [quote], ?_⟩
    simp [keyText]
  have hsuffix : 0x3A :: ws <:+ sp := by
    refine List.suffix_of_suffix_length_le hcolon (heq ▸ List.suffix_append _ _) ?_
    rw [List.length_cons]
    omega
  have hspace := hsp 0x3A (hsuffix.mem List.mem_cons_self)
  exact absurd hspace (by decide)

/-! ## The value -/

variable {m : List UInt8}

/-- The number returned is the length of the value. -/
theorem ret_extractValue (hy : 0 ∉ y) (hspace : y.dropWhile isspace = y)
    (h : extractValue (y ++ 0 :: m) value = .ok (n, value')) :
    n = intOfSize (valueText y).length := by
  by_cases hc : y.head? = some quote
  · obtain ⟨y, rfl⟩ := List.head?_eq_some_iff.1 hc
    have hinteger : integerText (quote :: y) = [] := rfl
    rw [extractValue_quote (List.not_mem_of_not_mem_cons hy)] at h
    rw [valueText, quoted, if_pos rfl, hinteger]
    cases hcut : cut quote y with
    | none =>
      rw [hcut] at h
      exact (congrArg Prod.fst (Except.ok.inj h)).symm
    | some q =>
      rw [hcut] at h
      obtain ⟨bytes, -, h⟩ := Except.bind_eq_ok_iff.1 h
      obtain ⟨value₁, -, h⟩ := Except.bind_eq_ok_iff.1 h
      obtain ⟨value₂, -, h⟩ := Except.bind_eq_ok_iff.1 h
      exact (congrArg Prod.fst (Except.ok.inj h)).symm
  · have hquoted : quoted y = none := by
      cases y with
      | nil => rfl
      | cons c y => exact if_neg fun h => hc (congrArg some h)
    rw [extractValue_of_ne hc] at h
    obtain ⟨num, -, h⟩ := Except.bind_eq_ok_iff.1 h
    obtain ⟨value₁, -, h⟩ := Except.bind_eq_ok_iff.1 h
    obtain ⟨e, he, h⟩ := Except.bind_eq_ok_iff.1 h
    rw [strtolEnd_text hspace, Except.ok.injEq] at he
    rw [valueText, hquoted, Option.getD_none, he]
    exact (congrArg Prod.fst (Except.ok.inj h)).symm

/-- There is an array with room for the value. -/
theorem exists_extractValue (hy : 0 ∉ y) (h : HasValue y) (m : List UInt8) :
    ∃ value r, extractValue (y ++ 0 :: m) value = .ok r := by
  let value : List UInt8 := List.replicate (y.length + 21) 0
  have hlen : value.length = y.length + 21 := List.length_replicate
  refine ⟨value, ?_⟩
  cases hq : quoted y with
  | none =>
    obtain ⟨n, value', hn, -⟩ := extractValue_unquoted hy hq m (hlen ▸ Nat.le_add_left _ _)
    exact ⟨_, hn⟩
  | some v =>
    rw [HasValue, valueText, hq, Option.getD_some, ← toInt_intOfSize_pos_iff] at h
    have hv : (v.take (sizeOfInt (intOfSize v.length))).length < value.length :=
      calc
        _ ≤ v.length := List.length_take_le' _ _
        _ ≤ y.length := (isInfix_of_quoted hq).length_le
        _ < value.length := by omega
    rw [extractValue_take hy hq h.le, copyTo_string hv]
    exact ⟨_, rfl⟩

/-! ## Soundness -/

theorem dropWhile_behind (h : behind z x = some y) : y.dropWhile isspace = y := by
  obtain ⟨i, -, rfl⟩ := Option.map_eq_some_iff.1 h
  exact List.dropWhile_idempotent _ _

/-- A value found is behind the first occurrence of the cut key. -/
theorem exists_behind (hx : 0 ∉ x) (hk : 0 ∉ k) {m m' : List UInt8}
    (h : extractJsonValue (x ++ 0 :: m) (k ++ 0 :: m') value = .ok (n, value'))
    (hn : 0 < n.toInt) :
    ∃ y, behind (cutKey k) x = some y ∧ extractValue (y ++ 0 :: m) value = .ok (n, value') := by
  rw [extractJsonValue_text hx hk] at h
  cases hy : behind (cutKey k) x with
  | none =>
    rw [hy, Except.ok.injEq] at h
    obtain ⟨rfl, -⟩ := Prod.mk.inj h
    exact absurd hn (by decide)
  | some y =>
    rw [hy] at h
    exact ⟨y, rfl, h⟩

/-- A key that is searched as a whole is in front of its value. -/
theorem lookupSound_of_length_le (hx : 0 ∉ x) (hk : 0 ∉ k) (hle : k.length ≤ maxKeySize) :
    LookupSound x k := by
  intro m m' value n value' h hn
  obtain ⟨y, hy, -⟩ := exists_behind hx hk h hn
  obtain ⟨pre, ws, hsplit, hws, -⟩ := behind_split hy
  rw [cutKey_of_length_le hle] at hsplit
  have hlen := congrArg List.length hsplit
  rw [List.length_append] at hlen
  refine ⟨pre, ws, ⟨y, hsplit.symm⟩, hws, ?_⟩
  rw [valuePos_text hx hk, hy, Option.map_some, hlen, Nat.add_sub_cancel]

/-- Where no value is, none is found. -/
theorem lookupSound_of_not_hasValue (hx : 0 ∉ x) (hk : 0 ∉ k)
    (hnone : ∀ y, behind (cutKey k) x = some y → ¬HasValue y) : LookupSound x k := by
  intro m m' value n value' h hn
  obtain ⟨y, hy, h⟩ := exists_behind hx hk h hn
  rw [ret_extractValue (zero_notMem_behind hx hy) (dropWhile_behind hy) h,
    toInt_intOfSize_pos_iff] at hn
  exact absurd hn (hnone y hy)

/-- A lookup is sound when the key fits the array, or no value is behind what is
    left of it. -/
theorem lookupSound_iff (hx : 0 ∉ x) (hk : 0 ∉ k) :
    LookupSound x k ↔
      k.length ≤ maxKeySize ∨ ∀ y, behind (cutKey k) x = some y → ¬HasValue y := by
  constructor
  · intro h
    by_contra! hnot
    obtain ⟨hlt, y, hy, hvalue⟩ := hnot
    have hzero : 0 ∉ y := zero_notMem_behind hx hy
    obtain ⟨value, ⟨n, value'⟩, hr⟩ := exists_extractValue hzero hvalue []
    have hn : 0 < n.toInt := by
      rw [ret_extractValue hzero (dropWhile_behind hy) hr]
      exact toInt_intOfSize_pos_iff.2 hvalue
    have heq : extractJsonValue (x ++ [0]) (k ++ [0]) value = .ok (n, value') := by
      rw [extractJsonValue_text hx hk, hy]
      exact hr
    obtain ⟨pre, ws, hpre, -, hat⟩ := h [] [] value n value' heq hn
    rw [valuePos_text hx hk, hy, Option.map_some, Except.ok.injEq, Option.some_inj] at hat
    -- The whole key would stand in front of the value.
    obtain ⟨l, hl⟩ := behind_suffix hy
    have hfront : pre ++ keyText k ++ ws = l := by
      have htake := List.prefix_iff_eq_take.1 hpre
      rwa [← hat, ← hl, List.length_append, Nat.add_sub_cancel, List.take_left] at htake
    exact not_keyText_of_behind hlt hy (hfront ▸ hl.symm)
  · rintro (hle | hnone)
    · exact lookupSound_of_length_le hx hk hle
    · exact lookupSound_of_not_hasValue hx hk hnone

/-- A key of 33 bytes. -/
def longKey : List UInt8 := List.replicate 33 0x6B

/-- The key as a text of its own, without a colon, and another text. -/
def longKeyText : List UInt8 := quote :: longKey ++ [quote, space, quote, 0x76, quote]

theorem lookupSound_iff_longKey : LookupSound (keyText longKey) longKey := by
  refine (lookupSound_iff (by decide) (by decide)).2 (.inr fun y hy => ?_)
  -- Only the colon is left behind the cut key.
  obtain rfl : [0x3A] = y := Option.some.inj hy
  decide

/-- The other text is taken for the value of the key. -/
theorem lookup_longKey :
    (∃ value, extractJsonValue (longKeyText ++ [0]) (longKey ++ [0]) (List.replicate 64 0) =
      .ok (1, value)) ∧
      find (keyText longKey) longKeyText = none ∧ ¬LookupSound longKeyText longKey := by
  have hextract : extractJsonValue (longKeyText ++ [0]) (longKey ++ [0]) (List.replicate 64 0) =
      .ok (1, 0x76 :: List.replicate 63 0) := by decide +kernel
  have hfind : find (keyText longKey) longKeyText = none := by decide +kernel
  refine ⟨⟨_, hextract⟩, hfind, fun h => ?_⟩
  obtain ⟨pre, ws, ⟨y, hy⟩, -⟩ := h [] [] _ 1 _ hextract (by decide)
  have hpre : keyText longKey <+: longKeyText.drop pre.length := by
    rw [← hy, List.append_assoc, List.append_assoc, List.drop_left]
    exact List.prefix_append _ _
  obtain ⟨i, -, hi⟩ := exists_find_le hpre
  rw [hfind] at hi
  cases hi

end FirmwareFuzz.Iot
