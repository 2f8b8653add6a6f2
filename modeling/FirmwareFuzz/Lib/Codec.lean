import Mathlib.Data.List.Basic

/-!
# Prefix codes

A prefix code writes every valid value as a word, and has a reader taking one
word off the front of a stream, whatever follows it (`decode_encode`). Hence a
stream of words is cut back into its values by taking one word off it after the
other (`decodeAll_encode`), and where a stream of words starts with words, words
follow (`Whole.of_append`).
-/

/-- A prefix code for values in `α`, on streams of `β`. -/
structure PrefixCode (α β : Type*) where
  /-- The values the code covers. -/
  Valid : α → Prop
  encode : α → List β
  /-- The value at the front of a stream, and what follows its word. -/
  decode : List β → Option (α × List β)
  encode_ne_nil : ∀ {a}, Valid a → encode a ≠ []
  decode_encode : ∀ {a} (s : List β), Valid a → decode (encode a ++ s) = some (a, s)

namespace PrefixCode

variable {α β : Type*}

/-- The values of a whole stream, by a reader of single values; `none` when
    the reader fails on the way, or takes nothing off the stream. -/
def decodeAll (decode : List β → Option (α × List β)) (s : List β) : Option (List α) :=
  if s = [] then some []
  else match decode s with
    | none => none
    | some (a, r) => if r.length < s.length then (decodeAll decode r).map (a :: ·) else none
termination_by s.length

variable (c : PrefixCode α β)

/-- A stream of words is cut back into its values. -/
theorem decodeAll_encode {as : List α} (h : ∀ a ∈ as, c.Valid a) :
    decodeAll c.decode (as.flatMap c.encode) = some as := by
  induction as with
  | nil => rw [List.flatMap_nil, decodeAll, if_pos rfl]
  | cons a as ih =>
    have ha := h a List.mem_cons_self
    have hpos := List.length_pos_iff.2 (c.encode_ne_nil ha)
    rw [List.flatMap_cons, decodeAll, if_neg (by simp [c.encode_ne_nil ha]), c.decode_encode _ ha]
    simp only
    rw [if_pos (by rw [List.length_append]; omega), ih fun b hb => h b (List.mem_cons_of_mem _ hb),
      Option.map_some]

/-! ## Whole streams -/

/-- The stream is one of words. -/
def Whole (s : List β) : Prop := ∃ as : List α, (∀ a ∈ as, c.Valid a) ∧ as.flatMap c.encode = s

variable {c} {s s' : List β}

theorem whole_nil : c.Whole [] := ⟨[], fun _ h => absurd h List.not_mem_nil, rfl⟩

theorem whole_encode {a : α} (ha : c.Valid a) : c.Whole (c.encode a) :=
  ⟨[a], List.forall_mem_singleton.2 ha, List.flatMap_singleton ..⟩

theorem Whole.append (h : c.Whole s) (h' : c.Whole s') : c.Whole (s ++ s') := by
  obtain ⟨as, has, rfl⟩ := h
  obtain ⟨as', has', rfl⟩ := h'
  exact ⟨as ++ as', List.forall_mem_append.2 ⟨has, has'⟩, List.flatMap_append⟩

/-- Behind words, a stream of words is one. -/
theorem Whole.of_append (h : c.Whole s) (h' : c.Whole (s ++ s')) : c.Whole s' := by
  obtain ⟨as, has, rfl⟩ := h
  obtain ⟨bs, hbs, heq⟩ := h'
  induction as generalizing bs with
  | nil => exact ⟨bs, hbs, heq⟩
  | cons a as ih =>
    obtain ⟨ha, has⟩ := List.forall_mem_cons.1 has
    cases bs with
    | nil =>
      have hnil := (List.append_eq_nil_iff.1 heq.symm).1
      rw [List.flatMap_cons, List.append_eq_nil_iff] at hnil
      exact absurd hnil.1 (c.encode_ne_nil ha)
    | cons b bs =>
      obtain ⟨hb, hbs⟩ := List.forall_mem_cons.1 hbs
      rw [List.flatMap_cons, List.flatMap_cons, List.append_assoc] at heq
      -- Both streams are read, and the words at their fronts are the same.
      have hread := (c.decode_encode _ hb).symm.trans
        ((congrArg c.decode heq).trans (c.decode_encode _ ha))
      rw [Option.some_inj, Prod.mk.injEq] at hread
      exact ih has bs hbs hread.2

end PrefixCode
