import Mathlib.Logic.Basic

/-!
# Fallible computations

What it takes for a computation in `Except` to succeed, step by step.
-/

namespace Except

universe u

variable {ε : Type*} {α β : Type u}

/-- A sequence succeeds when its first step does, and then the rest. -/
theorem bind_eq_ok_iff {x : Except ε α} {f : α → Except ε β} {b : β} :
    x >>= f = .ok b ↔ ∃ a, x = .ok a ∧ f a = .ok b := by
  cases x with
  | error e => exact ⟨nofun, fun ⟨_, h, _⟩ => nomatch h⟩
  | ok a => exact ⟨fun h => ⟨a, rfl, h⟩, fun ⟨_, h, h'⟩ => by cases h; exact h'⟩

theorem ok_bind (a : α) (f : α → Except ε β) : (.ok a : Except ε α) >>= f = f a := rfl

/-- Two continuations that agree up to `g` on every result. -/
theorem map_bind_congr {γ : Type u} {g : β → γ} {x : Except ε α} {f f' : α → Except ε β}
    (h : ∀ a, (f a).map g = (f' a).map g) : (x >>= f).map g = (x >>= f').map g := by
  cases x with
  | error e => rfl
  | ok a => exact h a

/-- Two continuations that agree on what there is to continue with. -/
theorem bind_congr_ok {x : Except ε α} {f g : α → Except ε β} (h : ∀ a, x = .ok a → f a = g a) :
    x >>= f = x >>= g := by
  cases x with
  | error e => rfl
  | ok a => exact h a rfl

/-- With a single error, a computation is what it succeeds with. -/
theorem ext_ok [Subsingleton ε] {x y : Except ε α} (h : ∀ a, x = .ok a ↔ y = .ok a) : x = y := by
  cases x with
  | ok a => exact ((h a).1 rfl).symm
  | error e =>
    cases y with
    | ok a => exact nomatch (h a).2 rfl
    | error e' => exact congrArg _ (Subsingleton.elim e e')

theorem map_some_eq_ok_iff {x : Except ε α} {a : α} :
    some <$> x = .ok (some a) ↔ x = .ok a := by
  cases x with
  | error e => exact ⟨fun h => (nomatch h), fun h => (nomatch h)⟩
  | ok b =>
    refine ⟨fun h => ?_, fun h => congrArg (some <$> ·) h⟩
    exact congrArg _ (Option.some.inj (Except.ok.inj h))

theorem pure_eq_ok_iff {a b : α} : (pure a : Except ε α) = .ok b ↔ a = b :=
  ⟨fun h => Except.ok.inj h, fun h => h ▸ rfl⟩

end Except
