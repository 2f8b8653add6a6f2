import FirmwareFuzz.Lib.CMemory
import FirmwareFuzz.Lib.Except

/-!
# Programs that print

A program that calls `printf` is its calls, up to its end or its fault: what
is printed before a fault stays printed.

Two properties of a program, step by step: all it prints meets a condition
(`Prints`), and it also comes to its end (`Ends`).
-/

namespace CLang

/-- A call of `printf`: the format, and the strings for its `%s`, `none` for the
    null pointer. -/
structure Printf where
  format : List UInt8
  args : List (Option (List UInt8))
  deriving DecidableEq, Repr

/-- A program that prints. -/
structure Stdout (α : Type) where
  output : List Printf
  result : Except Fault α

namespace Stdout

instance : Monad Stdout where
  pure a := ⟨[], .ok a⟩
  bind x k := match x.result with
    | .ok a => ⟨x.output ++ (k a).output, (k a).result⟩
    | .error e => ⟨x.output, .error e⟩

/-- A step that prints nothing. -/
def lift {α : Type} (x : Except Fault α) : Stdout α := ⟨[], x⟩

instance : MonadLift (Except Fault) Stdout := ⟨lift⟩

variable {α β : Type} {P : Printf → Prop} {x : Stdout α} {k : α → Stdout β}

/-- All calls of `printf` meet `P`. -/
def Prints (P : Printf → Prop) (x : Stdout α) : Prop := ∀ p ∈ x.output, P p

/-- The program comes to its end, and all calls of `printf` meet `P`. -/
def Ends (P : Printf → Prop) (x : Stdout α) : Prop := (∃ a, x.result = .ok a) ∧ x.Prints P

theorem liftM_eq (e : Except Fault α) : (liftM e : Stdout α) = lift e := rfl

theorem lift_ok_bind (a : α) : lift (.ok a) >>= k = k a := rfl

theorem bind_of_ok {a : α} (h : x.result = .ok a) :
    x >>= k = ⟨x.output ++ (k a).output, (k a).result⟩ := by
  show (match x.result with
    | .ok a => _
    | .error e => _) = _
  rw [h]

theorem bind_of_error {e : Fault} (h : x.result = .error e) :
    x >>= k = ⟨x.output, .error e⟩ := by
  show (match x.result with
    | .ok a => _
    | .error e => _) = _
  rw [h]

theorem output_bind_pure (x : Stdout α) (f : α → β) :
    (x >>= fun a => pure (f a)).output = x.output := by
  cases h : x.result with
  | error e => rw [bind_of_error h]
  | ok a =>
    rw [bind_of_ok h]
    exact List.append_nil _

theorem prints_pure (a : α) : (pure a : Stdout α).Prints P := nofun

theorem prints_lift (e : Except Fault α) : (lift e).Prints P := nofun

/-- What a sequence prints is what its steps do. -/
theorem prints_bind (hx : x.Prints P) (hk : ∀ a, x.result = .ok a → (k a).Prints P) :
    (x >>= k).Prints P := by
  cases h : x.result with
  | error e =>
    rw [bind_of_error h]
    exact hx
  | ok a =>
    rw [bind_of_ok h]
    intro p hp
    rcases List.mem_append.1 hp with hp | hp
    · exact hx p hp
    · exact hk a h p hp

theorem ends_pure (a : α) : (pure a : Stdout α).Ends P := ⟨⟨a, rfl⟩, prints_pure a⟩

/-- A sequence ends when its first step does, and then the rest. -/
theorem ends_bind_iff : (x >>= k).Ends P ↔ x.Prints P ∧ ∃ a, x.result = .ok a ∧ (k a).Ends P := by
  cases h : x.result with
  | error e =>
    rw [Ends, bind_of_error h]
    exact ⟨fun ⟨⟨_, h⟩, _⟩ => (nomatch h), fun ⟨_, _, h, _⟩ => nomatch h⟩
  | ok a =>
    rw [Ends, Prints, bind_of_ok h, List.forall_mem_append]
    exact ⟨fun ⟨hr, hx, hk⟩ => ⟨hx, a, rfl, hr, hk⟩,
      fun ⟨hx, b, hb, hr, hk⟩ => by obtain rfl := Except.ok.inj hb; exact ⟨hr, hx, hk⟩⟩

theorem ends_then_iff {x : Stdout Unit} {k : Unit → Stdout β} :
    (x >>= k).Ends P ↔ x.Ends P ∧ (k ()).Ends P := by
  rw [ends_bind_iff]
  exact ⟨fun ⟨hx, _, h, hk⟩ => ⟨⟨⟨_, h⟩, hx⟩, hk⟩, fun ⟨⟨⟨_, h⟩, hx⟩, hk⟩ => ⟨hx, _, h, hk⟩⟩

theorem ends_lift_bind_iff {e : Except Fault α} :
    (lift e >>= k).Ends P ↔ ∃ a, e = .ok a ∧ (k a).Ends P := by
  rw [ends_bind_iff]
  exact and_iff_right (prints_lift e)

end Stdout

/-- `printf(format, args...)`, for a format whose conversions are all `%s`. -/
def printf (format : List UInt8) (args : List (Option (List UInt8))) : Stdout Unit :=
  ⟨[⟨format, args⟩], .ok ()⟩

namespace Stdout

variable {P : Printf → Prop} {format : List UInt8} {args : List (Option (List UInt8))}

theorem prints_printf_iff : (printf format args).Prints P ↔ P ⟨format, args⟩ := by
  rw [Prints, printf, List.forall_mem_singleton]

theorem prints_lift_bind {α β : Type} {e : Except Fault α} {k : α → Stdout β}
    (hk : ∀ a, (k a).Prints P) : (lift e >>= k).Prints P :=
  prints_bind (prints_lift e) fun a _ => hk a

theorem prints_printf_bind {β : Type} {k : Unit → Stdout β} (h : P ⟨format, args⟩)
    (hk : (k ()).Prints P) : (printf format args >>= k).Prints P :=
  prints_bind (prints_printf_iff.2 h) fun _ _ => hk

theorem ends_printf_iff : (printf format args).Ends P ↔ P ⟨format, args⟩ :=
  ⟨fun h => prints_printf_iff.1 h.2, fun h => ⟨⟨(), rfl⟩, prints_printf_iff.2 h⟩⟩

end Stdout

end CLang
