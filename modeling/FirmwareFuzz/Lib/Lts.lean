import FirmwareFuzz.Lib.Except
import Mathlib.Data.List.Basic
import Mathlib.Data.List.ReduceOption
import Mathlib.Data.Set.Basic

/-!
# Labelled transition systems

A system moves from state to state, every step carrying a label: what an
observer sees of it. A *run* is a chain of steps, observed as the list of its
labels (its *trace*). A step function taking inputs to outputs, or failing, is
such a system, labelled by inputs with their outputs (`ofStep`): its runs are
its executions that do not fail (`exec_eq_ok_iff`).

These rules carry the proofs about runs:

* `Run.invariant` and `Run.countP_le`, for what every step preserves, and for what
  it uses up; with `Run.restrict`, under assumptions about states and labels;
* `Run.conserves`, for systems that pass a stream on: if in every step what
  goes out, followed by what is held after the step, is what was held before
  it followed by what comes in, then so it is over a whole run;
* `Simulation.run`: if every step of a system is matched by a step of another,
  then so is every run, with the same trace up to the matching of labels.
-/

/-- A labelled transition system, with states `S` and labels `L`. -/
structure Lts (S L : Type*) where
  /-- The system can move from `s` to `s'`, showing `l`. -/
  step : S → L → S → Prop

namespace Lts

variable {S L : Type*} {A : Lts S L}

/-- The runs of a system, from a state to another, with their trace. -/
inductive Run (A : Lts S L) : S → List L → S → Prop
  | nil (s : S) : Run A s [] s
  | cons {s s' s'' : S} {l : L} {ls : List L} :
      A.step s l s' → Run A s' ls s'' → Run A s (l :: ls) s''

theorem run_nil_iff {s s' : S} : A.Run s [] s' ↔ s' = s :=
  ⟨fun h => by cases h; rfl, fun h => h ▸ .nil _⟩

theorem run_cons_iff {s s'' : S} {l : L} {ls : List L} :
    A.Run s (l :: ls) s'' ↔ ∃ s', A.step s l s' ∧ A.Run s' ls s'' := by
  constructor
  · intro h
    cases h with
    | cons hst hr => exact ⟨_, hst, hr⟩
  · rintro ⟨s', hst, hr⟩
    exact .cons hst hr

theorem Run.append {s s' s'' : S} {ls ls' : List L} (h : A.Run s ls s') (h' : A.Run s' ls' s'') :
    A.Run s (ls ++ ls') s'' := by
  induction h with
  | nil => exact h'
  | cons hst _ ih => exact .cons hst (ih h')

theorem run_append_iff {s s'' : S} {ls ls' : List L} :
    A.Run s (ls ++ ls') s'' ↔ ∃ s', A.Run s ls s' ∧ A.Run s' ls' s'' := by
  refine ⟨fun h => ?_, fun ⟨_, h, h'⟩ => h.append h'⟩
  induction ls generalizing s with
  | nil => exact ⟨s, .nil s, h⟩
  | cons l ls ih =>
    obtain ⟨s₁, hst, hr⟩ := run_cons_iff.1 h
    obtain ⟨s', hr₁, hr₂⟩ := ih hr
    exact ⟨s', .cons hst hr₁, hr₂⟩

/-- What every step preserves, every run preserves. -/
theorem Run.invariant {P : S → Prop} (hP : ∀ s l s', P s → A.step s l s' → P s') {s s' : S}
    {ls : List L} (h : A.Run s ls s') (hs : P s) : P s' := by
  induction h with
  | nil => exact hs
  | cons hst _ ih => exact ih (hP _ _ _ hs hst)

/-- The steps from states in `P`, with labels in `Q`. -/
def restrict (A : Lts S L) (P : S → Prop) (Q : L → Prop) : Lts S L :=
  ⟨fun s l s' => P s ∧ Q l ∧ A.step s l s'⟩

/-- If steps with labels in `Q` preserve `P`, then all steps of a run with such
    labels are from `P`. -/
theorem Run.restrict {P : S → Prop} {Q : L → Prop}
    (hP : ∀ s l s', P s → Q l → A.step s l s' → P s') {s s' : S} {ls : List L} (h : A.Run s ls s')
    (hQ : ∀ l ∈ ls, Q l) (hs : P s) : (A.restrict P Q).Run s ls s' ∧ P s' := by
  induction h with
  | nil => exact ⟨.nil _, hs⟩
  | cons hst _ ih =>
    have hl := hQ _ List.mem_cons_self
    obtain ⟨hr, hs'⟩ := ih (fun l hl => hQ l (List.mem_cons_of_mem _ hl)) (hP _ _ _ hs hl hst)
    exact ⟨.cons ⟨hs, hl, hst⟩ hr, hs'⟩

theorem Run.exists_step {s s' : S} {ls : List L} (h : A.Run s ls s') {l : L} (hl : l ∈ ls) :
    ∃ s₁ s₂, A.step s₁ l s₂ := by
  induction h with
  | nil => cases hl
  | cons hst _ ih =>
    rcases List.mem_cons.1 hl with rfl | hl
    · exact ⟨_, _, hst⟩
    · exact ih hl

/-- If a rank is lowered by steps of a kind, and only raised, by one, by steps
    of another, then a run has at most as many steps of the first kind as it has
    of the second, and as it lowers the rank by. -/
theorem Run.countP_le {p q : L → Bool} {rank : S → ℕ}
    (hstep : ∀ s l s', A.step s l s' → (p l).toNat + rank s' ≤ rank s + (q l).toNat) {s s' : S}
    {ls : List L} (h : A.Run s ls s') : ls.countP p + rank s' ≤ rank s + ls.countP q := by
  have hcons : ∀ (p : L → Bool) l ls, (l :: ls).countP p = ls.countP p + (p l).toNat := by
    intro p l ls
    rw [List.countP_cons]
    cases p l <;> rfl
  induction h with
  | nil => simp
  | cons hst _ ih =>
    have hle := hstep _ _ _ hst
    rw [hcons, hcons]
    omega

/-- The states reachable from the initial states `I`. -/
def Reachable (A : Lts S L) (I : Set S) (s : S) : Prop := ∃ s₀ ∈ I, ∃ ls, A.Run s₀ ls s

theorem Reachable.of_mem {I : Set S} {s : S} (h : s ∈ I) : A.Reachable I s := ⟨s, h, [], .nil s⟩

theorem Reachable.invariant {I : Set S} {P : S → Prop} (h₀ : ∀ s ∈ I, P s)
    (hP : ∀ s l s', P s → A.step s l s' → P s') {s : S} (h : A.Reachable I s) : P s := by
  obtain ⟨s₀, hs₀, _, hr⟩ := h
  exact hr.invariant hP (h₀ s₀ hs₀)

/-! ## Streams -/

/-- Conservation: if every step of a run passes a stream on, from what comes
    `into` it to what goes `out` of it, keeping the rest in `held`, then so does
    the run. -/
theorem Run.conserves {α : Type*} {held : S → List α} {into out : L → List α} {s s' : S}
    {ls : List L} (h : A.Run s ls s')
    (hstep : ∀ l ∈ ls, ∀ s s', A.step s l s' → out l ++ held s' = held s ++ into l) :
    ls.flatMap out ++ held s' = held s ++ ls.flatMap into := by
  induction h with
  | nil => simp
  | cons hst _ ih =>
    have hl := hstep _ List.mem_cons_self _ _ hst
    rw [List.flatMap_cons, List.append_assoc, ih fun l hl => hstep l (List.mem_cons_of_mem _ hl),
      ← List.append_assoc, hl, List.append_assoc, List.flatMap_cons]

/-- Conservation, of a stream nothing comes into. -/
theorem Run.drains {α : Type*} {s s' : S} {ls : List L} (h : A.Run s ls s') (held : S → List α)
    {out : L → List α} (hstep : ∀ l ∈ ls, ∀ s s', A.step s l s' → out l ++ held s' = held s) :
    ls.flatMap out ++ held s' = held s := by
  have hc := h.conserves fun l hl s s' hst => (hstep l hl s s' hst).trans (List.append_nil _).symm
  rwa [List.flatMap_eq_nil_iff.2 fun _ _ => rfl, List.append_nil] at hc

/-! ## Simulations -/

/-- `B` simulates `A`: related by `rel`, every step of `A` is matched by a step
    of `B`, whose label is the image of the label of `A`. -/
structure Simulation {T M : Type*} (A : Lts S L) (B : Lts T M) where
  /-- The states of `B` related to a state of `A`. -/
  rel : S → T → Prop
  /-- The label of `B` matching a label of `A`. -/
  label : L → M
  /-- Every step is matched. -/
  step : ∀ {s t l s'}, rel s t → A.step s l s' → ∃ t', B.step t (label l) t' ∧ rel s' t'

/-- A simulation matches whole runs. -/
theorem Simulation.run {T M : Type*} {B : Lts T M} (f : Simulation A B) {s s' : S} {ls : List L}
    (h : A.Run s ls s') {t : T} (hst : f.rel s t) :
    ∃ t', B.Run t (ls.map f.label) t' ∧ f.rel s' t' := by
  induction h generalizing t with
  | nil => exact ⟨t, .nil t, hst⟩
  | cons hs _ ih =>
    obtain ⟨t₁, ht₁, hr₁⟩ := f.step hst hs
    obtain ⟨t', hr, hr'⟩ := ih hr₁
    exact ⟨t', .cons ht₁ hr, hr'⟩

/-- `B` refines to `A` step by step, up to internal steps, labelled `none`: then
    every run of `A` is matched by a run of `B` with the same other labels. -/
theorem Run.refine {T M : Type*} {A : Lts S (Option M)} {B : Lts T (Option M)}
    (rel : S → T → Prop)
    (hstep : ∀ s t l s', rel s t → A.step s l s' →
      ∃ ls t', B.Run t ls t' ∧ ls.reduceOption = l.toList ∧ rel s' t') {s s' : S}
    {ls : List (Option M)} (h : A.Run s ls s') {t : T} (hst : rel s t) :
    ∃ ls' t', B.Run t ls' t' ∧ ls'.reduceOption = ls.reduceOption ∧ rel s' t' := by
  induction h generalizing t with
  | nil => exact ⟨[], t, .nil t, rfl, hst⟩
  | @cons _ _ _ l ls hs _ ih =>
    obtain ⟨ls₁, t₁, hr₁, hls₁, ht₁⟩ := hstep _ _ _ _ hst hs
    obtain ⟨ls₂, t', hr₂, hls₂, ht'⟩ := ih ht₁
    refine ⟨ls₁ ++ ls₂, t', hr₁.append hr₂, ?_, ht'⟩
    rw [List.reduceOption_append, hls₁, hls₂]
    cases l <;> rfl

/-! ## Step functions -/

section Exec

universe u

variable {S I O : Type u} {ε : Type*} {f : S → I → Except ε (O × S)}

/-- The system of a step function. -/
def ofStep (f : S → I → Except ε (O × S)) : Lts S (I × O) := ⟨fun s l s' => f s l.1 = .ok (l.2, s')⟩

/-- The execution of a list of inputs: its trace, and the state it ends in. -/
def exec (f : S → I → Except ε (O × S)) (s : S) : List I → Except ε (List (I × O) × S)
  | [] => .ok ([], s)
  | i :: is => do
    let (o, s') ← f s i
    let (ls, s'') ← exec f s' is
    return ((i, o) :: ls, s'')

theorem exec_cons_eq_ok_iff {s s'' : S} {i : I} {is : List I} {ls : List (I × O)} :
    exec f s (i :: is) = .ok (ls, s'') ↔
      ∃ o s' ls', f s i = .ok (o, s') ∧ exec f s' is = .ok (ls', s'') ∧ (i, o) :: ls' = ls := by
  simp only [exec, Except.bind_eq_ok_iff, Except.pure_eq_ok_iff, Prod.exists, Prod.mk.injEq]
  constructor
  · rintro ⟨o, s', hs, ls', _, hr, hls, rfl⟩
    exact ⟨o, s', ls', hs, hr, hls⟩
  · rintro ⟨o, s', ls', hs, hr, hls⟩
    exact ⟨o, s', hs, ls', s'', hr, hls, rfl⟩

/-- The executions are the runs over their inputs. -/
theorem exec_eq_ok_iff {s s' : S} {is : List I} {ls : List (I × O)} :
    exec f s is = .ok (ls, s') ↔ (ofStep f).Run s ls s' ∧ ls.map Prod.fst = is := by
  induction is generalizing s ls with
  | nil =>
    rw [exec, Except.ok.injEq, Prod.mk.injEq, List.map_eq_nil_iff]
    constructor
    · rintro ⟨rfl, rfl⟩
      exact ⟨.nil _, rfl⟩
    · rintro ⟨hr, rfl⟩
      exact ⟨rfl, (run_nil_iff.1 hr).symm⟩
  | cons i is ih =>
    rw [exec_cons_eq_ok_iff]
    constructor
    · rintro ⟨o, s₁, ls', hs, hr, rfl⟩
      obtain ⟨hr', hmap⟩ := ih.1 hr
      exact ⟨.cons hs hr', by rw [List.map_cons, hmap]⟩
    · rintro ⟨hr, hmap⟩
      obtain ⟨⟨_, o⟩, ls', rfl, rfl, hmap'⟩ := List.map_eq_cons_iff.1 hmap
      obtain ⟨s₁, hs, hr'⟩ := run_cons_iff.1 hr
      exact ⟨o, s₁, ls', hs, ih.2 ⟨hr', hmap'⟩, rfl⟩

/-- Executions do not fail, if no step does from a state of an invariant `P`. -/
theorem exec_ok (P : S → Prop) (Q : I → Prop)
    (hstep : ∀ s i, P s → Q i → ∃ o s', f s i = .ok (o, s') ∧ P s') {s : S} (hs : P s) {is : List I}
    (his : ∀ i ∈ is, Q i) : ∃ ls s', exec f s is = .ok (ls, s') ∧ P s' := by
  induction is generalizing s with
  | nil => exact ⟨[], s, rfl, hs⟩
  | cons i is ih =>
    obtain ⟨o, s₁, hf, hs₁⟩ := hstep s i hs (his i List.mem_cons_self)
    obtain ⟨ls, s', hr, hs'⟩ := ih hs₁ fun j hj => his j (List.mem_cons_of_mem _ hj)
    exact ⟨_, s', exec_cons_eq_ok_iff.2 ⟨o, s₁, ls, hf, hr, rfl⟩, hs'⟩

/-- A map of states that commutes with the steps commutes with executions. -/
theorem exec_map {T : Type u} {g : T → I → Except ε (O × T)} (φ : S → T)
    (hstep : ∀ s i, g (φ s) i = (f s i).map (Prod.map id φ)) (s : S) (is : List I) :
    exec g (φ s) is = (exec f s is).map (Prod.map id φ) := by
  induction is generalizing s with
  | nil => rfl
  | cons i is ih =>
    rw [exec, exec, hstep]
    cases f s i with
    | error e => rfl
    | ok r =>
      obtain ⟨o, s'⟩ := r
      show (exec g (φ s') is >>= fun q => pure ((i, o) :: q.1, q.2)) =
        (exec f s' is >>= fun q => pure ((i, o) :: q.1, q.2)).map (Prod.map id φ)
      rw [ih]
      cases exec f s' is with
      | error e => rfl
      | ok q => rfl

end Exec

end Lts
