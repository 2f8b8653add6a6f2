import Mathlib.Data.List.Sort

/-!
# Cuts of a stream

A stream is cut into pieces, each of which is answered on its own (`f`). The
pieces start at increasing offsets of the stream (`starts`). Two cuts are
answered alike if the pieces that are answered at all start at the same offsets,
with the same answers (`answers_eq_iff`); then what is answered is the same
stream (`flatMap_eq_of_answers`).

Pieces of any type `γ` are allowed, with the `bytes` they stand for.
-/

namespace Cuts

variable {α β γ δ : Type*}

/-- The pieces of a cut, with the offsets they start at, from `i` on. -/
def starts (bytes : γ → List α) : (i : ℕ) → List γ → List (ℕ × γ)
  | _, [] => []
  | i, c :: cs => (i, c) :: starts bytes (i + (bytes c).length) cs

variable {bytes : γ → List α} {i k : ℕ} {c : γ} {cs : List γ}

/-- A piece is in the stream, where it starts. -/
theorem of_mem_starts (h : (i, c) ∈ starts bytes k cs) :
    k ≤ i ∧ c ∈ cs ∧ bytes c <+: (cs.flatMap bytes).drop (i - k) := by
  induction cs generalizing k with
  | nil => exact absurd h List.not_mem_nil
  | cons d cs ih =>
    rcases List.mem_cons.1 h with heq | h'
    · obtain ⟨rfl, rfl⟩ := Prod.mk.inj heq
      refine ⟨le_rfl, List.mem_cons_self, ?_⟩
      rw [Nat.sub_self, List.drop_zero, List.flatMap_cons]
      exact List.prefix_append _ _
    · obtain ⟨hle, hmem, hpre⟩ := ih h'
      refine ⟨by omega, List.mem_cons_of_mem _ hmem, ?_⟩
      have hoff : i - k = (bytes d).length + (i - (k + (bytes d).length)) := by omega
      rwa [List.flatMap_cons, hoff, List.drop_length_add_append]

/-- The offsets increase, if no piece is empty. -/
theorem pairwise_starts (hcs : ∀ c ∈ cs, bytes c ≠ []) (k : ℕ) :
    (starts bytes k cs).Pairwise fun x y => x.1 < y.1 := by
  induction cs generalizing k with
  | nil => exact .nil
  | cons d cs ih =>
    have hd := List.length_pos_iff.2 (hcs d List.mem_cons_self)
    refine .cons ?_ (ih (fun c hc => hcs c (List.mem_cons_of_mem _ hc)) _)
    rintro ⟨i, c⟩ hic
    have hle := (of_mem_starts hic).1
    show k < i
    omega

/-- One piece starts at an offset. -/
theorem eq_of_mem_starts {c' : γ} (hcs : ∀ c ∈ cs, bytes c ≠ []) (h : (i, c) ∈ starts bytes k cs)
    (h' : (i, c') ∈ starts bytes k cs) : c = c' := by
  have hnodup : ((starts bytes k cs).map Prod.fst).Nodup :=
    List.pairwise_map.2 ((pairwise_starts hcs k).imp Nat.ne_of_lt)
  exact congrArg Prod.snd (List.inj_on_of_nodup_map hnodup h h' rfl)

/-- The answers to the pieces, with the offsets they start at. -/
def answers (bytes : γ → List α) (f : γ → List β) (cs : List γ) : List (ℕ × List β) :=
  ((starts bytes 0 cs).map fun x => (x.1, f x.2)).filter fun x => !x.2.isEmpty

theorem mem_answers {f : γ → List β} {y : List β} :
    (i, y) ∈ answers bytes f cs ↔ y ≠ [] ∧ ∃ c, (i, c) ∈ starts bytes 0 cs ∧ f c = y := by
  rw [answers, List.mem_filter, List.mem_map]
  constructor
  · rintro ⟨⟨⟨j, c⟩, hc, heq⟩, hy⟩
    obtain ⟨rfl, rfl⟩ := Prod.mk.inj heq
    exact ⟨by simpa using hy, c, hc, rfl⟩
  · rintro ⟨hy, c, hc, rfl⟩
    exact ⟨⟨(i, c), hc, rfl⟩, by simpa using hy⟩

theorem pairwise_answers (hcs : ∀ c ∈ cs, bytes c ≠ []) (f : γ → List β) :
    (answers bytes f cs).Pairwise fun x y => x.1 < y.1 :=
  have hmap : ((starts bytes 0 cs).map fun x => (x.1, f x.2)).Pairwise fun x y => x.1 < y.1 :=
    List.pairwise_map.2 (pairwise_starts hcs 0)
  hmap.filter _

/-- The answers make up what is answered to the cut. -/
theorem flatMap_answers (f : γ → List β) :
    (answers bytes f cs).flatMap Prod.snd = cs.flatMap f := by
  suffices h : ∀ k, (((starts bytes k cs).map fun x => (x.1, f x.2)).filter
      fun x => !x.2.isEmpty).flatMap Prod.snd = cs.flatMap f from h 0
  induction cs with
  | nil => exact fun _ => rfl
  | cons d cs ih =>
    intro k
    rw [starts, List.map_cons, List.filter_cons, List.flatMap_cons]
    split_ifs with hd
    · rw [List.flatMap_cons, ih]
    · rw [ih]
      have : f d = [] := by simpa using hd
      rw [this, List.nil_append]

section

variable {bytes' : δ → List α} {d : δ} {ds : List δ} {f : γ → List β} {g : δ → List β}

/-- In two cuts of a stream, pieces that start at the same offset agree as far as
    both of them go. -/
theorem prefix_of_mem_starts (h : cs.flatMap bytes = ds.flatMap bytes')
    (hc : (i, c) ∈ starts bytes k cs) (hd : (i, d) ∈ starts bytes' k ds) :
    ∃ s, bytes c <+: bytes' d ++ s := by
  obtain ⟨_, _, hpre⟩ := of_mem_starts hc
  obtain ⟨_, _, s, hs⟩ := of_mem_starts hd
  rw [h, ← hs] at hpre
  exact ⟨s, hpre⟩

/-- Two cuts draw the same answers, at the same offsets, if so do the pieces of
    the one that are answered, and those of the other. -/
theorem answers_eq_iff (hcs : ∀ c ∈ cs, bytes c ≠ []) (hds : ∀ d ∈ ds, bytes' d ≠ []) :
    answers bytes f cs = answers bytes' g ds ↔
      (∀ i c, (i, c) ∈ starts bytes 0 cs → f c ≠ [] →
        ∃ d, (i, d) ∈ starts bytes' 0 ds ∧ g d = f c) ∧
      (∀ i d, (i, d) ∈ starts bytes' 0 ds → g d ≠ [] →
        ∃ c, (i, c) ∈ starts bytes 0 cs ∧ f c = g d) := by
  constructor
  · intro heq
    refine ⟨fun i c hc hy => ?_, fun i d hd hy => ?_⟩
    · exact (mem_answers.1 (heq ▸ mem_answers.2 ⟨hy, c, hc, rfl⟩)).2
    · exact (mem_answers.1 (heq ▸ mem_answers.2 ⟨hy, d, hd, rfl⟩)).2
  · rintro ⟨hf, hg⟩
    -- Lists sorted by their offsets are equal if their members are.
    have : Std.Irrefl fun x y : ℕ × List β => x.1 < y.1 := ⟨fun x => lt_irrefl x.1⟩
    have : Std.Antisymm fun x y : ℕ × List β => x.1 < y.1 :=
      ⟨fun _ _ h h' => absurd h (lt_asymm h')⟩
    refine (pairwise_answers hcs f).eq_of_mem_iff (pairwise_answers hds g) ?_
    rintro ⟨i, y⟩
    rw [mem_answers, mem_answers]
    refine and_congr_right fun hy => ⟨?_, ?_⟩
    · rintro ⟨c, hc, rfl⟩
      exact hf i c hc hy
    · rintro ⟨d, hd, rfl⟩
      exact hg i d hd hy

/-- The same answers at the same offsets make up the same stream of answers. -/
theorem flatMap_eq_of_answers (h : answers bytes f cs = answers bytes' g ds) :
    cs.flatMap f = ds.flatMap g := by
  rw [← flatMap_answers f, h, flatMap_answers g]

end

end Cuts
