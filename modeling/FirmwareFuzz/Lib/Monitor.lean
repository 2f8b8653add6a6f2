import FirmwareFuzz.Lib.Lts
import Mathlib.Logic.Function.Basic

/-!
# Monitors

A monitor guards data by a mutex with a condition variable. A task calls an
operation: it locks the mutex, waits on the condition variable as long as the
guard of the operation does not hold, executes its statements, unlocks the
mutex, and returns. Some statements may wake the tasks that wait. Tasks
interleave statement by statement, and may also wake up for no reason.

* Only one task at a time is inside (`Excl`), so an operation takes effect at
  once: every run shows the calls and returns of a run of the object whose
  operations are atomic (`exists_atomic_run`).
* If every statement that may make a guard true is followed by a broadcast
  (`Signals`), then no wake-up is lost: a waiting task whose guard holds is about
  to be woken up (`Wakes`). So if the tasks are stuck, they rightly wait
  (`stuck`).
-/

namespace Monitor

/-- A statement over data `D` and local variables `L`. -/
inductive Stmt (D L : Type*)
  /-- Access to the data, and to the local variables. -/
  | assign (f : D → L → D × L)
  /-- `pthread_cond_broadcast`. -/
  | broadcast

/-- An operation that returns an `R`. -/
structure Op (D L R : Type*) where
  guard : D → Bool
  init : L
  body : List (Stmt D L)
  result : L → R

variable {T C D L R : Type*}

/-- The effect of statements. -/
def exec : List (Stmt D L) → D → L → D × L
  | [], d, l => (d, l)
  | .assign f :: body, d, l => exec body (f d l).1 (f d l).2
  | .broadcast :: body, d, l => exec body d l

/-- The effect of an operation, and what it returns. -/
def Op.effect (op : Op D L R) (d : D) : D × R :=
  ((exec op.body d op.init).1, op.result (exec op.body d op.init).2)

/-! ## Tasks -/

/-- Where a task is, with operations in `C`. -/
inductive Pc (C D L R : Type*)
  | out
  /-- In front of the mutex. -/
  | locking (c : C)
  /-- With the mutex, at the guard. -/
  | testing (c : C)
  /-- In `pthread_cond_wait`. -/
  | asleep (c : C)
  /-- With the mutex, in front of statements. -/
  | running (c : C) (body : List (Stmt D L)) (l : L)
  | returning (c : C) (r : R)

/-- The task has the mutex. -/
def Pc.Holds : Pc C D L R → Prop
  | .testing _ | .running .. => True
  | _ => False

/-- The task is woken up. -/
def Pc.woken : Pc C D L R → Pc C D L R
  | .asleep c => .locking c
  | pc => pc

/-- What a task shows. -/
inductive Event (T C R : Type*)
  | call (t : T) (c : C)
  | ret (t : T) (c : C) (r : R)

structure State (T C D L R : Type*) where
  data : D
  owner : Option T
  pc : T → Pc C D L R

variable [DecidableEq T] (ops : C → Op D L R)

/-- The task `t` goes to `pc`. -/
def State.goto (s : State T C D L R) (t : T) (pc : Pc C D L R) : State T C D L R :=
  { s with pc := Function.update s.pc t pc }

/-- A step of a task. -/
inductive Step : State T C D L R → Option (Event T C R) → State T C D L R → Prop
  | call {s : State T C D L R} {t : T} {c : C} :
      s.pc t = .out → Step s (some (.call t c)) (s.goto t (.locking c))
  | lock {s : State T C D L R} {t : T} {c : C} : s.pc t = .locking c → s.owner = none →
      Step s none { s.goto t (.testing c) with owner := some t }
  | wait {s : State T C D L R} {t : T} {c : C} : s.pc t = .testing c →
      (ops c).guard s.data = false → Step s none { s.goto t (.asleep c) with owner := none }
  | enter {s : State T C D L R} {t : T} {c : C} : s.pc t = .testing c →
      (ops c).guard s.data = true →
      Step s none (s.goto t (.running c (ops c).body (ops c).init))
  | wake {s : State T C D L R} {t : T} {c : C} :
      s.pc t = .asleep c → Step s none (s.goto t (.locking c))
  | assign {s : State T C D L R} {t : T} {c : C} {f : D → L → D × L} {body : List (Stmt D L)}
      {l : L} : s.pc t = .running c (.assign f :: body) l →
      Step s none { s.goto t (.running c body (f s.data l).2) with data := (f s.data l).1 }
  | broadcast {s : State T C D L R} {t : T} {c : C} {body : List (Stmt D L)} {l : L} :
      s.pc t = .running c (.broadcast :: body) l →
      Step s none
        { s with pc := Function.update (fun u => (s.pc u).woken) t (.running c body l) }
  | unlock {s : State T C D L R} {t : T} {c : C} {l : L} : s.pc t = .running c [] l →
      Step s none { s.goto t (.returning c ((ops c).result l)) with owner := none }
  | ret {s : State T C D L R} {t : T} {c : C} {r : R} :
      s.pc t = .returning c r → Step s (some (.ret t c r)) (s.goto t .out)

/-- The monitor, as a system that shows calls and returns. -/
def system (T : Type*) [DecidableEq T] : Lts (State T C D L R) (Option (Event T C R)) :=
  ⟨Step ops⟩

/-- The monitor over data, with all tasks outside. -/
def start (T C L R : Type*) (d : D) : State T C D L R := ⟨d, none, fun _ => .out⟩

variable {ops} {s s' : State T C D L R} {l : Option (Event T C R)}

/-! ## Exclusion -/

/-- The owner of the mutex is the task that has it. -/
def Excl (s : State T C D L R) : Prop := ∀ t, (s.pc t).Holds ↔ s.owner = some t

omit [DecidableEq T] in
theorem excl_start (d : D) : Excl (start T C L R d) :=
  fun _ => iff_of_false id fun h => (nomatch h)

theorem holds_woken (pc : Pc C D L R) : pc.woken.Holds ↔ pc.Holds := by cases pc <;> rfl

/-- A task moves, and passes the mutex as it does. -/
theorem Excl.update (h : Excl s) {t : T} {pc : Pc C D L R} {q : T → Pc C D L R} {owner : Option T}
    {d : D} (hq : ∀ u, (q u).Holds ↔ (s.pc u).Holds) (hself : pc.Holds ↔ owner = some t)
    (hother : ∀ u, u ≠ t → (s.owner = some u ↔ owner = some u)) :
    Excl (⟨d, owner, Function.update q t pc⟩ : State T C D L R) := by
  intro u
  show (Function.update q t pc u).Holds ↔ owner = some u
  by_cases hu : u = t
  · rw [hu, Function.update_self]
    exact hself
  · rw [Function.update_of_ne hu, hq, h u]
    exact hother u hu

/-- Only one task at a time is inside. -/
theorem Excl.step (h : Excl s) (hstep : Step ops s l s') : Excl s' := by
  have hfree : ∀ {t}, s.owner = some t → ∀ u, u ≠ t → (s.owner = some u ↔ none = some u) := by
    intro t ht u hu
    rw [ht, Option.some.injEq]
    exact iff_of_false (Ne.symm hu) fun h => (nomatch h)
  cases hstep with
  | @call t c hpc =>
    have ht := h t
    rw [hpc] at ht
    exact h.update (fun _ => Iff.rfl) ht fun _ _ => Iff.rfl
  | @lock t c hpc hnone =>
    refine h.update (fun _ => Iff.rfl) (iff_of_true trivial rfl) fun u hu => ?_
    rw [hnone, Option.some.injEq]
    exact iff_of_false (fun h => (nomatch h)) (Ne.symm hu)
  | @wait t c hpc =>
    have ht := (h t).1 (by rw [hpc]; trivial)
    exact h.update (fun _ => Iff.rfl) (iff_of_false id fun h => (nomatch h)) (hfree ht)
  | @enter t c hpc =>
    have ht := h t
    rw [hpc] at ht
    exact h.update (fun _ => Iff.rfl) ht fun _ _ => Iff.rfl
  | @wake t c hpc =>
    have ht := h t
    rw [hpc] at ht
    exact h.update (fun _ => Iff.rfl) ht fun _ _ => Iff.rfl
  | @assign t c f body l hpc =>
    have ht := h t
    rw [hpc] at ht
    exact h.update (fun _ => Iff.rfl) ht fun _ _ => Iff.rfl
  | @broadcast t c body l hpc =>
    have ht := h t
    rw [hpc] at ht
    exact h.update (fun u => holds_woken (s.pc u)) ht fun _ _ => Iff.rfl
  | @unlock t c l hpc =>
    have ht := (h t).1 (by rw [hpc]; trivial)
    exact h.update (fun _ => Iff.rfl) (iff_of_false id fun h => (nomatch h)) (hfree ht)
  | @ret t c r hpc =>
    have ht := h t
    rw [hpc] at ht
    exact h.update (fun _ => Iff.rfl) ht fun _ _ => Iff.rfl

omit [DecidableEq T] in
theorem Excl.eq (h : Excl s) {t u : T} (ht : (s.pc t).Holds) (hu : (s.pc u).Holds) : u = t :=
  Option.some.inj (((h u).1 hu).symm.trans ((h t).1 ht))

/-! ## The atomic object -/

/-- Where a task is in an operation that is atomic. -/
inductive Pend (C R : Type*)
  | out
  | called (c : C)
  | done (c : C) (r : R)

structure AtomicState (T C D R : Type*) where
  data : D
  pend : T → Pend C R

/-- A step of a task: an operation takes its effect at once, when its guard holds. -/
inductive AtomicStep (ops : C → Op D L R) :
    AtomicState T C D R → Option (Event T C R) → AtomicState T C D R → Prop
  | call {a : AtomicState T C D R} {t : T} {c : C} : a.pend t = .out →
      AtomicStep ops a (some (.call t c)) { a with pend := Function.update a.pend t (.called c) }
  | perform {a : AtomicState T C D R} {t : T} {c : C} : a.pend t = .called c →
      (ops c).guard a.data = true →
      AtomicStep ops a none
        ⟨((ops c).effect a.data).1,
          Function.update a.pend t (.done c ((ops c).effect a.data).2)⟩
  | ret {a : AtomicState T C D R} {t : T} {c : C} {r : R} : a.pend t = .done c r →
      AtomicStep ops a (some (.ret t c r)) { a with pend := Function.update a.pend t .out }

/-- The atomic object, as a system that shows calls and returns. -/
def atomic (T : Type*) [DecidableEq T] (ops : C → Op D L R) :
    Lts (AtomicState T C D R) (Option (Event T C R)) :=
  ⟨AtomicStep ops⟩

def atomicStart (T C R : Type*) (d : D) : AtomicState T C D R := ⟨d, fun _ => .out⟩

/-! ## Atomicity -/

variable (ops) in
/-- Inside, an operation has taken its effect already, for the other tasks. -/
def Pc.pend (d : D) : Pc C D L R → Pend C R
  | .out => .out
  | .locking c | .testing c | .asleep c => .called c
  | .running c body l => .done c ((ops c).result (exec body d l).2)
  | .returning c r => .done c r

/-- The data when the task leaves. -/
def Pc.data (d : D) : Pc C D L R → D
  | .running _ body l => (exec body d l).1
  | _ => d

variable (ops) in
/-- The state of the atomic object. -/
structure Abstracts (s : State T C D L R) (a : AtomicState T C D R) : Prop where
  excl : Excl s
  data_of_owner : ∀ t, s.owner = some t → a.data = (s.pc t).data s.data
  data_of_free : s.owner = none → a.data = s.data
  pend : ∀ t, a.pend t = (s.pc t).pend ops s.data

theorem pend_woken (pc : Pc C D L R) (d : D) : pc.woken.pend ops d = pc.pend ops d := by
  cases pc <;> rfl

theorem Pc.pend_eq {pc : Pc C D L R} (h : ¬pc.Holds) (d d' : D) :
    pc.pend ops d = pc.pend ops d' := by
  cases pc with
  | running => exact absurd trivial h
  | _ => rfl

theorem Pc.data_eq {pc : Pc C D L R} (h : ¬pc.Holds) (d : D) : pc.data d = d := by
  cases pc with
  | running => exact absurd trivial h
  | _ => rfl

variable {a : AtomicState T C D R} {t : T}

omit [DecidableEq T] in
theorem abstracts_start (d : D) : Abstracts ops (start T C L R d) (atomicStart T C R d) :=
  ⟨excl_start d, fun _ h => (nomatch h), fun _ => rfl, fun _ => rfl⟩

/-- A task moves outside. -/
theorem Abstracts.outside (h : Abstracts ops s a) {pc : Pc C D L R} (hpc : ¬(s.pc t).Holds)
    (hpc' : ¬pc.Holds) :
    Abstracts ops (s.goto t pc) ⟨a.data, Function.update a.pend t (pc.pend ops s.data)⟩ := by
  have hself : pc.Holds ↔ s.owner = some t := (iff_of_false hpc' hpc).trans (h.excl t)
  refine ⟨h.excl.update (fun _ => Iff.rfl) hself fun _ _ => Iff.rfl, fun u hu => ?_,
    h.data_of_free, fun u => ?_⟩
  · have hne : u ≠ t := fun heq => hpc ((h.excl t).2 (heq ▸ hu))
    show a.data = (Function.update s.pc t pc u).data s.data
    rw [Function.update_of_ne hne]
    exact h.data_of_owner u hu
  · show Function.update a.pend t _ u = (Function.update s.pc t pc u).pend ops s.data
    by_cases hu : u = t
    · rw [hu, Function.update_self, Function.update_self]
    · rw [Function.update_of_ne hu, Function.update_of_ne hu, h.pend u]

/-- A task moves in, inside, or out. -/
theorem Abstracts.inside (h : Abstracts ops s a) {pc : Pc C D L R} {q : T → Pc C D L R}
    {owner : Option T} {d : D} (hothers : ∀ u, u ≠ t → ¬(s.pc u).Holds)
    (hq : ∀ u, (q u).Holds ↔ (s.pc u).Holds) (hpend : ∀ u, (q u).pend ops d = (s.pc u).pend ops d)
    (howner : ∀ u, owner = some u → u = t) (hself : pc.Holds ↔ owner = some t) :
    Abstracts ops ⟨d, owner, Function.update q t pc⟩
      ⟨pc.data d, Function.update a.pend t (pc.pend ops d)⟩ := by
  refine ⟨h.excl.update hq hself fun u hu => ?_, fun u hu => ?_, fun hnone => ?_, fun u => ?_⟩
  · exact iff_of_false (fun hu' => hothers u hu ((h.excl u).2 hu')) fun hu' => hu (howner u hu')
  · show pc.data d = (Function.update q t pc u).data d
    rw [howner u hu, Function.update_self]
  · exact Pc.data_eq (fun hholds => nomatch hnone.symm.trans (hself.1 hholds)) d
  · show Function.update a.pend t _ u = (Function.update q t pc u).pend ops d
    by_cases hu : u = t
    · rw [hu, Function.update_self, Function.update_self]
    · rw [Function.update_of_ne hu, Function.update_of_ne hu, hpend, h.pend u]
      exact Pc.pend_eq (hothers u hu) _ _

/-- A task moves outside, and the atomic object does not. -/
theorem Abstracts.outside_of_pend (h : Abstracts ops s a) {pc : Pc C D L R}
    (hpc : ¬(s.pc t).Holds) (hpc' : ¬pc.Holds) (hpend : a.pend t = pc.pend ops s.data) :
    Abstracts ops (s.goto t pc) a := by
  have h' := h.outside hpc hpc'
  rwa [← hpend, Function.update_eq_self] at h'

/-- A task moves in, inside, or out, and the atomic object does not. -/
theorem Abstracts.inside_of_pend (h : Abstracts ops s a) {pc : Pc C D L R} {q : T → Pc C D L R}
    {owner : Option T} {d : D} (hothers : ∀ u, u ≠ t → ¬(s.pc u).Holds)
    (hq : ∀ u, (q u).Holds ↔ (s.pc u).Holds) (hpends : ∀ u, (q u).pend ops d = (s.pc u).pend ops d)
    (howner : ∀ u, owner = some u → u = t) (hself : pc.Holds ↔ owner = some t)
    (hdata : a.data = pc.data d) (hpend : a.pend t = pc.pend ops d) :
    Abstracts ops ⟨d, owner, Function.update q t pc⟩ a := by
  have h' := h.inside hothers hq hpends howner hself
  rwa [← hdata, ← hpend, Function.update_eq_self] at h'

/-- A step is matched by the atomic object: an operation takes its effect when
    its guard is found to hold. -/
theorem Abstracts.step (h : Abstracts ops s a) (hstep : Step ops s l s') :
    ∃ ls a', (atomic T ops).Run a ls a' ∧ ls.reduceOption = l.toList ∧ Abstracts ops s' a' := by
  -- A task that holds the mutex is the only one.
  have hothers : ∀ {t}, (s.pc t).Holds → ∀ u, u ≠ t → ¬(s.pc u).Holds :=
    fun ht u hu hu' => hu (h.excl.eq ht hu')
  have howns : ∀ {t}, (s.pc t).Holds → ∀ u, s.owner = some u → u = t :=
    fun ht u hu => h.excl.eq ht ((h.excl u).2 hu)
  have hnone : ∀ {t : T} (u : T), none = some u → u = t := fun u hu => nomatch hu
  cases hstep with
  | @call t c hpc =>
    have hpend := (h.pend t).trans (congrArg (Pc.pend ops s.data) hpc)
    exact ⟨_, _, .cons (.call hpend) (.nil _), rfl, h.outside (by rw [hpc]; exact id) id⟩
  | @ret t c r hpc =>
    have hpend := (h.pend t).trans (congrArg (Pc.pend ops s.data) hpc)
    exact ⟨_, _, .cons (.ret hpend) (.nil _), rfl, h.outside (by rw [hpc]; exact id) id⟩
  | @wake t c hpc =>
    have hpend := (h.pend t).trans (congrArg (Pc.pend ops s.data) hpc)
    exact ⟨[], a, .nil a, rfl, h.outside_of_pend (by rw [hpc]; exact id) id hpend⟩
  | @lock t c hpc hfree =>
    have hpend := (h.pend t).trans (congrArg (Pc.pend ops s.data) hpc)
    refine ⟨[], a, .nil a, rfl, h.inside_of_pend (fun u _ hu => ?_) (fun _ => Iff.rfl)
      (fun _ => rfl) (fun u hu => (Option.some.inj hu).symm) (iff_of_true trivial rfl)
      (h.data_of_free hfree) hpend⟩
    exact nomatch hfree.symm.trans ((h.excl u).1 hu)
  | @wait t c hpc hguard =>
    have hholds : (s.pc t).Holds := hpc ▸ trivial
    have hpend := (h.pend t).trans (congrArg (Pc.pend ops s.data) hpc)
    have hdata := (h.data_of_owner t ((h.excl t).1 hholds)).trans (congrArg (Pc.data s.data) hpc)
    exact ⟨[], a, .nil a, rfl, h.inside_of_pend (hothers hholds) (fun _ => Iff.rfl) (fun _ => rfl)
      hnone (iff_of_false id fun hu => nomatch hu) hdata hpend⟩
  | @enter t c hpc hguard =>
    have hholds : (s.pc t).Holds := hpc ▸ trivial
    have howner := (h.excl t).1 hholds
    have hpend := (h.pend t).trans (congrArg (Pc.pend ops s.data) hpc)
    have hdata : a.data = s.data := (h.data_of_owner t howner).trans (congrArg (Pc.data s.data) hpc)
    rw [← hdata] at hguard
    refine ⟨_, _, .cons (.perform hpend hguard) (.nil _), rfl, ?_⟩
    rw [hdata]
    exact h.inside (hothers hholds) (fun _ => Iff.rfl) (fun _ => rfl) (howns hholds)
      (iff_of_true trivial howner)
  | @assign t c f body l hpc =>
    have hholds : (s.pc t).Holds := hpc ▸ trivial
    have howner := (h.excl t).1 hholds
    have hpend := (h.pend t).trans (congrArg (Pc.pend ops s.data) hpc)
    have hdata := (h.data_of_owner t howner).trans (congrArg (Pc.data s.data) hpc)
    exact ⟨[], a, .nil a, rfl, h.inside_of_pend (hothers hholds) (fun _ => Iff.rfl) (fun _ => rfl)
      (howns hholds) (iff_of_true trivial howner) hdata hpend⟩
  | @broadcast t c body l hpc =>
    have hholds : (s.pc t).Holds := hpc ▸ trivial
    have howner := (h.excl t).1 hholds
    have hpend := (h.pend t).trans (congrArg (Pc.pend ops s.data) hpc)
    have hdata := (h.data_of_owner t howner).trans (congrArg (Pc.data s.data) hpc)
    exact ⟨[], a, .nil a, rfl, h.inside_of_pend (hothers hholds) (fun u => holds_woken (s.pc u))
      (fun u => pend_woken (s.pc u) s.data) (howns hholds) (iff_of_true trivial howner) hdata hpend⟩
  | @unlock t c l hpc =>
    have hholds : (s.pc t).Holds := hpc ▸ trivial
    have hpend := (h.pend t).trans (congrArg (Pc.pend ops s.data) hpc)
    have hdata := (h.data_of_owner t ((h.excl t).1 hholds)).trans (congrArg (Pc.data s.data) hpc)
    exact ⟨[], a, .nil a, rfl, h.inside_of_pend (hothers hholds) (fun _ => Iff.rfl) (fun _ => rfl)
      hnone (iff_of_false id fun hu => nomatch hu) hdata hpend⟩

/-- Every run shows what a run of the atomic object shows. -/
theorem exists_atomic_run {ls : List (Option (Event T C R))} {d : D}
    (hrun : (system ops T).Run (start T C L R d) ls s) :
    ∃ ls' a, (atomic T ops).Run (atomicStart T C R d) ls' a ∧
      ls'.reduceOption = ls.reduceOption := by
  obtain ⟨ls', a, hrun', hls, -⟩ :=
    hrun.refine (Abstracts ops) (fun _ _ _ _ h hstep => h.step hstep) (abstracts_start d)
  exact ⟨ls', a, hrun', hls⟩

/-! ## Wake-ups -/

variable (ops) in
/-- Whatever may make a guard true is followed by a broadcast. -/
def Signals : List (Stmt D L) → Prop
  | [] => True
  | .broadcast :: body => Signals body
  | .assign f :: body =>
    (.broadcast ∈ body ∨
      ∀ c d l, (ops c).guard (f d l).1 = true → (ops c).guard d = true) ∧ Signals body

/-- The task is about to wake the others up. -/
def Pc.Wakes : Pc C D L R → Prop
  | .running _ body _ => .broadcast ∈ body
  | _ => False

theorem Pc.Wakes.holds {pc : Pc C D L R} (h : pc.Wakes) : pc.Holds := by
  cases pc with
  | running => trivial
  | _ => exact h.elim

variable (ops) in
/-- A task that waits although its guard holds is about to be woken up. -/
structure Wakes (s : State T C D L R) : Prop where
  excl : Excl s
  signals : ∀ t c body l, s.pc t = .running c body l → Signals ops body
  wakes : ∀ t c, s.pc t = .asleep c → (ops c).guard s.data = true → ∃ u, (s.pc u).Wakes

omit [DecidableEq T] in
theorem wakes_start (d : D) : Wakes ops (start T C L R d) :=
  ⟨excl_start d, fun _ _ _ _ h => (nomatch h), fun _ _ h => (nomatch h)⟩

/-- A task that is not about to wake the others moves, and does not fall asleep
    but on a guard that does not hold. -/
theorem Wakes.goto (h : Wakes ops s) {pc : Pc C D L R} {owner : Option T}
    (hexcl : Excl ⟨s.data, owner, Function.update s.pc t pc⟩) (ht : ¬(s.pc t).Wakes)
    (hsignals : ∀ c body l, pc = .running c body l → Signals ops body)
    (hasleep : ∀ c, pc = .asleep c → (ops c).guard s.data = false) :
    Wakes ops ⟨s.data, owner, Function.update s.pc t pc⟩ := by
  refine ⟨hexcl, fun u c body l hu => ?_, fun u c hu hguard => ?_⟩
  · change Function.update s.pc t pc u = _ at hu
    by_cases hut : u = t
    · rw [hut, Function.update_self] at hu
      exact hsignals c body l hu
    · rw [Function.update_of_ne hut] at hu
      exact h.signals u c body l hu
  · change Function.update s.pc t pc u = _ at hu
    by_cases hut : u = t
    · rw [hut, Function.update_self] at hu
      exact nomatch (hasleep c hu).symm.trans hguard
    · rw [Function.update_of_ne hut] at hu
      obtain ⟨v, hv⟩ := h.wakes u c hu hguard
      refine ⟨v, ?_⟩
      show (Function.update s.pc t pc v).Wakes
      have hvt : v ≠ t := by
        rintro rfl
        exact ht hv
      rwa [Function.update_of_ne hvt]

/-- No wake-up is lost. -/
theorem Wakes.step (hops : ∀ c, Signals ops (ops c).body) (h : Wakes ops s)
    (hstep : Step ops s l s') : Wakes ops s' := by
  have hexcl := h.excl.step hstep
  cases hstep with
  | @call t c hpc =>
    exact h.goto hexcl (by rw [hpc]; exact id) (fun _ _ _ hu => nomatch hu) fun _ hu => nomatch hu
  | @lock t c hpc =>
    exact h.goto hexcl (by rw [hpc]; exact id) (fun _ _ _ hu => nomatch hu) fun _ hu => nomatch hu
  | @wake t c hpc =>
    exact h.goto hexcl (by rw [hpc]; exact id) (fun _ _ _ hu => nomatch hu) fun _ hu => nomatch hu
  | @ret t c r hpc =>
    exact h.goto hexcl (by rw [hpc]; exact id) (fun _ _ _ hu => nomatch hu) fun _ hu => nomatch hu
  | @unlock t c l hpc =>
    exact h.goto hexcl (by rw [hpc]; exact List.not_mem_nil) (fun _ _ _ hu => nomatch hu)
      fun _ hu => nomatch hu
  | @wait t c hpc hguard =>
    refine h.goto hexcl (by rw [hpc]; exact id) (fun _ _ _ hu => nomatch hu) fun c' hu => ?_
    cases hu
    exact hguard
  | @enter t c hpc hguard =>
    refine h.goto hexcl (by rw [hpc]; exact id) (fun c' body l hu => ?_) fun _ hu => nomatch hu
    cases hu
    exact hops c
  | @assign t c f body l hpc =>
    obtain ⟨hf, hbody⟩ := h.signals t c _ l hpc
    refine ⟨hexcl, fun u c' body' l' hu => ?_, fun u c' hu hguard => ?_⟩
    · change Function.update s.pc t _ u = _ at hu
      by_cases hut : u = t
      · rw [hut, Function.update_self] at hu
        cases hu
        exact hbody
      · rw [Function.update_of_ne hut] at hu
        exact h.signals u c' body' l' hu
    · refine ⟨t, ?_⟩
      show (Function.update s.pc t (.running c body (f s.data l).2) t).Wakes
      rw [Function.update_self]
      rcases hf with hmem | hmono
      · exact hmem
      · -- The guard held before: this task was about to wake the others, and still is.
        have hut : u ≠ t := by
          rintro rfl
          change Function.update s.pc u _ u = _ at hu
          rw [Function.update_self] at hu
          cases hu
        change Function.update s.pc t _ u = _ at hu
        rw [Function.update_of_ne hut] at hu
        obtain ⟨v, hv⟩ := h.wakes u c' hu (hmono c' s.data l hguard)
        have hvt : v = t := h.excl.eq (by rw [hpc]; trivial) hv.holds
        rw [hvt, hpc] at hv
        exact (List.mem_cons.1 hv).resolve_left fun heq => nomatch heq
  | @broadcast t c body l hpc =>
    refine ⟨hexcl, fun u c' body' l' hu => ?_, fun u c' hu => ?_⟩
    · change Function.update (fun u => (s.pc u).woken) t _ u = _ at hu
      by_cases hut : u = t
      · rw [hut, Function.update_self] at hu
        cases hu
        have hbody : Signals ops (.broadcast :: body) := h.signals t c _ l hpc
        exact hbody
      · rw [Function.update_of_ne hut] at hu
        cases hpcu : s.pc u with
        | running c'' body'' l'' =>
          rw [hpcu] at hu
          cases hu
          exact h.signals u _ _ _ hpcu
        | _ =>
          rw [hpcu] at hu
          cases hu
    · change Function.update (fun u => (s.pc u).woken) t _ u = _ at hu
      by_cases hut : u = t
      · rw [hut, Function.update_self] at hu
        cases hu
      · rw [Function.update_of_ne hut] at hu
        cases hpcu : s.pc u with
        | _ =>
          rw [hpcu] at hu
          cases hu

/-- If only tasks that are outside or asleep can move, then the tasks that are
    asleep rightly are. -/
theorem Wakes.stuck (h : Wakes ops s)
    (hstuck : ∀ l s', Step ops s l s' → ∀ t, s'.pc t ≠ s.pc t →
      s.pc t = .out ∨ ∃ c, s.pc t = .asleep c) (t : T) :
    s.pc t = .out ∨ ∃ c, s.pc t = .asleep c ∧ (ops c).guard s.data = false := by
  have hmove : ∀ {u l s' pc}, Step ops s l s' → s'.pc u = pc → pc ≠ s.pc u → s.pc u ≠ .out →
      (∀ c, s.pc u ≠ .asleep c) → False := by
    intro u l s' pc hstep hpc hne hout hasleep
    rcases hstuck l s' hstep u (hpc ▸ hne) with hu | ⟨c, hu⟩
    · exact hout hu
    · exact hasleep c hu
  -- A task that is inside can move.
  have hinside : ∀ u, ¬(s.pc u).Holds := by
    intro u hu
    cases hpc : s.pc u with
    | testing c =>
      cases hguard : (ops c).guard s.data with
      | false =>
        exact hmove (.wait hpc hguard) (Function.update_self ..) (hpc ▸ nofun) (hpc ▸ nofun)
          (hpc ▸ nofun)
      | true =>
        exact hmove (.enter hpc hguard) (Function.update_self ..) (hpc ▸ nofun) (hpc ▸ nofun)
          (hpc ▸ nofun)
    | running c body l =>
      cases body with
      | nil =>
        exact hmove (.unlock hpc) (Function.update_self ..) (hpc ▸ nofun) (hpc ▸ nofun)
          (hpc ▸ nofun)
      | cons stmt body =>
        have hne : ∀ l', Pc.running c body l' ≠ s.pc u := by
          intro l' heq
          rw [hpc] at heq
          injection heq with _ hbody
          exact List.cons_ne_self _ _ hbody.symm
        cases stmt with
        | assign f =>
          exact hmove (.assign hpc) (Function.update_self ..) (hne _) (hpc ▸ nofun) (hpc ▸ nofun)
        | broadcast =>
          have hself := Function.update_self u (.running c body l) fun v => (s.pc v).woken
          exact hmove (.broadcast hpc) hself (hne l) (hpc ▸ nofun) (hpc ▸ nofun)
    | _ =>
      rw [hpc] at hu
      exact hu
  have hfree : s.owner = none :=
    Option.eq_none_iff_forall_not_mem.2 fun u hu => hinside u ((h.excl u).2 hu)
  cases hpc : s.pc t with
  | out => exact .inl rfl
  | asleep c =>
    refine .inr ⟨c, rfl, Bool.eq_false_iff.2 fun hguard => ?_⟩
    obtain ⟨u, hu⟩ := h.wakes t c hpc hguard
    exact hinside u hu.holds
  | locking c =>
    exact (hmove (.lock hpc hfree) (Function.update_self ..) (hpc ▸ nofun) (hpc ▸ nofun)
      (hpc ▸ nofun)).elim
  | returning c r =>
    exact (hmove (.ret hpc) (Function.update_self ..) (hpc ▸ nofun) (hpc ▸ nofun)
      (hpc ▸ nofun)).elim
  | testing c => exact (hinside t (hpc ▸ trivial)).elim
  | running c body l => exact (hinside t (hpc ▸ trivial)).elim

theorem wakes_of_run (hops : ∀ c, Signals ops (ops c).body) {ls : List (Option (Event T C R))}
    {d : D} (hrun : (system ops T).Run (start T C L R d) ls s) : Wakes ops s :=
  hrun.invariant (fun _ _ _ h hstep => h.step hops hstep) (wakes_start d)

end Monitor
