import FirmwareFuzz.Lib.Monitor
import Mathlib.Algebra.BigOperators.Group.Finset.Basic
import Mathlib.Algebra.Order.BigOperators.Group.Finset

/-!
# Event groups

The event groups of the mocks: bits that tasks set and clear, and wait for. The
number of ticks a task is to wait is ignored: it waits until its condition holds.

Event groups are monitors. A wait only returns bits that meet its condition, and
a bit that is set is consumed by one wait at most, among those that clear it on
exit, in whatever order the tasks run (`waits_consume`). A task never waits on
while its condition holds, unless another task is about to wake it up or to get
there (`waits_stuck`).
-/

namespace FirmwareFuzz.EventGroups

open Monitor

/-! ## Operations -/

/-- The calls, but for the creation and the deletion of the group. -/
inductive Call
  | getBits
  | setBits (bits : UInt32)
  | clearBits (bits : UInt32)
  | waitBits (bitsToWaitFor : UInt32) (clearOnExit waitForAllBits : Int32) (ticks : UInt32)
  deriving DecidableEq, Repr

/-- The local variable is `b`. -/
def xEventGroupGetBits : Op UInt32 UInt32 UInt32 where
  guard _ := true
  init := 0
  body := [.assign fun bits _ => (bits, bits)]
  result b := b

def xEventGroupSetBits (bits : UInt32) : Op UInt32 UInt32 UInt32 where
  guard _ := true
  init := 0
  body := [.assign fun g b => (g ||| bits, b), .broadcast, .assign fun g _ => (g, g)]
  result b := b

def xEventGroupClearBits (bits : UInt32) : Op UInt32 UInt32 UInt32 where
  guard _ := true
  init := 0
  body := [.assign fun g b => (g &&& ~~~bits, b), .assign fun g _ => (g, g)]
  result b := b

/-- The condition of a wait. -/
def waitCondition (bitsToWaitFor : UInt32) (waitForAllBits : Int32) (bits : UInt32) : Bool :=
  if waitForAllBits ≠ 0 then bits &&& bitsToWaitFor = bitsToWaitFor else bits &&& bitsToWaitFor ≠ 0

/-- The local variable is `out`. -/
def xEventGroupWaitBits (bitsToWaitFor : UInt32) (clearOnExit waitForAllBits : Int32) :
    Op UInt32 UInt32 UInt32 where
  guard := waitCondition bitsToWaitFor waitForAllBits
  init := 0
  body := [.assign fun g _ => (g, g),
    .assign fun g out => (if clearOnExit ≠ 0 then g &&& ~~~bitsToWaitFor else g, out)]
  result out := out

def ops : Call → Op UInt32 UInt32 UInt32
  | .getBits => xEventGroupGetBits
  | .setBits bits => xEventGroupSetBits bits
  | .clearBits bits => xEventGroupClearBits bits
  | .waitBits bitsToWaitFor clearOnExit waitForAllBits _ =>
    xEventGroupWaitBits bitsToWaitFor clearOnExit waitForAllBits

variable {T : Type} [DecidableEq T]

/-- An event group, with tasks `T`. -/
abbrev eventGroup (T : Type) [DecidableEq T] := system ops T

/-- What `xEventGroupCreate` makes. -/
def create (T : Type) : State T Call UInt32 UInt32 UInt32 := start T Call UInt32 UInt32 0

/-! ## Bits -/

/-- The bit `i` is set. -/
def bit (i : ℕ) (bits : UInt32) : Bool := bits.toBitVec.getLsbD i

theorem bit_or (i : ℕ) (a b : UInt32) : bit i (a ||| b) = (bit i a || bit i b) := by
  simp [bit]

theorem bit_and (i : ℕ) (a b : UInt32) : bit i (a &&& b) = (bit i a && bit i b) := by
  simp [bit]

theorem bit_and_not (i : ℕ) (a b : UInt32) : bit i (a &&& ~~~b) = (bit i a && !bit i b) := by
  by_cases hi : i < 32
  · simp [bit, hi]
  · simp [bit, BitVec.getLsbD_of_ge _ _ (Nat.not_lt.1 hi)]

theorem bit_zero (i : ℕ) : bit i 0 = false := by simp [bit]

theorem eq_of_bit_eq {a b : UInt32} (h : ∀ i, bit i a = bit i b) : a = b :=
  UInt32.toBitVec_inj.1 (BitVec.eq_of_getLsbD_eq fun i _ => h i)

/-- A condition is on all bits, or on any. -/
theorem waitCondition_iff {bitsToWaitFor g : UInt32} {waitForAllBits : Int32} :
    waitCondition bitsToWaitFor waitForAllBits g = true ↔
      if waitForAllBits ≠ 0 then ∀ i, bit i bitsToWaitFor = true → bit i g = true
      else ∃ i, bit i g = true ∧ bit i bitsToWaitFor = true := by
  rw [waitCondition]
  split_ifs with hall
  · rw [decide_eq_true_iff]
    constructor
    · intro h i hi
      rw [← h, bit_and, Bool.and_eq_true] at hi
      exact hi.1
    · intro h
      refine eq_of_bit_eq fun i => ?_
      rw [bit_and, Bool.and_eq_right_iff_imp]
      exact h i
  · rw [decide_eq_true_iff]
    constructor
    · intro h
      by_contra hnone
      refine h (eq_of_bit_eq fun i => ?_)
      rw [bit_and, bit_zero, Bool.and_eq_false_iff]
      by_contra hi
      rw [not_or, Bool.not_eq_false, Bool.not_eq_false] at hi
      exact hnone ⟨i, hi⟩
    · rintro ⟨i, hi⟩ hzero
      have hbit := bit_and i g bitsToWaitFor
      rw [hzero, bit_zero, hi.1, hi.2] at hbit
      exact Bool.false_ne_true hbit

/-- A condition that holds still does with more bits. -/
theorem waitCondition_mono {bitsToWaitFor g g' : UInt32} {waitForAllBits : Int32}
    (hle : ∀ i, bit i g = true → bit i g' = true)
    (h : waitCondition bitsToWaitFor waitForAllBits g = true) :
    waitCondition bitsToWaitFor waitForAllBits g' = true := by
  rw [waitCondition_iff] at h ⊢
  split_ifs at h ⊢
  · exact fun i hi => hle i (h i hi)
  · obtain ⟨i, hg, hi⟩ := h
    exact ⟨i, hle i hg, hi⟩

theorem bit_of_bit_and_not {i : ℕ} {g bits : UInt32} (h : bit i (g &&& ~~~bits) = true) :
    bit i g = true := by
  rw [bit_and_not, Bool.and_eq_true] at h
  exact h.1

/-! ## Waking up -/

/-- Fewer bits make no guard true. -/
theorem guard_mono {g g' : UInt32} (hle : ∀ i, bit i g = true → bit i g' = true) (c : Call)
    (h : (ops c).guard g = true) : (ops c).guard g' = true := by
  cases c with
  | waitBits => exact waitCondition_mono hle h
  | _ => rfl

/-- Only `xEventGroupSetBits` may make a condition true, and it wakes all tasks. -/
theorem signals_ops (c : Call) : Signals ops (ops c).body := by
  have hread : ∀ (c : Call) (g : UInt32), (ops c).guard g = true → (ops c).guard g = true :=
    fun _ _ h => h
  cases c with
  | getBits => exact ⟨.inr fun c g _ => hread c g, trivial⟩
  | setBits bits => exact ⟨.inl List.mem_cons_self, .inr fun c g _ => hread c g, trivial⟩
  | clearBits bits =>
    exact ⟨.inr fun c g _ => guard_mono (fun i => bit_of_bit_and_not) c,
      .inr fun c g _ => hread c g, trivial⟩
  | waitBits bitsToWaitFor clearOnExit waitForAllBits ticks =>
    refine ⟨.inr fun c g _ => hread c g, .inr fun c g _ h => ?_, trivial⟩
    refine guard_mono (fun i hi => ?_) c h
    split_ifs at hi
    · exact bit_of_bit_and_not hi
    · exact hi

/-- When only tasks that are outside or asleep can move, those that are asleep
    wait on a condition that does not hold. -/
theorem waits_stuck {s : State T Call UInt32 UInt32 UInt32}
    {ls : List (Option (Event T Call UInt32))} (hrun : (eventGroup T).Run (create T) ls s)
    (hstuck : ∀ l s', (eventGroup T).step s l s' → ∀ t, s'.pc t ≠ s.pc t →
      s.pc t = .out ∨ ∃ c, s.pc t = .asleep c) (t : T) :
    s.pc t = .out ∨ ∃ bitsToWaitFor clearOnExit waitForAllBits ticks,
      s.pc t = .asleep (.waitBits bitsToWaitFor clearOnExit waitForAllBits ticks) ∧
        waitCondition bitsToWaitFor waitForAllBits s.data = false := by
  rcases (wakes_of_run signals_ops hrun).stuck hstuck t with hout | ⟨c, hpc, hguard⟩
  · exact .inl hout
  · cases c with
    | waitBits => exact .inr ⟨_, _, _, _, hpc, hguard⟩
    | _ => exact nomatch hguard

/-! ## Consuming bits -/

/-- The task that an event is of. -/
def task : Event T Call UInt32 → T
  | .call t _ | .ret t _ _ => t

/-- A wait returns with the bit `i`, and clears it. -/
def clears (i : ℕ) : Call → UInt32 → Bool
  | .waitBits bitsToWaitFor clearOnExit _ _, r => clearOnExit ≠ 0 && bit i bitsToWaitFor && bit i r
  | _, _ => false

/-- A call is to set the bit `i`. -/
def sets (i : ℕ) : Call → Bool
  | .setBits bits => bit i bits
  | _ => false

def consumesBit (i : ℕ) : Event T Call UInt32 → Bool
  | .ret _ c r => clears i c r
  | _ => false

def setsBit (i : ℕ) : Event T Call UInt32 → Bool
  | .call _ c => sets i c
  | _ => false

/-- The task has still to set the bit `i`, or to return with it. -/
def owes (i : ℕ) : Pend Call UInt32 → Bool
  | .called c => sets i c
  | .done c r => clears i c r
  | .out => false

/-- How many times the bit `i` may be consumed, by the tasks in `ts`. -/
def supply (i : ℕ) (ts : Finset T) (a : AtomicState T Call UInt32 UInt32) : ℕ :=
  (bit i a.data).toNat + ∑ t ∈ ts, (owes i (a.pend t)).toNat

theorem sum_owes_update (i : ℕ) {ts : Finset T} {t : T} (ht : t ∈ ts) {pend : T → Pend Call UInt32}
    {p : Pend Call UInt32} (hp : pend t = p) (p' : Pend Call UInt32) :
    ∑ u ∈ ts, (owes i (Function.update pend t p' u)).toNat + (owes i p).toNat =
      ∑ u ∈ ts, (owes i (pend u)).toNat + (owes i p').toNat := by
  have hne : ∀ u ∈ ts.erase t, (owes i (Function.update pend t p' u)).toNat =
      (owes i (pend u)).toNat := by
    intro u hu
    rw [Function.update_of_ne (Finset.ne_of_mem_erase hu)]
  rw [← Finset.add_sum_erase ts _ ht, ← Finset.add_sum_erase ts _ ht, Finset.sum_congr rfl hne,
    Function.update_self, hp]
  omega

/-- An operation makes no more of a bit than it is to set. -/
theorem supply_effect (i : ℕ) (c : Call) (g : UInt32) :
    (bit i ((ops c).effect g).1).toNat + (clears i c ((ops c).effect g).2).toNat ≤
      (bit i g).toNat + (sets i c).toNat := by
  cases c with
  | getBits => exact le_rfl
  | setBits bits =>
    show (bit i (g ||| bits)).toNat + 0 ≤ (bit i g).toNat + (bit i bits).toNat
    rw [bit_or]
    cases bit i g <;> cases bit i bits <;> decide
  | clearBits bits =>
    show (bit i (g &&& ~~~bits)).toNat + 0 ≤ (bit i g).toNat + 0
    rw [bit_and_not]
    cases bit i g <;> cases bit i bits <;> decide
  | waitBits w clearOnExit waitForAllBits ticks =>
    show (bit i (if clearOnExit ≠ 0 then g &&& ~~~w else g)).toNat +
      (clearOnExit ≠ 0 && bit i w && bit i g).toNat ≤ (bit i g).toNat + 0
    by_cases hclear : clearOnExit ≠ 0
    · rw [if_pos hclear, decide_eq_true hclear, bit_and_not]
      cases bit i g <;> cases bit i w <;> decide
    · rw [if_neg hclear, decide_eq_false hclear]
      exact le_rfl

/-- Tasks other than those in `ts` are outside. -/
def Within (ts : Finset T) (a : AtomicState T Call UInt32 UInt32) : Prop :=
  ∀ t ∉ ts, a.pend t = .out

theorem within_step {ts : Finset T} {a a' : AtomicState T Call UInt32 UInt32}
    {l : Option (Event T Call UInt32)} (ha : Within ts a) (hl : ∀ e ∈ l, task e ∈ ts)
    (hstep : (atomic T ops).step a l a') : Within ts a' := by
  have hupdate : ∀ (t : T) (p : Pend Call UInt32), t ∈ ts →
      ∀ u ∉ ts, Function.update a.pend t p u = .out := by
    intro t p ht u hu
    have hne : u ≠ t := fun heq => hu (heq ▸ ht)
    rw [Function.update_of_ne hne]
    exact ha u hu
  cases hstep with
  | @call t c hpend => exact hupdate t _ (hl _ rfl)
  | @ret t c r hpend => exact hupdate t _ (hl _ rfl)
  | @perform t c hpend =>
    refine hupdate t _ ?_
    by_contra ht
    cases (ha t ht).symm.trans hpend

/-- A bit is consumed from the supply, and only setting it adds to the supply. -/
theorem supply_step (i : ℕ) {ts : Finset T} {a a' : AtomicState T Call UInt32 UInt32}
    {l : Option (Event T Call UInt32)} (ha : Within ts a) (hl : ∀ e ∈ l, task e ∈ ts)
    (hstep : (atomic T ops).step a l a') :
    ((l.map (consumesBit i)).getD false).toNat + supply i ts a' ≤
      supply i ts a + ((l.map (setsBit i)).getD false).toNat := by
  cases hstep with
  | @call t c hpend =>
    have ht : t ∈ ts := hl _ rfl
    have hsum := sum_owes_update i ht hpend (.called c)
    have hout : (owes i (.out : Pend Call UInt32)).toNat = 0 := rfl
    show 0 + ((bit i a.data).toNat +
        ∑ u ∈ ts, (owes i (Function.update a.pend t (.called c) u)).toNat)
      ≤ (bit i a.data).toNat + ∑ u ∈ ts, (owes i (a.pend u)).toNat + (owes i (.called c)).toNat
    omega
  | @ret t c r hpend =>
    have ht : t ∈ ts := hl _ rfl
    have hsum := sum_owes_update i ht hpend .out
    have hout : (owes i (.out : Pend Call UInt32)).toNat = 0 := rfl
    show (owes i (.done c r)).toNat +
      ((bit i a.data).toNat + ∑ u ∈ ts, (owes i (Function.update a.pend t .out u)).toNat)
      ≤ (bit i a.data).toNat + ∑ u ∈ ts, (owes i (a.pend u)).toNat + 0
    omega
  | @perform t c hpend =>
    have ht : t ∈ ts := by
      by_contra ht
      cases (ha t ht).symm.trans hpend
    have heffect := supply_effect i c a.data
    have hsum := sum_owes_update i ht hpend (.done c ((ops c).effect a.data).2)
    change _ + (sets i c).toNat = _ + (clears i c ((ops c).effect a.data).2).toNat at hsum
    show 0 + ((bit i ((ops c).effect a.data).1).toNat +
        ∑ u ∈ ts, (owes i (Function.update a.pend t (.done c ((ops c).effect a.data).2) u)).toNat)
      ≤ (bit i a.data).toNat + ∑ u ∈ ts, (owes i (a.pend u)).toNat + 0
    omega

theorem countP_reduceOption {α : Type} (p : α → Bool) (ls : List (Option α)) :
    ls.reduceOption.countP p = ls.countP fun l => (l.map p).getD false := by
  rw [List.reduceOption, List.countP_filterMap]
  rfl

/-- In a run of the atomic group, a bit is consumed at most as often as it is set. -/
theorem countP_consumesBit_le (i : ℕ) {ls : List (Option (Event T Call UInt32))}
    {a : AtomicState T Call UInt32 UInt32}
    (hrun : (atomic T ops).Run (atomicStart T Call UInt32 0) ls a) :
    ls.reduceOption.countP (consumesBit i) ≤ ls.reduceOption.countP (setsBit i) := by
  -- The tasks of the run are finitely many.
  set ts : Finset T := (ls.reduceOption.map task).toFinset
  have hts : ∀ l ∈ ls, ∀ e ∈ l, task e ∈ ts := by
    intro l hl e he
    rw [Option.mem_def.1 he] at hl
    exact List.mem_toFinset.2 (List.mem_map_of_mem (List.reduceOption_mem_iff.2 hl))
  have hstart : Within ts (atomicStart T Call UInt32 (0 : UInt32)) := fun _ _ => rfl
  obtain ⟨hrun', -⟩ := hrun.restrict (P := Within ts) (fun _ _ _ => within_step) hts hstart
  have hzero : supply i ts (atomicStart T Call UInt32 (0 : UInt32)) = 0 := by
    show (bit i 0).toNat + ∑ u ∈ ts, (owes i (Pend.out : Pend Call UInt32)).toNat = 0
    rw [bit_zero, Finset.sum_const]
    rfl
  have hle := hrun'.countP_le fun a l a'
    (hst : Within ts a ∧ (∀ e ∈ l, task e ∈ ts) ∧ (atomic T ops).step a l a') =>
      supply_step i hst.1 hst.2.1 hst.2.2
  rw [countP_reduceOption, countP_reduceOption]
  omega

/-- Every wait that is over was over in time. -/
def Met (a : AtomicState T Call UInt32 UInt32) : Prop :=
  ∀ t bitsToWaitFor clearOnExit waitForAllBits ticks r,
    a.pend t = .done (.waitBits bitsToWaitFor clearOnExit waitForAllBits ticks) r →
      waitCondition bitsToWaitFor waitForAllBits r = true

theorem met_step {a a' : AtomicState T Call UInt32 UInt32} {l : Option (Event T Call UInt32)}
    (ha : Met a) (hstep : (atomic T ops).step a l a') : Met a' := by
  have hupdate : ∀ (t : T) (p : Pend Call UInt32) (d : UInt32),
      (∀ w clear all ticks r, p = .done (.waitBits w clear all ticks) r →
        waitCondition w all r = true) → Met ⟨d, Function.update a.pend t p⟩ := by
    intro t p d hp u w clear all ticks r hu
    change Function.update a.pend t p u = _ at hu
    by_cases hut : u = t
    · rw [hut, Function.update_self] at hu
      exact hp w clear all ticks r hu
    · rw [Function.update_of_ne hut] at hu
      exact ha u w clear all ticks r hu
  cases hstep with
  | @call t c hpend => exact hupdate t _ _ fun _ _ _ _ _ hp => nomatch hp
  | @ret t c r hpend => exact hupdate t _ _ fun _ _ _ _ _ hp => nomatch hp
  | @perform t c hpend hguard =>
    refine hupdate t _ _ fun w clear all ticks r hp => ?_
    injection hp with hc hr
    rw [← hr]
    subst hc
    exact hguard

/-- In a run of the atomic group, waits return with bits that meet their condition. -/
theorem waitCondition_of_mem {ls : List (Option (Event T Call UInt32))}
    {a : AtomicState T Call UInt32 UInt32}
    (hrun : (atomic T ops).Run (atomicStart T Call UInt32 0) ls a) {t : T}
    {bitsToWaitFor ticks r : UInt32} {clearOnExit waitForAllBits : Int32}
    (hmem : .ret t (.waitBits bitsToWaitFor clearOnExit waitForAllBits ticks) r ∈
      ls.reduceOption) : waitCondition bitsToWaitFor waitForAllBits r = true := by
  have hstart : Met (atomicStart T Call UInt32 (0 : UInt32)) := fun _ _ _ _ _ _ h => nomatch h
  obtain ⟨hrun', -⟩ := hrun.restrict (Q := fun _ => True) (fun _ _ _ ha _ => met_step ha)
    (fun _ _ => trivial) hstart
  obtain ⟨a₁, a₂, ha₁, -, hstep⟩ := hrun'.exists_step (List.reduceOption_mem_iff.1 hmem)
  cases hstep with
  | ret hpend => exact ha₁ _ _ _ _ _ _ hpend

/-- In every run, waits return with bits that meet their condition, and a bit is
    consumed at most as often as it is set. -/
theorem waits_consume {s : State T Call UInt32 UInt32 UInt32}
    {ls : List (Option (Event T Call UInt32))} (hrun : (eventGroup T).Run (create T) ls s) :
    (∀ t bitsToWaitFor clearOnExit waitForAllBits ticks r,
      .ret t (.waitBits bitsToWaitFor clearOnExit waitForAllBits ticks) r ∈ ls.reduceOption →
        waitCondition bitsToWaitFor waitForAllBits r = true) ∧
      ∀ i, ls.reduceOption.countP (consumesBit i) ≤ ls.reduceOption.countP (setsBit i) := by
  obtain ⟨ls', a, hrun', hls⟩ := exists_atomic_run hrun
  rw [← hls]
  exact ⟨fun t w clear all ticks r hmem => waitCondition_of_mem hrun' hmem,
    fun i => countP_consumesBit_le i hrun'⟩

/-! ## A run -/

/-- The task `false` waits for the bit that the task `true` sets. -/
def handover : List (Option (Event Bool Call UInt32)) :=
  [some (.call false (.waitBits 1 1 1 0)), none, none, some (.call true (.setBits 1)), none, none,
    none, none, none, none, some (.ret true (.setBits 1) 1), none, none, none, none, none,
    some (.ret false (.waitBits 1 1 1 0) 1)]

theorem handover_run : ∃ s, (eventGroup Bool).Run (create Bool) handover s :=
  ⟨_, .cons (.call rfl) <|
    .cons (.lock (t := false) (c := .waitBits 1 1 1 0) rfl rfl) <|
    .cons (.wait (t := false) (c := .waitBits 1 1 1 0) rfl rfl) <|
    .cons (.call rfl) <|
    .cons (.lock (t := true) (c := .setBits 1) rfl rfl) <|
    .cons (.enter (t := true) (c := .setBits 1) rfl rfl) <|
    .cons (.assign (t := true) (c := .setBits 1) rfl) <|
    .cons (.broadcast (t := true) (c := .setBits 1) rfl) <|
    .cons (.assign (t := true) (c := .setBits 1) rfl) <|
    .cons (.unlock (t := true) (c := .setBits 1) rfl) <|
    .cons (.ret rfl) <|
    .cons (.lock (t := false) (c := .waitBits 1 1 1 0) rfl rfl) <|
    .cons (.enter (t := false) (c := .waitBits 1 1 1 0) rfl rfl) <|
    .cons (.assign (t := false) (c := .waitBits 1 1 1 0) rfl) <|
    .cons (.assign (t := false) (c := .waitBits 1 1 1 0) rfl) <|
    .cons (.unlock (t := false) (c := .waitBits 1 1 1 0) rfl) <|
    .cons (.ret rfl) (.nil _)⟩

/-- In between, the one waits and the other is outside. -/
theorem handover_asleep : ∃ s, (eventGroup Bool).Run (create Bool) (handover.take 3) s ∧
    s.pc false = .asleep (.waitBits 1 1 1 0) ∧ s.pc true = .out :=
  ⟨_, .cons (.call rfl) <|
    .cons (.lock (t := false) (c := .waitBits 1 1 1 0) rfl rfl) <|
    .cons (.wait (t := false) (c := .waitBits 1 1 1 0) rfl rfl) (.nil _), rfl, rfl⟩

theorem waits_stuck_handover : ∃ s, (eventGroup Bool).Run (create Bool) (handover.take 3) s ∧
    ∀ t, s.pc t = .out ∨ ∃ bitsToWaitFor clearOnExit waitForAllBits ticks,
      s.pc t = .asleep (.waitBits bitsToWaitFor clearOnExit waitForAllBits ticks) ∧
        waitCondition bitsToWaitFor waitForAllBits s.data = false := by
  obtain ⟨s, hrun, hfalse, htrue⟩ := handover_asleep
  refine ⟨s, hrun, waits_stuck hrun fun l s' _ t _ => ?_⟩
  cases t with
  | false => exact .inr ⟨_, hfalse⟩
  | true => exact .inl htrue

theorem waits_consume_handover : waitCondition 1 1 1 = true ∧
    handover.reduceOption.countP (consumesBit 0) ≤ handover.reduceOption.countP (setsBit 0) := by
  obtain ⟨s, hrun⟩ := handover_run
  refine ⟨(waits_consume hrun).1 false 1 1 1 0 1 ?_, (waits_consume hrun).2 0⟩
  rw [List.reduceOption_mem_iff]
  exact List.mem_of_getLast? rfl

end FirmwareFuzz.EventGroups
