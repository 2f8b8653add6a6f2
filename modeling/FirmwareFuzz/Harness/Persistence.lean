import FirmwareFuzz.Harness.Loop
import FirmwareFuzz.Platform

/-!
# Independence of the iterations

All iterations of the loop run in one process. A client reaches it by the
operations of the transport and the functions of the platform, choosing every
call by the replies to its earlier ones (`Client`); an iteration is observed as
its trace, the calls with their replies (`iterate`).

The transport, the buffer and `errno` are made anew or written before they are
read; `ticks` and the state of `rand` are not. The trace of an iteration is that
of a fresh process on the same input if the iteration finds `ticks` at zero, or
never asks for it, and finds `rand` as it was seeded, or never draws from it
(`iterate_eq_fresh`). For `ticks`, this is necessary.
-/

namespace FirmwareFuzz

open CLang

/-! ## The client -/

/-- The calls of a client: the operations of the transport, the last error it
    keeps, and the platform. -/
inductive ClientCall
  | connect
  | read (len : Int32)
  | write (buf : List UInt8) (len : Int32)
  | pollRead
  | close
  | getErrno
  | tickGetMs
  | random (max : Int32)
  | createIdString
  deriving DecidableEq, Repr

inductive Reply
  | outcome (o : Outcome)
  | errno (e : Int32)
  | ticks (ms : UInt64)
  | random (n : Int32)
  | idString (id : Option (List UInt8))
  deriving DecidableEq, Repr

/-- A deterministic client: the next call, if any, after the given replies. -/
def Client : Type := List Reply → Option ClientCall

/-- The calls of an iteration with their replies; a call that accesses memory out
    of bounds has none, and is the last one. -/
abbrev Trace : Type := List (ClientCall × Option Reply)

variable {γ : Type} (rand : γ → ℕ × γ)

/-- An operation of the transport, whose allocation, if any, succeeds if `mem`. -/
def ClientCall.op (mem : Bool) : ClientCall → Option Op
  | connect => some .connect
  | read len => some (.read len)
  | write buf len => some (.write buf len mem)
  | pollRead => some .pollRead
  | close => some .close
  | _ => none

/-- The reply to a call that is no operation. -/
def platformReply (mem : Bool) (t : EspTransport) (p : Platform γ) : ClientCall → Reply × Platform γ
  | .tickGetMs => (platformTickGetMs p).map .ticks id
  | .random max => (platformRandom rand p max).map .random id
  | .createIdString => (platformCreateIdString rand p mem).map .idString id
  | _ => (.errno t.lastErrno, p)

/-- The reply to a call. -/
def answer (mem : Bool) (t : EspTransport) (p : Platform γ) (c : ClientCall) :
    Except Fault (Reply × EspTransport × Platform γ) :=
  match c.op mem with
  | some op => do
    let (o, t) ← t.step op
    return (.outcome o, t, p)
  | none =>
    let (r, p) := platformReply rand mem t p c
    .ok (r, t, p)

/-- At most `n` more calls of the client, after the given replies. The `i`-th call
    finds memory if `alloc i`. -/
def serve (client : Client) (alloc : ℕ → Bool) :
    (n : ℕ) → List Reply → EspTransport → Platform γ → Trace × Option (EspTransport × Platform γ)
  | 0, _, t, p => ([], some (t, p))
  | n + 1, replies, t, p =>
    match client replies with
    | none => ([], some (t, p))
    | some c =>
      match answer rand (alloc replies.length) t p c with
      | .error _ => ([(c, none)], none)
      | .ok (r, t, p) =>
        let (tr, s) := serve client alloc n (replies ++ [r]) t p
        ((c, some r) :: tr, s)

/-! ## Iterations -/

/-- The process between two iterations. -/
structure Process (γ : Type) where
  globals : Globals
  buf : List UInt8
  errno : Int32
  platform : Platform γ
  buf_length : buf.length = bufSize

/-- What an iteration depends on besides the process: what `read` gives, and
    whether the allocations for the transport and those of the calls succeed. -/
structure Input where
  read : ReadResult
  mem : Bool
  alloc : ℕ → Bool

/-- An iteration: its trace, and the process after it, if it lives on. -/
def iterate (client : Client) (n : ℕ) (p : Process γ) (x : Input) : Trace × Option (Process γ) :=
  let p := { p with buf := x.read.fill p.buf, buf_length := x.read.length_fill p.buf_length }
  match runOnce p.globals p.buf x.read.len x.mem with
  | .error _ => ([], none)
  | .ok none => ([], some p)
  | .ok (some cfg) =>
    let (tr, s) := serve rand client x.alloc n [] { cfg.transport with errno := p.errno } p.platform
    (tr, s.map fun (t, platform) => { p with errno := t.errno, platform := platform })

/-- The loop, as a system whose labels are the inputs with the traces on them. -/
def persistent (client : Client) (n : ℕ) : Lts (Process γ) (Input × Trace) where
  step p l p' := iterate rand client n p l.1 = (l.2, some p')

/-- A process that has just parsed its arguments. -/
structure Fresh (g : Globals) (seed : γ) (p : Process γ) : Prop where
  globals_eq : p.globals = g
  ticks_eq : p.platform.ticks = 0
  gen_eq : p.platform.gen = seed

/-! ## What a client sees -/

/-- What a client can see of a handle: all but `errno`. -/
def EspTransport.view (t : EspTransport) : Int32 × FuzzState := (t.lastErrno, t.data)

/-- The outcome of an operation, and what is seen of the handle after it, depend on
    what is seen before. -/
theorem step_view {t₁ t₂ : EspTransport} (h : t₁.view = t₂.view) (op : Op) :
    (t₁.step op).map (Prod.map id EspTransport.view) =
      (t₂.step op).map (Prod.map id EspTransport.view) := by
  obtain ⟨lastErrno, errno₁, data⟩ := t₁
  obtain ⟨_, errno₂, _⟩ := t₂
  obtain ⟨rfl, rfl⟩ := Prod.mk.inj h
  cases op with
  | connect => rfl
  | pollRead => rfl
  | close => rfl
  | write buf len mem =>
    exact Except.map_bind_congr fun _ => Except.map_bind_congr fun _ => rfl
  | read len =>
    simp only [EspTransport.step, fuzzRead]
    generalize (if data.rxLen > data.rxOff then data.rxLen - data.rxOff else 0) = avail
    split
    · rfl
    · split
      · exact Except.map_bind_congr fun _ => rfl
      · split
        · rfl
        · exact Except.map_bind_congr fun _ => rfl

/-- The call asks for `ticks`. -/
def AsksTicks (e : ClientCall × Option Reply) : Prop := e.1 = .tickGetMs

/-- The call draws from `rand`. -/
def Draws (e : ClientCall × Option Reply) : Prop :=
  match e.1 with
  | .random max => max > 0
  | .createIdString => e.2 ≠ some (.idString none)
  | _ => False

variable {rand}

/-- Two processes give the same reply, if they agree on what it depends on. -/
theorem platformReply_congr {t₁ t₂ : EspTransport} (ht : t₁.view = t₂.view) {p₁ p₂ : Platform γ}
    {mem : Bool} {c : ClientCall} (hticks : p₁.ticks = p₂.ticks ∨ c ≠ .tickGetMs)
    (hgen : p₁.gen = p₂.gen ∨ ¬Draws (c, some (platformReply rand mem t₂ p₂ c).1)) :
    (platformReply rand mem t₁ p₁ c).1 = (platformReply rand mem t₂ p₂ c).1 ∧
      (p₁.ticks = p₂.ticks →
        (platformReply rand mem t₁ p₁ c).2.ticks = (platformReply rand mem t₂ p₂ c).2.ticks) ∧
      (p₁.gen = p₂.gen →
        (platformReply rand mem t₁ p₁ c).2.gen = (platformReply rand mem t₂ p₂ c).2.gen) := by
  cases c with
  | tickGetMs =>
    have heq : p₁.ticks = p₂.ticks := hticks.resolve_right fun h => h rfl
    exact ⟨congrArg (fun n => Reply.ticks (n + 1)) heq, congrArg (· + 1), id⟩
  | random max =>
    obtain ⟨hreply, hstate⟩ := platformRandom_congr hgen
    refine ⟨congrArg Reply.random hreply, fun h => ?_, hstate⟩
    exact ((ticks_platformRandom _ _ _).trans h).trans (ticks_platformRandom _ _ _).symm
  | createIdString =>
    have hgen' : p₁.gen = p₂.gen ∨ mem = false := by
      refine hgen.imp_right fun h => ?_
      cases mem with
      | false => rfl
      | true => exact absurd nofun h
    obtain ⟨hreply, hstate⟩ := platformCreateIdString_congr hgen'
    refine ⟨congrArg Reply.idString hreply, fun h => ?_, hstate⟩
    exact ((ticks_platformCreateIdString _ _ _).trans h).trans
      (ticks_platformCreateIdString _ _ _).symm
  | _ => exact ⟨congrArg (fun v : Int32 × FuzzState => Reply.errno v.1) ht, id, id⟩

theorem answer_op {mem : Bool} {c : ClientCall} {op : Op} (h : c.op mem = some op)
    (t : EspTransport) (p : Platform γ) :
    answer rand mem t p c = (t.step op).map fun x => (.outcome x.1, x.2, p) := by
  simp only [answer, h]
  cases t.step op <;> rfl

theorem answer_platform {mem : Bool} {c : ClientCall} (h : c.op mem = none) (t : EspTransport)
    (p : Platform γ) :
    answer rand mem t p c =
      .ok ((platformReply rand mem t p c).1, t, (platformReply rand mem t p c).2) := by
  simp only [answer, h]

theorem answer_congr {t₁ t₂ : EspTransport} (ht : t₁.view = t₂.view) {p₁ p₂ : Platform γ}
    {mem : Bool} {c : ClientCall} (hticks : p₁.ticks = p₂.ticks ∨ c ≠ .tickGetMs)
    (hgen : p₁.gen = p₂.gen ∨
      ∀ r t p, answer rand mem t₂ p₂ c = .ok (r, t, p) → ¬Draws (c, some r)) :
    (∃ e₁ e₂, answer rand mem t₁ p₁ c = .error e₁ ∧ answer rand mem t₂ p₂ c = .error e₂) ∨
      ∃ r t₁' t₂' p₁' p₂', answer rand mem t₁ p₁ c = .ok (r, t₁', p₁') ∧
        answer rand mem t₂ p₂ c = .ok (r, t₂', p₂') ∧ t₁'.view = t₂'.view ∧
        (p₁.ticks = p₂.ticks → p₁'.ticks = p₂'.ticks) ∧ (p₁.gen = p₂.gen → p₁'.gen = p₂'.gen) := by
  cases hop : c.op mem with
  | none =>
    rw [answer_platform hop] at hgen ⊢
    obtain ⟨hreply, hstate⟩ := platformReply_congr ht hticks (hgen.imp_right fun h => h _ _ _ rfl)
    rw [hreply, answer_platform hop]
    exact .inr ⟨_, _, _, _, _, rfl, rfl, ht, hstate⟩
  | some op =>
    have hview := step_view ht op
    rw [answer_op hop, answer_op hop]
    cases h₁ : t₁.step op with
    | error e₁ =>
      cases h₂ : t₂.step op with
      | error e₂ => exact .inl ⟨e₁, e₂, rfl, rfl⟩
      | ok x => simp [h₁, h₂, Except.map] at hview
    | ok x₁ =>
      cases h₂ : t₂.step op with
      | error e => simp [h₁, h₂, Except.map] at hview
      | ok x₂ =>
        rw [h₁, h₂] at hview
        obtain ⟨ho, hv⟩ := Prod.mk.inj (Except.ok.inj hview)
        refine .inr ⟨.outcome x₁.1, x₁.2, x₂.2, p₁, p₂, rfl, ?_, hv, id, id⟩
        exact congrArg (fun o => Except.ok (Reply.outcome o, x₂.2, p₂)) ho.symm

section

variable {client : Client} {alloc : ℕ → Bool} {n : ℕ} {replies : List Reply} {c : ClientCall}
  {t : EspTransport} {p : Platform γ}

theorem serve_done (hc : client replies = none) :
    serve rand client alloc n replies t p = ([], some (t, p)) := by
  cases n with
  | zero => rfl
  | succ n =>
    rw [serve]
    simp only [hc]

theorem serve_error (hc : client replies = some c) {e : Fault}
    (h : answer rand (alloc replies.length) t p c = .error e) :
    serve rand client alloc (n + 1) replies t p = ([(c, none)], none) := by
  rw [serve]
  simp only [hc, h]

theorem serve_ok (hc : client replies = some c) {r : Reply} {t' : EspTransport} {p' : Platform γ}
    (h : answer rand (alloc replies.length) t p c = .ok (r, t', p')) :
    serve rand client alloc (n + 1) replies t p =
      ((c, some r) :: (serve rand client alloc n (replies ++ [r]) t' p').1,
        (serve rand client alloc n (replies ++ [r]) t' p').2) := by
  rw [serve]
  simp only [hc, h]

/-- The next call of the client is in the trace. -/
theorem exists_mem_serve (hc : client replies = some c) :
    ∃ r, (c, r) ∈ (serve rand client alloc (n + 1) replies t p).1 := by
  cases h : answer rand (alloc replies.length) t p c with
  | error e => exact ⟨none, by simp [serve_error hc h]⟩
  | ok x => exact ⟨some x.1, by simp [serve_ok hc h]⟩

end

/-- Two iterations in lockstep: they show the same trace as long as they agree on
    what the calls depend on. -/
theorem serve_congr {client : Client} {alloc : ℕ → Bool} {n : ℕ} {replies : List Reply}
    {t₁ t₂ : EspTransport} (ht : t₁.view = t₂.view) {p₁ p₂ : Platform γ}
    (hticks : p₁.ticks = p₂.ticks ∨
      ∀ e ∈ (serve rand client alloc n replies t₂ p₂).1, ¬AsksTicks e)
    (hgen : p₁.gen = p₂.gen ∨ ∀ e ∈ (serve rand client alloc n replies t₂ p₂).1, ¬Draws e) :
    (serve rand client alloc n replies t₁ p₁).1 = (serve rand client alloc n replies t₂ p₂).1 := by
  induction n generalizing replies t₁ t₂ p₁ p₂ with
  | zero => rfl
  | succ n ih =>
    cases hc : client replies with
    | none => rw [serve_done hc, serve_done hc]
    | some c =>
      have hticks' : p₁.ticks = p₂.ticks ∨ c ≠ .tickGetMs := by
        obtain ⟨r, hr⟩ := exists_mem_serve hc
        exact hticks.imp_right fun h => h _ hr
      have hgen' : p₁.gen = p₂.gen ∨ ∀ r t p,
          answer rand (alloc replies.length) t₂ p₂ c = .ok (r, t, p) → ¬Draws (c, some r) :=
        hgen.imp_right fun h r t p hr => h _ (by simp [serve_ok hc hr])
      rcases answer_congr ht hticks' hgen' with
        ⟨e₁, e₂, h₁, h₂⟩ | ⟨r, t₁', t₂', p₁', p₂', h₁, h₂, ht', hticks₁, hgen₁⟩
      · rw [serve_error hc h₁, serve_error hc h₂]
      · -- The same reply: the rest is in lockstep too.
        rw [serve_ok hc h₂] at hticks hgen
        rw [serve_ok hc h₁, serve_ok hc h₂]
        refine congrArg (_ :: ·)
          (ih ht' (hticks.imp hticks₁ fun h => ?_) (hgen.imp hgen₁ fun h => ?_))
        · exact fun e he => h e (List.mem_cons_of_mem _ he)
        · exact fun e he => h e (List.mem_cons_of_mem _ he)

theorem answer_tickGetMs (mem : Bool) (t : EspTransport) (p : Platform γ) :
    answer rand mem t p .tickGetMs =
      .ok (.ticks (p.ticks + 1), t, { p with ticks := p.ticks + 1 }) := rfl

/-- No other call changes `ticks`. -/
theorem ticks_of_answer {mem : Bool} {c : ClientCall} (hc : c ≠ .tickGetMs) {t t' : EspTransport}
    {p p' : Platform γ} {r : Reply} (h : answer rand mem t p c = .ok (r, t', p')) :
    p'.ticks = p.ticks := by
  cases hop : c.op mem with
  | some op =>
    rw [answer_op hop] at h
    cases hst : t.step op with
    | error e => simp [hst, Except.map] at h
    | ok x =>
      simp only [hst, Except.map, Except.ok.injEq, Prod.mk.injEq] at h
      rw [h.2.2]
  | none =>
    rw [answer_platform hop, Except.ok.injEq, Prod.mk.injEq, Prod.mk.injEq] at h
    rw [← h.2.2]
    cases c with
    | tickGetMs => exact absurd rfl hc
    | random max => exact ticks_platformRandom _ _ _
    | createIdString => exact ticks_platformCreateIdString _ _ _
    | _ => rfl

/-- Iterations that show the same trace agree on `ticks`, if they ask for it. -/
theorem ticks_eq_of_serve {client : Client} {alloc : ℕ → Bool} {n : ℕ} {replies : List Reply}
    {t₁ t₂ : EspTransport} {p₁ p₂ : Platform γ}
    (h : (serve rand client alloc n replies t₁ p₁).1 =
      (serve rand client alloc n replies t₂ p₂).1) :
    p₁.ticks = p₂.ticks ∨ ∀ e ∈ (serve rand client alloc n replies t₂ p₂).1, ¬AsksTicks e := by
  induction n generalizing replies t₁ t₂ p₁ p₂ with
  | zero => exact .inr nofun
  | succ n ih =>
    cases hc : client replies with
    | none =>
      rw [serve_done hc]
      exact .inr nofun
    | some c =>
      by_cases htick : c = .tickGetMs
      · -- The first reply tells.
        subst htick
        rw [serve_ok hc (answer_tickGetMs _ _ _), serve_ok hc (answer_tickGetMs _ _ _)] at h
        have hreply := (Prod.mk.inj (List.cons.inj h).1).2
        exact .inl (add_right_cancel (Reply.ticks.inj (Option.some.inj hreply)))
      · cases h₂ : answer rand (alloc replies.length) t₂ p₂ c with
        | error e =>
          rw [serve_error hc h₂]
          refine .inr fun e he => ?_
          obtain rfl := List.mem_singleton.1 he
          exact htick
        | ok x₂ =>
          cases h₁ : answer rand (alloc replies.length) t₁ p₁ c with
          | error e =>
            rw [serve_error hc h₁, serve_ok hc h₂] at h
            exact absurd (Prod.mk.inj (List.cons.inj h).1).2 nofun
          | ok x₁ =>
            rw [serve_ok hc h₁, serve_ok hc h₂] at h
            obtain ⟨hhead, htail⟩ := List.cons.inj h
            have hreply := Option.some.inj (Prod.mk.inj hhead).2
            rw [hreply] at htail
            rw [serve_ok hc h₂, ← ticks_of_answer htick h₁, ← ticks_of_answer htick h₂]
            exact (ih htail).imp_right fun h => List.forall_mem_cons.2 ⟨htick, h⟩

/-! ## Independence -/

variable {client : Client} {n : ℕ} {g : Globals} {seed : γ}

/-- The trace of an iteration: the calls on the handle over its input. -/
theorem iterate_fst (p : Process γ) (x : Input) :
    (iterate rand client n p x).1 =
      match runOnce p.globals (x.read.fill p.buf) x.read.len x.mem with
      | .ok (some cfg) =>
        (serve rand client x.alloc n [] { cfg.transport with errno := p.errno } p.platform).1
      | _ => [] := by
  simp only [iterate]
  cases runOnce p.globals (x.read.fill p.buf) x.read.len x.mem with
  | error _ => rfl
  | ok cfg => cases cfg <;> rfl

/-- The iterations leave the globals alone. -/
theorem globals_of_run {p₀ p : Process γ} {ls : List (Input × Trace)}
    (h : (persistent rand client n).Run p₀ ls p) : p.globals = p₀.globals := by
  refine h.invariant (P := fun p => p.globals = p₀.globals) (fun p l p' hp hst => ?_) rfl
  have hst' := congrArg Prod.snd hst
  simp only [iterate] at hst'
  cases hrun : runOnce p.globals (l.1.read.fill p.buf) l.1.read.len l.1.mem with
  | error _ => simp [hrun] at hst'
  | ok cfg =>
    cases cfg with
    | none =>
      simp only [hrun, Option.some_inj] at hst'
      rw [← hst', hp]
    | some cfg =>
      simp only [hrun, Option.map_eq_some_iff] at hst'
      obtain ⟨_, _, rfl⟩ := hst'
      exact hp

/-- An iteration shows the trace a fresh process shows on the same input, if it
    finds `ticks` at zero or never asks for it, and finds `rand` as it was
    seeded or never draws from it. What is asked of `ticks` is necessary; what is
    asked of `rand` is only sufficient, as another state may draw the same. -/
theorem iterate_eq_fresh {p₀ p p₁ : Process γ} (h₀ : Fresh g seed p₀) {ls : List (Input × Trace)}
    (hrun : (persistent rand client n).Run p₀ ls p) (h₁ : Fresh g seed p₁) (x : Input) :
    ((p.platform.ticks = 0 ∨ ∀ e ∈ (iterate rand client n p₁ x).1, ¬AsksTicks e) ∧
        (p.platform.gen = seed ∨ ∀ e ∈ (iterate rand client n p₁ x).1, ¬Draws e) →
      (iterate rand client n p x).1 = (iterate rand client n p₁ x).1) ∧
    ((iterate rand client n p x).1 = (iterate rand client n p₁ x).1 →
      p.platform.ticks = 0 ∨ ∀ e ∈ (iterate rand client n p₁ x).1, ¬AsksTicks e) := by
  have hbuf : x.read.fill p.buf = x.read.fill p₁.buf := by
    rw [x.read.fill_eq p.buf_length, x.read.fill_eq p₁.buf_length]
  rw [iterate_fst, iterate_fst, globals_of_run hrun, h₀.globals_eq, h₁.globals_eq, hbuf,
    ← h₁.ticks_eq, ← h₁.gen_eq]
  -- Both make the same handle, but for `errno`.
  rcases runOnce g (x.read.fill p₁.buf) x.read.len x.mem with _ | _ | cfg
  · exact ⟨fun _ => rfl, fun _ => .inr nofun⟩
  · exact ⟨fun _ => rfl, fun _ => .inr nofun⟩
  · have hview : ({ cfg.transport with errno := p.errno } : EspTransport).view =
        ({ cfg.transport with errno := p₁.errno } : EspTransport).view := rfl
    exact ⟨fun h => serve_congr hview h.1 h.2, ticks_eq_of_serve⟩

/-- A fresh process, with a buffer of zeros. -/
def startProcess (g : Globals) (seed : γ) : Process γ :=
  ⟨g, List.replicate bufSize 0, 0, ⟨0, seed⟩, List.length_replicate⟩

theorem fresh_startProcess (g : Globals) (seed : γ) : Fresh g seed (startProcess g seed) :=
  ⟨rfl, rfl, rfl⟩

/-- A PINGRESP, with memory for all of it. -/
def pingrespInput : Input := ⟨some ⟨[0xD0, 0x00], by decide⟩, true, fun _ => true⟩

/-- A client that connects and asks for the time, once. -/
def clockClient : Client
  | [] => some .connect
  | [_] => some .tickGetMs
  | _ => none

/-- A client that connects and polls, once. -/
def pollClient : Client
  | [] => some .connect
  | [_] => some .pollRead
  | _ => none

theorem iterate_eq_fresh_poll :
    ∃ p tr, (persistent (fun s : Unit => (0, s)) pollClient 2).Run (startProcess ⟨0, 0, 0⟩ ())
        [(pingrespInput, tr)] p ∧
      (iterate (fun s => (0, s)) pollClient 2 p pingrespInput).1 =
        (iterate (fun s => (0, s)) pollClient 2 (startProcess ⟨0, 0, 0⟩ ()) pingrespInput).1 := by
  have hrun : (persistent (fun s : Unit => (0, s)) pollClient 2).Run (startProcess ⟨0, 0, 0⟩ ())
      [(pingrespInput, [(.connect, some (.outcome ⟨0, none⟩)),
        (.pollRead, some (.outcome ⟨1, none⟩))])] _ := .cons rfl (.nil _)
  exact ⟨_, _, hrun, (iterate_eq_fresh (fresh_startProcess _ _) hrun (fresh_startProcess _ _)
    pingrespInput).1 ⟨.inl rfl, .inl rfl⟩⟩

/-- On the same input, the second iteration of a process does not show the trace
    of a fresh process: the clock has gone on. -/
theorem iterate_clock :
    ∃ p tr, (persistent (fun s : Unit => (0, s)) clockClient 2).Run (startProcess ⟨0, 0, 0⟩ ())
        [(pingrespInput, tr)] p ∧
      (iterate (fun s => (0, s)) clockClient 2 p pingrespInput).1 ≠
        (iterate (fun s => (0, s)) clockClient 2 (startProcess ⟨0, 0, 0⟩ ()) pingrespInput).1 := by
  have hrun : (persistent (fun s : Unit => (0, s)) clockClient 2).Run (startProcess ⟨0, 0, 0⟩ ())
      [(pingrespInput, [(.connect, some (.outcome ⟨0, none⟩)),
        (.tickGetMs, some (.ticks 1))])] _ := .cons rfl (.nil _)
  refine ⟨_, _, hrun, ?_⟩
  show [(ClientCall.connect, some (Reply.outcome ⟨0, none⟩)), (.tickGetMs, some (.ticks 2))] ≠
    [(.connect, some (.outcome ⟨0, none⟩)), (.tickGetMs, some (.ticks 1))]
  decide

end FirmwareFuzz
