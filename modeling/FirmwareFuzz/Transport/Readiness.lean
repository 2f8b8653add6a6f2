import FirmwareFuzz.Transport.Streams

/-!
# Reading on

A read of at least one byte from a connected transport returns at least one
byte as long as any is pending (`fuzzRead_progress`), and fails when none is
(`fuzzRead_timeout`). Two things follow.

* Reading on, in whatever portions and under whatever fragmentation, gives all
  that is pending and then fails, in at most one read more than there are bytes
  (`reads_drain`).
* Polling tells whether the next read returns something if, and only if, no
  reply waits behind an exhausted input (`pollRead_agrees_iff`): the poll asks
  for the input alone.

A client that only reads after a poll that succeeds thus reads nothing any more
once the input is exhausted, though more and more replies are pending
(`polled_starves`).
-/

namespace FirmwareFuzz

variable {t t' : EspTransport} {len : Int32}

/-- What is pending: the replies, then the input. -/
def FuzzState.pending (s : FuzzState) : List UInt8 := s.rxPending ++ s.inPending

/-- A read of at least one byte takes at least one, if any is pending. -/
theorem fuzzRead_progress (h : Inv t.data) (hc : t.data.connected = true) (hlen : 0 < len.toInt)
    (hne : t.data.pending ≠ []) :
    ∃ o t', fuzzRead t len = .ok (o, t') ∧ Inv t'.data ∧ t'.data.connected = true ∧
      1 ≤ o.ret.toInt ∧ t'.data.pending.length < t.data.pending.length := by
  have hcap : 0 < readCap t.data.frag len := readCap_pos hlen
  obtain ⟨o, t', hr⟩ := fuzzRead_ok h hlen.le
  refine ⟨o, t', hr, ?_⟩
  rcases fuzzRead_cases h hr with
    ⟨hidle, _⟩ | ⟨k, hk, hmin, _, hrx, hret, _, rfl⟩ | ⟨k, hk, hmin, _, hrx, hin, hret, _, rfl⟩
  · rcases hidle with hc' | ⟨hrx, hin⟩
    · exact absurd (hc.symm.trans hc') nofun
    · exact absurd (by rw [FuzzState.pending, hrx, hin, List.append_nil]) hne
  · -- From the replies.
    have hpos := List.length_pos_iff.2 hrx
    have hk' := hmin hlen.le
    refine ⟨h.popRx hk, ?_, by omega, ?_⟩
    · rwa [FuzzState.popRx, apply_ite FuzzState.connected, ite_self]
    · rw [FuzzState.pending, rxPending_popRx h, inPending_popRx, FuzzState.pending,
        List.length_append, List.length_append, List.length_drop]
      omega
  · -- From the input.
    have hpos := List.length_pos_iff.2 hin
    have hk' := hmin hlen.le
    refine ⟨h.popInput hk, hc, by omega, ?_⟩
    rw [FuzzState.pending, rxPending_popInput, inPending_popInput, FuzzState.pending,
      List.length_append, List.length_append, List.length_drop]
    omega

/-! ## Draining -/

/-- The reads of `lens 0`, …, `lens (k - 1)` bytes. -/
def reads (lens : ℕ → Int32) (k : ℕ) : List Op := (List.range k).map fun i => .read (lens i)

theorem reads_succ (lens : ℕ → Int32) (k : ℕ) :
    reads lens (k + 1) = .read (lens 0) :: reads (fun i => lens (i + 1)) k := by
  rw [reads, List.range_succ_eq_map, List.map_cons, List.map_map]
  rfl

/-- Reading `lens 0`, `lens 1`, … bytes off `t`, and doing nothing else, gives
    `out` until a read first fails, which is after at most as many reads as
    bytes are pending. Each read returns the number of bytes it gives. -/
def Drains (t : EspTransport) (lens : ℕ → Int32) (out : List UInt8) : Prop :=
  ∃ k ≤ t.data.pending.length, ∃ tr t' t'', t.run (reads lens k) = .ok (tr, t') ∧
    (∀ e ∈ tr, 0 < e.2.ret.toInt ∧ e.2.ret.toInt = (delivered e).length) ∧
    fuzzRead t' (lens k) = .ok (⟨-1, none⟩, t'') ∧ tr.flatMap delivered = out

/-- Reading on ends, with nothing pending. -/
theorem exists_reads_pending_nil (h : Inv t.data) (hc : t.data.connected = true)
    {lens : ℕ → Int32} (hlens : ∀ i, 0 < (lens i).toInt) :
    ∃ k ≤ t.data.pending.length, ∃ tr t', t.run (reads lens k) = .ok (tr, t') ∧
      (∀ e ∈ tr, 0 < e.2.ret.toInt) ∧ t'.data.pending = [] := by
  -- Every read leaves fewer bytes pending.
  induction hn : t.data.pending.length using Nat.strong_induction_on generalizing t lens with
  | _ n ih =>
    by_cases hnil : t.data.pending = []
    · exact ⟨0, Nat.zero_le _, [], t, rfl, nofun, hnil⟩
    · -- One read, and then those of the rest.
      obtain ⟨o, t₁, hr, h₁, hc₁, hret, hlt⟩ := fuzzRead_progress h hc (hlens 0) hnil
      obtain ⟨k, hk, tr, t', hrun, hok, hnil'⟩ :=
        ih _ (hn ▸ hlt) h₁ hc₁ (fun i => hlens (i + 1)) rfl
      refine ⟨k + 1, by omega, (.read (lens 0), o) :: tr, t', ?_, ?_, hnil'⟩
      · rw [reads_succ]
        exact Lts.exec_cons_eq_ok_iff.2 ⟨o, t₁, tr, hr, hrun, rfl⟩
      · exact List.forall_mem_cons.2 ⟨hret, hok⟩

/-- Reads that do not fail return the number of bytes they deliver. -/
theorem ret_of_reads (h : Inv t.data) {lens : ℕ → Int32} {k : ℕ} {tr : List (Op × Outcome)}
    (hr : t.run (reads lens k) = .ok (tr, t')) (hok : ∀ e ∈ tr, 0 < e.2.ret.toInt) :
    ∀ e ∈ tr, 0 < e.2.ret.toInt ∧ e.2.ret.toInt = (delivered e).length := by
  rintro ⟨op, o⟩ he
  have hop : op ∈ reads lens k := trace_ops hr ▸ List.mem_map_of_mem he
  obtain ⟨i, -, rfl⟩ := List.mem_map.1 hop
  have hpos : 0 < o.ret.toInt := hok _ he
  refine ⟨hpos, (ret_of_mem_run h hr he).resolve_left ?_⟩
  rintro ⟨hfail, -⟩
  rw [hfail] at hpos
  exact absurd hpos (by decide)

theorem drains_of_inv (h : Inv t.data) (hc : t.data.connected = true) {lens : ℕ → Int32}
    (hlens : ∀ i, 0 < (lens i).toInt) : Drains t lens t.data.pending := by
  obtain ⟨k, hk, tr, t', hr, hok, hnil⟩ := exists_reads_pending_nil h hc hlens
  have h' := (h.refines.run hr).2.inv
  have hstream := h.refines.run_stream hr fun op hop => by
    obtain ⟨i, _, rfl⟩ := List.mem_map.1 hop
    rfl
  -- Nothing was queued in between, so what was pending is what was delivered.
  have hidle : t'.data.rxPending = [] ∧ t'.data.inPending = [] := List.append_eq_nil_iff.1 hnil
  refine ⟨k, hk, tr, t', _, hr, ret_of_reads h hr hok, fuzzRead_timeout h' (.inr hidle), ?_⟩
  rw [hidle.1, hidle.2, List.append_nil, List.append_nil] at hstream
  exact hstream

/-- The transport with another bound on its reads. -/
def EspTransport.setFrag (t : EspTransport) (frag : Int32) : EspTransport :=
  { t with data := { t.data with frag := frag } }

theorem Inv.setFrag (h : Inv t.data) (frag : Int32) : Inv (t.setFrag frag).data :=
  ⟨h.rxOff_le, h.rxLen_le, h.rxOff_eq_zero, h.inOff_le, h.inLen_eq⟩

/-- However a connected transport is fragmented and read, it gives the pending
    replies and then the rest of the input. -/
theorem reads_drain (h : transport.Reachable Initial t) (hc : t.data.connected = true)
    (frag₁ frag₂ : Int32) (lens₁ lens₂ : ℕ → Int32) (h₁ : ∀ i, 0 < (lens₁ i).toInt)
    (h₂ : ∀ i, 0 < (lens₂ i).toInt) :
    Drains (t.setFrag frag₁) lens₁ (t.data.rxPending ++ t.data.inPending) ∧
      Drains (t.setFrag frag₂) lens₂ (t.data.rxPending ++ t.data.inPending) := by
  have hinv := inv_of_reachable h
  exact ⟨drains_of_inv (hinv.setFrag frag₁) hc h₁, drains_of_inv (hinv.setFrag frag₂) hc h₂⟩

theorem reads_drain_pingresp :
    ∃ t : EspTransport, t.data.rxPending = [0xD0, 0x00] ∧ t.data.inPending = [0xAA] ∧
      Drains (t.setFrag 1) (fun _ => 2) (t.data.rxPending ++ t.data.inPending) ∧
      Drains (t.setFrag 0) (fun _ => 1) (t.data.rxPending ++ t.data.inPending) :=
  have h₀ : Started [0xAA] 1 1 0 ⟨0, 0, ⟨[0xAA], 1, 0, [], 0, 0, false, 1, .connected, 0⟩⟩ := rfl
  have h : transport.Reachable Initial
      ⟨0, 0, ⟨[0xAA], 1, 0, [0xD0, 0x00], 2, 0, true, 1, .connected, 0⟩⟩ :=
    h₀.reachable
      (show EspTransport.run _ [.connect, .write [0xC0, 0x00] 2 true] = .ok (_, _) from rfl)
  ⟨_, rfl, rfl, reads_drain h rfl 1 0 (fun _ => 2) (fun _ => 1) (fun _ => by decide)
    (fun _ => by decide)⟩

/-! ## Polling -/

/-- The value of a read tells whether anything was pending. -/
theorem fuzzRead_ret (h : Inv t.data) (hc : t.data.connected = true) (hlen : 0 < len.toInt) :
    ∃ o t', fuzzRead t len = .ok (o, t') ∧ (1 ≤ o.ret.toInt ↔ t.data.pending ≠ []) ∧
      (o.ret = -1 ↔ t.data.pending = []) := by
  by_cases hnil : t.data.pending = []
  · have hidle : t.data.rxPending = [] ∧ t.data.inPending = [] := List.append_eq_nil_iff.1 hnil
    refine ⟨_, _, fuzzRead_timeout h (.inr hidle), ?_, iff_of_true rfl hnil⟩
    exact iff_of_false (by decide) (not_not.2 hnil)
  · obtain ⟨o, t', hr, _, _, hret, _⟩ := fuzzRead_progress h hc hlen hnil
    refine ⟨o, t', hr, iff_of_true hret hnil, iff_of_false ?_ hnil⟩
    rintro heq
    simp [heq] at hret

theorem fuzzPollRead_ret_eq_one_iff : (fuzzPollRead t).1.ret = 1 ↔ t.data.inOff < t.data.inLen := by
  rw [fuzzPollRead]
  split_ifs with h <;> simp [h]

theorem fuzzPollRead_ret_eq_neg_one_iff :
    (fuzzPollRead t).1.ret = -1 ↔ ¬t.data.inOff < t.data.inLen := by
  rw [fuzzPollRead]
  split_ifs with h <;> simp [h]

/-- Polling a connected transport tells what any next read returns, except when
    replies are pending and the input is exhausted. -/
theorem pollRead_agrees_iff (h : transport.Reachable Initial t) (hc : t.data.connected = true) :
    (∀ len : Int32, 0 < len.toInt → ∃ o t', fuzzRead t len = .ok (o, t') ∧
      ((fuzzPollRead t).1.ret = 1 ↔ 1 ≤ o.ret.toInt) ∧
      ((fuzzPollRead t).1.ret = -1 ↔ o.ret = -1)) ↔
    t.data.rxPending = [] ∨ t.data.inOff < t.data.inLen := by
  have hinv := inv_of_reachable h
  have hpending : t.data.pending = [] ↔ t.data.rxPending = [] ∧ ¬t.data.inOff < t.data.inLen := by
    rw [FuzzState.pending, List.append_eq_nil_iff, hinv.inPending_eq_nil_iff, Nat.not_lt]
  constructor
  · -- One read is enough to tell.
    intro hagree
    have hpos : 0 < (1 : Int32).toInt := by decide
    obtain ⟨o, t', hr, hone, _⟩ := hagree 1 hpos
    obtain ⟨o₁, t₁, hr₁, hone₁, _⟩ := fuzzRead_ret hinv hc hpos
    obtain ⟨rfl, rfl⟩ := Prod.mk.inj (Except.ok.inj (hr.symm.trans hr₁))
    rw [fuzzPollRead_ret_eq_one_iff, hone₁, Ne, hpending] at hone
    tauto
  · intro hready len hlen
    obtain ⟨o, t', hr, hone, hneg⟩ := fuzzRead_ret hinv hc hlen
    refine ⟨o, t', hr, ?_, ?_⟩
    · rw [fuzzPollRead_ret_eq_one_iff, hone, Ne, hpending]
      tauto
    · rw [fuzzPollRead_ret_eq_neg_one_iff, hneg, hpending]
      tauto

theorem pollRead_agrees_iff_input :
    ∃ t : EspTransport, t.data.connected = true ∧
      ((∀ len : Int32, 0 < len.toInt → ∃ o t', fuzzRead t len = .ok (o, t') ∧
        ((fuzzPollRead t).1.ret = 1 ↔ 1 ≤ o.ret.toInt) ∧
        ((fuzzPollRead t).1.ret = -1 ↔ o.ret = -1)) ↔
      t.data.rxPending = [] ∨ t.data.inOff < t.data.inLen) :=
  have h₀ : Started [0xAA] 1 1 0 ⟨0, 0, ⟨[0xAA], 1, 0, [], 0, 0, false, 1, .connected, 0⟩⟩ := rfl
  have h : transport.Reachable Initial
      ⟨0, 0, ⟨[0xAA], 1, 0, [], 0, 0, true, 1, .connected, 0⟩⟩ :=
    h₀.reachable (show EspTransport.run _ [.connect] = .ok (_, _) from rfl)
  ⟨_, rfl, pollRead_agrees_iff h rfl⟩

/-- In connected mode, on an empty input, the CONNACK to a CONNECT is there to be
    read, but the poll fails. -/
theorem pollRead_connack :
    ∃ t₀ tr t, Started [] 1 1 0 t₀ ∧
      t₀.run [.connect, .write [0x10, 0x00] 2 true] = .ok (tr, t) ∧ t.data.connected = true ∧
      (fuzzPollRead t).1.ret = -1 ∧ ∃ t', fuzzRead t 4 =
        .ok (⟨4, some (.rx, [0x20, 0x02, 0x00, 0x00])⟩, t') :=
  ⟨_, _, _, rfl, rfl, rfl, rfl, _, rfl⟩

/-! ## Polling clients -/

/-- Every read is made right after a poll that succeeded. -/
def Polled (tr : List (Op × Outcome)) : Prop :=
  ∀ tr₁ len o tr₂, tr = tr₁ ++ (.read len, o) :: tr₂ →
    ∃ tr₀ o', tr₁ = tr₀ ++ [(.pollRead, o')] ∧ 0 < o'.ret.toInt

variable {ops₁ ops₂ : List Op} {tr tr₁ tr₂ : List (Op × Outcome)} {t₀ t₁ t₂ : EspTransport}

/-- An exhausted input stays so. -/
theorem inPending_of_run (h : Inv t.data) (hr : transport.Run t tr t')
    (hin : t.data.inPending = []) : Inv t'.data ∧ t'.data.inPending = [] := by
  have hexec : t.run (tr.map Prod.fst) = .ok (tr, t') := Lts.exec_eq_ok_iff.2 ⟨hr, rfl⟩
  have hconserved := h.refines.run_input hexec
  exact ⟨(h.refines.run hexec).2.inv,
    (List.append_eq_nil_iff.1 (hconserved.trans (show t.line.input = [] from hin))).2⟩

/-- A poll that succeeded found some input. -/
theorem inPending_of_poll {o : Outcome} (h : Inv t.data)
    (hr : transport.Run t (tr ++ [(.pollRead, o)]) t') (ho : 0 < o.ret.toInt) :
    t'.data.inPending ≠ [] := by
  obtain ⟨t₁, hr₁, hpoll⟩ := Lts.run_append_iff.1 hr
  obtain ⟨_, hst, hnil⟩ := Lts.run_cons_iff.1 hpoll
  obtain rfl := Lts.run_nil_iff.1 hnil
  obtain ⟨rfl, rfl⟩ := Prod.mk.inj (Except.ok.inj hst)
  have hinv : Inv t₁.data :=
    hr₁.invariant (P := fun t => Inv t.data) (fun _ _ _ ht hst => inv_of_step ht hst) h
  rw [Ne, hinv.inPending_eq_nil_iff]
  intro hend
  change 0 < (fuzzPollRead t₁).1.ret.toInt at ho
  rw [fuzzPollRead_ret_eq_neg_one_iff.2 (Nat.not_lt.2 hend)] at ho
  exact absurd ho (by decide)

/-- Once the input is exhausted, a client that polls before its reads gets nothing
    any more: all replies that were pending then, or are queued later, stay so. -/
theorem polled_starves {data : List UInt8} {autopilot mode frag : Int32}
    (h₀ : Started data autopilot mode frag t₀) (hr₁ : t₀.run ops₁ = .ok (tr₁, t₁))
    (hr₂ : t₁.run ops₂ = .ok (tr₂, t₂)) (hpolled : Polled (tr₁ ++ tr₂))
    (hin : t₁.data.inPending = []) :
    tr₂.flatMap delivered = [] ∧ t₂.data.rxPending =
      t₁.data.rxPending ++ ops₂.flatMap (Op.queued autopilot t₀.data.mode) := by
  have h₁ := (h₀.refines.run hr₁).2
  have hrun₁ := (Lts.exec_eq_ok_iff.1 hr₁).1
  have hrun₂ := (Lts.exec_eq_ok_iff.1 hr₂).1
  -- There are no reads.
  have hreads : ∀ e ∈ tr₂, ∀ len, e.1 ≠ .read len := by
    rintro ⟨op, o⟩ he len rfl
    obtain ⟨u, v, rfl⟩ := List.append_of_mem he
    obtain ⟨tr₀, o', htr, ho'⟩ := hpolled (tr₁ ++ u) len o v (List.append_assoc _ _ _).symm
    obtain ⟨s, hu, -⟩ := Lts.run_append_iff.1 hrun₂
    have hpoll := inPending_of_poll h₀.refines.inv (htr ▸ hrun₁.append hu) ho'
    exact hpoll (inPending_of_run h₁.inv hu hin).2
  have hdelivered : ∀ src, tr₂.flatMap (deliveredFrom src) = [] := by
    intro src
    refine List.flatMap_eq_nil_iff.2 fun e he => ?_
    obtain ⟨_ | len | _ | _ | _, _⟩ := e
    case read => exact absurd rfl (hreads _ he len)
    all_goals rfl
  refine ⟨List.flatMap_eq_nil_iff.2 fun e he => ?_, ?_⟩
  · obtain ⟨_ | len | _ | _ | _, _⟩ := e
    case read => exact absurd rfl (hreads _ he len)
    all_goals rfl
  · have hreplies := h₁.run_replies hr₂
    rwa [hdelivered, List.nil_append] at hreplies

/-- The CONNACK to a CONNECT behind the last of the input is never read. -/
theorem polled_starves_connack :
    ∃ t₀ tr₁ t₁ tr₂ t₂, Started [0xAA] 1 1 0 t₀ ∧
      t₀.run [.connect, .pollRead, .read 1] = .ok (tr₁, t₁) ∧
      t₁.run [.write [0x10, 0x00] 2 true, .pollRead] = .ok (tr₂, t₂) ∧
      tr₂.flatMap delivered = [] ∧ t₂.data.rxPending = t₁.data.rxPending ++
        [.write [0x10, 0x00] 2 true, .pollRead].flatMap (Op.queued 1 t₀.data.mode) := by
  let t₀ : EspTransport := ⟨0, 0, ⟨[0xAA], 1, 0, [], 0, 0, false, 1, .connected, 0⟩⟩
  let t₁ : EspTransport := ⟨0, 0, ⟨[0xAA], 1, 1, [], 0, 0, true, 1, .connected, 0⟩⟩
  have h₀ : Started [0xAA] 1 1 0 t₀ := rfl
  have hr₁ : t₀.run [.connect, .pollRead, .read 1] = .ok ([(.connect, ⟨0, none⟩),
      (.pollRead, ⟨1, none⟩), (.read 1, ⟨1, some (.input, [0xAA])⟩)], t₁) := rfl
  obtain ⟨t₂, hr₂⟩ : ∃ t₂, t₁.run [.write [0x10, 0x00] 2 true, .pollRead] =
      .ok ([(.write [0x10, 0x00] 2 true, ⟨2, none⟩), (.pollRead, ⟨-1, none⟩)], t₂) := ⟨_, rfl⟩
  refine ⟨t₀, _, t₁, _, t₂, h₀, hr₁, hr₂, polled_starves h₀ hr₁ hr₂ ?_ rfl⟩
  intro u len o v huv
  rcases u with _ | ⟨e₁, _ | ⟨e₂, _ | ⟨e₃, _ | ⟨e₄, _ | ⟨e₅, u⟩⟩⟩⟩⟩ <;> simp at huv
  obtain ⟨rfl, rfl, -⟩ := huv
  exact ⟨[(.connect, ⟨0, none⟩)], ⟨1, none⟩, rfl, by decide⟩

end FirmwareFuzz
