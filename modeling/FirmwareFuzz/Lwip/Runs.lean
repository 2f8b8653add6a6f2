import FirmwareFuzz.Lwip.Conservation

/-!
# Runs of the lwIP harness

What holds of all runs, whatever the applications take. The dump, once it is
closed, reads back to the packets of the run (`harness_dumps`). If applications
take data between the length of a packet and the packet, and too little is left
for the packet, then `remfuzz_len` wraps below zero with the packet, and the
harness never gets done: it goes on behind the data, to the end of the buffer. If
enough is left, it can get done (`early_take_iff`).
-/

namespace FirmwareFuzz.Lwip

open CLang Endian

variable {A : Type} {c : Config} {pool : Pool} {pools : Set Pool} {r r' : Remfuzz} {s s' : State}
  {e : Event A}

/-! ## The dump -/

/-- The packets the stack receives or sends. -/
def Event.packets : Event A → List Pbuf
  | .frame p | .tx p => [p]
  | _ => []

theorem inputPkt_dumped {ps : List Pbuf} {off n : ℕ} (h : inputPkt c pool s off n = .ok (e, s'))
    (hps : Dumped s.pcap ps) : Dumped s'.pcap (ps ++ e.packets) := by
  rcases inputPkt_cases h with ⟨-, rfl, rfl⟩ | ⟨-, rfl, rfl⟩ | ⟨p, -, -, rfl, rfl⟩
  · exact (List.append_nil ps).symm ▸ hps
  · exact (List.append_nil ps).symm ▸ hps
  · exact hps.dump p

/-- A step dumps its packet. -/
theorem Step.dumped {ps : List Pbuf} (hstep : Step c pools s e s') (hps : Dumped s.pcap ps) :
    Dumped s'.pcap (ps ++ e.packets) := by
  have hnil : Dumped s.pcap (ps ++ []) := (List.append_nil ps).symm ▸ hps
  cases hstep with
  | callback => exact hnil
  | tx => exact hps.dump _
  | go hpool hgo =>
    rw [State.go] at hgo
    cases hpc : s.pc with
    | single =>
      rw [hpc] at hgo
      exact inputPkt_dumped (Except.map_some_eq_ok_iff.1 hgo) hps
    | frame k =>
      rw [hpc] at hgo
      exact inputPkt_dumped (Except.map_some_eq_ok_iff.1 hgo) hps
    | loop =>
      rw [hpc] at hgo
      rcases readHeader_cases (Except.map_some_eq_ok_iff.1 hgo) with
        ⟨-, rfl, rfl⟩ | ⟨_, _, _, _, _, -, -, rfl, rfl⟩
      · exact hnil
      · exact hnil
    | done =>
      rw [hpc] at hgo
      cases hgo
    | aborted =>
      rw [hpc] at hgo
      cases hgo
    | _ =>
      rw [hpc] at hgo
      obtain ⟨rfl, rfl⟩ := Prod.mk.inj (Option.some.inj (Except.ok.inj hgo))
      exact hnil

theorem run_dumped {ps : List Pbuf} {es : List (Event A)} (hrun : (harness A c pools).Run s es s')
    (hps : Dumped s.pcap ps) : Dumped s'.pcap (ps ++ es.flatMap Event.packets) := by
  induction hrun generalizing ps with
  | nil => exact (List.append_nil ps).symm ▸ hps
  | cons hstep _ ih =>
    rw [List.flatMap_cons, ← List.append_assoc]
    exact ih (Step.dumped hstep hps)

/-- Whenever the dump is closed, the file holds the packets received and sent so
    far, in order, counted from one on. -/
theorem harness_dumps {s₀ : State} {es : List (Event A)} (h₀ : Start s₀)
    (hrun : (harness A c pools).Run s₀ es s) (hopen : s.pcap.isOpen = true) :
    PcapFile.read (pcapDumpStop s.pcap).file =
      some (dumpHeader, dumpRecords (es.flatMap Event.packets)) := by
  obtain ⟨file, opened, hinit⟩ := h₀.2.2.2
  have hdumped : Dumped s₀.pcap [] := hinit ▸ dumped_init file opened
  exact (run_dumped hrun hdumped).read hopen

theorem harness_dumps_timeTest : ∃ (es : List (Event Unit)) (s : State),
    (harness Unit timeTest {oneBuffer}).Run timeStart es s ∧
      PcapFile.read (pcapDumpStop s.pcap).file =
        some (dumpHeader, dumpRecords (es.flatMap Event.packets)) := by
  obtain ⟨es, s, hrun, -, hopen, -⟩ := timeTest_run
  exact ⟨es, s, hrun, harness_dumps start_timeStart hrun hopen⟩

/-! ## Early takes -/

/-- The cursor is behind the data that was read. -/
structure Over (c : Config) (r : Remfuzz) : Prop where
  lt_ptr : c.len < r.ptr
  ptr_le : r.ptr ≤ c.data.length
  ptr_add_len : r.ptr + r.len = c.len + 2 ^ 64

theorem Over.advance {n : ℕ} (h : Over c r) (hn : r.ptr + n ≤ c.data.length) :
    Over c (r.advance n) := by
  obtain ⟨hlt, hle, heq⟩ := h
  have hdata := c.length_le
  rw [ptrdiffMax] at hdata
  refine ⟨hlt.trans_le (Nat.le_add_right _ _), hn, ?_⟩
  show r.ptr + n + sizeSub r.len n = c.len + 2 ^ 64
  rw [sizeSub]
  omega

/-- With less than there is, `remfuzz_len` wraps. -/
theorem Within.over_of_lt {n : ℕ} (h : Within c r) (hlen : r.len < n)
    (hn : r.ptr + n ≤ c.data.length) : Over c (r.advance n) := by
  rw [Within] at h
  have hdata := c.length_le
  rw [ptrdiffMax] at hdata
  refine ⟨?_, hn, ?_⟩
  · show c.len < r.ptr + n
    omega
  · show r.ptr + n + sizeSub r.len n = c.len + 2 ^ 64
    rw [sizeSub]
    omega

theorem Over.le_len (h : Over c r) : 2 ^ 63 ≤ r.len := by
  obtain ⟨-, hle, heq⟩ := h
  have hdata := c.length_le
  rw [ptrdiffMax] at hdata
  omega

theorem Over.takeU16 {n : UInt16} (h : Over c r) (hn : takeU16 c.data r = .ok (n, r')) :
    Over c r' := by
  simp only [Lwip.takeU16, Except.bind_eq_ok_iff, Except.pure_eq_ok_iff, Prod.mk.injEq] at hn
  obtain ⟨_, hcopy, -, rfl⟩ := hn
  exact h.advance (copyFrom_eq_ok_iff.1 hcopy).2.1

theorem Over.takeU32 {n : UInt32} (h : Over c r) (hn : takeU32 c.data r = .ok (n, r')) :
    Over c r' := by
  simp only [Lwip.takeU32, Except.bind_eq_ok_iff, Except.pure_eq_ok_iff, Prod.mk.injEq] at hn
  obtain ⟨_, hcopy, -, rfl⟩ := hn
  exact h.advance (copyFrom_eq_ok_iff.1 hcopy).2.1

theorem fillPbuf_le {data : List UInt8} {off : ℕ} {lens : List ℕ}
    {qs : {qs : List (List UInt8) // qs.flatten.length = lens.sum}}
    (h : fillPbuf data off lens = .ok qs) (hoff : off ≤ data.length) :
    off + lens.sum ≤ data.length := by
  induction lens generalizing off with
  | nil => exact hoff
  | cons n lens ih =>
    rw [fillPbuf] at h
    split at h
    · cases h
    · rename_i hcopy
      simp only [Except.bind_eq_ok_iff] at h
      obtain ⟨qs', hqs, -⟩ := h
      have hle := ih hqs (copyFrom_eq_ok_iff.1 hcopy).2.1
      rw [List.sum_cons]
      omega

theorem allocPbuf_le {off : ℕ} {n : UInt16} {p : Pbuf}
    (h : allocPbuf pool c.data off n = .ok (some p)) (hoff : off ≤ c.data.length) :
    off + n.toNat ≤ c.data.length := by
  rw [allocPbuf] at h
  cases hpool : pool n with
  | none =>
    rw [hpool] at h
    cases h
  | some lens =>
    rw [hpool] at h
    obtain ⟨qs, hqs, -⟩ := Except.bind_eq_ok_iff.1 h
    exact lens.2 ▸ fillPbuf_le hqs hoff

theorem Over.tcpAppFuzzInput {taken : Option Taken} {calls : List (Call A)} (h : Over c r)
    (hrun : tcpAppFuzzInput c r = .ok (taken, calls, r')) : Over c r' := by
  rw [Lwip.tcpAppFuzzInput] at hrun
  split_ifs at hrun with hlen
  · simp only [Except.bind_eq_ok_iff] at hrun
    obtain ⟨⟨n, r₁⟩, hn, hrun⟩ := hrun
    have h₁ := h.takeU16 hn
    simp only at hrun
    split_ifs at hrun with hzero
    · simp only [Except.bind_eq_ok_iff, Except.pure_eq_ok_iff, Prod.mk.injEq] at hrun
      obtain ⟨_, hcopy, -, -, rfl⟩ := hrun
      exact h₁.advance (copyFrom_eq_ok_iff.1 hcopy).2.1
    · cases hrun
      rw [not_not.1 hzero]
      exact h₁.advance h₁.ptr_le
  · cases hrun
    exact h

theorem Over.udpAppFuzzInput {addr : Option A} {port : UInt16} {taken : Option Taken}
    {calls : List (Call A)} (h : Over c r)
    (hrun : udpAppFuzzInput c pool addr port r = .ok (taken, calls, r')) : Over c r' := by
  rw [Lwip.udpAppFuzzInput] at hrun
  split_ifs at hrun with hlen
  · simp only [Except.bind_eq_ok_iff] at hrun
    obtain ⟨⟨n, r₁⟩, hn, hrun⟩ := hrun
    have h₁ := h.takeU16 hn
    simp only at hrun
    split_ifs at hrun with hzero
    · obtain ⟨_ | p, hp, hrun⟩ := Except.bind_eq_ok_iff.1 hrun
      · cases hrun
        exact h₁
      · cases hrun
        exact h₁.advance (allocPbuf_le hp h₁.ptr_le)
    · cases hrun
      exact h₁
  · cases hrun
    exact h

theorem Over.callback {cb : Callback A} {taken : Option Taken} {calls : List (Call A)}
    (h : Over c r) (hrun : cb.run c pool r = .ok (taken, calls, r')) : Over c r' := by
  have htcp : ∀ {p}, tcpRecv (A := A) c p r = .ok (taken, calls, r') → Over c r' := by
    rintro (_ | p) hrun
    · cases hrun
      exact h
    · simp only [tcpRecv, Except.bind_eq_ok_iff] at hrun
      obtain ⟨_, happ, hrun⟩ := hrun
      cases hrun
      exact h.tcpAppFuzzInput happ
  rcases cb with _ | p | p | ⟨_ | p, addr, port⟩ | ⟨_ | p, addr, port⟩
  · exact h.tcpAppFuzzInput hrun
  · exact htcp hrun
  · exact htcp hrun
  · cases hrun
    exact h
  · simp only [Callback.run, Except.bind_eq_ok_iff] at hrun
    obtain ⟨_, happ, hrun⟩ := hrun
    cases hrun
    exact h.udpAppFuzzInput happ
  · cases hrun
    exact h
  · simp only [Callback.run, Except.bind_eq_ok_iff] at hrun
    obtain ⟨_, happ, hrun⟩ := hrun
    cases hrun
    exact h.udpAppFuzzInput happ

/-- The harness has the length of a packet that is no longer there, or is behind
    the data already; or it is stopped. -/
def Lost (c : Config) (s : State) : Prop :=
  c.type ≠ .single ∧ match s.pc with
    | .check k | .frame k => Over c s.rem ∨ (Within c s.rem ∧ s.rem.len < k.toNat)
    | .input | .after | .loop => Over c s.rem
    | .aborted => True
    | .setup | .single | .done => False

/-- Where a step from a lost packet leads: the cursor is behind the data with the
    packet, and stays there. -/
structure Loses (c : Config) (s : State) (e : Event A) (s' : State) : Prop where
  lost : Lost c s'
  keeps : Over c s.rem ∨ (∃ p, e = .frame p) → Over c s'.rem

/-- A step that leaves the cursor. -/
theorem Loses.of_rem_eq (hlost : Lost c s') (hrem : s'.rem = s.rem) (he : ∀ p, e ≠ .frame p) :
    Loses c s e s' := by
  refine ⟨hlost, fun h => hrem ▸ h.resolve_right ?_⟩
  rintro ⟨p, hp⟩
  exact he p hp

theorem Lost.go (h : Lost c s) (hgo : State.go c pool s = .ok (some (e, s'))) :
    Loses c s e s' := by
  obtain ⟨htype, h⟩ := h
  rw [State.go] at hgo
  cases hpc : s.pc with
  | check k =>
    rw [hpc] at h hgo
    cases hgo
    exact .of_rem_eq ⟨htype, h⟩ rfl (by rintro _ ⟨⟩)
  | frame k =>
    rw [hpc] at h hgo
    rcases inputPkt_cases (Except.map_some_eq_ok_iff.1 hgo) with
      ⟨hbig, -⟩ | ⟨-, rfl, rfl⟩ | ⟨p, -, hp, -, rfl⟩
    · have hlt := k.toNat_lt
      omega
    · exact .of_rem_eq ⟨htype, trivial⟩ rfl (by rintro _ ⟨⟩)
    · have hn : (UInt16.ofNat k.toNat).toNat = k.toNat := by rw [UInt16.ofNat_toNat]
      suffices Over c (s.rem.advance k.toNat) from ⟨⟨htype, this⟩, fun _ => this⟩
      rcases h with hover | ⟨hwithin, hlen⟩
      · have hle := allocPbuf_le hp hover.ptr_le
        rw [hn] at hle
        exact hover.advance hle
      · have hptr : s.rem.ptr ≤ c.data.length := by
          have hc := c.len_le
          rw [Within] at hwithin
          omega
        have hle := allocPbuf_le hp hptr
        rw [hn] at hle
        exact hwithin.over_of_lt hlen hle
  | input =>
    rw [hpc] at h hgo
    simp only [if_neg htype] at hgo
    cases hgo
    exact ⟨⟨htype, h⟩, fun _ => h⟩
  | after =>
    rw [hpc] at h hgo
    cases hgo
    exact ⟨⟨htype, h⟩, fun _ => h⟩
  | loop =>
    rw [hpc] at h hgo
    have hlen := h.le_len
    rcases readHeader_cases (Except.map_some_eq_ok_iff.1 hgo) with
      ⟨hle, -⟩ | ⟨_, n, r, r', _, hr, hn, -, rfl⟩
    · rw [FuzzType.minlen] at hle
      split_ifs at hle <;> omega
    · have hover : Over c r' := by
        rcases hr with rfl | ⟨d, hd⟩
        · exact h.takeU16 hn
        · exact (h.takeU32 hd).takeU16 hn
      refine ⟨⟨htype, ?_⟩, fun _ => hover⟩
      rw [FuzzType.next]
      split_ifs
      · exact hover
      · exact .inl hover
      · exact .inl hover
  | aborted =>
    rw [hpc] at hgo
    cases hgo
  | _ =>
    rw [hpc] at h
    exact h.elim

theorem Lost.step (h : Lost c s) (hstep : Step c pools s e s') : Loses c s e s' := by
  cases hstep with
  | go hpool hgo => exact h.go hgo
  | tx hstack => exact .of_rem_eq h rfl (by rintro _ ⟨⟩)
  | callback hpool hstack hrun =>
    obtain ⟨pc, rem, offset, pcap⟩ := s
    obtain ⟨htype, h⟩ := h
    refine ⟨⟨htype, ?_⟩, ?_⟩
    · rw [Pc.behind]
      split_ifs
      · trivial
      cases pc with
      | check k =>
        rcases h with hover | ⟨hwithin, hlen⟩
        · exact .inl (hover.callback hrun)
        · obtain ⟨_, _, _, hrun', htakes⟩ := Callback.run_takes hwithin _ _
          cases hrun.symm.trans hrun'
          have hle := htakes.length_le hwithin
          exact .inr ⟨htakes.within, (Nat.le.intro ((Nat.add_comm _ _).trans hle)).trans_lt hlen⟩
      | input => exact Over.callback h hrun
      | after => exact Over.callback h hrun
      | setup => exact h
      | _ => exact absurd hstack Bool.false_ne_true
    · rintro (hover | ⟨p, hp⟩)
      · exact hover.callback hrun
      · cases hp

/-- Once a packet is lost, the harness never gets done. -/
theorem Lost.ne_done {es : List (Event A)} (h : Lost c s) (hrun : (harness A c pools).Run s es s') :
    s'.pc ≠ .done := by
  intro hdone
  have hlost : Lost c s' := hrun.invariant (fun _ _ _ h hstep => (h.step hstep).lost) h
  rw [Lost, hdone] at hlost
  exact hlost.2

/-- With the packet that is lost, the cursor gets behind the data. -/
theorem Lost.over_of_run {es : List (Event A)} (h : Lost c s)
    (hrun : (harness A c pools).Run s es s') (hover : Over c s.rem ∨ ∃ p, .frame p ∈ es) : Over c s'.rem := by
  induction hrun with
  | nil => exact hover.resolve_right fun ⟨_, hp⟩ => absurd hp List.not_mem_nil
  | cons hstep _ ih =>
    have hloses := h.step hstep
    refine ih hloses.lost ?_
    rcases hover with hover | ⟨p, hp⟩
    · exact .inl (hloses.keeps (.inl hover))
    · rcases List.mem_cons.1 hp with rfl | hp
      · exact .inl (hloses.keeps (.inr ⟨p, rfl⟩))
      · exact .inr ⟨p, hp⟩

/-- Whatever the applications take, the packet is there, or lost. -/
theorem Step.inv_or_lost (h : Inv c s ∨ Lost c s) (hstep : Step c pools s e s') :
    Inv c s' ∨ Lost c s' := by
  rcases h with h | hlost
  swap
  · exact .inr (hlost.step hstep).lost
  by_cases hearly : c.type = .multipacketTime → ¬e.TakesEarly
  · exact .inl (hstep.keeps h hearly).inv
  rw [not_forall, not_not] at hearly
  obtain ⟨htime, hearly⟩ := hearly
  cases hstep with
  | go hpool hgo =>
    rcases exists_goes (A := A) _ h with ⟨-, hend⟩ | ⟨e', s'', hgo', hgoes⟩
    · cases hgo.symm.trans hend
    · cases hgo.symm.trans hgo'
      exact .inl hgoes.inv
  | tx => exact .inl h
  | callback hpool hstack hrun =>
    obtain ⟨pc, rem, offset, pcap⟩ := s
    cases pc with
    | check k =>
      obtain ⟨-, hk, -, hwithin⟩ := h
      obtain ⟨_, _, _, hrun', htakes⟩ := Callback.run_takes hwithin _ _
      cases hrun.symm.trans hrun'
      rw [Pc.behind]
      split_ifs
      · exact .inl htakes.within
      · rcases Nat.lt_or_ge _ k.toNat with hlt | hle
        · exact .inr ⟨htime ▸ FuzzType.noConfusion, .inr ⟨htakes.within, hlt⟩⟩
        · exact .inl ⟨htime, hk, hle, htakes.within⟩
    | _ => exact absurd hearly.1 Bool.false_ne_true

/-- Between the length of a packet and the packet, whatever the applications took:
    the harness can get done exactly if the packet is still in the data, and
    otherwise its `remfuzz_len` wraps with the packet. -/
theorem early_take_iff {s₀ : State} {es : List (Event A)} {k : UInt16}
    (hpools : ∃ pool ∈ pools, pool.Succeeds) (h₀ : Start s₀)
    (hrun : (harness A c pools).Run s₀ es s) (hpc : s.pc = .check k) :
    ((∃ es' s', (harness A c pools).Run s es' s' ∧ s'.pc = .done) ↔ s.rem.ptr + k.toNat ≤ c.len) ∧
      (c.len < s.rem.ptr + k.toNat → ∀ es' s', (harness A c pools).Run s es' s' →
        (∃ p, .frame p ∈ es') → 2 ^ 63 ≤ s'.rem.len) := by
  have hcases : Inv c s ∨ Lost c s :=
    hrun.invariant (P := fun s => Inv c s ∨ Lost c s)
      (fun _ _ _ h hstep => Step.inv_or_lost h hstep) (.inl h₀.inv)
  have hend : Inv c s ∧ s.rem.ptr + k.toNat ≤ c.len ∨
      Lost c s ∧ c.len < s.rem.ptr + k.toNat := by
    rcases hcases with h | h
    · refine .inl ⟨h, ?_⟩
      rw [Inv, hpc] at h
      obtain ⟨-, -, hle, hwithin⟩ := h
      exact hwithin ▸ Nat.add_le_add_left hle _
    · refine .inr ⟨h, ?_⟩
      rw [Lost, hpc] at h
      rcases h.2 with hover | ⟨hwithin, hlt⟩
      · exact hover.lt_ptr.trans_le (Nat.le_add_right _ _)
      · exact hwithin ▸ Nat.add_lt_add_left hlt _
  rcases hend with ⟨h, hle⟩ | ⟨h, hlt⟩
  · refine ⟨iff_of_true ?_ hle, fun hlt => absurd hle (Nat.not_le.2 hlt)⟩
    obtain ⟨pool, hpool, hsucceeds⟩ := hpools
    obtain ⟨es', s', hr, -, hdone⟩ :=
      h.exists_done (A := A) hpool hsucceeds (hpc ▸ Pc.noConfusion)
    exact ⟨es', s', hr, hdone⟩
  · refine ⟨iff_of_false ?_ (Nat.not_le.2 hlt), fun _ es' s' hr hp => ?_⟩
    · rintro ⟨es', s', hr, hdone⟩
      exact h.ne_done hr hdone
    · exact (h.over_of_run hr (.inr hp)).le_len

/-- An application takes the packet as its data, and the harness never gets done. -/
theorem early_take_timeTest : ∃ (es : List (Event Unit)) (s : State),
    (harness Unit timeTest {oneBuffer}).Run timeStart es s ∧ s.pc = .check 1 ∧
      ¬∃ es' s', (harness Unit timeTest {oneBuffer}).Run s es' s' ∧ s'.pc = .done := by
  have hrun : (harness Unit timeTest {oneBuffer}).Run timeStart
      [_, _, .callback _ .tcpClientConnected _ _] ⟨.check 1, ⟨10, 0⟩, 7, pcapDumpInit [] true⟩ :=
    .cons (.go rfl rfl) (.cons (.go rfl rfl)
      (.cons (.callback rfl rfl rfl) (.nil _)))
  have hpools : ∃ pool ∈ ({oneBuffer} : Set Pool), pool.Succeeds :=
    ⟨oneBuffer, rfl, oneBuffer_succeeds⟩
  exact ⟨_, _, hrun, rfl, fun hdone =>
    absurd ((early_take_iff hpools start_timeStart hrun rfl).1.1 hdone) (by decide)⟩

end FirmwareFuzz.Lwip
