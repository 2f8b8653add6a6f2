import FirmwareFuzz.Lwip.Input

/-!
# The data of the lwIP harness

Every byte of the data is taken once, and in order: by the loop, for the length
and the contents of a packet, or by an application. What is taken is in the data
that was read, whatever the stack does, and in whatever order it calls the
applications (`harness_conserves`). In tests with times, the stack is called
between the length of a packet and the packet; if an application takes data
there, the packet is no longer in the data unless enough is left of it
(`early_take_iff`).
-/

namespace FirmwareFuzz.Lwip

open CLang Endian

variable {A : Type} {c : Config} {pool : Pool} {pools : Set Pool} {r r' : Remfuzz} {n : ℕ}

/-! ## Taking data -/

/-- The cursor is in the data that was read. -/
def Within (c : Config) (r : Remfuzz) : Prop := r.ptr + r.len = c.len

/-- The data from the cursor on. -/
def Config.rest (c : Config) (r : Remfuzz) : List UInt8 := (c.data.take c.len).drop r.ptr

/-- The bytes are taken off the data. -/
structure Takes (c : Config) (r : Remfuzz) (bytes : List UInt8) (r' : Remfuzz) : Prop where
  within : Within c r'
  rest_eq : c.rest r = bytes ++ c.rest r'

theorem Within.length_rest (h : Within c r) : (c.rest r).length = r.len := by
  rw [Within] at h
  have hlen := c.len_le
  rw [Config.rest, List.length_drop, List.length_take]
  omega

theorem takes_nil (h : Within c r) : Takes c r [] r := ⟨h, rfl⟩

theorem Takes.append {bytes bytes' : List UInt8} {r'' : Remfuzz} (h : Takes c r bytes r')
    (h' : Takes c r' bytes' r'') : Takes c r (bytes ++ bytes') r'' :=
  ⟨h'.within, by rw [h.rest_eq, h'.rest_eq, List.append_assoc]⟩

theorem Takes.length_le {bytes : List UInt8} (h : Within c r) (ht : Takes c r bytes r') :
    bytes.length + r'.len = r.len := by
  rw [← h.length_rest, ← ht.within.length_rest, ht.rest_eq, List.length_append]

/-- Bytes that are there can be copied. -/
theorem Within.copyFrom (h : Within c r) (hn : n ≤ r.len) :
    CLang.copyFrom c.data r.ptr n = .ok ((c.rest r).take n) := by
  have hlen := c.len_le
  rw [Within] at h
  rw [copyFrom_of_le c.length_le (by omega), Config.rest, List.drop_take, List.take_take,
    Nat.min_eq_left (by omega)]

theorem Within.advance (h : Within c r) (hn : n ≤ r.len) :
    Takes c r ((c.rest r).take n) (r.advance n) := by
  have hlen := c.len_le
  have hle := c.length_le
  rw [Within] at h
  have hsub : sizeSub r.len n = r.len - n := sizeSub_of_le (by omega) hn
  refine ⟨?_, ?_⟩
  · rw [Within, Remfuzz.advance, hsub]
    show r.ptr + n + (r.len - n) = c.len
    omega
  · rw [Config.rest, Config.rest, Remfuzz.advance, ← List.drop_drop, List.take_append_drop]

/-- A word of `n` bytes at the cursor. -/
theorem Within.word (h : Within c r) (hn : n ≤ r.len) : ofBe ((c.rest r).take n) < 256 ^ n ∧
    Takes c r (be n (ofBe ((c.rest r).take n))) (r.advance n) := by
  have hlen : ((c.rest r).take n).length = n := by
    rw [List.length_take, h.length_rest, Nat.min_eq_left hn]
  have hlt := ofBe_lt ((c.rest r).take n)
  have hbe := be_ofBe ((c.rest r).take n)
  rw [hlen] at hlt hbe
  exact ⟨hlt, hbe.symm ▸ h.advance hn⟩

theorem Within.takeU16 (h : Within c r) (hn : 2 ≤ r.len) :
    ∃ n r', takeU16 c.data r = .ok (n, r') ∧ Takes c r (be 2 n.toNat) r' := by
  obtain ⟨hlt, htakes⟩ := h.word hn
  have hcopy := h.copyFrom hn
  refine ⟨UInt16.ofNat (ofBe ((c.rest r).take 2)), r.advance 2, ?_, ?_⟩
  · rw [Lwip.takeU16, hcopy]
    rfl
  · rwa [UInt16.toNat_ofNat_of_lt' hlt]

theorem Within.takeU32 (h : Within c r) (hn : 4 ≤ r.len) :
    ∃ n r', takeU32 c.data r = .ok (n, r') ∧ Takes c r (be 4 n.toNat) r' := by
  obtain ⟨hlt, htakes⟩ := h.word hn
  have hcopy := h.copyFrom hn
  refine ⟨UInt32.ofNat (ofBe ((c.rest r).take 4)), r.advance 4, ?_, ?_⟩
  · rw [Lwip.takeU32, hcopy]
    rfl
  · rwa [UInt32.toNat_ofNat_of_lt' hlt]

/-- A chain is filled with the data, however it is divided. -/
theorem exists_fillPbuf {data : List UInt8} (hdata : data.length ≤ ptrdiffMax) {off : ℕ}
    {lens : List ℕ} (h : off + lens.sum ≤ data.length) :
    ∃ qs, fillPbuf data off lens = .ok qs ∧ qs.1.flatten = (data.drop off).take lens.sum := by
  induction lens generalizing off with
  | nil => exact ⟨_, rfl, rfl⟩
  | cons n lens ih =>
    rw [List.sum_cons] at h
    have hoff : off + n + lens.sum ≤ data.length := by omega
    obtain ⟨qs, hqs, hflat⟩ := ih hoff
    have hcopy := copyFrom_of_le hdata (show off + n ≤ data.length by omega)
    rw [fillPbuf]
    split
    · rename_i hfault
      rw [hcopy] at hfault
      cases hfault
    · rename_i payload hpayload
      obtain rfl := Except.ok.inj (hcopy.symm.trans hpayload)
      rw [hqs]
      refine ⟨_, rfl, ?_⟩
      rw [List.flatten_cons, hflat, List.sum_cons, List.take_add, List.drop_drop]

/-- A chain has the data at the cursor, if there is memory for it. -/
theorem Within.allocPbuf (h : Within c r) (pool : Pool) {n : UInt16} (hn : n.toNat ≤ r.len) :
    pool n = none ∧ allocPbuf pool c.data r.ptr n = .ok none ∨
      ∃ p, allocPbuf pool c.data r.ptr n = .ok (some p) ∧ p.totLen = n ∧
        p.bytes = (c.rest r).take n.toNat := by
  cases hpool : pool n with
  | none => exact .inl ⟨rfl, by rw [Lwip.allocPbuf, hpool]; rfl⟩
  | some lens =>
    have hlen := c.len_le
    have hcopy := h.copyFrom hn
    have hend : r.ptr + lens.1.sum ≤ c.data.length := by
      rw [Within] at h
      rw [lens.2]
      omega
    obtain ⟨qs, hqs, hflat⟩ := exists_fillPbuf c.length_le hend
    simp only [Lwip.allocPbuf, hpool, hqs]
    refine .inr ⟨_, rfl, rfl, hflat.trans ?_⟩
    rw [lens.2] at hend ⊢
    rw [copyFrom_of_le c.length_le hend] at hcopy
    exact Except.ok.inj hcopy

/-! ## Applications -/

/-- The bytes an application takes. -/
def takenBytes (taken : Option Taken) : List UInt8 :=
  taken.elim [] fun (n, bytes) => be 2 n.toNat ++ bytes

theorem toNat_dataLen_le (max n : UInt16) (r : Remfuzz) : (dataLen max n r).toNat ≤ r.len := by
  simp only [dataLen]
  split_ifs with h₁ h₂ h₂
  · exact Nat.mod_le _ _
  · omega
  · exact Nat.mod_le _ _
  · omega

theorem tcpAppFuzzInput_takes (h : Within c r) : ∃ taken calls r',
    tcpAppFuzzInput (A := A) c r = .ok (taken, calls, r') ∧ Takes c r (takenBytes taken) r' := by
  rw [tcpAppFuzzInput]
  split_ifs with hlen
  · obtain ⟨n, r₁, hn, htakes⟩ := h.takeU16 (by omega)
    have hle := toNat_dataLen_le 65495 n r₁
    rw [hn, Except.ok_bind]
    by_cases hzero : dataLen 65495 n r₁ = 0
    · have hadvance := htakes.within.advance (n := 0) (Nat.zero_le _)
      simp only [hzero, ne_eq, not_true, if_false]
      exact ⟨_, _, _, rfl, htakes.append hadvance⟩
    · simp only [ne_eq, hzero, not_false_eq_true, if_true, htakes.within.copyFrom hle]
      exact ⟨_, _, _, rfl, htakes.append (htakes.within.advance hle)⟩
  · exact ⟨_, _, _, rfl, takes_nil h⟩

theorem udpAppFuzzInput_takes (h : Within c r) (pool : Pool) (addr : Option A) (port : UInt16) :
    ∃ taken calls r', udpAppFuzzInput c pool addr port r = .ok (taken, calls, r') ∧
      Takes c r (takenBytes taken) r' := by
  rw [udpAppFuzzInput]
  split_ifs with hlen
  · obtain ⟨n, r₁, hn, htakes⟩ := h.takeU16 (by omega)
    have hle := toNat_dataLen_le 65507 n r₁
    rw [hn, Except.ok_bind]
    by_cases hzero : dataLen 65507 n r₁ = 0
    · simp only [hzero, ne_eq, not_true, if_false]
      exact ⟨_, _, _, rfl, htakes.append (takes_nil htakes.within)⟩
    · simp only [ne_eq, hzero, not_false_eq_true, if_true]
      rcases htakes.within.allocPbuf pool hle with ⟨-, hnone⟩ | ⟨p, hp, -, hbytes⟩
      · -- The length is taken, but nothing behind it.
        rw [hnone]
        exact ⟨_, _, _, rfl, htakes.append (takes_nil htakes.within)⟩
      · rw [hp]
        refine ⟨_, _, _, rfl, htakes.append ?_⟩
        rw [hbytes]
        exact htakes.within.advance hle
  · exact ⟨_, _, _, rfl, takes_nil h⟩

/-- A callback takes its data off the front of what is left. -/
theorem Callback.run_takes (h : Within c r) (pool : Pool) (cb : Callback A) : ∃ taken calls r',
    cb.run c pool r = .ok (taken, calls, r') ∧ Takes c r (takenBytes taken) r' := by
  have htcp : ∀ p : Option Pbuf, ∃ taken calls r',
      tcpRecv (A := A) c p r = .ok (taken, calls, r') ∧ Takes c r (takenBytes taken) r' := by
    rintro (_ | p)
    · exact ⟨_, _, _, rfl, takes_nil h⟩
    · obtain ⟨taken, calls, r', hrun, htakes⟩ := tcpAppFuzzInput_takes (A := A) h
      rw [tcpRecv, hrun]
      exact ⟨_, _, _, rfl, htakes⟩
  rcases cb with _ | p | p | ⟨_ | p, addr, port⟩ | ⟨_ | p, addr, port⟩
  · exact tcpAppFuzzInput_takes h
  · exact htcp p
  · exact htcp p
  · exact ⟨_, _, _, rfl, takes_nil h⟩
  · obtain ⟨taken, calls, r', hrun, htakes⟩ := udpAppFuzzInput_takes h pool none port
    rw [Callback.run, hrun]
    exact ⟨_, _, _, rfl, htakes⟩
  · exact ⟨_, _, _, rfl, takes_nil h⟩
  · obtain ⟨taken, calls, r', hrun, htakes⟩ := udpAppFuzzInput_takes h pool addr port
    rw [Callback.run, hrun]
    exact ⟨_, _, _, rfl, htakes⟩

/-! ## Steps -/

/-- The bytes taken off the data. -/
def Event.consumed : Event A → List UInt8
  | .header delay n => (delay.elim [] fun d => be 4 d.toNat) ++ be 2 n.toNat
  | .frame p => p.bytes
  | .callback _ _ _ taken => takenBytes taken
  | _ => []

/-- The harness does the step, not the stack. -/
def Event.own : Event A → Bool
  | .callback .. | .tx _ => false
  | _ => true

/-- An application takes data between the length of a packet and the packet. -/
def Event.TakesEarly : Event A → Prop
  | .callback early _ _ taken => early = true ∧ taken.isSome
  | _ => False

variable {s s' : State} {e : Event A}

/-- The length of a packet of the loop. -/
def IsFrameLen (k : UInt16) : Prop := 0 < k.toNat ∧ k.toNat ≤ 1514

/-- The cursor is in the data; a packet whose length is known is there, and fits
    a frame. -/
def Inv (c : Config) (s : State) : Prop :=
  match s.pc with
  | .setup => s.rem = ⟨0, 0⟩
  | .single => c.type = .single ∧ s.rem = ⟨0, c.len⟩
  | .check k => c.type = .multipacketTime ∧ IsFrameLen k ∧ k.toNat ≤ s.rem.len ∧ Within c s.rem
  | .frame k => c.type ≠ .single ∧ IsFrameLen k ∧ k.toNat ≤ s.rem.len ∧ Within c s.rem
  | .loop | .after => c.type ≠ .single ∧ Within c s.rem
  | .input | .done | .aborted => Within c s.rem

theorem Inv.within_or (h : Inv c s) : Within c s.rem ∨ s.rem.len ≤ 2 := by
  rw [Inv] at h
  split at h
  · exact .inr (by rw [h]; exact Nat.zero_le 2)
  · exact .inl (by rw [h.2, Within, Nat.zero_add])
  · exact .inl h.2.2.2
  · exact .inl h.2.2.2
  · exact .inl h.2
  · exact .inl h.2
  all_goals exact .inl h

/-- The data that is not taken. -/
def State.rest (c : Config) (s : State) : List UInt8 :=
  if s.pc = .setup then c.data.take c.len else c.rest s.rem

/-- The steps the harness can take, at most: four for a byte of the data. -/
def State.rank (c : Config) (s : State) : ℕ :=
  match s.pc with
  | .setup => 4 * c.len + 5
  | .single => 4 * s.rem.len + 4
  | .input => 4 * s.rem.len + 3
  | .after => 4 * s.rem.len + 2
  | .loop => 4 * s.rem.len + 1
  | .check _ => 4 * s.rem.len + 1
  | .frame _ => 4 * s.rem.len
  | .done | .aborted => 0

/-- What a step of the harness does: it takes its bytes off the data, and keeps
    the invariant; and there are fewer steps left. -/
structure Goes (c : Config) (s : State) (e : Event A) (s' : State) : Prop where
  own : e.own = true
  inv : Inv c s'
  rest_eq : s.rest c = e.consumed ++ s'.rest c
  rank_lt : s'.rank c < s.rank c
  frame : ∀ p, e = .frame p → c.type ≠ .single → IsFrameLen p.totLen

theorem isFrameLen_frameLen {n : UInt16} (h : frameLen n r ≠ 0) :
    IsFrameLen (frameLen n r) ∧ (frameLen n r).toNat ≤ r.len := by
  have hpos : 0 < (frameLen n r).toNat := by
    rw [Nat.pos_iff_ne_zero]
    exact fun h' => h (UInt16.toNat_inj.1 h')
  refine ⟨⟨hpos, ?_⟩, ?_⟩
  · simp only [frameLen, maxPacketSize, UInt16.lt_iff_toNat_lt]
    have hmax : (1514 : UInt16).toNat = 1514 := rfl
    split_ifs
    · have := Nat.mod_le r.len (2 ^ 16)
      rw [UInt16.toNat_ofNat']
      omega
    · omega
    · have := Nat.mod_le r.len (2 ^ 16)
      rw [UInt16.toNat_ofNat']
      omega
    · omega
  · simp only [frameLen]
    split_ifs with h₁ h₂ h₂
    · exact Nat.mod_le _ _
    · omega
    · exact Nat.mod_le _ _
    · omega

/-- A packet of the data left, if there is memory for it. -/
theorem inputPkt_goes (pool : Pool) (hwithin : Within c s.rem) (hn : n ≤ s.rem.len)
    (hmax : n ≤ 0xFFFF) :
    pool (UInt16.ofNat n) = none ∧
        inputPkt (A := A) c pool s s.rem.ptr n = .ok (.abort, { s with pc := .aborted }) ∨
      ∃ p, inputPkt (A := A) c pool s s.rem.ptr n = .ok (.frame p, { s with
          pc := .input, rem := s.rem.advance n, pcap := pcapDumpPacket s.pcap p }) ∧
        p.totLen.toNat = n ∧ p.bytes = (c.rest s.rem).take n := by
  have hnat : (UInt16.ofNat n).toNat = n := UInt16.toNat_ofNat_of_lt' (Nat.lt_succ_of_le hmax)
  have hle : (UInt16.ofNat n).toNat ≤ s.rem.len := hnat.trans_le hn
  rw [inputPkt, if_neg (Nat.not_lt.2 hmax)]
  rcases hwithin.allocPbuf pool hle with ⟨hpool, hnone⟩ | ⟨p, hp, htot, hbytes⟩
  · rw [hnone]
    exact .inl ⟨hpool, rfl⟩
  · rw [hp]
    rw [hnat] at hbytes
    exact .inr ⟨p, rfl, htot ▸ hnat, hbytes⟩

theorem rest_of_ne_setup (h : s.pc ≠ .setup) : s.rest c = c.rest s.rem := if_neg h

theorem rest_of_pc {pc : Pc} (hpc : s.pc = pc) (h : pc ≠ .setup) : s.rest c = c.rest s.rem :=
  rest_of_ne_setup (hpc ▸ h)

/-- Without memory for a packet, the program is stopped. -/
theorem goes_abort
    (hgo : State.go (A := A) c pool s = .ok (some (.abort, { s with pc := .aborted })))
    (hpc : s.pc ≠ .setup) (hwithin : Within c s.rem) (hrank : 0 < s.rank c) :
    ∃ e s', State.go (A := A) c pool s = .ok (some (e, s')) ∧ Goes c s e s' := by
  refine ⟨_, _, hgo, rfl, hwithin, ?_, hrank, fun _ hp => (nomatch hp)⟩
  rw [rest_of_ne_setup hpc, rest_of_pc rfl Pc.noConfusion]
  rfl

/-- The step that hands a packet of the loop to the stack. -/
theorem goes_frame (pool : Pool) {k : UInt16} (hpc : s.pc = .frame k) (h : Inv c s) :
    ∃ e s', State.go (A := A) c pool s = .ok (some (e, s')) ∧ Goes c s e s' := by
  rw [Inv, hpc] at h
  obtain ⟨htype, hk, hle, hwithin⟩ := h
  have htakes := hwithin.advance hle
  have hlen := htakes.length_le hwithin
  rw [List.length_take, hwithin.length_rest, Nat.min_eq_left hle] at hlen
  have hpos := hk.1
  have hgo : State.go (A := A) c pool s = some <$> inputPkt c pool s s.rem.ptr k.toNat := by
    rw [State.go, hpc]
  rcases inputPkt_goes (A := A) pool hwithin hle (hk.2.trans (by decide)) with
    ⟨-, habort⟩ | ⟨p, hp, htot, hbytes⟩
  · rw [habort] at hgo
    refine goes_abort hgo (hpc ▸ Pc.noConfusion) hwithin ?_
    simp only [State.rank, hpc]
    omega
  · rw [hp] at hgo
    refine ⟨_, _, hgo, rfl, htakes.within, ?_, ?_, ?_⟩
    · rw [rest_of_pc hpc Pc.noConfusion, htakes.rest_eq, ← hbytes]
      rfl
    · simp only [State.rank, hpc]
      omega
    · intro p' hp' _
      cases hp'
      rw [IsFrameLen, htot]
      exact hk

/-- The step that takes all of the data for a packet. -/
theorem goes_single (pool : Pool) (hpc : s.pc = .single) (h : Inv c s) :
    ∃ e s', State.go (A := A) c pool s = .ok (some (e, s')) ∧ Goes c s e s' := by
  rw [Inv, hpc] at h
  obtain ⟨htype, hrem⟩ := h
  have hwithin : Within c s.rem := by rw [hrem, Within, Nat.zero_add]
  have hlen : s.rem.len = c.len := by rw [hrem]
  have hptr : s.rem.ptr = 0 := by rw [hrem]
  have hrest : s.rest c = c.rest s.rem := rest_of_pc hpc Pc.noConfusion
  have hgo : State.go (A := A) c pool s = some <$> inputPkt c pool s s.rem.ptr c.len := by
    rw [State.go, hpc, hptr]
  by_cases hbig : c.len > 0xFFFF
  · rw [inputPkt, if_pos hbig] at hgo
    refine ⟨_, _, hgo, rfl, hwithin, hrest, ?_, fun _ hp => (nomatch hp)⟩
    simp only [State.rank, hpc]
    omega
  · have hmax : c.len ≤ 0xFFFF := Nat.not_lt.1 hbig
    have htakes := hwithin.advance hlen.ge
    have hleft := htakes.length_le hwithin
    rcases inputPkt_goes (A := A) pool hwithin hlen.ge hmax with
      ⟨-, habort⟩ | ⟨p, hp, -, hbytes⟩
    · rw [habort] at hgo
      refine goes_abort hgo (hpc ▸ Pc.noConfusion) hwithin ?_
      simp only [State.rank, hpc]
      omega
    · rw [hp] at hgo
      refine ⟨_, _, hgo, rfl, htakes.within, ?_, ?_, fun _ _ hne => absurd htype hne⟩
      · rw [hrest, htakes.rest_eq, ← hbytes]
        rfl
      · simp only [State.rank, hpc]
        omega

/-- Where the loop goes with the length of a packet. -/
def FuzzType.next (type : FuzzType) (k : UInt16) : Pc :=
  if k = 0 then .loop else if type = .multipacketTime then .check k else .frame k

theorem FuzzType.next_ne_setup (type : FuzzType) (k : UInt16) : type.next k ≠ .setup := by
  rw [FuzzType.next]
  split_ifs <;> exact Pc.noConfusion

/-- The head of an iteration: the time, if any, and the length of a packet are
    taken. -/
theorem readHeader_takes (h : Within c s.rem) (hlen : s.rem.len > c.type.minlen) :
    ∃ delay n r offset, Takes c s.rem (Event.header (A := A) delay n).consumed r ∧
      r.len < s.rem.len ∧ readHeader (A := A) c s = .ok (.header delay n, { s with
        rem := r, pc := c.type.next (frameLen n r), sysNowOffset := offset }) := by
  rw [readHeader, if_pos hlen]
  rw [FuzzType.minlen] at hlen
  by_cases htime : c.type = .multipacketTime
  · -- The time comes first.
    rw [if_pos htime] at hlen
    obtain ⟨d, r₁, hd, htakes₁⟩ := h.takeU32 (by omega)
    have hlen₁ := htakes₁.length_le h
    rw [length_be] at hlen₁
    obtain ⟨n, r₂, hn, htakes₂⟩ := htakes₁.within.takeU16 (by omega)
    have hlen₂ := htakes₂.length_le htakes₁.within
    rw [length_be] at hlen₂
    simp only [if_pos htime, hd, Except.ok_bind, hn, FuzzType.next]
    have htakes : Takes c s.rem (Event.header (A := A) (some d) n).consumed r₂ :=
      htakes₁.append htakes₂
    by_cases hzero : frameLen n r₂ = 0
    · refine ⟨some d, n, r₂, s.sysNowOffset, htakes, by omega, ?_⟩
      simp only [hzero, ne_eq, not_true, if_false, if_true]
      rfl
    · refine ⟨some d, n, r₂, s.sysNowOffset + d, htakes, by omega, ?_⟩
      simp only [hzero, ne_eq, not_false_eq_true, if_false, if_true]
      rfl
  · rw [if_neg htime] at hlen
    obtain ⟨n, r₁, hn, htakes⟩ := h.takeU16 (by omega)
    have hlen₁ := htakes.length_le h
    rw [length_be] at hlen₁
    simp only [if_neg htime, hn, Except.ok_bind, FuzzType.next, ne_eq, ite_not]
    exact ⟨none, n, r₁, s.sysNowOffset, htakes, by omega, rfl⟩

/-- An iteration of the loop, up to its packet. -/
theorem goes_loop (pool : Pool) (hpc : s.pc = .loop) (h : Inv c s) :
    ∃ e s', State.go (A := A) c pool s = .ok (some (e, s')) ∧ Goes c s e s' := by
  rw [Inv, hpc] at h
  obtain ⟨htype, hwithin⟩ := h
  have hrest : s.rest c = c.rest s.rem := rest_of_pc hpc Pc.noConfusion
  have hgo : State.go (A := A) c pool s = some <$> readHeader c s := by rw [State.go, hpc]
  by_cases hlen : s.rem.len > c.type.minlen
  · obtain ⟨delay, n, r, offset, htakes, hlt, hread⟩ := readHeader_takes (A := A) hwithin hlen
    rw [hread] at hgo
    refine ⟨_, _, hgo, rfl, ?_, ?_, ?_, fun _ hp => (nomatch hp)⟩
    · rw [FuzzType.next]
      split_ifs with hzero htime
      · exact ⟨htype, htakes.within⟩
      · obtain ⟨hk, hle⟩ := isFrameLen_frameLen hzero
        exact ⟨htime, hk, hle, htakes.within⟩
      · obtain ⟨hk, hle⟩ := isFrameLen_frameLen hzero
        exact ⟨htype, hk, hle, htakes.within⟩
    · rw [hrest, rest_of_pc rfl (c.type.next_ne_setup _)]
      exact htakes.rest_eq
    · rw [FuzzType.next]
      split_ifs
      all_goals
        simp only [State.rank, hpc]
        omega
  · rw [readHeader, if_neg hlen] at hgo
    refine ⟨_, _, hgo, rfl, hwithin, hrest, ?_, fun _ hp => (nomatch hp)⟩
    simp only [State.rank, hpc]
    omega

/-- A step that only moves the control. -/
theorem goes_proceed {pc : Pc}
    (hgo : State.go (A := A) c pool s = .ok (some (.proceed, { s with pc := pc })))
    (hpc : s.pc ≠ .setup) (hpc' : pc ≠ .setup) (hinv : Inv c { s with pc := pc })
    (hrank : State.rank c { s with pc := pc } < s.rank c) :
    ∃ e s', State.go (A := A) c pool s = .ok (some (e, s')) ∧ Goes c s e s' := by
  refine ⟨_, _, hgo, rfl, hinv, ?_, hrank, fun _ hp => (nomatch hp)⟩
  rw [rest_of_ne_setup hpc, rest_of_pc rfl hpc']
  rfl

/-- The step from the stack that is set up. -/
theorem goes_setup (pool : Pool) (hpc : s.pc = .setup) :
    ∃ e s', State.go (A := A) c pool s = .ok (some (e, s')) ∧ Goes c s e s' := by
  have hwithin : Within c ⟨0, c.len⟩ := Nat.zero_add _
  have hrest : s.rest c = c.rest ⟨0, c.len⟩ := if_pos hpc
  by_cases htype : c.type = .single
  · have hgo : State.go (A := A) c pool s =
        .ok (some (.proceed, { s with pc := .single, rem := ⟨0, c.len⟩ })) := by
      simp only [State.go, hpc, if_pos htype]
    refine ⟨_, _, hgo, rfl, ⟨htype, rfl⟩, hrest, ?_, fun _ hp => (nomatch hp)⟩
    simp only [State.rank, hpc]
    omega
  · have hgo : State.go (A := A) c pool s =
        .ok (some (.proceed, { s with pc := .loop, rem := ⟨0, c.len⟩ })) := by
      simp only [State.go, hpc, if_neg htype]
    refine ⟨_, _, hgo, rfl, ⟨htype, hwithin⟩, hrest, ?_, fun _ hp => (nomatch hp)⟩
    simp only [State.rank, hpc]
    omega

/-- In its invariant, the harness can go on, unless it is at an end. -/
theorem exists_goes (pool : Pool) (h : Inv c s) :
    (s.pc = .done ∨ s.pc = .aborted) ∧ State.go (A := A) c pool s = .ok none ∨
    ∃ e s', State.go (A := A) c pool s = .ok (some (e, s')) ∧ Goes c s e s' := by
  cases hpc : s.pc with
  | done => exact .inl ⟨.inl rfl, by rw [State.go, hpc]⟩
  | aborted => exact .inl ⟨.inr rfl, by rw [State.go, hpc]⟩
  | setup => exact .inr (goes_setup pool hpc)
  | frame k => exact .inr (goes_frame pool hpc h)
  | single => exact .inr (goes_single pool hpc h)
  | loop => exact .inr (goes_loop pool hpc h)
  | check k =>
    rw [Inv, hpc] at h
    obtain ⟨htime, hk, hle, hwithin⟩ := h
    have hgo : State.go (A := A) c pool s = .ok (some (.proceed, { s with pc := .frame k })) := by
      simp only [State.go, hpc]
    have htype : c.type ≠ .single := htime ▸ FuzzType.noConfusion
    refine .inr (goes_proceed hgo (hpc ▸ Pc.noConfusion) Pc.noConfusion
      ⟨htype, hk, hle, hwithin⟩ ?_)
    simp only [State.rank, hpc]
    omega
  | after =>
    rw [Inv, hpc] at h
    have hgo : State.go (A := A) c pool s = .ok (some (.proceed, { s with pc := .loop })) := by
      simp only [State.go, hpc]
    refine .inr (goes_proceed hgo (hpc ▸ Pc.noConfusion) Pc.noConfusion h ?_)
    simp only [State.rank, hpc]
    omega
  | input =>
    rw [Inv, hpc] at h
    by_cases htype : c.type = .single
    · have hgo : State.go (A := A) c pool s = .ok (some (.proceed, { s with pc := .done })) := by
        simp only [State.go, hpc, if_pos htype]
      refine .inr (goes_proceed hgo (hpc ▸ Pc.noConfusion) Pc.noConfusion h ?_)
      simp only [State.rank, hpc]
      omega
    · have hgo : State.go (A := A) c pool s = .ok (some (.proceed, { s with pc := .after })) := by
        simp only [State.go, hpc, if_neg htype]
      refine .inr (goes_proceed hgo (hpc ▸ Pc.noConfusion) Pc.noConfusion ⟨htype, h⟩ ?_)
      simp only [State.rank, hpc]
      omega

/-! ## Runs -/

/-- With two bytes left, or fewer, an application takes nothing. -/
theorem Callback.run_of_len_le (h : r.len ≤ 2) (pool : Pool) (cb : Callback A) :
    ∃ calls, cb.run c pool r = .ok (none, calls, r) ∧ calls.any Call.isAbort = false := by
  have htcp : tcpAppFuzzInput (A := A) c r = .ok (none, [], r) := if_neg (Nat.not_lt.2 h)
  have hudp : ∀ addr port, udpAppFuzzInput (A := A) c pool addr port r = .ok (none, [], r) :=
    fun _ _ => if_neg (Nat.not_lt.2 h)
  rcases cb with _ | ⟨_ | p⟩ | ⟨_ | p⟩ | ⟨_ | p, addr, port⟩ | ⟨_ | p, addr, port⟩
  all_goals simp only [Callback.run, tcpRecv, htcp, hudp, Except.ok_bind]
  all_goals exact ⟨_, rfl, rfl⟩

/-- What any step does, if no application takes data early. -/
structure Keeps (c : Config) (s : State) (e : Event A) (s' : State) : Prop where
  inv : Inv c s'
  rest_eq : s.rest c = e.consumed ++ s'.rest c
  rank_le : e.own.toNat + s'.rank c ≤ s.rank c
  frame : ∀ p, e = .frame p → c.type ≠ .single → IsFrameLen p.totLen

theorem rank_le_of_len_le {pc : Pc} {r r' : Remfuzz} {offset : UInt32} {pcap : Pcap}
    (h : r'.len ≤ r.len) :
    State.rank c ⟨pc, r', offset, pcap⟩ ≤ State.rank c ⟨pc, r, offset, pcap⟩ := by
  cases pc <;> simp only [State.rank] <;> omega

/-- The stack calls an application. -/
theorem keeps_callback {cb : Callback A} {taken : Option Taken} {calls : List (Call A)}
    (h : Inv c s) (hstack : s.pc.inStack = true)
    (hrun : cb.run c pool s.rem = .ok (taken, calls, r))
    (hearly : c.type = .multipacketTime → ¬(s.pc.early = true ∧ taken.isSome)) :
    Keeps c s (.callback s.pc.early cb calls taken)
      { s with pc := s.pc.behind calls, rem := r } := by
  obtain ⟨pc, rem, offset, pcap⟩ := s
  have htakes : Within c rem → Takes c rem (takenBytes taken) r := by
    intro hwithin
    obtain ⟨taken', calls', r', hrun', htakes⟩ := Callback.run_takes hwithin pool cb
    cases hrun.symm.trans hrun'
    exact htakes
  have hkeeps : Within c rem → pc ≠ .setup → Inv c ⟨pc, r, offset, pcap⟩ →
      Keeps c ⟨pc, rem, offset, pcap⟩ (.callback pc.early cb calls taken)
        ⟨pc.behind calls, r, offset, pcap⟩ := by
    intro hwithin hpc hinv
    have hlen := (htakes hwithin).length_le hwithin
    have hrest := (htakes hwithin).rest_eq
    rw [Pc.behind]
    split_ifs
    · -- The program is stopped.
      refine ⟨(htakes hwithin).within, ?_, Nat.zero_le _, fun _ hp => (nomatch hp)⟩
      rwa [rest_of_pc rfl hpc, rest_of_pc rfl Pc.noConfusion]
    · refine ⟨hinv, ?_, ?_, fun _ hp => (nomatch hp)⟩
      · rwa [rest_of_pc rfl hpc, rest_of_pc rfl hpc]
      · rw [Event.own, Bool.toNat_false, Nat.zero_add]
        exact rank_le_of_len_le (by omega)
  cases pc with
  | setup =>
    have hlen : rem.len ≤ 2 := by
      rw [show rem = ⟨0, 0⟩ from h]
      exact Nat.zero_le 2
    obtain ⟨calls', hrun', hno⟩ := Callback.run_of_len_le (c := c) hlen pool cb
    cases hrun.symm.trans hrun'
    have hbehind : Pc.setup.behind calls = .setup := by
      rw [Pc.behind, hno]
      rfl
    rw [hbehind]
    exact ⟨h, rfl, by rw [Event.own, Bool.toNat_false, Nat.zero_add], fun _ hp => (nomatch hp)⟩
  | check k =>
    obtain ⟨htime, hk, hle, hwithin⟩ := h
    have hnone : taken = none :=
      Option.not_isSome_iff_eq_none.1 fun hsome => hearly htime ⟨rfl, hsome⟩
    have hlen := (htakes hwithin).length_le hwithin
    rw [hnone] at hlen
    refine hkeeps hwithin Pc.noConfusion ⟨htime, hk, ?_, (htakes hwithin).within⟩
    exact hle.trans (hlen.symm.trans (Nat.zero_add _)).le
  | input => exact hkeeps h Pc.noConfusion (htakes h).within
  | after => exact hkeeps h.2 Pc.noConfusion ⟨h.1, (htakes h.2).within⟩
  | _ => exact absurd hstack Bool.false_ne_true

theorem Step.keeps (h : Inv c s) (hstep : Step c pools s e s')
    (hearly : c.type = .multipacketTime → ¬e.TakesEarly) : Keeps c s e s' := by
  cases hstep with
  | go hpool hgo =>
    rcases exists_goes (A := A) _ h with ⟨-, hdone⟩ | ⟨e', s'', hgo', hgoes⟩
    · cases hgo.symm.trans hdone
    · cases hgo.symm.trans hgo'
      have hcost := Bool.toNat_le e.own
      have hlt := hgoes.rank_lt
      exact ⟨hgoes.inv, hgoes.rest_eq, by omega, hgoes.frame⟩
  | callback hpool hstack hrun => exact keeps_callback h hstack hrun hearly
  | tx hstack =>
    exact ⟨h, rfl, (Nat.zero_add _).le, fun _ hp => (nomatch hp)⟩

variable {s₀ : State} {es : List (Event A)}

theorem Start.inv (h : Start s₀) : Inv c s₀ := by
  rw [Inv, h.1]
  exact h.2.1

/-- The run only makes steps from states of the invariant. -/
theorem Start.restrict (h₀ : Start s₀) (hrun : (harness A c pools).Run s₀ es s)
    (hearly : c.type = .multipacketTime → ∀ e ∈ es, ¬e.TakesEarly) :
    ((harness A c pools).restrict (Inv c) fun e => c.type = .multipacketTime → ¬e.TakesEarly).Run
      s₀ es s ∧ Inv c s :=
  hrun.restrict (fun _ _ _ h hearly hstep => (hstep.keeps h hearly).inv)
    (fun e he htime => hearly htime e he) h₀.inv

/-- Whatever the stack does, no data is lost, taken twice or out of order, and
    neither the harness nor an application leaves the memory; the packets of the
    loop fit a frame. -/
theorem harness_conserves (h₀ : Start s₀) (hrun : (harness A c pools).Run s₀ es s)
    (hearly : c.type = .multipacketTime → ∀ e ∈ es, ¬e.TakesEarly) :
    es.flatMap Event.consumed ++ s.rest c = c.data.take c.len ∧
      (∀ pool, ∃ next, State.go (A := A) c pool s = .ok next) ∧
      (∀ pool, ∀ cb : Callback A, ∃ out, cb.run c pool s.rem = .ok out) ∧
      (c.type ≠ .single → ∀ p, .frame p ∈ es → 0 < p.totLen.toNat ∧ p.totLen.toNat ≤ 1514) := by
  obtain ⟨hr, hinv⟩ := h₀.restrict hrun hearly
  refine ⟨?_, fun pool => ?_, fun pool cb => ?_, fun htype p hp => ?_⟩
  · have hdrains := hr.drains (State.rest c) fun e _ s s' hstep =>
      (hstep.2.2.keeps hstep.1 hstep.2.1).rest_eq.symm
    rw [hdrains, State.rest, if_pos h₀.1]
  · rcases exists_goes (A := A) pool hinv with ⟨-, hgo⟩ | ⟨e, s', hgo, -⟩
    · exact ⟨_, hgo⟩
    · exact ⟨_, hgo⟩
  · rcases hinv.within_or with hwithin | hlen
    · obtain ⟨taken, calls, r, hrun, -⟩ := Callback.run_takes hwithin pool cb
      exact ⟨_, hrun⟩
    · obtain ⟨calls, hrun, -⟩ := Callback.run_of_len_le (c := c) hlen pool cb
      exact ⟨_, hrun⟩
  · obtain ⟨s₁, s₂, hinv₁, hQ, hstep⟩ := hr.exists_step hp
    exact (hstep.keeps hinv₁ hQ).frame p rfl htype

/-- A test with times: a packet of one byte, and one byte for an application. -/
def timeTest : Config where
  type := .multipacketTime
  data := [0, 0, 0, 7, 0, 1, 0xAA, 0, 1, 0xBB]
  len := 10
  len_le := le_rfl
  length_le := by decide

def timeStart : State := ⟨.setup, ⟨0, 0⟩, 0, pcapDumpInit [] true⟩

/-- A chain of one buffer. -/
def oneBuffer : Pool := fun n => some ⟨[n.toNat], List.sum_singleton⟩

theorem oneBuffer_succeeds : oneBuffer.Succeeds := fun _ => Option.some_ne_none _

theorem start_timeStart : Start timeStart := ⟨rfl, rfl, rfl, [], true, rfl⟩

theorem timeTest_run : ∃ es s, (harness Unit timeTest {oneBuffer}).Run timeStart es s ∧
    (∀ e ∈ es, ¬e.TakesEarly) ∧ s.pcap.isOpen = true ∧
    es.flatMap Event.consumed = timeTest.data := by
  refine ⟨[_, _, _, _, .callback _ .tcpClientConnected _ _], _, .cons (.go rfl rfl)
    (.cons (.go rfl rfl) (.cons (.go rfl rfl) (.cons (.go rfl rfl)
      (.cons (.callback rfl rfl rfl) (.nil _))))), ?_, rfl, rfl⟩
  simp [Event.TakesEarly, Pc.early]

theorem harness_conserves_timeTest : ∃ (es : List (Event Unit)) (s : State),
    (harness Unit timeTest {oneBuffer}).Run timeStart es s ∧
      es.flatMap Event.consumed ++ s.rest timeTest = timeTest.data := by
  obtain ⟨es, s, hrun, hearly, -⟩ := timeTest_run
  exact ⟨es, s, hrun, (harness_conserves start_timeStart hrun fun _ => hearly).1⟩

/-! ## The end -/

theorem allocPbuf_eq_none {data : List UInt8} {off : ℕ} {n : UInt16}
    (h : allocPbuf pool data off n = .ok none) : pool n = none := by
  rw [allocPbuf] at h
  cases hpool : pool n with
  | none => rfl
  | some lens =>
    rw [hpool] at h
    obtain ⟨_, _, h⟩ := Except.bind_eq_ok_iff.1 h
    cases h

/-- A packet is too big, finds no memory, or is handed to the stack. -/
theorem inputPkt_cases {off n : ℕ} (h : inputPkt c pool s off n = .ok (e, s')) :
    (n > 0xFFFF ∧ e = .tooBig ∧ s' = { s with pc := .done }) ∨
    (pool (UInt16.ofNat n) = none ∧ e = .abort ∧ s' = { s with pc := .aborted }) ∨
    ∃ p, n ≤ 0xFFFF ∧ allocPbuf pool c.data off (UInt16.ofNat n) = .ok (some p) ∧ e = .frame p ∧
      s' = { s with pc := .input, rem := s.rem.advance n, pcap := pcapDumpPacket s.pcap p } := by
  rw [inputPkt] at h
  split_ifs at h with hbig
  · obtain ⟨rfl, rfl⟩ := Prod.mk.inj (Except.ok.inj h)
    exact .inl ⟨hbig, rfl, rfl⟩
  · obtain ⟨out, hout, h⟩ := Except.bind_eq_ok_iff.1 h
    cases out with
    | none =>
      obtain ⟨rfl, rfl⟩ := Prod.mk.inj (Except.ok.inj h)
      exact .inr (.inl ⟨allocPbuf_eq_none hout, rfl, rfl⟩)
    | some p =>
      obtain ⟨rfl, rfl⟩ := Prod.mk.inj (Except.ok.inj h)
      exact .inr (.inr ⟨p, Nat.not_lt.1 hbig, hout, rfl, rfl⟩)

/-- An iteration of the loop ends it, or takes words off the data. -/
theorem readHeader_cases (h : readHeader c s = .ok (e, s')) :
    (s.rem.len ≤ c.type.minlen ∧ e = .proceed ∧ s' = { s with pc := .done }) ∨
      ∃ delay n r r' offset, (r = s.rem ∨ ∃ d, takeU32 c.data s.rem = .ok (d, r)) ∧
        takeU16 c.data r = .ok (n, r') ∧ e = .header delay n ∧
        s' = { s with rem := r', pc := c.type.next (frameLen n r'), sysNowOffset := offset } := by
  rw [readHeader] at h
  split_ifs at h with hlen htime
  · simp only [Except.bind_eq_ok_iff] at h
    obtain ⟨⟨d, r⟩, hd, ⟨n, r'⟩, hn, h⟩ := h
    simp only at h
    split_ifs at h with hzero
    · obtain ⟨rfl, rfl⟩ := Prod.mk.inj (Except.ok.inj h)
      refine .inr ⟨_, n, r, r', s.sysNowOffset + d, .inr ⟨d, hd⟩, hn, rfl, ?_⟩
      rw [FuzzType.next, if_neg hzero, if_pos htime]
    · obtain ⟨rfl, rfl⟩ := Prod.mk.inj (Except.ok.inj h)
      refine .inr ⟨_, n, r, r', s.sysNowOffset, .inr ⟨d, hd⟩, hn, rfl, ?_⟩
      rw [FuzzType.next, if_pos (not_not.1 hzero)]
  · simp only [Except.bind_eq_ok_iff] at h
    obtain ⟨⟨n, r'⟩, hn, h⟩ := h
    obtain ⟨rfl, rfl⟩ := Prod.mk.inj (Except.ok.inj h)
    refine .inr ⟨_, n, s.rem, r', s.sysNowOffset, .inl rfl, hn, rfl, ?_⟩
    rw [FuzzType.next, if_neg htime, ite_not]
  · obtain ⟨rfl, rfl⟩ := Prod.mk.inj (Except.ok.inj h)
    exact .inl ⟨Nat.not_lt.1 hlen, rfl, rfl⟩

theorem FuzzType.next_ne_aborted (type : FuzzType) (k : UInt16) : type.next k ≠ .aborted := by
  rw [FuzzType.next]
  split_ifs <;> exact Pc.noConfusion

/-- With memory for every packet, the harness is not stopped. -/
theorem ne_aborted_of_go (hpool : pool.Succeeds) (hgo : s.go c pool = .ok (some (e, s'))) :
    s'.pc ≠ .aborted := by
  have hinput : ∀ {off n}, some <$> inputPkt c pool s off n = .ok (some (e, s')) →
      s'.pc ≠ .aborted := by
    intro off n h
    rcases inputPkt_cases (Except.map_some_eq_ok_iff.1 h) with
      ⟨-, -, rfl⟩ | ⟨hnone, -⟩ | ⟨p, -, -, -, rfl⟩
    · exact Pc.noConfusion
    · exact absurd hnone (hpool _)
    · exact Pc.noConfusion
  rw [State.go] at hgo
  cases hpc : s.pc with
  | single =>
    rw [hpc] at hgo
    exact hinput hgo
  | frame k =>
    rw [hpc] at hgo
    exact hinput hgo
  | loop =>
    rw [hpc] at hgo
    rcases readHeader_cases (Except.map_some_eq_ok_iff.1 hgo) with
      ⟨-, -, rfl⟩ | ⟨_, _, _, _, _, -, -, -, rfl⟩
    · exact Pc.noConfusion
    · exact c.type.next_ne_aborted _
  | setup =>
    rw [hpc] at hgo
    obtain ⟨rfl, rfl⟩ := Prod.mk.inj (Option.some.inj (Except.ok.inj hgo))
    show (if c.type = .single then Pc.single else .loop) ≠ .aborted
    split_ifs <;> exact Pc.noConfusion
  | input =>
    rw [hpc] at hgo
    obtain ⟨rfl, rfl⟩ := Prod.mk.inj (Option.some.inj (Except.ok.inj hgo))
    show (if c.type = .single then Pc.done else .after) ≠ .aborted
    split_ifs <;> exact Pc.noConfusion
  | check k =>
    rw [hpc] at hgo
    obtain ⟨rfl, rfl⟩ := Prod.mk.inj (Option.some.inj (Except.ok.inj hgo))
    exact Pc.noConfusion
  | after =>
    rw [hpc] at hgo
    obtain ⟨rfl, rfl⟩ := Prod.mk.inj (Option.some.inj (Except.ok.inj hgo))
    exact Pc.noConfusion
  | done =>
    rw [hpc] at hgo
    cases hgo
  | aborted =>
    rw [hpc] at hgo
    cases hgo

theorem tcpAppFuzzInput_any {taken : Option Taken} {calls : List (Call A)}
    (h : tcpAppFuzzInput c r = .ok (taken, calls, r')) : calls.any Call.isAbort = false := by
  rw [tcpAppFuzzInput] at h
  split_ifs at h
  · obtain ⟨⟨n, r₁⟩, -, h⟩ := Except.bind_eq_ok_iff.1 h
    simp only at h
    split_ifs at h
    · obtain ⟨_, -, h⟩ := Except.bind_eq_ok_iff.1 h
      cases h
      rfl
    · cases h
      rfl
  · cases h
    rfl

theorem udpAppFuzzInput_any {addr : Option A} {port : UInt16} {taken : Option Taken}
    {calls : List (Call A)} (hpool : pool.Succeeds)
    (h : udpAppFuzzInput c pool addr port r = .ok (taken, calls, r')) :
    calls.any Call.isAbort = false := by
  rw [udpAppFuzzInput] at h
  split_ifs at h
  · obtain ⟨⟨n, r₁⟩, -, h⟩ := Except.bind_eq_ok_iff.1 h
    simp only at h
    split_ifs at h
    · obtain ⟨_ | p, hp, h⟩ := Except.bind_eq_ok_iff.1 h
      · exact absurd (allocPbuf_eq_none hp) (hpool _)
      · cases h
        cases addr <;> rfl
    · cases h
      rfl
  · cases h
    rfl

theorem Call.any_andThen_free {calls : List (Call A)} (h : calls.any isAbort = false) (p : Pbuf) :
    (andThen calls [.free p]).any isAbort = false := by
  rw [andThen, h, if_neg Bool.false_ne_true, List.any_append, h]
  rfl

/-- With memory for what it sends, no application stops the program. -/
theorem Callback.any_isAbort {cb : Callback A} {taken : Option Taken} {calls : List (Call A)}
    (hpool : pool.Succeeds) (h : cb.run c pool r = .ok (taken, calls, r')) :
    calls.any Call.isAbort = false := by
  have htcp : ∀ {p}, tcpRecv c p r = .ok (taken, calls, r') → calls.any Call.isAbort = false := by
    rintro (_ | p) h
    · cases h
      rfl
    · obtain ⟨⟨taken, calls, r₁⟩, happ, h⟩ := Except.bind_eq_ok_iff.1 h
      cases h
      show (_ :: calls ++ [_]).any Call.isAbort = false
      rw [List.cons_append, List.any_cons, List.any_append, tcpAppFuzzInput_any happ]
      rfl
  rcases cb with _ | p | p | ⟨_ | p, addr, port⟩ | ⟨_ | p, addr, port⟩
  · exact tcpAppFuzzInput_any h
  · exact htcp h
  · exact htcp h
  · cases h
    rfl
  · obtain ⟨⟨taken, calls, r₁⟩, happ, h⟩ := Except.bind_eq_ok_iff.1 h
    cases h
    exact Call.any_andThen_free (udpAppFuzzInput_any hpool happ) p
  · cases h
    rfl
  · obtain ⟨⟨taken, calls, r₁⟩, happ, h⟩ := Except.bind_eq_ok_iff.1 h
    cases h
    exact Call.any_andThen_free (udpAppFuzzInput_any hpool happ) p

/-- With memory for its packets, the harness goes on until it is done. -/
theorem Inv.exists_go (h : Inv c s) (hpool : pool.Succeeds) (hdone : s.pc ≠ .done)
    (habort : s.pc ≠ .aborted) :
    ∃ e s', State.go (A := A) c pool s = .ok (some (e, s')) ∧ Goes c s e s' ∧
      s'.pc ≠ .aborted := by
  rcases exists_goes (A := A) pool h with ⟨hend, -⟩ | ⟨e, s', hgo, hgoes⟩
  · exact (hend.elim hdone habort).elim
  · exact ⟨e, s', hgo, hgoes, ne_aborted_of_go hpool hgo⟩

/-- When the stack only returns, the harness gets done. -/
theorem Inv.exists_done (h : Inv c s) (hpool : pool ∈ pools) (hsucceeds : pool.Succeeds)
    (habort : s.pc ≠ .aborted) : ∃ es s',
    (harness A c pools).Run s es s' ∧ (∀ e ∈ es, e.own = true) ∧ s'.pc = .done := by
  induction hn : s.rank c using Nat.strong_induction_on generalizing s with
  | h n ih =>
    by_cases hdone : s.pc = .done
    · exact ⟨[], s, .nil s, fun _ he => (nomatch he), hdone⟩
    · obtain ⟨e, s₁, hgo, hgoes, habort₁⟩ := h.exists_go (A := A) hsucceeds hdone habort
      obtain ⟨es, s', hrun, hown, hdone'⟩ := ih _ (hn ▸ hgoes.rank_lt) hgoes.inv habort₁ rfl
      exact ⟨e :: es, s', .cons (.go hpool hgo) hrun,
        List.forall_mem_cons.2 ⟨hgoes.own, hown⟩, hdone'⟩

/-- With memory for every chain, no step stops the program. -/
theorem Step.ne_aborted (hpools : ∀ pool ∈ pools, pool.Succeeds) (h : s.pc ≠ .aborted)
    (hstep : Step c pools s e s') : s'.pc ≠ .aborted := by
  cases hstep with
  | go hpool hgo => exact ne_aborted_of_go (hpools _ hpool) hgo
  | callback hpool hstack hrun =>
    show s.pc.behind _ ≠ .aborted
    rwa [Pc.behind, Callback.any_isAbort (hpools _ hpool) hrun, if_neg Bool.false_ne_true]
  | tx hstack => exact h

/-- The harness does at most four steps for a byte of the data, and some at the
    end. As long as `pbuf_alloc` succeeds, the program is not stopped, and gets
    done when the stack only returns. -/
theorem harness_terminates (h₀ : Start s₀) (hrun : (harness A c pools).Run s₀ es s)
    (hearly : c.type = .multipacketTime → ∀ e ∈ es, ¬e.TakesEarly) :
    es.countP Event.own ≤ 4 * c.len + 5 ∧
      ((∀ pool ∈ pools, pool.Succeeds) → s.pc ≠ .aborted) ∧
      (s.pc ≠ .aborted → ∀ pool : Pool, pool.Succeeds → ∃ es' s',
        (harness A c {pool}).Run s es' s' ∧ (∀ e ∈ es', e.own = true) ∧ s'.pc = .done) := by
  obtain ⟨hr, hinv⟩ := h₀.restrict hrun hearly
  refine ⟨?_, fun hpools => ?_, fun habort pool hsucceeds => hinv.exists_done rfl hsucceeds habort⟩
  · have hle : es.countP Event.own + s.rank c ≤ s₀.rank c + es.countP fun _ => false :=
      hr.countP_le fun s e s' hstep => (hstep.2.2.keeps hstep.1 hstep.2.1).rank_le
    rw [List.countP_false, Function.const_apply] at hle
    have hrank : s₀.rank c = 4 * c.len + 5 := by rw [State.rank, h₀.1]
    omega
  · have hstart : s₀.pc ≠ .aborted := h₀.1 ▸ Pc.noConfusion
    exact hrun.invariant (P := fun s => s.pc ≠ .aborted)
      (fun _ _ _ h hstep => Step.ne_aborted hpools h hstep) hstart

theorem harness_terminates_timeTest : ∃ (es : List (Event Unit)) (s : State),
    (harness Unit timeTest {oneBuffer}).Run timeStart es s ∧
      es.countP Event.own ≤ 4 * 10 + 5 ∧ s.pc ≠ .aborted ∧
      ∃ es' s', (harness Unit timeTest {oneBuffer}).Run s es' s' ∧
        (∀ e ∈ es', e.own = true) ∧ s'.pc = .done := by
  obtain ⟨es, s, hrun, hearly, -⟩ := timeTest_run
  obtain ⟨hle, hstopped, hdone⟩ := harness_terminates start_timeStart hrun fun _ => hearly
  have habort : s.pc ≠ .aborted := hstopped fun pool hpool => by
    rw [Set.mem_singleton_iff.1 hpool]
    exact oneBuffer_succeeds
  exact ⟨es, s, hrun, hle, habort, hdone habort _ oneBuffer_succeeds⟩

end FirmwareFuzz.Lwip
