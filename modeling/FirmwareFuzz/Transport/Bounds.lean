import FirmwareFuzz.Mqtt.DecoderLoop
import FirmwareFuzz.Transport.Readiness

/-!
# The caller's buffer

What a read copies fits the length it was asked for, but for a negative length:
as a size it is larger than all that is pending, and a connected transport with
anything pending copies it all (`readFits_iff`).

A write reads no byte outside of the buffer it is given, whatever is in there,
and the number in the fixed header does not overflow on the way
(`fuzzWrite_bounds`).
-/

namespace FirmwareFuzz

open CLang

variable {t : EspTransport} {frag len : Int32}

/-- The read fails and leaves the buffers and their offsets, or returns the
    number of bytes it copies, at most `len`, and at most `frag` if it is
    positive. -/
def ReadFits (t : EspTransport) (len : Int32) : Prop :=
  ∃ o t', fuzzRead t len = .ok (o, t') ∧
    ((o.ret = -1 ∧ o.copied = none ∧ t'.data.rxOff = t.data.rxOff ∧ t'.data.inOff = t.data.inOff) ∨
      ∃ src bytes, o.copied = some (src, bytes) ∧ o.ret.toInt = bytes.length ∧
        o.ret.toInt ≤ len.toInt ∧ (0 < t.data.frag.toInt → o.ret.toInt ≤ t.data.frag.toInt))

theorem readCap_le_len (hlen : 0 ≤ len.toInt) : readCap frag len ≤ len.toInt := by
  rw [readCap]
  split_ifs with h
  · have hpos : 0 < frag.toInt := Int32.lt_iff_toInt_lt.1 h.1
    have hlt : frag.toInt < len.toInt := Int32.lt_iff_toInt_lt.1 h.2
    rw [sizeOfInt_of_nonneg hpos.le]
    omega
  · rw [sizeOfInt_of_nonneg hlen, Int.toNat_of_nonneg hlen]

theorem readCap_le_frag (hlen : 0 ≤ len.toInt) (hfrag : 0 < frag.toInt) :
    readCap frag len ≤ frag.toInt := by
  rw [readCap]
  split_ifs with h
  · rw [sizeOfInt_of_nonneg hfrag.le, Int.toNat_of_nonneg hfrag.le]
  · have hle : ¬frag.toInt < len.toInt := fun hlt =>
      h ⟨Int32.lt_iff_toInt_lt.2 hfrag, Int32.lt_iff_toInt_lt.2 hlt⟩
    rw [sizeOfInt_of_nonneg hlen]
    omega

/-- A read of no negative length fits. -/
theorem readFits_of_nonneg (h : Inv t.data) (hlen : 0 ≤ len.toInt) : ReadFits t len := by
  obtain ⟨o, t', hr⟩ := fuzzRead_ok h hlen
  refine ⟨o, t', hr, ?_⟩
  -- However much is pending, the portion taken is within both bounds.
  have hfit : ∀ {k avail : ℕ}, k = min (readCap t.data.frag len) avail →
      (k : ℤ) ≤ len.toInt ∧ (0 < t.data.frag.toInt → (k : ℤ) ≤ t.data.frag.toInt) := by
    intro k avail hk
    have hcap : k ≤ readCap t.data.frag len := hk ▸ Nat.min_le_left _ _
    refine ⟨?_, fun hfrag => ?_⟩
    · exact (Int.ofNat_le.2 hcap).trans (readCap_le_len hlen)
    · exact (Int.ofNat_le.2 hcap).trans (readCap_le_frag hlen hfrag)
  rcases fuzzRead_cases h hr with ⟨-, heq⟩ | ⟨k, hk, hcap, -, -, hret, hcopied, -⟩ |
    ⟨k, hk, hcap, -, -, -, hret, hcopied, -⟩
  · obtain ⟨rfl, rfl⟩ := Prod.mk.inj heq
    exact .inl ⟨rfl, rfl, rfl, rfl⟩
  · rw [hret]
    exact .inr ⟨_, _, hcopied, by rw [List.length_take_of_le hk], hfit (hcap hlen)⟩
  · rw [hret]
    exact .inr ⟨_, _, hcopied, by rw [List.length_take_of_le hk], hfit (hcap hlen)⟩

/-- A read that fits is of no negative length, or finds nothing to copy: copying
    means to return a number of bytes, and that is not above a negative length. -/
theorem nonneg_or_idle_of_readFits (h : Inv t.data) (hfits : ReadFits t len) :
    0 ≤ len.toInt ∨ t.data.connected = false ∨ t.data.rxPending = [] ∧ t.data.inPending = [] := by
  obtain ⟨o, t', hr, hfits⟩ := hfits
  rcases fuzzRead_cases h hr with ⟨hidle, -⟩ | ⟨k, -, -, -, -, hret, hcopied, -⟩ |
    ⟨k, -, -, -, -, -, hret, hcopied, -⟩
  · exact .inr hidle
  · rcases hfits with ⟨-, hnone, -⟩ | ⟨_, _, -, -, hle, -⟩
    · rw [hcopied] at hnone
      cases hnone
    · exact .inl (by omega)
  · rcases hfits with ⟨-, hnone, -⟩ | ⟨_, _, -, -, hle, -⟩
    · rw [hcopied] at hnone
      cases hnone
    · exact .inl (by omega)

/-- The reads that fit are those of no negative length, and those that find
    nothing to copy. -/
theorem readFits_iff (h : transport.Reachable Initial t) (frag len : Int32) :
    ReadFits (t.setFrag frag) len ↔ 0 ≤ len.toInt ∨ t.data.connected = false ∨
      t.data.rxPending = [] ∧ t.data.inPending = [] := by
  have hinv : Inv (t.setFrag frag).data := (inv_of_reachable h).setFrag frag
  constructor
  · exact nonneg_or_idle_of_readFits hinv
  · rintro (hlen | hidle)
    · exact readFits_of_nonneg hinv hlen
    · exact ⟨_, _, fuzzRead_timeout hinv hidle, .inl ⟨rfl, rfl, rfl, rfl⟩⟩

/-- The handle over the input `AA BB`, after connecting. -/
def connectedHandle : EspTransport := ⟨0, 0, ⟨[0xAA, 0xBB], 2, 0, [], 0, 0, true, 0, .handshake, 0⟩⟩

theorem reachable_connectedHandle : transport.Reachable Initial connectedHandle :=
  have h₀ : Started [0xAA, 0xBB] 0 0 0
      ⟨0, 0, ⟨[0xAA, 0xBB], 2, 0, [], 0, 0, false, 0, .handshake, 0⟩⟩ := rfl
  h₀.reachable (show EspTransport.run _ [.connect] = .ok (_, _) from rfl)

theorem readFits_iff_one : ReadFits (connectedHandle.setFrag 1) 2 :=
  (readFits_iff reachable_connectedHandle 1 2).2 (.inl (by decide))

/-- A read of length -1 copies all that is pending. -/
theorem negative_read :
    transport.Reachable Initial connectedHandle ∧
      (∃ t', fuzzRead connectedHandle (-1) = .ok (⟨2, some (.input, [0xAA, 0xBB])⟩, t')) ∧
      ¬ReadFits connectedHandle (-1) := by
  refine ⟨reachable_connectedHandle, ⟨_, rfl⟩, fun hfits => ?_⟩
  rcases nonneg_or_idle_of_readFits (inv_of_reachable reachable_connectedHandle) hfits with
    hlen | hconn | ⟨-, hpending⟩
  · exact absurd hlen (by decide)
  · cases hconn
  · cases hpending

/-! ## Writing -/

variable {buf : List UInt8}

/-- A write of a buffer of `len` bytes does not read outside of it. The decoder
    of the Remaining Length reads the bytes in front of `in_len` in turn, four at
    most; it ends, and its variables are in the range of the result, or of an
    `int`, all along. -/
theorem fuzzWrite_bounds (hlen : len.toInt = buf.length) :
    (∀ autopilot mode, ∃ reply, autopilotReply autopilot mode buf len = .ok reply) ∧
    (∀ t mem, transport.Reachable Initial t →
      ∃ t', fuzzWrite t buf len mem = .ok (⟨len, none⟩, t')) ∧
    ∀ (p : List UInt8) (inLen : Int32), 0 ≤ inLen.toInt → inLen.toInt ≤ p.length →
      (∀ ls s, (VarintLoop.system p inLen).Run .init ls s →
        ls = List.range s.i ∧ s.i ≤ min 4 inLen.toInt.toNat ∧ s.value ≤ maxRemainingLength ∧
          s.value ≤ intMax ∧ s.mul ≤ intMax) ∧
      ∃ ls s, (VarintLoop.system p inLen).Run .init ls s ∧ ¬s.Goes inLen ∧
        parseVarintRemaining p inLen = .ok (s.value, s.i) := by
  refine ⟨fun autopilot mode => autopilotReply_ok autopilot mode hlen.le,
    fun t mem h => fuzzWrite_ok (inv_of_reachable h) hlen.le mem,
    fun p inLen hnonneg hle => ⟨?_, ?_⟩⟩
  · intro ls s hr
    have hinv := VarintLoop.inv_of_run hnonneg hr
    have hrange := VarintLoop.range_of_run hr
    have hpow : 128 ^ s.i ≤ 128 ^ 4 := Nat.pow_le_pow_right (by decide) hinv.i_le
    have hvalue : s.value ≤ maxRemainingLength :=
      Nat.le_of_lt_succ (hinv.value_lt.trans_le hpow)
    have hi := hinv.i_le_inLen
    have hi4 := hinv.i_le
    exact ⟨hrange, by omega, hvalue, hvalue.trans (by decide), hinv.mul_le.trans (by decide)⟩
  · obtain ⟨ls, s, hr, hend⟩ := VarintLoop.exists_run hle .init
    exact ⟨ls, s, hr, hend, VarintLoop.parseVarintRemaining_of_run hr hend⟩

theorem fuzzWrite_bounds_subscribe :
    (∃ reply, autopilotReply 1 .subscribe [0x82, 0xFF, 0xFF, 0xFF, 0xFF, 0xFF] 6 = .ok reply) ∧
      ∃ ls s, (VarintLoop.system [0xFF, 0xFF, 0xFF, 0xFF, 0xFF] 5).Run .init ls s ∧ ¬s.Goes 5 ∧
        parseVarintRemaining [0xFF, 0xFF, 0xFF, 0xFF, 0xFF] 5 = .ok (s.value, s.i) := by
  have h := @fuzzWrite_bounds 6 [0x82, 0xFF, 0xFF, 0xFF, 0xFF, 0xFF] rfl
  exact ⟨h.1 1 .subscribe, (h.2.2 _ 5 (by decide) (by decide)).2⟩

end FirmwareFuzz
