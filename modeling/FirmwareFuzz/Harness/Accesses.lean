import FirmwareFuzz.Harness.Loop
import FirmwareFuzz.Transport.Bounds

/-!
# The bytes read

Of the buffer of `main`, an iteration may access the bytes it has read. Making
the transport accesses the selector byte (`InitAccesses`), a read of the client
the portion of the input it copies (`ReadAccesses`): where these are not in the
buffer, and nowhere else, either is a fault (`espTransportFuzzInit_error_iff`,
`fuzzRead_error_iff`).

The input of a transport has the same length throughout. So all accesses are to
bytes read, in every iteration in which `read` does not fail. When it does, its
value is the largest size there is, and a client that connects and reads is
given bytes nobody wrote (`mainWithin_iff`). Had the buffer just the bytes read,
these would be the iterations with a fault (`mainWithin_iff_runSafe`).
-/

namespace FirmwareFuzz

open CLang

variable {t t' : EspTransport} {len : Int32}

/-! ## Accesses -/

/-- Making a transport over an input of `size` bytes accesses the byte `i`. -/
def InitAccesses (mode : Int32) (size i : ℕ) : Prop :=
  modeOfInt mode = .dynamic ∧ size > 0 ∧ i = 0

/-- A read of `len` bytes accesses the byte `i` of the input. -/
def ReadAccesses (t : EspTransport) (len : Int32) (i : ℕ) : Prop :=
  t.data.connected = true ∧ t.data.rxLen ≤ t.data.rxOff ∧ t.data.inOff < t.data.inLen ∧
    t.data.inOff ≤ i ∧
    i < t.data.inOff + sizeOfInt (readCount t.data.frag len (t.data.inLen - t.data.inOff))

/-- Making a transport faults exactly if it accesses a byte out of the block. -/
theorem espTransportFuzzInit_error_iff (data : List UInt8) (size : ℕ)
    (autopilot mode frag : Int32) :
    (∃ e, espTransportFuzzInit data size autopilot mode frag true = .error e) ↔
      ∃ i, InitAccesses mode size i ∧ data.length ≤ i := by
  simp only [espTransportFuzzInit, Bool.not_true, Bool.false_eq_true, if_false]
  by_cases hsel : modeOfInt mode = .dynamic ∧ size > 0
  · rw [if_pos hsel]
    constructor
    · rintro ⟨e, he⟩
      refine ⟨0, ⟨hsel.1, hsel.2, rfl⟩, ?_⟩
      by_contra hpos
      rw [load_of_lt (Nat.not_le.1 hpos)] at he
      cases he
    · rintro ⟨_, ⟨-, -, rfl⟩, hle⟩
      obtain rfl := List.eq_nil_of_length_eq_zero (Nat.le_zero.1 hle)
      exact ⟨.outOfBounds, rfl⟩
  · rw [if_neg hsel]
    constructor
    · rintro ⟨e, he⟩
      cases he
    · rintro ⟨i, ⟨hmode, hsize, -⟩, -⟩
      exact absurd ⟨hmode, hsize⟩ hsel

/-- A read faults exactly if it accesses a byte out of the block. -/
theorem fuzzRead_error_iff (hqueue : t.data.rxLen ≤ t.data.rx.length)
    (hoff : t.data.inOff ≤ t.data.input.length) (hlen : 0 ≤ len.toInt) :
    (∃ e, fuzzRead t len = .error e) ↔
      ∃ i, ReadAccesses t len i ∧ t.data.input.length ≤ i := by
  have hok : ∀ x : Outcome × EspTransport, ¬∃ e : Fault, Except.ok x = .error e := by
    rintro x ⟨e, he⟩
    cases he
  rcases read_finds t.data with hidle | ⟨hc, hrx⟩ | ⟨hc, hrx, hin⟩
  · rw [fuzzRead_of_idle hidle]
    refine iff_of_false (hok _) ?_
    rintro ⟨i, ⟨hc, hrx, hin, -, -⟩, -⟩
    rcases hidle with hc' | ⟨-, hin'⟩
    · exact absurd (hc.symm.trans hc') (by decide)
    · exact absurd hin (Nat.not_lt.2 hin')
  · -- The replies are in their block, and the input is not accessed.
    obtain ⟨bytes, hcopy⟩ := exists_copyFrom_readCount t.data.frag hlen hrx.le hqueue
    rw [fuzzRead_of_rx hc hrx, hcopy]
    refine iff_of_false (hok _) ?_
    rintro ⟨i, hi, -⟩
    exact absurd hrx (Nat.not_lt.2 hi.2.1)
  · have hmax := readCount_le_ptrdiffMax t.data.frag hlen (t.data.inLen - t.data.inOff)
    rw [fuzzRead_of_input hc hrx hin, copyFrom]
    split_ifs with hfit
    · refine iff_of_false (hok _) ?_
      rintro ⟨i, ⟨-, -, -, -, hi⟩, hge⟩
      omega
    · refine iff_of_true ⟨_, rfl⟩ ⟨t.data.input.length, ⟨hc, hrx, hin, hoff, ?_⟩, le_rfl⟩
      omega

/-- What is read is input. -/
theorem ReadAccesses.lt_inLen (hlen : 0 ≤ len.toInt) {i : ℕ} (h : ReadAccesses t len i) :
    i < t.data.inLen := by
  obtain ⟨-, -, hlt, -, hi⟩ := h
  rw [readCount_eq hlen] at hi
  have := Nat.min_le_right (readCap t.data.frag len) (t.data.inLen - t.data.inOff)
  omega

/-! ## The length of the input -/

theorem inLen_pushRx {s s' : FuzzState} {data : List UInt8} {mem : Bool}
    (h : pushRx s data mem = .ok s') : s'.inLen = s.inLen := by
  rw [pushRx] at h
  split_ifs at h with hnil
  · rw [← Except.ok.inj h]
  · simp only at h
    split at h
    · rw [← Except.ok.inj h]
      split_ifs <;> rfl
    · obtain ⟨rx, -, h⟩ := Except.bind_eq_ok_iff.1 h
      rw [← Except.ok.inj h]
      split_ifs <;> rfl

/-- No operation changes the length of the input. -/
theorem inLen_of_step {l : Op × Outcome} (h : transport.step t l t') :
    t'.data.inLen = t.data.inLen := by
  obtain ⟨op, o⟩ := l
  cases op with
  | connect =>
    obtain ⟨-, rfl⟩ := Prod.mk.inj (Except.ok.inj h)
    rfl
  | read len =>
    replace h : fuzzRead t len = .ok (o, t') := h
    rcases read_finds t.data with hidle | ⟨hc, hrx⟩ | ⟨hc, hrx, hin⟩
    · rw [fuzzRead_of_idle hidle] at h
      obtain ⟨-, rfl⟩ := Prod.mk.inj (Except.ok.inj h)
      rfl
    · rw [fuzzRead_of_rx hc hrx] at h
      obtain ⟨bytes, -, h⟩ := Except.bind_eq_ok_iff.1 h
      obtain ⟨-, rfl⟩ := Prod.mk.inj (Except.ok.inj h)
      rw [FuzzState.popRx]
      split_ifs <;> rfl
    · rw [fuzzRead_of_input hc hrx hin] at h
      obtain ⟨bytes, -, h⟩ := Except.bind_eq_ok_iff.1 h
      obtain ⟨-, rfl⟩ := Prod.mk.inj (Except.ok.inj h)
      rfl
  | write buf len mem =>
    obtain ⟨reply, -, h⟩ := Except.bind_eq_ok_iff.1 h
    obtain ⟨s, hs, h⟩ := Except.bind_eq_ok_iff.1 h
    obtain ⟨-, rfl⟩ := Prod.mk.inj (Except.ok.inj h)
    exact inLen_pushRx hs
  | pollRead =>
    obtain ⟨-, rfl⟩ := Prod.mk.inj (Except.ok.inj h)
    rfl
  | close =>
    obtain ⟨-, rfl⟩ := Prod.mk.inj (Except.ok.inj h)
    rfl

theorem inLen_of_run {ops : List Op} {tr : List (Op × Outcome)} (h : t.run ops = .ok (tr, t')) :
    t'.data.inLen = t.data.inLen :=
  (Lts.exec_eq_ok_iff.1 h).1.invariant (P := fun t' => t'.data.inLen = t.data.inLen)
    (fun _ _ _ ht hst => (inLen_of_step hst).trans ht) rfl

/-! ## The loop -/

/-- An iteration on the first `size` bytes of a block accesses the first `k` only:
    when it makes the transport, if there is memory for it, and then in any read
    of no negative length, after any operations whose reads are such. -/
structure RunWithin (g : Globals) (buf : List UInt8) (size : ℕ) (mem : Bool) (k : ℕ) : Prop where
  init : mem = true → ∀ i, InitAccesses g.gMode size i → i < k
  read : ∀ cfg ops tr t, runOnce g buf size mem = .ok (some cfg) →
    (∀ len, .read len ∈ ops → 0 ≤ len.toInt) → cfg.transport.run ops = .ok (tr, t) →
    ∀ len : Int32, 0 ≤ len.toInt → ∀ i, ReadAccesses t len i → i < k

/-- Every iteration of the loop accesses the bytes it has read only. An iteration
    is given by what `read` does, and by whether there is memory for a transport. -/
def LoopWithin (g : Globals) : List UInt8 → List (ReadResult × Bool) → Prop
  | _, [] => True
  | buf, (r, mem) :: xs =>
    RunWithin g (r.fill buf) r.len mem r.bytes.length ∧ LoopWithin g (r.fill buf) xs

/-- Every iteration of `main` accesses the bytes it has read only, whatever is in
    the buffer to begin with. -/
def MainWithin (argv : List (List UInt8)) (xs : List (ReadResult × Bool)) : Prop :=
  ∀ g, parseArgs argv = .ok g → ∀ buf, buf.length = bufSize → LoopWithin g buf xs

theorem inLen_runOnce {g : Globals} {buf : List UInt8} {size : ℕ} {mem : Bool}
    {cfg : EspMqttClientConfig} (h : runOnce g buf size mem = .ok (some cfg)) :
    cfg.transport.data.inLen = size := by
  obtain ⟨t, ht, h⟩ := Except.bind_eq_ok_iff.1 h
  cases t with
  | none => cases h
  | some t =>
    have hcfg : cfg.transport = t := by rw [← Option.some.inj (Except.ok.inj h)]
    simp only [espTransportFuzzInit] at ht
    rw [hcfg]
    split_ifs at ht
    · cases ht
    · obtain ⟨sel, -, ht⟩ := Except.bind_eq_ok_iff.1 ht
      rw [← Option.some.inj (Except.ok.inj ht)]
    · rw [← Option.some.inj (Except.ok.inj ht)]

/-- Without a selector byte, a transport is made, with its input at the start. -/
theorem espTransportFuzzInit_of_ne_dynamic {mode : Int32} (hmode : modeOfInt mode ≠ .dynamic)
    (data : List UInt8) (size : ℕ) (autopilot frag : Int32) :
    espTransportFuzzInit data size autopilot mode frag true =
      .ok (some ⟨0, 0, ⟨data, size, 0, [], 0, 0, false, autopilot, modeOfInt mode, frag⟩⟩) := by
  simp [espTransportFuzzInit, hmode]

theorem runOnce_of_ne_dynamic {g : Globals} (hmode : modeOfInt g.gMode ≠ .dynamic)
    (buf : List UInt8) (size : ℕ) :
    ∃ cfg, runOnce g buf size true = .ok (some cfg) ∧ cfg.transport =
      ⟨0, 0, ⟨buf, size, 0, [], 0, 0, false, g.gAutopilot, modeOfInt g.gMode, g.gFrag⟩⟩ := by
  rw [runOnce, espTransportFuzzInit_of_ne_dynamic hmode]
  exact ⟨_, rfl, rfl⟩

/-- A client that just connects reads nothing. -/
theorem nonneg_of_mem_connect (len : Int32) (h : Op.read len ∈ [Op.connect]) : 0 ≤ len.toInt := by
  cases h with
  | tail _ h => cases h

/-- The first read of a byte accesses the first one. -/
theorem readAccesses_zero (hc : t.data.connected = true) (hrx : t.data.rxLen ≤ t.data.rxOff)
    (hoff : t.data.inOff = 0) (hin : 0 < t.data.inLen) : ReadAccesses t 1 0 := by
  have hlen : 0 < (1 : Int32).toInt := by decide
  have hcount : 0 < sizeOfInt (readCount t.data.frag 1 (t.data.inLen - t.data.inOff)) := by
    rw [readCount_eq hlen.le, hoff, Nat.sub_zero]
    exact lt_min (readCap_pos hlen) hin
  exact ⟨hc, hrx, hoff ▸ hin, hoff.le, hoff ▸ by omega⟩

/-- An iteration without memory for the transport accesses nothing. -/
theorem runWithin_of_no_mem (g : Globals) (buf : List UInt8) (size k : ℕ) :
    RunWithin g buf size false k where
  init h := by cases h
  read cfg ops tr t h := by cases h

/-- All accesses are below the length of the input. -/
theorem runWithin_size (g : Globals) (buf : List UInt8) (size : ℕ) (mem : Bool) :
    RunWithin g buf size mem size where
  init _ i hi := hi.2.2 ▸ hi.2.1
  read cfg ops tr t hcfg _ hrun len hlen i hi := by
    have hi' := hi.lt_inLen hlen
    rwa [inLen_of_run hrun, inLen_runOnce hcfg] at hi'

/-- On an input, of any length, some client accesses its first byte. -/
theorem not_runWithin_zero (g : Globals) (buf : List UInt8) {size : ℕ} (hsize : 0 < size) :
    ¬RunWithin g buf size true 0 := by
  intro h
  by_cases hmode : modeOfInt g.gMode = .dynamic
  · exact absurd (h.init rfl 0 ⟨hmode, hsize, rfl⟩) (lt_irrefl 0)
  · -- A client that connects and reads a byte.
    obtain ⟨cfg, hcfg, ht⟩ := runOnce_of_ne_dynamic hmode buf size
    have hrun : cfg.transport.run [.connect] = .ok ([(.connect, ⟨0, none⟩)],
        (fuzzConnect cfg.transport).2) := rfl
    have hfirst : ReadAccesses (fuzzConnect cfg.transport).2 1 0 := by
      rw [ht]
      exact readAccesses_zero rfl le_rfl rfl hsize
    have hlt := h.read cfg _ _ _ hcfg nonneg_of_mem_connect hrun 1 (by decide) 0 hfirst
    exact absurd hlt (lt_irrefl 0)

theorem ReadResult.len_some (bytes : {bytes : List UInt8 // bytes.length ≤ bufSize}) :
    ReadResult.len (some bytes) = bytes.1.length := by
  have := bytes.2
  simp only [ReadResult.len, ReadResult.ret, bufSize] at this ⊢
  omega

/-- An iteration accesses the bytes it has read only, unless `read` fails. -/
theorem runWithin_iff (g : Globals) (buf : List UInt8) (r : ReadResult) (mem : Bool) :
    RunWithin g buf r.len mem r.bytes.length ↔ (r = none → mem = false) := by
  cases mem with
  | false => exact iff_of_true (runWithin_of_no_mem g buf _ _) fun _ => rfl
  | true =>
    cases r with
    | none =>
      refine iff_of_false (not_runWithin_zero g buf ?_) fun h => Bool.noConfusion (h rfl)
      decide
    | some bytes =>
      refine iff_of_true ?_ fun h => by cases h
      have hlen := ReadResult.len_some bytes
      have hrun := runWithin_size g buf (ReadResult.len (some bytes)) true
      rwa [hlen] at hrun ⊢

theorem loopWithin_iff (g : Globals) (buf : List UInt8) (xs : List (ReadResult × Bool)) :
    LoopWithin g buf xs ↔ ∀ x ∈ xs, x.1 = none → x.2 = false := by
  induction xs generalizing buf with
  | nil => exact iff_of_true trivial (List.forall_mem_nil _)
  | cons x xs ih =>
    rw [List.forall_mem_cons]
    exact and_congr (runWithin_iff g _ x.1 x.2) (ih _)

/-- Every iteration accesses the bytes it has read only, if in none of them `read`
    fails, or there is no memory for the transport: and only then. -/
theorem mainWithin_iff {argv : List (List UInt8)} {g : Globals} (hg : parseArgs argv = .ok g)
    (xs : List (ReadResult × Bool)) :
    MainWithin argv xs ↔ ∀ x ∈ xs, x.1 = none → x.2 = false := by
  constructor
  · exact fun h => (loopWithin_iff g _ xs).1 (h g hg (List.replicate bufSize 0)
      List.length_replicate)
  · intro h g' hg' buf _
    obtain rfl := Except.ok.inj (hg.symm.trans hg')
    exact (loopWithin_iff g buf xs).2 h

theorem mainWithin_iff_dynamic :
    MainWithin [cString "harness", cString "--mode=dynamic"]
      [(some ⟨[0x04, 0x20], by decide⟩, true), (some ⟨[], by decide⟩, true), (none, false)] :=
  (mainWithin_iff (g := ⟨0, 5, 0⟩) rfl _).2 (by simp)

/-- When `read` fails, a client that connects and reads a byte accesses the first
    byte of the buffer. -/
theorem failed_read :
    parseArgs [cString "harness"] = .ok ⟨0, 0, 0⟩ ∧ ReadResult.len none = 2 ^ 64 - 1 ∧
      (∃ cfg tr t, runOnce ⟨0, 0, 0⟩ (ReadResult.fill none (List.replicate bufSize 0)) (2 ^ 64 - 1)
          true = .ok (some cfg) ∧
        cfg.transport.run [.connect] = .ok (tr, t) ∧ ReadAccesses t 1 0) ∧
      ¬MainWithin [cString "harness"] [(none, true)] := by
  refine ⟨rfl, rfl, ⟨_, _, _, rfl, rfl, rfl, le_rfl, by decide, le_rfl, by decide⟩, fun h => ?_⟩
  have hrun := (h _ rfl (List.replicate bufSize 0) List.length_replicate).1
  exact not_runWithin_zero _ _ (by decide) hrun

/-! ## Faults -/

/-- An iteration on a block, taken to be of `size` bytes, does not fault: when it
    makes the transport, and then in any read of no negative length, after any
    operations whose reads are such. -/
structure RunSafe (g : Globals) (block : List UInt8) (size : ℕ) (mem : Bool) : Prop where
  init : ∀ e, espTransportFuzzInit block size g.gAutopilot g.gMode g.gFrag mem ≠ .error e
  read : ∀ t₀ ops tr t,
    espTransportFuzzInit block size g.gAutopilot g.gMode g.gFrag mem = .ok (some t₀) →
    (∀ len, .read len ∈ ops → 0 ≤ len.toInt) → t₀.run ops = .ok (tr, t) →
    ∀ len : Int32, 0 ≤ len.toInt → ∀ e, fuzzRead t len ≠ .error e

theorem runSafe_of_no_mem (g : Globals) (block : List UInt8) (size : ℕ) :
    RunSafe g block size false where
  init e h := by cases h
  read t₀ ops tr t h := by cases h

/-- On a block of its size, no iteration faults. -/
theorem runSafe_length (g : Globals) (block : List UInt8) : RunSafe g block block.length true where
  init e he := by
    obtain ⟨i, ⟨-, hpos, rfl⟩, hle⟩ :=
      (espTransportFuzzInit_error_iff block block.length g.gAutopilot g.gMode g.gFrag).1 ⟨e, he⟩
    omega
  read t₀ ops tr t h₀ _ hr len hlen e he := by
    have hstarted : Started block g.gAutopilot g.gMode g.gFrag t₀ := h₀
    obtain ⟨o, t', hok⟩ := fuzzRead_ok (hstarted.refines.run hr).2.inv hlen
    cases he.symm.trans hok

/-- On an empty block of any other size, some client's iteration faults. -/
theorem not_runSafe_nil (g : Globals) {size : ℕ} (hsize : 0 < size) :
    ¬RunSafe g [] size true := by
  intro h
  by_cases hmode : modeOfInt g.gMode = .dynamic
  · obtain ⟨e, he⟩ := (espTransportFuzzInit_error_iff [] size g.gAutopilot g.gMode g.gFrag).2
      ⟨0, ⟨hmode, hsize, rfl⟩, le_rfl⟩
    exact h.init e he
  · -- A client that connects and reads a byte.
    have h₀ := espTransportFuzzInit_of_ne_dynamic hmode [] size g.gAutopilot g.gFrag
    let t : EspTransport :=
      ⟨0, 0, ⟨[], size, 0, [], 0, 0, true, g.gAutopilot, modeOfInt g.gMode, g.gFrag⟩⟩
    have hlen : 0 ≤ (1 : Int32).toInt := by decide
    have hfault : ∃ e, fuzzRead t 1 = .error e :=
      (fuzzRead_error_iff le_rfl le_rfl hlen).2
        ⟨0, readAccesses_zero rfl le_rfl rfl hsize, le_rfl⟩
    obtain ⟨e, he⟩ := hfault
    exact h.read _ [.connect] [(.connect, ⟨0, none⟩)] t h₀ nonneg_of_mem_connect rfl 1 hlen e he

theorem runSafe_iff (g : Globals) (r : ReadResult) (mem : Bool) :
    RunSafe g r.bytes r.len mem ↔ (r = none → mem = false) := by
  cases mem with
  | false => exact iff_of_true (runSafe_of_no_mem g _ _) fun _ => rfl
  | true =>
    cases r with
    | none =>
      refine iff_of_false (not_runSafe_nil g ?_) fun h => Bool.noConfusion (h rfl)
      decide
    | some bytes =>
      refine iff_of_true ?_ fun h => by cases h
      rw [ReadResult.len_some]
      exact runSafe_length g bytes.1

/-- The accesses are those of the code: every iteration accesses the bytes it has
    read only, exactly if on a block of these bytes none faults. -/
theorem mainWithin_iff_runSafe (argv : List (List UInt8)) (xs : List (ReadResult × Bool)) :
    MainWithin argv xs ↔
      ∀ g, parseArgs argv = .ok g → ∀ x ∈ xs, RunSafe g x.1.bytes x.1.len x.2 := by
  simp only [runSafe_iff]
  constructor
  · exact fun h g hg => (loopWithin_iff g _ xs).1 (h g hg (List.replicate bufSize 0)
      List.length_replicate)
  · exact fun h g hg buf _ => (loopWithin_iff g buf xs).2 (h g hg)

end FirmwareFuzz
