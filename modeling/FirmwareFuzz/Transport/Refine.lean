import FirmwareFuzz.Transport.Duplex
import FirmwareFuzz.Transport.Reply

/-!
# The transport refines the line

The offsets of the two streams stay inside their blocks (`Inv`). Under this
invariant, what each operation does is said once:

* `pushRx_eq`: a push appends to the pending replies, or does nothing;
* `fuzzRead_cases`: a read takes a portion off the pending replies, or off the
  input when no reply is pending, or fails;
* `fuzzWrite_eq_ok_iff`: a write pushes the autopilot's reply to its buffer.

Abstracting a handle to its two pending streams, the transport is simulated by
the line (`refinement`), hence its runs are runs of the line (`Refines.run`).
-/

namespace FirmwareFuzz

open CLang

/-- The invariant of the transport. A queue that is fully consumed is reset. -/
structure Inv (s : FuzzState) : Prop where
  rxOff_le : s.rxOff ≤ s.rxLen
  rxLen_le : s.rxLen ≤ s.rx.length
  rxOff_eq_zero : s.rxOff = s.rxLen → s.rxOff = 0
  inOff_le : s.inOff ≤ s.inLen
  inLen_eq : s.inLen = s.input.length

variable {s : FuzzState}

namespace Inv

theorem length_rxPending (h : Inv s) : s.rxPending.length = s.rxLen - s.rxOff := by
  rw [FuzzState.rxPending, List.length_drop, List.length_take, Nat.min_eq_left h.rxLen_le]

theorem length_inPending (h : Inv s) : s.inPending.length = s.inLen - s.inOff := by
  rw [FuzzState.inPending, List.length_drop, List.length_take, Nat.min_eq_left h.inLen_eq.le]

theorem rxPending_eq_nil_iff (h : Inv s) : s.rxPending = [] ↔ s.rxLen ≤ s.rxOff := by
  rw [← List.length_eq_zero_iff, h.length_rxPending, Nat.sub_eq_zero_iff_le]

theorem inPending_eq_nil_iff (h : Inv s) : s.inPending = [] ↔ s.inLen ≤ s.inOff := by
  rw [← List.length_eq_zero_iff, h.length_inPending, Nat.sub_eq_zero_iff_le]

theorem setConnected (h : Inv s) (b : Bool) : Inv { s with connected := b } :=
  ⟨h.rxOff_le, h.rxLen_le, h.rxOff_eq_zero, h.inOff_le, h.inLen_eq⟩

end Inv

/-! ## Pushing -/

/-- The queue with `data` behind its pending bytes. -/
def FuzzState.grow (s : FuzzState) (data : List UInt8) : FuzzState :=
  { s with rx := s.rx.take s.rxLen ++ data, rxLen := s.rxLen + data.length }

theorem pushRx_eq (h : Inv s) (data : List UInt8) (mem : Bool) :
    pushRx s data mem = .ok (if mem = true ∧ data ≠ [] then s.grow data else s) := by
  rw [pushRx]
  by_cases hd : data = []
  · simp [hd]
  · -- The reset of a consumed queue never fires: reads have reset it already.
    have hreset : ¬(s.rxOff > 0 ∧ s.rxLen - s.rxOff = 0) := by
      rintro ⟨hpos, havail⟩
      have := h.rxOff_eq_zero (le_antisymm h.rxOff_le (Nat.sub_eq_zero_iff_le.1 havail))
      omega
    simp only [List.length_eq_zero_iff, hd, if_false, hreset]
    cases mem with
    | false => simp [realloc]
    | true =>
      obtain ⟨nrx, hnrx⟩ : ∃ nrx, realloc s.rx (s.rxLen + data.length) true = some nrx := ⟨_, rfl⟩
      simp only [hnrx, copyTo_realloc h.rxLen_le data hnrx]
      simp only [Except.ok_bind, ne_eq, hd, not_false_eq_true, and_self, if_true]
      rfl

theorem Inv.grow (h : Inv s) {data : List UInt8} (hd : data ≠ []) : Inv (s.grow data) where
  rxOff_le := h.rxOff_le.trans (Nat.le_add_right _ _)
  rxLen_le := by
    have := h.rxLen_le
    simp only [FuzzState.grow, List.length_append, List.length_take]
    omega
  rxOff_eq_zero heq := by
    have := h.rxOff_le
    have := List.length_pos_iff.2 hd
    simp only [FuzzState.grow] at heq ⊢
    omega
  inOff_le := h.inOff_le
  inLen_eq := h.inLen_eq

theorem rxPending_grow (h : Inv s) (data : List UInt8) :
    (s.grow data).rxPending = s.rxPending ++ data := by
  have hlen : (s.rx.take s.rxLen).length = s.rxLen := by
    rw [List.length_take, Nat.min_eq_left h.rxLen_le]
  have htake :
      (s.rx.take s.rxLen ++ data).take (s.rxLen + data.length) = s.rx.take s.rxLen ++ data :=
    List.take_of_length_le (by rw [List.length_append, hlen])
  rw [FuzzState.rxPending, FuzzState.grow, htake,
    List.drop_append_of_le_length (by rw [hlen]; exact h.rxOff_le)]
  rfl

/-! ## Reading -/

/-- The queue after a read of `k` bytes. -/
def FuzzState.popRx (s : FuzzState) (k : ℕ) : FuzzState :=
  if s.rxOff + k = s.rxLen then { s with rxOff := 0, rxLen := 0 }
  else { s with rxOff := s.rxOff + k }

/-- The input after a read of `k` bytes. -/
def FuzzState.popInput (s : FuzzState) (k : ℕ) : FuzzState := { s with inOff := s.inOff + k }

theorem Inv.popRx (h : Inv s) {k : ℕ} (hk : k ≤ s.rxPending.length) : Inv (s.popRx k) := by
  have hoff := h.rxOff_le
  rw [h.length_rxPending] at hk
  rw [FuzzState.popRx]
  split_ifs with heq
  · exact ⟨le_rfl, Nat.zero_le _, fun _ => rfl, h.inOff_le, h.inLen_eq⟩
  · exact ⟨by simp only; omega, h.rxLen_le, fun h' => absurd h' heq, h.inOff_le, h.inLen_eq⟩

theorem rxPending_popRx (h : Inv s) (k : ℕ) :
    (s.popRx k).rxPending = s.rxPending.drop k := by
  rw [FuzzState.popRx]
  split_ifs with heq
  · have : s.rxPending.length ≤ k := by
      rw [h.length_rxPending]
      omega
    rw [List.drop_of_length_le this]
    rfl
  · rw [FuzzState.rxPending, FuzzState.rxPending, List.drop_drop]

theorem inPending_popRx (s : FuzzState) (k : ℕ) : (s.popRx k).inPending = s.inPending := by
  rw [FuzzState.popRx]
  split_ifs <;> rfl

theorem Inv.popInput (h : Inv s) {k : ℕ} (hk : k ≤ s.inPending.length) : Inv (s.popInput k) := by
  have hoff := h.inOff_le
  rw [h.length_inPending] at hk
  refine ⟨h.rxOff_le, h.rxLen_le, h.rxOff_eq_zero, ?_, h.inLen_eq⟩
  simp only [FuzzState.popInput]
  omega

theorem inPending_popInput (s : FuzzState) (k : ℕ) :
    (s.popInput k).inPending = s.inPending.drop k := by
  rw [FuzzState.inPending, FuzzState.inPending, List.drop_drop]
  rfl

theorem rxPending_popInput (s : FuzzState) (k : ℕ) : (s.popInput k).rxPending = s.rxPending := rfl

/-- The portion of a block a read copies. -/
theorem take_drop_eq {α : Type*} {block : List α} {off len k : ℕ} (hk : k ≤ len - off) :
    (block.drop off).take k = ((block.take len).drop off).take k := by
  rw [List.drop_take, List.take_take, Nat.min_eq_left hk]

theorem readCap_lt {frag len : Int32} (hlen : 0 ≤ len.toInt) : readCap frag len < 2 ^ 31 := by
  rw [readCap]
  split_ifs with hfrag
  · exact sizeOfInt_lt (Int32.lt_iff_toInt_lt.1 hfrag.1).le
  · exact sizeOfInt_lt hlen

theorem readCap_pos {frag len : Int32} (hlen : 0 < len.toInt) : 0 < readCap frag len := by
  rw [readCap]
  split_ifs with hfrag
  · have hpos : 0 < frag.toInt := Int32.lt_iff_toInt_lt.1 hfrag.1
    rw [sizeOfInt_of_nonneg hpos.le]
    omega
  · rw [sizeOfInt_of_nonneg hlen.le]
    omega

/-- The value of a read that finds `avail` bytes. -/
def readCount (frag len : Int32) (avail : ℕ) : Int32 := intOfSize (min (readCap frag len) avail)

theorem readCount_le {frag len : Int32} {avail : ℕ} (hn : 0 ≤ (readCount frag len avail).toInt) :
    sizeOfInt (readCount frag len avail) ≤ avail :=
  (sizeOfInt_intOfSize_le hn).trans (Nat.min_le_right _ _)

theorem readCount_eq {frag len : Int32} (hlen : 0 ≤ len.toInt) (avail : ℕ) :
    sizeOfInt (readCount frag len avail) = min (readCap frag len) avail :=
  sizeOfInt_intOfSize ((Nat.min_le_left _ _).trans_lt (readCap_lt hlen))

/-- What a read copies from a block: the next portion of its pending bytes. A copy
    that succeeds has a nonnegative value: a negative one would be a huge size. -/
theorem copyFrom_readCount {frag len : Int32} {block bytes : List UInt8} {off stop : ℕ}
    (h : copyFrom block off (sizeOfInt (readCount frag len (stop - off))) = .ok bytes) :
    sizeOfInt (readCount frag len (stop - off)) ≤ stop - off ∧
      (readCount frag len (stop - off)).toInt = sizeOfInt (readCount frag len (stop - off)) ∧
      bytes = ((block.take stop).drop off).take (sizeOfInt (readCount frag len (stop - off))) := by
  obtain ⟨hmax, -, rfl⟩ := copyFrom_eq_ok_iff.1 h
  have hn := nonneg_of_sizeOfInt_le hmax
  have hk := readCount_le hn
  refine ⟨hk, ?_, take_drop_eq hk⟩
  rw [sizeOfInt_of_nonneg hn, Int.toNat_of_nonneg hn]

theorem readCount_le_ptrdiffMax (frag : Int32) {len : Int32} (hlen : 0 ≤ len.toInt) (avail : ℕ) :
    sizeOfInt (readCount frag len avail) ≤ ptrdiffMax := by
  have : readCap frag len < 2 ^ 31 := readCap_lt hlen
  rw [readCount_eq hlen, ptrdiffMax]
  omega

/-- A read of no negative length copies within the block. -/
theorem exists_copyFrom_readCount (frag : Int32) {len : Int32} (hlen : 0 ≤ len.toInt)
    {block : List UInt8} {off stop : ℕ} (hoff : off ≤ stop) (hstop : stop ≤ block.length) :
    ∃ bytes, copyFrom block off (sizeOfInt (readCount frag len (stop - off))) = .ok bytes := by
  have hcount : sizeOfInt (readCount frag len (stop - off)) ≤ stop - off := by
    rw [readCount_eq hlen]
    exact Nat.min_le_right _ _
  exact ⟨_, copyFrom_eq_ok_iff.2 ⟨readCount_le_ptrdiffMax frag hlen _, by omega, rfl⟩⟩

variable {t t' : EspTransport} {len : Int32} {o : Outcome}

/-- A read that finds nothing. -/
theorem fuzzRead_of_idle (hidle : t.data.connected = false ∨
    t.data.rxLen ≤ t.data.rxOff ∧ t.data.inLen ≤ t.data.inOff) :
    fuzzRead t len = .ok (readTimeout t) := by
  rw [fuzzRead]
  by_cases hc : t.data.connected = true
  · obtain ⟨hrx, hin⟩ := hidle.resolve_left (by simp [hc])
    simp [hc, Nat.not_lt.2 hrx, hin]
  · simp [hc]

theorem fuzzRead_timeout (h : Inv t.data)
    (hidle : t.data.connected = false ∨ t.data.rxPending = [] ∧ t.data.inPending = []) :
    fuzzRead t len = .ok (readTimeout t) :=
  fuzzRead_of_idle <| hidle.imp_right fun ⟨hrx, hin⟩ =>
    ⟨h.rxPending_eq_nil_iff.1 hrx, h.inPending_eq_nil_iff.1 hin⟩

/-- A read that finds replies. -/
theorem fuzzRead_of_rx (hc : t.data.connected = true) (hrx : t.data.rxOff < t.data.rxLen) :
    fuzzRead t len =
      (copyFrom t.data.rx t.data.rxOff
        (sizeOfInt (readCount t.data.frag len (t.data.rxLen - t.data.rxOff)))).bind fun bytes =>
      .ok (⟨readCount t.data.frag len (t.data.rxLen - t.data.rxOff), some (.rx, bytes)⟩,
        { t with data := (t.data.popRx
            (sizeOfInt (readCount t.data.frag len (t.data.rxLen - t.data.rxOff)))) }) := by
  have hc' : ¬(!t.data.connected) = true := by simp [hc]
  rw [fuzzRead]
  simp only [hc', Bool.false_eq_true, if_false, gt_iff_lt, hrx, if_true, Nat.sub_pos_of_lt hrx]
  rfl

/-- A read that finds no reply, but input. -/
theorem fuzzRead_of_input (hc : t.data.connected = true) (hrx : t.data.rxLen ≤ t.data.rxOff)
    (hin : t.data.inOff < t.data.inLen) :
    fuzzRead t len =
      (copyFrom t.data.input t.data.inOff
        (sizeOfInt (readCount t.data.frag len (t.data.inLen - t.data.inOff)))).bind fun bytes =>
      .ok (⟨readCount t.data.frag len (t.data.inLen - t.data.inOff), some (.input, bytes)⟩,
        { t with data := (t.data.popInput
            (sizeOfInt (readCount t.data.frag len (t.data.inLen - t.data.inOff)))) }) := by
  have hc' : ¬(!t.data.connected) = true := by simp [hc]
  rw [fuzzRead]
  simp only [hc', Bool.false_eq_true, if_false, gt_iff_lt, Nat.not_lt.2 hrx, lt_irrefl, ge_iff_le,
    Nat.not_le.2 hin]
  rfl

/-- What a read finds: nothing, replies, or input. -/
theorem read_finds (s : FuzzState) :
    (s.connected = false ∨ s.rxLen ≤ s.rxOff ∧ s.inLen ≤ s.inOff) ∨
      s.connected = true ∧ s.rxOff < s.rxLen ∨
      s.connected = true ∧ s.rxLen ≤ s.rxOff ∧ s.inOff < s.inLen := by
  cases s.connected with
  | false => exact .inl (.inl rfl)
  | true =>
    rcases lt_or_ge s.rxOff s.rxLen with hrx | hrx
    · exact .inr (.inl ⟨rfl, hrx⟩)
    rcases lt_or_ge s.inOff s.inLen with hin | hin
    · exact .inr (.inr ⟨rfl, hrx, hin⟩)
    · exact .inl (.inr ⟨hrx, hin⟩)

/-- What a read does: it fails, or it takes a portion off the pending replies,
    or off the input when no reply is pending. -/
theorem fuzzRead_cases (h : Inv t.data) (hr : fuzzRead t len = .ok (o, t')) :
    ((t.data.connected = false ∨ t.data.rxPending = [] ∧ t.data.inPending = []) ∧
      (o, t') = readTimeout t) ∨
    (∃ k ≤ t.data.rxPending.length,
      (0 ≤ len.toInt → k = min (readCap t.data.frag len) t.data.rxPending.length) ∧
      t.data.connected = true ∧ t.data.rxPending ≠ [] ∧ o.ret.toInt = k ∧
      o.copied = some (.rx, t.data.rxPending.take k) ∧ t' = { t with data := t.data.popRx k }) ∨
    (∃ k ≤ t.data.inPending.length,
      (0 ≤ len.toInt → k = min (readCap t.data.frag len) t.data.inPending.length) ∧
      t.data.connected = true ∧ t.data.rxPending = [] ∧ t.data.inPending ≠ [] ∧ o.ret.toInt = k ∧
      o.copied = some (.input, t.data.inPending.take k) ∧
      t' = { t with data := t.data.popInput k }) := by
  simp only [h.length_rxPending, h.length_inPending, ne_eq, h.rxPending_eq_nil_iff,
    h.inPending_eq_nil_iff]
  rcases read_finds t.data with hidle | ⟨hc, hrx⟩ | ⟨hc, hrx, hin⟩
  · rw [fuzzRead_of_idle hidle, Except.ok.injEq] at hr
    exact .inl ⟨hidle, hr.symm⟩
  · rw [fuzzRead_of_rx hc hrx] at hr
    obtain ⟨bytes, hcopy, hr⟩ := Except.bind_eq_ok_iff.1 hr
    obtain ⟨rfl, rfl⟩ := Prod.mk.inj (Except.ok.inj hr)
    obtain ⟨hk, hret, rfl⟩ := copyFrom_readCount hcopy
    exact .inr (.inl ⟨_, hk, (readCount_eq · _), hc, Nat.not_le.2 hrx, hret, rfl, rfl⟩)
  · rw [fuzzRead_of_input hc hrx hin] at hr
    obtain ⟨bytes, hcopy, hr⟩ := Except.bind_eq_ok_iff.1 hr
    obtain ⟨rfl, rfl⟩ := Prod.mk.inj (Except.ok.inj hr)
    obtain ⟨hk, hret, rfl⟩ := copyFrom_readCount hcopy
    exact .inr (.inr ⟨_, hk, (readCount_eq · _), hc, hrx, Nat.not_le.2 hin, hret, rfl, rfl⟩)

/-- A read of no negative length stays in its blocks. -/
theorem fuzzRead_ok (h : Inv t.data) (hlen : 0 ≤ len.toInt) :
    ∃ o t', fuzzRead t len = .ok (o, t') := by
  rcases read_finds t.data with hidle | ⟨hc, hrx⟩ | ⟨hc, hrx, hin⟩
  · exact ⟨_, _, fuzzRead_of_idle hidle⟩
  · obtain ⟨bytes, hcopy⟩ := exists_copyFrom_readCount t.data.frag hlen hrx.le h.rxLen_le
    rw [fuzzRead_of_rx hc hrx, hcopy]
    exact ⟨_, _, rfl⟩
  · obtain ⟨bytes, hcopy⟩ := exists_copyFrom_readCount t.data.frag hlen hin.le h.inLen_eq.le
    rw [fuzzRead_of_input hc hrx hin, hcopy]
    exact ⟨_, _, rfl⟩

/-! ## Writing -/

theorem fuzzWrite_eq_ok_iff (h : Inv t.data) {buf : List UInt8} {mem : Bool} :
    fuzzWrite t buf len mem = .ok (o, t') ↔
      ∃ reply, autopilotReply t.data.autopilot t.data.mode buf len = .ok reply ∧ o = ⟨len, none⟩ ∧
        t' = { t with data := if mem = true ∧ reply ≠ [] then t.data.grow reply else t.data } := by
  rw [fuzzWrite, Except.bind_eq_ok_iff]
  refine exists_congr fun reply => and_congr_right fun _ => ?_
  rw [pushRx_eq h, Except.ok_bind, Except.pure_eq_ok_iff, Prod.mk.injEq]
  exact and_congr eq_comm eq_comm

/-- What a write leaves pending. -/
theorem rxPending_write (h : Inv s) (mem : Bool) (reply : List UInt8) :
    (if mem = true ∧ reply ≠ [] then s.grow reply else s).rxPending =
      s.rxPending ++ if mem then reply else [] := by
  split_ifs with h₁ h₂ h₂
  · exact rxPending_grow h reply
  · exact absurd h₁.1 h₂
  · have : reply = [] := by
      by_contra hne
      exact h₁ ⟨h₂, hne⟩
    rw [this, List.append_nil]
  · rw [List.append_nil]

/-- A write of no more bytes than the buffer has stays inside of it. -/
theorem fuzzWrite_ok (h : Inv t.data) {buf : List UInt8} (hlen : len.toInt ≤ buf.length)
    (mem : Bool) : ∃ t', fuzzWrite t buf len mem = .ok (⟨len, none⟩, t') := by
  obtain ⟨reply, hreply⟩ := autopilotReply_ok t.data.autopilot t.data.mode hlen
  exact ⟨_, (fuzzWrite_eq_ok_iff h).2 ⟨reply, hreply, rfl, rfl⟩⟩

/-- An operation with proper arguments stays in its blocks. -/
theorem step_ok (h : Inv t.data) {op : Op} (hop : op.Proper) : ∃ o t', t.step op = .ok (o, t') := by
  cases op with
  | read len => exact fuzzRead_ok h hop
  | write buf len mem => exact ⟨_, fuzzWrite_ok h hop mem⟩
  | _ => exact ⟨_, _, rfl⟩

/-! ## Simulation -/

/-- The line a handle stands for. -/
def EspTransport.line (t : EspTransport) : Duplex UInt8 :=
  ⟨t.data.connected, t.data.rxPending, t.data.inPending⟩

/-- What an operation does to the line. -/
def lineLabel (autopilot : Int32) (mode : FuzzMode) : Op × Outcome → Duplex.Label UInt8
  | (.connect, _) => .connect
  | (.read _, ⟨_, none⟩) => .refuse
  | (.read _, ⟨_, some (.rx, bytes)⟩) => .reply bytes
  | (.read _, ⟨_, some (.input, bytes)⟩) => .input bytes
  | (.write buf len mem, _) => .queue ((Op.write buf len mem).queued autopilot mode)
  | (.pollRead, _) => .poll
  | (.close, _) => .close

section

variable (autopilot : Int32) (mode : FuzzMode) (e : Op × Outcome)

theorem fromReplies_lineLabel : (lineLabel autopilot mode e).fromReplies = deliveredFrom .rx e := by
  rcases e with ⟨_ | _ | _ | _ | _, _, _ | ⟨_ | _, _⟩⟩ <;> rfl

theorem fromInput_lineLabel : (lineLabel autopilot mode e).fromInput = deliveredFrom .input e := by
  rcases e with ⟨_ | _ | _ | _ | _, _, _ | ⟨_ | _, _⟩⟩ <;> rfl

theorem delivered_lineLabel : (lineLabel autopilot mode e).delivered = delivered e := by
  rcases e with ⟨_ | _ | _ | _ | _, _, _ | ⟨_ | _, _⟩⟩ <;> rfl

theorem queued_lineLabel : (lineLabel autopilot mode e).queued = e.1.queued autopilot mode := by
  rcases e with ⟨_ | _ | _ | _ | _, _, _ | ⟨_ | _, _⟩⟩ <;> rfl

end

/-- The handle keeps its invariant and its configuration, and stands for `d`. -/
structure Refines (autopilot : Int32) (mode : FuzzMode) (t : EspTransport) (d : Duplex UInt8) :
    Prop where
  inv : Inv t.data
  autopilot_eq : t.data.autopilot = autopilot
  mode_eq : t.data.mode = mode
  line_eq : t.line = d

variable {autopilot : Int32} {mode : FuzzMode} {d : Duplex UInt8}

theorem refines_read (h : Refines autopilot mode t d) (hr : fuzzRead t len = .ok (o, t')) :
    ∃ d', (Duplex.line UInt8).step d (lineLabel autopilot mode (.read len, o)) d' ∧
      Refines autopilot mode t' d' := by
  obtain ⟨hinv, hauto, hmode, rfl⟩ := h
  obtain ⟨ret, copied⟩ := o
  rcases fuzzRead_cases hinv hr with
    ⟨hidle, heq⟩ | ⟨k, hk, _, hc, hrx, _, rfl, rfl⟩ | ⟨k, hk, _, hc, hrx, hin, _, rfl, rfl⟩
  · -- Nothing to return.
    obtain ⟨⟨rfl, rfl⟩, rfl⟩ := heq
    exact ⟨_, .refuse hidle, ⟨hinv, hauto, hmode, rfl⟩⟩
  · -- A portion of the replies, whose indices may be reset.
    refine ⟨_, .reply hc hrx (List.take_append_drop k _).symm, ⟨hinv.popRx hk, ?_, ?_, ?_⟩⟩
    · rwa [FuzzState.popRx, apply_ite FuzzState.autopilot, ite_self]
    · rwa [FuzzState.popRx, apply_ite FuzzState.mode, ite_self]
    · rw [EspTransport.line, rxPending_popRx hinv, inPending_popRx, FuzzState.popRx,
        apply_ite FuzzState.connected, ite_self]
      rfl
  · -- A portion of the input.
    refine ⟨_, .input hc hrx hin (List.take_append_drop k _).symm,
      ⟨hinv.popInput hk, hauto, hmode, ?_⟩⟩
    rw [EspTransport.line, inPending_popInput]
    rfl

theorem refines_write (h : Refines autopilot mode t d) {buf : List UInt8} {mem : Bool}
    (hr : fuzzWrite t buf len mem = .ok (o, t')) :
    ∃ d', (Duplex.line UInt8).step d (lineLabel autopilot mode (.write buf len mem, o)) d' ∧
      Refines autopilot mode t' d' := by
  obtain ⟨hinv, rfl, rfl, rfl⟩ := h
  obtain ⟨reply, hreply, rfl, rfl⟩ := (fuzzWrite_eq_ok_iff hinv).1 hr
  have hqueued : (Op.write buf len mem).queued t.data.autopilot t.data.mode =
      if mem then reply else [] := by
    cases mem <;> simp [Op.queued, hreply]
  refine ⟨_, .queue, ⟨?_, ?_, ?_, ?_⟩⟩
  · split_ifs with hgrow
    · exact hinv.grow hgrow.2
    · exact hinv
  · rw [apply_ite FuzzState.autopilot]
    exact ite_self _
  · rw [apply_ite FuzzState.mode]
    exact ite_self _
  · rw [EspTransport.line, rxPending_write hinv, hqueued, EspTransport.line]
    split_ifs <;> rfl

/-- The transport is simulated by the line. -/
def refinement (autopilot : Int32) (mode : FuzzMode) :
    Lts.Simulation transport (Duplex.line UInt8) where
  rel := Refines autopilot mode
  label := lineLabel autopilot mode
  step {t d l t'} h hst := by
    obtain ⟨op, o⟩ := l
    cases op with
    | read len => exact refines_read h hst
    | write buf len mem => exact refines_write h hst
    | connect =>
      obtain ⟨rfl, rfl⟩ := Prod.mk.inj (Except.ok.inj hst)
      exact ⟨_, .connect, ⟨h.inv.setConnected _, h.autopilot_eq, h.mode_eq, h.line_eq ▸ rfl⟩⟩
    | pollRead =>
      obtain ⟨rfl, rfl⟩ := Prod.mk.inj (Except.ok.inj hst)
      exact ⟨_, .poll, h⟩
    | close =>
      obtain ⟨rfl, rfl⟩ := Prod.mk.inj (Except.ok.inj hst)
      exact ⟨_, .close, ⟨h.inv.setConnected _, h.autopilot_eq, h.mode_eq, h.line_eq ▸ rfl⟩⟩

/-! ## Runs -/

theorem modeOfInt_eq_dynamic_iff {mode : Int32} : modeOfInt mode = .dynamic ↔ mode = 5 := by
  rw [modeOfInt]
  split_ifs <;> simp_all

theorem exists_started (data : List UInt8) (autopilot mode frag : Int32) :
    ∃ t, Started data autopilot mode frag t := by
  simp only [Started, espTransportFuzzInit, Bool.not_true, Bool.false_eq_true, if_false]
  by_cases hsel : modeOfInt mode = .dynamic ∧ data.length > 0
  · rw [if_pos hsel, load_of_lt hsel.2]
    exact ⟨_, rfl⟩
  · rw [if_neg hsel]
    exact ⟨_, rfl⟩

/-- A new handle: nothing is queued, and the input is all there, but for its
    selector byte in dynamic mode. -/
theorem Started.refines {data : List UInt8} {autopilot mode frag : Int32}
    (h : Started data autopilot mode frag t) :
    Refines autopilot t.data.mode t ⟨false, [], if mode = 5 then data.drop 1 else data⟩ := by
  rw [Started, espTransportFuzzInit] at h
  simp only [Bool.not_true, Bool.false_eq_true, if_false, modeOfInt_eq_dynamic_iff] at h
  by_cases hsel : mode = 5 ∧ data.length > 0
  · simp only [hsel.1, hsel.2, and_self, if_true, load_of_lt hsel.2] at h
    obtain rfl := Option.some.inj (Except.ok.inj h)
    refine ⟨⟨le_rfl, le_rfl, fun _ => rfl, hsel.2, rfl⟩, rfl, rfl, ?_⟩
    simp [EspTransport.line, FuzzState.rxPending, FuzzState.inPending, hsel.1]
  · simp only [hsel, if_false] at h
    obtain rfl := Option.some.inj (Except.ok.inj h)
    refine ⟨⟨le_rfl, le_rfl, fun _ => rfl, Nat.zero_le _, rfl⟩, rfl, rfl, ?_⟩
    have hdrop : mode = 5 → data.drop 1 = data := fun hm => by
      have : data = [] := by simpa [hm] using hsel
      rw [this, List.drop_nil]
    simp only [EspTransport.line, FuzzState.rxPending, FuzzState.inPending, List.take_length,
      List.drop_zero, List.take_nil]
    split_ifs with hm
    · rw [hdrop hm]
    · rfl

/-- Every step keeps the invariant. -/
theorem inv_of_step {l : Op × Outcome} (h : Inv t.data) (hst : transport.step t l t') :
    Inv t'.data := by
  obtain ⟨_, _, href⟩ := (refinement t.data.autopilot t.data.mode).step (t := t.line)
    ⟨h, rfl, rfl, rfl⟩ hst
  exact href.inv

/-- Proper operations can always be run. -/
theorem run_ok (h : Inv t.data) {ops : List Op} (hops : ∀ op ∈ ops, op.Proper) :
    ∃ tr t', t.run ops = .ok (tr, t') := by
  have hstep : ∀ (t : EspTransport) op, Inv t.data → op.Proper →
      ∃ o t', t.step op = .ok (o, t') ∧ Inv t'.data := by
    intro t op ht hop
    obtain ⟨o, t', hst⟩ := step_ok ht hop
    exact ⟨o, t', hst, inv_of_step (l := (op, o)) ht hst⟩
  obtain ⟨tr, t', hr, _⟩ :=
    Lts.exec_ok (fun t : EspTransport => Inv t.data) Op.Proper hstep h hops
  exact ⟨tr, t', hr⟩

/-- The runs of a handle are runs of the line it stands for. -/
theorem Refines.run (h : Refines autopilot mode t d) {ops : List Op} {tr : List (Op × Outcome)}
    (hr : t.run ops = .ok (tr, t')) :
    (Duplex.line UInt8).Run d (tr.map (lineLabel autopilot mode)) t'.line ∧
      Refines autopilot mode t' t'.line := by
  obtain ⟨_, hrun, href⟩ := (refinement autopilot mode).run (Lts.exec_eq_ok_iff.1 hr).1 h
  obtain rfl := href.line_eq
  exact ⟨hrun, href⟩

/-- A read of a run fails, and delivers nothing, or returns the number of bytes
    it delivers. -/
theorem ret_of_mem_run (h : Inv t.data) {ops : List Op} {tr : List (Op × Outcome)}
    (hr : t.run ops = .ok (tr, t')) (ho : (.read len, o) ∈ tr) :
    (o.ret = -1 ∧ delivered (.read len, o) = []) ∨
      o.ret.toInt = (delivered (.read len, o)).length := by
  -- All steps of the run are from states in the invariant.
  obtain ⟨hrun, -⟩ := (Lts.exec_eq_ok_iff.1 hr).1.restrict (P := fun t => Inv t.data)
    (fun _ _ _ ht _ hst => inv_of_step ht hst) (fun _ _ => trivial) h
  obtain ⟨t₁, t₂, ht₁, -, hst⟩ := hrun.exists_step ho
  obtain ⟨ret, copied⟩ := o
  rcases fuzzRead_cases ht₁ hst with
    ⟨-, heq⟩ | ⟨k, hk, -, -, -, hret, rfl, -⟩ | ⟨k, hk, -, -, -, -, hret, rfl, -⟩
  · obtain ⟨⟨rfl, rfl⟩, -⟩ := heq
    exact .inl ⟨rfl, rfl⟩
  · exact .inr (hret.trans (by rw [delivered, List.length_take_of_le hk]))
  · exact .inr (hret.trans (by rw [delivered, List.length_take_of_le hk]))

/-- A handle in its invariant stands for a line. -/
theorem Inv.refines (h : Inv t.data) : Refines t.data.autopilot t.data.mode t t.line :=
  ⟨h, rfl, rfl, rfl⟩

/-- The runs of a new handle reach what is reachable. -/
theorem Started.reachable {data : List UInt8} {autopilot mode frag : Int32} {t₀ : EspTransport}
    (h₀ : Started data autopilot mode frag t₀) {ops : List Op} {tr : List (Op × Outcome)}
    (hr : t₀.run ops = .ok (tr, t)) : transport.Reachable Initial t :=
  ⟨t₀, ⟨data, autopilot, mode, frag, h₀⟩, tr, (Lts.exec_eq_ok_iff.1 hr).1⟩

/-- The invariant holds in every reachable state. -/
theorem inv_of_reachable (h : transport.Reachable Initial t) : Inv t.data := by
  refine h.invariant (P := fun t => Inv t.data) ?_ fun t l t' ht hst => inv_of_step ht hst
  rintro t₀ ⟨data, autopilot, mode, frag, h₀⟩
  exact h₀.refines.inv

end FirmwareFuzz
