import FirmwareFuzz.Mqtt.Packets
import FirmwareFuzz.Transport.Basic

/-!
# Dynamic mode

In dynamic mode the first byte of the input selects the mode, and the rest of
the input is delivered. The transport then does what a transport with the mode
selected does over this rest, for every sequence of operations: a client cannot
tell them apart (`dynamic_run_eq`).

The seed generator writes seeds for dynamic mode from plain ones: they run as
the plain ones do in the mode of their selector (`writeDynamicSeed_run_eq`).
-/

namespace FirmwareFuzz

open CLang

/-- The option that names the mode a selector byte chooses; without one, the
    handshake mode. -/
def selectedMode : List UInt8 → Int32
  | [] => 0
  | b :: _ =>
    let sel := b &&& 0x0F
    if sel = 0x01 then 1
    else if sel = 0x02 then 2
    else if sel = 0x03 then 3
    else if sel = 0x04 then 4
    else 0

theorem modeOfInt_selectedMode (b : UInt8) (data : List UInt8) :
    modeOfInt (selectedMode (b :: data)) = modeOfSelector b := by
  simp only [selectedMode, modeOfSelector]
  split_ifs with h₀ h₁ h₂ h₃ h₄ <;> simp_all [modeOfInt]

/-! ## Behind bytes that are skipped -/

/-- The transport with bytes in front of its input that are skipped, and with
    another mode for its mode. -/
def EspTransport.behind (pre : List UInt8) (f : FuzzMode → FuzzMode) (t : EspTransport) :
    EspTransport :=
  { t with data := { t.data with
      input := pre ++ t.data.input, inLen := t.data.inLen + pre.length,
      inOff := t.data.inOff + pre.length, mode := f t.data.mode } }

variable {pre : List UInt8} {f : FuzzMode → FuzzMode}

theorem copyFrom_append (pre input : List UInt8) (off n : ℕ) :
    copyFrom (pre ++ input) (off + pre.length) n = copyFrom input off n := by
  have hle : off + pre.length + n ≤ pre.length + input.length ↔ off + n ≤ input.length := by omega
  have hdrop : (pre ++ input).drop (off + pre.length) = input.drop off := by
    rw [Nat.add_comm, ← List.drop_drop, List.drop_left]
  simp only [copyFrom, List.length_append, hle, hdrop]

theorem fuzzRead_behind (t : EspTransport) (len : Int32) :
    fuzzRead (t.behind pre f) len = (fuzzRead t len).map (Prod.map id (·.behind pre f)) := by
  simp only [fuzzRead, EspTransport.behind, Nat.add_sub_add_right, ge_iff_le,
    Nat.add_le_add_iff_right, copyFrom_append]
  by_cases hidle : (!t.data.connected) = true
  · rw [if_pos hidle, if_pos hidle]
    rfl
  · rw [if_neg hidle, if_neg hidle]
    by_cases hrx : t.data.rxLen > t.data.rxOff
    · have hpos : t.data.rxLen - t.data.rxOff > 0 := Nat.sub_pos_of_lt hrx
      simp only [hrx, hpos, if_true]
      cases copyFrom t.data.rx _ _ with
      | error e => rfl
      | ok bytes =>
        simp only [Except.ok_bind]
        split_ifs <;> rfl
    · simp only [hrx, if_false, gt_iff_lt, Nat.lt_irrefl]
      by_cases hin : t.data.inLen ≤ t.data.inOff
      · simp only [hin, if_true]
        rfl
      · simp only [hin, if_false]
        rw [Nat.add_right_comm]
        cases copyFrom t.data.input _ _ <;> rfl

theorem pushRx_behind (t : EspTransport) (data : List UInt8) (mem : Bool) :
    pushRx (t.behind pre f).data data mem =
      (pushRx t.data data mem).map fun s =>
        (EspTransport.behind pre f { t with data := s }).data := by
  simp only [pushRx, EspTransport.behind]
  by_cases hlen : data.length = 0
  · simp only [hlen, if_true]
    rfl
  · simp only [hlen, if_false]
    by_cases hreset : t.data.rxOff > 0 ∧ t.data.rxLen - t.data.rxOff = 0
    · simp only [hreset, and_self, if_true]
      cases realloc t.data.rx _ mem with
      | none => rfl
      | some nrx =>
        simp only
        cases copyTo nrx _ data <;> rfl
    · simp only [hreset, if_false]
      cases realloc t.data.rx _ mem with
      | none => rfl
      | some nrx =>
        simp only
        cases copyTo nrx _ data <;> rfl

/-- An operation does the same, if the modes answer alike. -/
theorem step_behind (hf : ∀ autopilot mode buf len,
      autopilotReply autopilot (f mode) buf len = autopilotReply autopilot mode buf len)
    (t : EspTransport) (op : Op) :
    (t.behind pre f).step op = (t.step op).map (Prod.map id (·.behind pre f)) := by
  cases op with
  | read len => exact fuzzRead_behind t len
  | write buf len mem =>
    show fuzzWrite (t.behind pre f) buf len mem = (fuzzWrite t buf len mem).map _
    rw [fuzzWrite, fuzzWrite]
    show (autopilotReply t.data.autopilot (f t.data.mode) buf len >>= fun reply => _) = _
    rw [hf]
    cases autopilotReply t.data.autopilot t.data.mode buf len with
    | error e => rfl
    | ok reply =>
      simp only [Except.ok_bind, pushRx_behind]
      cases pushRx t.data reply mem <;> rfl
  | pollRead =>
    show Except.ok (fuzzPollRead (t.behind pre f)) = _
    simp only [fuzzPollRead, EspTransport.behind, Nat.add_lt_add_iff_right]
    rfl
  | connect => rfl
  | close => rfl

theorem run_behind (hf : ∀ autopilot mode buf len,
      autopilotReply autopilot (f mode) buf len = autopilotReply autopilot mode buf len)
    (t : EspTransport) (ops : List Op) :
    ((t.behind pre f).run ops).map Prod.fst = (t.run ops).map Prod.fst := by
  have hmap := Lts.exec_map (EspTransport.behind pre f) (step_behind hf) t ops
  rw [EspTransport.run, EspTransport.run, hmap]
  cases Lts.exec EspTransport.step t ops <;> rfl

/-! ## Modes -/

/-- The transport stays in dynamic mode, if no byte selects another; it should
    be in handshake mode. -/
def unselected (mode : FuzzMode) : FuzzMode := if mode = .handshake then .dynamic else mode

/-- In both modes, only a PINGREQ is answered. -/
theorem autopilotReply_unselected (autopilot : Int32) (mode : FuzzMode) (buf : List UInt8)
    (len : Int32) :
    autopilotReply autopilot (unselected mode) buf len = autopilotReply autopilot mode buf len := by
  rw [unselected]
  split_ifs with hmode
  · subst hmode
    simp only [autopilotReply, reduceCtorEq, or_self, and_false, if_false]
  · rfl

/-- A byte selects a mode by the option that names it. -/
theorem started_cons {b : UInt8} {data : List UInt8} {autopilot frag : Int32} {t t' : EspTransport}
    (h : Started (b :: data) autopilot 5 frag t)
    (h' : Started data autopilot (selectedMode (b :: data)) frag t') : t = t'.behind [b] id := by
  have hmode := modeOfInt_selectedMode b data
  have hne : modeOfSelector b ≠ .dynamic := by
    rw [modeOfSelector]
    split_ifs <;> exact FuzzMode.noConfusion
  rw [Started, espTransportFuzzInit] at h'
  simp only [hmode, hne, false_and, if_false] at h'
  cases h
  cases h'
  rfl

/-- Dynamic mode over an input is the mode its first byte selects, over the rest. -/
theorem dynamic_run_eq {data : List UInt8} {autopilot frag : Int32} {t t' : EspTransport}
    (h : Started data autopilot 5 frag t)
    (h' : Started data.tail autopilot (selectedMode data) frag t') (ops : List Op) :
    (t.run ops).map Prod.fst = (t'.run ops).map Prod.fst := by
  cases data with
  | nil =>
    have heq : t = t'.behind [] unselected := by
      cases h
      cases h'
      rfl
    rw [heq]
    exact run_behind autopilotReply_unselected t' ops
  | cons b data =>
    rw [started_cons h h']
    exact run_behind (fun _ _ _ _ => rfl) t' ops

theorem dynamic_run_eq_qos :
    ∃ t t', Started [0x13, 0xD0, 0x00] 1 5 0 t ∧ Started [0xD0, 0x00] 1 3 0 t' ∧
      ∀ ops : List Op, (t.run ops).map Prod.fst = (t'.run ops).map Prod.fst :=
  ⟨_, _, rfl, rfl, @dynamic_run_eq [0x13, 0xD0, 0x00] 1 0 _ _ rfl rfl⟩

/-! ## Seeds -/

/-- A seed: the name of its file, and what is written to it. -/
structure Seed where
  name : PyStr
  data : List UInt8
  deriving DecidableEq, Repr

def writeSeed (name : PyStr) (data : List UInt8) : Seed := ⟨name, data⟩

/-- The selector is masked by `0x0F`. -/
def writeDynamicSeed (modeSelector : ℤ) (name : PyStr) (data : List UInt8) :
    Except PyError Seed := do
  if ¬(0 ≤ modeSelector ∧ modeSelector ≤ 0x0F) then
    throw (.valueError "mode selector out of range")
  let pre ← pyBytes [modeSelector % 0x10]
  return writeSeed ("dyn_".toList.map (fun c => Fin.ofNat _ c.toNat) ++ name) (pre ++ data)

/-- The option for the mode of a selector: the first ones have a mode each, the
    others select the handshake mode. -/
def selectorMode (modeSelector : ℤ) : Int32 :=
  if 1 ≤ modeSelector ∧ modeSelector ≤ 4 then Int32.ofInt modeSelector else 0

theorem writeDynamicSeed_data {modeSelector : ℤ} {name : PyStr} {data : List UInt8} {seed : Seed}
    (h : writeDynamicSeed modeSelector name data = .ok seed) :
    ∃ b, seed.data = b :: data ∧ selectedMode seed.data = selectorMode modeSelector := by
  rw [writeDynamicSeed] at h
  split_ifs at h with hrange
  · obtain ⟨hnonneg, hle⟩ := hrange
    simp only [Except.bind_eq_ok_iff, Except.pure_eq_ok_iff, pyBytes_eq_ok_iff] at h
    obtain ⟨_, ⟨-, rfl⟩, rfl⟩ := h
    refine ⟨UInt8.ofNat (modeSelector % 0x10).toNat, rfl, ?_⟩
    show selectedMode (UInt8.ofNat (modeSelector % 0x10).toNat :: data) = _
    lift modeSelector to ℕ using hnonneg
    have hlt : modeSelector < 16 := by omega
    interval_cases modeSelector <;> rfl
  · cases h

/-- A seed for dynamic mode runs as the plain seed does in the mode of its selector. -/
theorem writeDynamicSeed_run_eq {modeSelector : ℤ} {name : PyStr} {data : List UInt8} {seed : Seed}
    (hseed : writeDynamicSeed modeSelector name data = .ok seed) {autopilot frag : Int32}
    {t t' : EspTransport} (h : Started seed.data autopilot 5 frag t)
    (h' : Started (writeSeed name data).data autopilot (selectorMode modeSelector) frag t')
    (ops : List Op) : (t.run ops).map Prod.fst = (t'.run ops).map Prod.fst := by
  obtain ⟨b, hdata, hmode⟩ := writeDynamicSeed_data hseed
  rw [hdata] at h hmode
  rw [← hmode] at h'
  rw [started_cons h h']
  exact run_behind (fun _ _ _ _ => rfl) t' ops

theorem writeDynamicSeed_run_eq_subscribe :
    ∃ seed t t', writeDynamicSeed 2 [0x61] [0x90, 0x03, 0x00, 0x01, 0x00] = .ok seed ∧
      Started seed.data 1 5 0 t ∧ Started [0x90, 0x03, 0x00, 0x01, 0x00] 1 2 0 t' ∧
        ∀ ops : List Op, (t.run ops).map Prod.fst = (t'.run ops).map Prod.fst := by
  have hseed : writeDynamicSeed 2 [0x61] [0x90, 0x03, 0x00, 0x01, 0x00] =
      .ok ⟨[0x64, 0x79, 0x6E, 0x5F, 0x61], [0x02, 0x90, 0x03, 0x00, 0x01, 0x00]⟩ := by
    decide
  exact ⟨_, _, _, hseed, rfl, rfl, writeDynamicSeed_run_eq hseed rfl rfl⟩

end FirmwareFuzz
