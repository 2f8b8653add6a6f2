import FirmwareFuzz.Lib.CString
import FirmwareFuzz.Transport.Refine

/-!
# The harness

The harness reads its options off the argument vector (`parseArgs`), into
globals. For an input, it makes a transport and the configuration of the client
(`runOnce`).

The protocol of the client is configured by the `--mode` option, the mode of the
transport by the option and, in dynamic mode, the first byte of the input. They
agree unless this byte selects MQTT 5 (`protocol_agrees_iff`).
-/

namespace FirmwareFuzz

open CLang

/-! ## Options -/

structure Globals where
  gAutopilot : Int32
  gMode : Int32
  gFrag : Int32
  deriving DecidableEq, Repr

/-- The mode named by what follows `--mode=`. -/
def modeOfName (m : List UInt8) : Except Fault Int32 := do
  if (← strcmp m (cString "connected")) = .eq then return 1
  else if (← strcmp m (cString "subscribe")) = .eq then return 2
  else if (← strcmp m (cString "qos")) = .eq then return 3
  else if (← strcmp m (cString "mqtt5")) = .eq then return 4
  else if (← strcmp m (cString "dynamic")) = .eq then return 5
  else return 0

/-- The body of the loop of `parse_args`, for the argument `a`. -/
def parseArg (g : Globals) (a : List UInt8) : Except Fault Globals := do
  if (← strcmp a (cString "--autopilot")) = .eq then return { g with gAutopilot := 1 }
  else if (← strncmp 7 a (cString "--mode=")) = .eq then
    return { g with gMode := ← modeOfName (a.drop 7) }
  else if (← strncmp 8 a (cString "--frag=")) = .eq then
    let frag ← atoi (a.drop 8)
    return { g with gFrag := if frag < 0 then 0 else frag }
  else return g

/-- The globals after `parse_args`, for the blocks of the argument vector. -/
def parseArgs (argv : List (List UInt8)) : Except Fault Globals :=
  (argv.drop 1).foldlM parseArg ⟨0, 0, 0⟩

/-! ## One input -/

inductive MqttProtocolVer
  | undefined
  | v5
  deriving DecidableEq, Repr

/-- What the harness sets of the configuration of the client. -/
structure EspMqttClientConfig where
  transport : EspTransport
  timeoutMs : Int32
  keepalive : Int32
  disableKeepalive : Bool
  protocolVer : MqttProtocolVer
  stackSize : Int32
  deriving DecidableEq, Repr

/-- The configuration `run_once` passes to the client, `none` if there is no
    transport. -/
def runOnce (g : Globals) (data : List UInt8) (size : ℕ) (mem : Bool) :
    Except Fault (Option EspMqttClientConfig) := do
  match ← espTransportFuzzInit data size g.gAutopilot g.gMode g.gFrag mem with
  | none => return none
  | some t =>
    return some { transport := t, timeoutMs := 0, keepalive := 60, disableKeepalive := true,
                  protocolVer := if g.gMode = 4 then .v5 else .undefined, stackSize := 8192 }

/-! ## The mode -/

/-- An argument: its text, and what follows its terminator in memory. -/
structure Arg where
  text : List UInt8
  beyond : List UInt8
  zero_notMem : 0 ∉ text

/-- The block of an argument. -/
def Arg.block (a : Arg) : List UInt8 := a.text ++ 0 :: a.beyond

/-- What follows `--mode=` in a text. -/
def modeName (a : List UInt8) : Option (List UInt8) :=
  if a.take 7 = text "--mode=" then some (a.drop 7) else none

/-- What follows the last `--mode=` of an argument vector. -/
def lastModeName (argv : List Arg) : Option (List UInt8) :=
  ((argv.drop 1).filterMap fun a => modeName a.text).getLast?

/-- The number of a mode. -/
def modeNumber (m : List UInt8) : Int32 :=
  if m = text "connected" then 1
  else if m = text "subscribe" then 2
  else if m = text "qos" then 3
  else if m = text "mqtt5" then 4
  else if m = text "dynamic" then 5
  else 0

theorem modeOfName_text {m : List UInt8} (hm : 0 ∉ m) (beyond : List UInt8) :
    modeOfName (m ++ 0 :: beyond) = .ok (modeNumber m) := by
  simp (disch := decide) only [modeOfName, strcmp_cString hm, Except.ok_bind,
    Std.compare_eq_iff_eq, modeNumber]
  split_ifs <;> rfl

theorem modeNumber_eq_five_iff {m : List UInt8} : modeNumber m = 5 ↔ m = text "dynamic" := by
  rw [modeNumber]
  split_ifs with h₁ h₂ h₃ h₄ h₅
  · subst h₁
    decide
  · subst h₂
    decide
  · subst h₃
    decide
  · subst h₄
    decide
  · exact iff_of_true rfl h₅
  · exact iff_of_false (by decide) h₅

/-- The comparison with `--frag=` takes in its terminator. -/
theorem take_eq_frag_iff {x : List UInt8} :
    x.take 8 = (text "--frag=").take 8 ↔ x = text "--frag=" := by
  constructor
  · intro h
    have hlen : (x.take 8).length = 7 := congrArg List.length h
    rw [List.length_take] at hlen
    rwa [List.take_of_length_le (by omega)] at h
  · rintro rfl
    rfl

/-- What an argument sets, unless it is `--frag=`. -/
theorem parseArg_block {g : Globals} {a : Arg} (h : a.text ≠ text "--frag=") :
    parseArg g a.block = .ok { g with
      gAutopilot := if a.text = text "--autopilot" then 1 else g.gAutopilot
      gMode := ((modeName a.text).map modeNumber).getD g.gMode } := by
  have hlit : (text "--mode=").take 7 = text "--mode=" := rfl
  simp (disch := decide) only [parseArg, Arg.block, strcmp_cString a.zero_notMem,
    strncmp_cString a.zero_notMem, Except.ok_bind, Std.compare_eq_iff_eq, take_eq_frag_iff, h, hlit,
    if_false]
  by_cases hauto : a.text = text "--autopilot"
  · -- This argument does not start with `--mode=`.
    have hnone : modeName a.text = none := by
      rw [hauto]
      decide
    rw [if_pos hauto, if_pos hauto, hnone]
    rfl
  rw [if_neg hauto, if_neg hauto, modeName]
  by_cases hmode : a.text.take 7 = text "--mode="
  · have hlen : 7 ≤ a.text.length := by
      have := congrArg List.length hmode
      rw [List.length_take] at this
      exact min_eq_left_iff.1 this
    rw [if_pos hmode, if_pos hmode, List.drop_append_of_le_length hlen,
      modeOfName_text (mt List.mem_of_mem_drop a.zero_notMem)]
    rfl
  · rw [if_neg hmode, if_neg hmode]
    rfl

/-- An option `--mode=` sets the mode, no other argument does. -/
theorem gMode_parseArg {g g' : Globals} {a : Arg} (h : parseArg g a.block = .ok g') :
    g'.gMode = ((modeName a.text).map modeNumber).getD g.gMode := by
  by_cases hfrag : a.text = text "--frag="
  · have hnone : modeName a.text = none := by
      rw [hfrag]
      decide
    -- The number is read from beyond the argument.
    have hatoi : parseArg g (text "--frag=" ++ 0 :: a.beyond) =
        atoi a.beyond >>= fun frag => .ok { g with gFrag := if frag < 0 then 0 else frag } := rfl
    rw [Arg.block, hfrag, hatoi] at h
    obtain ⟨frag, _, h⟩ := Except.bind_eq_ok_iff.1 h
    obtain rfl := Except.ok.inj h
    rw [hnone]
    rfl
  · rw [parseArg_block hfrag] at h
    obtain rfl := Except.ok.inj h
    rfl

/-- The last option `--mode=` sets the mode. -/
theorem gMode_foldlM {args : List Arg} {g g' : Globals}
    (h : (args.map Arg.block).foldlM parseArg g = .ok g') :
    g'.gMode =
      ((args.filterMap fun a => modeName a.text).getLast?.map modeNumber).getD g.gMode := by
  induction args generalizing g with
  | nil =>
    obtain rfl := Except.ok.inj h
    rfl
  | cons a args ih =>
    rw [List.map_cons, List.foldlM_cons, Except.bind_eq_ok_iff] at h
    obtain ⟨g₁, hg₁, h⟩ := h
    rw [ih h, gMode_parseArg hg₁, List.filterMap_cons]
    cases modeName a.text with
    | none => rfl
    | some m =>
      rw [List.getLast?_cons]
      cases (args.filterMap fun a => modeName a.text).getLast? <;> rfl

theorem gMode_parseArgs {argv : List Arg} {g : Globals}
    (h : parseArgs (argv.map Arg.block) = .ok g) :
    g.gMode = ((lastModeName argv).map modeNumber).getD 0 := by
  rw [parseArgs, ← List.map_drop] at h
  exact gMode_foldlM h

theorem modeOfInt_eq_mqtt5_iff {mode : Int32} : modeOfInt mode = .mqtt5 ↔ mode = 4 := by
  rw [modeOfInt]
  split_ifs <;> simp_all

theorem modeOfSelector_eq_mqtt5_iff {b : UInt8} :
    modeOfSelector b = .mqtt5 ↔ b &&& 0x0F = 0x04 := by
  rw [modeOfSelector]
  split_ifs <;> simp_all

/-- The mode of a new transport. -/
theorem mode_espTransportFuzzInit {data : List UInt8} {size : ℕ} (hsize : 0 < size → data ≠ [])
    (autopilot mode frag : Int32) :
    ∃ t, espTransportFuzzInit data size autopilot mode frag true = .ok (some t) ∧
      (t.data.mode = .mqtt5 ↔
        mode = 4 ∨ mode = 5 ∧ 0 < size ∧ ∃ b ∈ data.head?, b &&& 0x0F = 0x04) := by
  simp only [espTransportFuzzInit, Bool.not_true, Bool.false_eq_true, if_false,
    modeOfInt_eq_dynamic_iff]
  by_cases hdyn : mode = 5 ∧ size > 0
  · obtain ⟨b, rest, rfl⟩ := List.exists_cons_of_ne_nil (hsize hdyn.2)
    rw [if_pos hdyn, load_of_lt (Nat.succ_pos _), Except.ok_bind]
    refine ⟨_, rfl, ?_⟩
    simp [modeOfSelector_eq_mqtt5_iff, hdyn.1, hdyn.2]
  · rw [if_neg hdyn]
    refine ⟨_, rfl, modeOfInt_eq_mqtt5_iff.trans ?_⟩
    tauto

/-! ## The protocol -/

/-- The options are dynamic mode, and the first byte of the input selects MQTT 5. -/
def SelectsMqtt5 (argv : List Arg) (data : List UInt8) (size : ℕ) : Prop :=
  lastModeName argv = some (text "dynamic") ∧ 0 < size ∧ ∃ b ∈ data.head?, b &&& 0x0F = 0x04

/-- The client is configured for MQTT 5 exactly when the transport is in MQTT 5
    mode, unless the first byte of the input put it there. -/
theorem protocol_agrees_iff (argv : List Arg) (data : List UInt8) (size : ℕ)
    (hsize : 0 < size → data ≠ []) {g : Globals} (hg : parseArgs (argv.map Arg.block) = .ok g) :
    ∃ cfg, runOnce g data size true = .ok (some cfg) ∧
      ((cfg.protocolVer = .v5 ↔ cfg.transport.data.mode = .mqtt5) ↔
        ¬SelectsMqtt5 argv data size) := by
  obtain ⟨t, ht, hmode⟩ := mode_espTransportFuzzInit hsize g.gAutopilot g.gMode g.gFrag
  have hrun : ∃ cfg, runOnce g data size true = .ok (some cfg) ∧ cfg.transport = t ∧
      (cfg.protocolVer = .v5 ↔ g.gMode = 4) := by
    rw [runOnce, ht]
    refine ⟨_, rfl, rfl, ?_⟩
    split_ifs with h <;> simp [h]
  obtain ⟨cfg, hcfg, rfl, hver⟩ := hrun
  refine ⟨cfg, hcfg, ?_⟩
  have hselects : g.gMode = 5 ↔ lastModeName argv = some (text "dynamic") := by
    rw [gMode_parseArgs hg]
    cases lastModeName argv with
    | none => exact iff_of_false (by decide) nofun
    | some m => exact modeNumber_eq_five_iff.trans Option.some_inj.symm
  -- In dynamic mode, the client is never configured for MQTT 5.
  have hfour : lastModeName argv = some (text "dynamic") → g.gMode ≠ 4 := fun h h' =>
    absurd (h'.symm.trans (hselects.2 h)) (by decide)
  rw [hver, hmode, hselects, SelectsMqtt5]
  constructor
  · rintro h ⟨hname, hfirst⟩
    exact hfour hname (h.2 (.inr ⟨hname, hfirst⟩))
  · intro h
    exact ⟨.inl, fun h' => h'.resolve_right h⟩

/-- The argument `s`, in a block of its own. -/
def arg (s : String) (h : 0 ∉ text s) : Arg := ⟨text s, [], h⟩

theorem protocol_agrees_iff_mqtt5 :
    ∃ cfg, runOnce ⟨0, 4, 0⟩ [0x20, 0x03, 0x00, 0x00, 0x00] 5 true = .ok (some cfg) ∧
      ((cfg.protocolVer = .v5 ↔ cfg.transport.data.mode = .mqtt5) ↔
        ¬SelectsMqtt5 [arg "fuzz" (by decide), arg "--mode=mqtt5" (by decide)]
          [0x20, 0x03, 0x00, 0x00, 0x00] 5) :=
  protocol_agrees_iff [arg "fuzz" (by decide), arg "--mode=mqtt5" (by decide)]
    [0x20, 0x03, 0x00, 0x00, 0x00] 5 (by decide) rfl

/-- A selector byte for MQTT 5, followed by an MQTT 5 CONNACK: the transport is
    in MQTT 5 mode, but the client is not. -/
theorem dynamic_mqtt5 :
    parseArgs [cString "fuzz", cString "--mode=dynamic", cString "--autopilot"] = .ok ⟨1, 5, 0⟩ ∧
      ∃ cfg, runOnce ⟨1, 5, 0⟩ [0x04, 0x20, 0x03, 0x00, 0x00, 0x00] 6 true = .ok (some cfg) ∧
        cfg.transport.data.mode = .mqtt5 ∧ cfg.protocolVer ≠ .v5 :=
  ⟨rfl, _, rfl, rfl, by decide⟩

end FirmwareFuzz
