import FirmwareFuzz.Lib.Except
import FirmwareFuzz.Mqtt.RemainingLength

/-!
# The packet builders

The packets of the seed generator, those a broker sends to the client, for
MQTT 3.1.1 (`pkt…`) and MQTT 5 (`pkt5…`). A builder raises on the arguments it
cannot write (`PyError`), by its own checks or by those of the built-ins it
calls (`bytes`, `int.to_bytes`, `str.encode`). What the parts of a packet
return, and when, is stated once for each of them (`toBytes2_eq_ok_iff`,
`encUtf8_eq_ok_iff`, `fh_eq_ok_iff`).
-/

namespace FirmwareFuzz

/-! ## Built-ins -/

/-- `bytes(xs)`, for a list of integers. -/
def pyBytes (xs : List ℤ) : Except PyError (List UInt8) :=
  if ∀ x ∈ xs, 0 ≤ x ∧ x < 256 then .ok (xs.map fun x => UInt8.ofNat x.toNat)
  else .error (.valueError "bytes must be in range(0, 256)")

/-- `n.to_bytes(2, "big")`. -/
def toBytes2 (n : ℤ) : Except PyError (List UInt8) :=
  if n < 0 then .error (.overflowError "can't convert negative int to unsigned")
  else if n > 65535 then .error (.overflowError "int too big to convert")
  else .ok [UInt8.ofNat (n.toNat / 256), UInt8.ofNat (n.toNat % 256)]

/-- A string, as its code points: surrogates are allowed in it. -/
abbrev PyStr := List (Fin 0x110000)

/-- The message for the surrogates from position `i` on: `c` and the `more` ones
    next to it. -/
def surrogatesMessage (i : ℕ) (c : Fin 0x110000) (more : ℕ) : String :=
  if more = 0 then
    "'utf-8' codec can't encode character '\\u" ++ String.ofList (Nat.toDigits 16 c.1) ++
      "' in position " ++ toString i ++ ": surrogates not allowed"
  else
    "'utf-8' codec can't encode characters in position " ++ toString i ++ "-" ++
      toString (i + more) ++ ": surrogates not allowed"

/-- `s.encode("utf-8")` from position `i` on, which rejects surrogates. -/
def encodeUtf8From (i : ℕ) : PyStr → Except PyError (List UInt8)
  | [] => .ok []
  | c :: s =>
    if h : c.1.isValidChar then do
      let rest ← encodeUtf8From (i + 1) s
      return String.utf8EncodeChar (Char.ofNatAux c.1 h) ++ rest
    else
      let more := s.takeWhile fun c => ¬c.1.isValidChar
      .error (.unicodeEncodeError (surrogatesMessage i c more.length))

def encodeUtf8 (s : PyStr) : Except PyError (List UInt8) := encodeUtf8From 0 s

/-! ## Parts -/

def encUtf8 (s : PyStr) : Except PyError (List UInt8) := do
  let b ← encodeUtf8 s
  if b.length > 0xFFFF then throw (.valueError "string too long")
  return (← toBytes2 b.length) ++ b

/-- The fixed header. -/
def fh (ctrl : ℤ) (remainingLen : ℕ) : Except PyError (List UInt8) := do
  return (← pyBytes [ctrl]) ++ (← encRemainingLength remainingLen)

/-! ## MQTT 3.1.1 -/

def pktConnack (sessionPresent : Bool) (rc : ℤ) : Except PyError (List UInt8) := do
  let flags := if sessionPresent then 0x01 else 0x00
  let vh ← pyBytes [flags, rc]
  return (← fh 0x20 vh.length) ++ vh

def pktPingresp : Except PyError (List UInt8) := .ok [0xD0, 0x00]

/-- The acknowledgements carrying only a packet identifier. -/
def pktAck (ctrl : ℤ) (pktId : ℤ) : Except PyError (List UInt8) := do
  let vh ← toBytes2 pktId
  return (← fh ctrl vh.length) ++ vh

def pktPuback (pktId : ℤ) : Except PyError (List UInt8) := pktAck 0x40 pktId

def pktPubrec (pktId : ℤ) : Except PyError (List UInt8) := pktAck 0x50 pktId

def pktPubrel (pktId : ℤ) : Except PyError (List UInt8) := pktAck 0x62 pktId

def pktPubcomp (pktId : ℤ) : Except PyError (List UInt8) := pktAck 0x70 pktId

def pktSuback (pktId : ℤ) (grants : List ℤ) : Except PyError (List UInt8) := do
  let grantsB ← pyBytes grants
  let vh := (← toBytes2 pktId) ++ grantsB
  return (← fh 0x90 vh.length) ++ vh

/-- The control byte of a PUBLISH, and the part of its variable header the two
    versions share: the topic, and the packet identifier above QoS 0. -/
def publishHeader (topic : PyStr) (qos : ℤ) (dup retain : Bool) (pktId : Option ℤ) :
    Except PyError (ℤ × List UInt8) := do
  if qos ≠ 0 ∧ qos ≠ 1 ∧ qos ≠ 2 then throw (.valueError "qos must be 0,1,2")
  let ctrl : ℕ := 0x30
  let ctrl := if dup then ctrl ||| 0x08 else ctrl
  let ctrl := if qos = 1 then ctrl ||| 0x02 else if qos = 2 then ctrl ||| 0x04 else ctrl
  let ctrl := if retain then ctrl ||| 0x01 else ctrl
  let vh ← encUtf8 topic
  if qos > 0 then
    match pktId with
    | none => throw (.valueError "pkt_id required for qos>0")
    | some pktId => return (ctrl, vh ++ (← toBytes2 pktId))
  else return (ctrl, vh)

def pktPublish (topic : PyStr) (payload : List UInt8) (qos : ℤ) (dup retain : Bool)
    (pktId : Option ℤ) : Except PyError (List UInt8) := do
  let (ctrl, vh) ← publishHeader topic qos dup retain pktId
  let remaining := vh.length + payload.length
  return (← fh ctrl remaining) ++ vh ++ payload

/-! ## MQTT 5 -/

def pkt5Connack (sessionPresent : Bool) (reasonCode : ℤ) (properties : List UInt8) :
    Except PyError (List UInt8) := do
  let flags := if sessionPresent then 0x01 else 0x00
  let propsLen ← encRemainingLength properties.length
  let vh := (← pyBytes [flags, reasonCode]) ++ propsLen ++ properties
  return (← fh 0x20 vh.length) ++ vh

def pkt5Suback (pktId : ℤ) (reasonCodes : List ℤ) (properties : List UInt8) :
    Except PyError (List UInt8) := do
  let propsLen ← encRemainingLength properties.length
  let payload ← pyBytes reasonCodes
  let vh := (← toBytes2 pktId) ++ propsLen ++ properties
  return (← fh 0x90 (vh.length + payload.length)) ++ vh ++ payload

def pkt5PubackLike (ctrl : ℤ) (pktId : ℤ) (includeReason : Bool) : Except PyError (List UInt8) := do
  let id ← toBytes2 pktId
  let vh := if includeReason then id ++ [0x00, 0x00] else id
  return (← fh ctrl vh.length) ++ vh

def pkt5Publish (topic : PyStr) (payload : List UInt8) (qos : ℤ) (dup retain : Bool)
    (pktId : Option ℤ) (properties : List UInt8) : Except PyError (List UInt8) := do
  let (ctrl, vh) ← publishHeader topic qos dup retain pktId
  let vh := vh ++ ((← encRemainingLength properties.length) ++ properties)
  let remaining := vh.length + payload.length
  return (← fh ctrl remaining) ++ vh ++ payload

/-! ## What the parts return -/

theorem pyBytes_eq_ok_iff {xs : List ℤ} {b : List UInt8} :
    pyBytes xs = .ok b ↔
      (∀ x ∈ xs, 0 ≤ x ∧ x < 256) ∧ xs.map (fun x => UInt8.ofNat x.toNat) = b := by
  rw [pyBytes]
  split_ifs with h
  · rw [Except.ok.injEq, and_iff_right h]
  · exact ⟨nofun, fun h' => absurd h'.1 h⟩

/-- The two bytes of a number, the high one first. -/
def bytes2 (n : ℕ) : List UInt8 := [UInt8.ofNat (n / 256), UInt8.ofNat (n % 256)]

theorem toBytes2_eq_ok_iff {n : ℤ} {b : List UInt8} :
    toBytes2 n = .ok b ↔ (0 ≤ n ∧ n ≤ 65535) ∧ bytes2 n.toNat = b := by
  rw [toBytes2]
  split_ifs with hneg hbig
  · exact ⟨nofun, fun h => absurd hneg (Int.not_lt.2 h.1.1)⟩
  · exact ⟨nofun, fun h => absurd h.1.2 (Int.not_le.2 hbig)⟩
  · rw [Except.ok.injEq, and_iff_right ⟨Int.not_lt.1 hneg, Int.not_lt.1 hbig⟩]
    rfl

theorem encUtf8_eq_ok_iff {s : PyStr} {b : List UInt8} :
    encUtf8 s = .ok b ↔
      ∃ utf8, encodeUtf8 s = .ok utf8 ∧ utf8.length ≤ 65535 ∧ bytes2 utf8.length ++ utf8 = b := by
  rw [encUtf8, Except.bind_eq_ok_iff]
  refine exists_congr fun utf8 => and_congr_right fun _ => ?_
  split_ifs with h
  · exact ⟨nofun, fun h' => absurd h'.1 (Nat.not_le.2 h)⟩
  · have hle := Nat.not_lt.1 h
    rw [Except.bind_eq_ok_iff]
    simp only [Except.pure_eq_ok_iff, toBytes2_eq_ok_iff]
    constructor
    · rintro ⟨_, ⟨_, rfl⟩, rfl⟩
      exact ⟨hle, rfl⟩
    · rintro ⟨_, rfl⟩
      exact ⟨_, ⟨by omega, rfl⟩, rfl⟩

theorem fh_eq_ok_iff {ctrl : ℤ} {n : ℕ} {b : List UInt8} :
    fh ctrl n = .ok b ↔
      (0 ≤ ctrl ∧ ctrl < 256) ∧ UInt8.ofNat ctrl.toNat :: byteVarint.encode n = b := by
  simp only [fh, Except.bind_eq_ok_iff, Except.pure_eq_ok_iff, pyBytes_eq_ok_iff,
    encRemainingLength_eq_ok_iff, List.forall_mem_singleton]
  constructor
  · rintro ⟨_, ⟨hc, rfl⟩, _, rfl, rfl⟩
    exact ⟨hc, rfl⟩
  · rintro ⟨hc, rfl⟩
    exact ⟨_, ⟨hc, rfl⟩, _, rfl, rfl⟩

end FirmwareFuzz
