import FirmwareFuzz.Lib.Except
import FirmwareFuzz.Lib.Lts
import FirmwareFuzz.Mqtt.RemainingLength

/-!
# The fuzz transport

The in-memory transport that stands for the network under the MQTT client. Its
reads serve two sources: the replies the *autopilot* queued (`rx`), and then
the fuzz input (`in`). Its writes are not sent anywhere: with autopilot on, the
first byte of the buffer written is classified, and the reply of a broker may
be queued.

The client drives the transport by a sequence of operations (`Op`), each with
an `Outcome`: the value returned, and the bytes copied to the caller's buffer,
with the block they come from. The transport is thus a labelled transition
system (`transport`), whose runs start from the handles `esp_transport_fuzz_init`
returns (`Initial`). An operation accessing memory out of bounds has no step.
-/

namespace FirmwareFuzz

open CLang

/-! ## State -/

inductive FuzzMode
  | handshake
  | connected
  | subscribe
  | qos
  | mqtt5
  | dynamic
  deriving DecidableEq, Repr

structure FuzzState where
  /-- The fuzz input (`in`), a block of the caller. -/
  input : List UInt8
  inLen : ℕ
  inOff : ℕ
  /-- The block of queued replies, empty for the null pointer. -/
  rx : List UInt8
  rxLen : ℕ
  rxOff : ℕ
  /-- An `int` only ever set to 0 or 1. -/
  connected : Bool
  autopilot : Int32
  mode : FuzzMode
  /-- The most bytes a read returns (`<= 0` means unlimited). -/
  frag : Int32
  deriving DecidableEq, Repr

/-- The handle, without its table of operations; the `errno` of the process is
    kept with it. -/
structure EspTransport where
  lastErrno : Int32
  errno : Int32
  data : FuzzState
  deriving DecidableEq, Repr

/-- The blocks a read copies from. -/
inductive Source
  | rx
  | input
  deriving DecidableEq, Repr

/-- What the caller of an operation gets. -/
structure Outcome where
  ret : Int32
  /-- The bytes a read copies to the caller's buffer, and where from. -/
  copied : Option (Source × List UInt8)
  deriving DecidableEq, Repr

def errTcpTransportConnectionTimeout : Int32 := 1

def eagain : Int32 := 11

/-! ## Operations -/

/-- Sizes do not wrap here: `rx_off` is at most `rx_len`, itself the size of a
    live block. -/
def pushRx (s : FuzzState) (data : List UInt8) (mem : Bool) : Except Fault FuzzState :=
  if data.length = 0 then .ok s
  else
    let avail := s.rxLen - s.rxOff
    -- Reset to the start when fully consumed.
    let s := if s.rxOff > 0 ∧ avail = 0 then { s with rxLen := 0, rxOff := 0 } else s
    match realloc s.rx (s.rxLen + data.length) mem with
    | none => .ok s
    | some nrx => do
      let rx ← copyTo nrx s.rxLen data
      return { s with rx := rx, rxLen := s.rxLen + data.length }

def fuzzConnect (t : EspTransport) : Outcome × EspTransport :=
  (⟨0, none⟩, { t with data := { t.data with connected := true } })

/-- The most bytes a read of `len` bytes returns. -/
def readCap (frag len : Int32) : ℕ :=
  if frag > 0 ∧ frag < len then sizeOfInt frag else sizeOfInt len

/-- A read with nothing to return. -/
def readTimeout (t : EspTransport) : Outcome × EspTransport :=
  (⟨-1, none⟩, { t with lastErrno := errTcpTransportConnectionTimeout, errno := eagain })

def fuzzRead (t : EspTransport) (len : Int32) : Except Fault (Outcome × EspTransport) :=
  let s := t.data
  if !s.connected then .ok (readTimeout t)
  else
    -- The queued replies first.
    let rxAvail := if s.rxLen > s.rxOff then s.rxLen - s.rxOff else 0
    if rxAvail > 0 then do
      let n := intOfSize (min (readCap s.frag len) rxAvail)
      let bytes ← copyFrom s.rx s.rxOff (sizeOfInt n)
      let s := { s with rxOff := s.rxOff + sizeOfInt n }
      -- Fully consumed: the indices are reset, the block is kept.
      let s := if s.rxOff = s.rxLen then { s with rxOff := 0, rxLen := 0 } else s
      return (⟨n, some (.rx, bytes)⟩, { t with data := s })
    else if s.inOff ≥ s.inLen then .ok (readTimeout t)
    else do
      let rem := s.inLen - s.inOff
      let n := intOfSize (min (readCap s.frag len) rem)
      let bytes ← copyFrom s.input s.inOff (sizeOfInt n)
      return (⟨n, some (.input, bytes)⟩,
        { t with data := { s with inOff := s.inOff + sizeOfInt n } })

/-- The packet identifier of a SUBSCRIBE or PUBREL, if the buffer is long enough
    to hold it behind the fixed header. -/
def packetId (buf : List UInt8) (len : Int32) : Except Fault (Option (UInt8 × UInt8)) := do
  let (_, remLenBytes) ← parseVarintRemaining (buf.drop 1) (len - 1)
  let fhLen := 1 + remLenBytes
  if len.toInt ≥ fhLen + 2 then
    let idHi ← load buf fhLen
    let idLo ← load buf (fhLen + 1)
    return some (idHi, idLo)
  else return none

/-- The bytes `fuzz_write` pushes for a buffer, `[]` where it pushes none. -/
def autopilotReply (autopilot : Int32) (mode : FuzzMode) (buf : List UInt8) (len : Int32) :
    Except Fault (List UInt8) :=
  if autopilot = 0 ∨ len ≤ 0 then .ok []
  else do
    let type := (← load buf 0) &&& 0xF0
    -- CONNECT -> CONNACK
    if type = 0x10 ∧ (mode = .connected ∨ mode = .mqtt5) then
      if mode = .mqtt5 then return [0x20, 0x03, 0x00, 0x00, 0x00]
      else return [0x20, 0x02, 0x00, 0x00]
    -- PINGREQ -> PINGRESP, in every mode
    else if type = 0xC0 then return [0xD0, 0x00]
    -- SUBSCRIBE -> SUBACK
    else if type = 0x80 ∧ (mode = .subscribe ∨ mode = .connected ∨ mode = .mqtt5) then
      match ← packetId buf len with
      | none => return []
      | some (idHi, idLo) =>
        if mode = .mqtt5 then return [0x90, 0x04, idHi, idLo, 0x00, 0x00]
        else return [0x90, 0x03, idHi, idLo, 0x00]
    -- PUBREL -> PUBCOMP
    else if type = 0x60 ∧ (mode = .qos ∨ mode = .connected) then
      match ← packetId buf len with
      | none => return []
      | some (idHi, idLo) => return [0x70, 0x02, idHi, idLo]
    else return []

/-- Pushing no bytes does nothing, so a branch without a reply pushes `[]`. -/
def fuzzWrite (t : EspTransport) (buf : List UInt8) (len : Int32) (mem : Bool) :
    Except Fault (Outcome × EspTransport) := do
  let reply ← autopilotReply t.data.autopilot t.data.mode buf len
  let s ← pushRx t.data reply mem
  return (⟨len, none⟩, { t with data := s })

def fuzzPollRead (t : EspTransport) : Outcome × EspTransport :=
  (⟨if t.data.inOff < t.data.inLen then 1 else -1, none⟩, t)

def fuzzClose (t : EspTransport) : Outcome × EspTransport :=
  (⟨0, none⟩, { t with data := { t.data with connected := false } })

/-- The mode of an argument `mode`. -/
def modeOfInt (mode : Int32) : FuzzMode :=
  if mode = 1 then .connected
  else if mode = 2 then .subscribe
  else if mode = 3 then .qos
  else if mode = 4 then .mqtt5
  else if mode = 5 then .dynamic
  else .handshake

/-- The mode a selector byte chooses. -/
def modeOfSelector (b : UInt8) : FuzzMode :=
  let sel := b &&& 0x0F
  if sel = 0x00 then .handshake
  else if sel = 0x01 then .connected
  else if sel = 0x02 then .subscribe
  else if sel = 0x03 then .qos
  else if sel = 0x04 then .mqtt5
  else .handshake

/-- The handle, or `none` for the null pointer, if memory is short. -/
def espTransportFuzzInit (data : List UInt8) (size : ℕ) (autopilot mode frag : Int32)
    (mem : Bool) : Except Fault (Option EspTransport) :=
  if !mem then .ok none
  else
    let s : FuzzState :=
      { input := data, inLen := size, inOff := 0, rx := [], rxLen := 0, rxOff := 0,
        connected := false, autopilot := autopilot, mode := modeOfInt mode, frag := frag }
    -- The first byte selects the mode, and is skipped.
    if s.mode = .dynamic ∧ s.inLen > 0 then do
      let sel ← load s.input 0
      return some ⟨0, 0, { s with mode := modeOfSelector sel, inOff := 1 }⟩
    else .ok (some ⟨0, 0, s⟩)

/-! ## Runs -/

/-- The operations of the client. A write says how its `realloc`, if any, ends. -/
inductive Op
  | connect
  | read (len : Int32)
  | write (buf : List UInt8) (len : Int32) (mem : Bool)
  | pollRead
  | close
  deriving DecidableEq, Repr

/-- The arguments a caller may pass: a read of no negative length, a write of
    no more bytes than there are in the buffer. -/
def Op.Proper : Op → Prop
  | .read len => 0 ≤ len.toInt
  | .write buf len _ => len.toInt ≤ buf.length
  | _ => True

instance : DecidablePred Op.Proper
  | .read len => inferInstanceAs (Decidable (0 ≤ len.toInt))
  | .write buf len _ => inferInstanceAs (Decidable (len.toInt ≤ buf.length))
  | .connect | .pollRead | .close => inferInstanceAs (Decidable True)

def EspTransport.step (t : EspTransport) : Op → Except Fault (Outcome × EspTransport)
  | .connect => .ok (fuzzConnect t)
  | .read len => fuzzRead t len
  | .write buf len mem => fuzzWrite t buf len mem
  | .pollRead => .ok (fuzzPollRead t)
  | .close => .ok (fuzzClose t)

/-- The transport, as a system whose labels are the operations with their outcomes. -/
def transport : Lts EspTransport (Op × Outcome) := .ofStep EspTransport.step

/-- A run of the transport: its trace, and the handle after it. -/
def EspTransport.run (t : EspTransport) (ops : List Op) :
    Except Fault (List (Op × Outcome) × EspTransport) := Lts.exec EspTransport.step t ops

/-- The handles over an input, with the arguments `autopilot`, `mode` and `frag`. -/
def Started (data : List UInt8) (autopilot mode frag : Int32) (t : EspTransport) : Prop :=
  espTransportFuzzInit data data.length autopilot mode frag true = .ok (some t)

/-- The handles `esp_transport_fuzz_init` returns for an input. -/
def Initial : Set EspTransport :=
  {t | ∃ data autopilot mode frag, Started data autopilot mode frag t}

/-! ## Streams -/

/-- The pending replies, `rx[rx_off..rx_len)`. -/
def FuzzState.rxPending (s : FuzzState) : List UInt8 := (s.rx.take s.rxLen).drop s.rxOff

/-- The input not delivered yet, `in[in_off..in_len)`. -/
def FuzzState.inPending (s : FuzzState) : List UInt8 := (s.input.take s.inLen).drop s.inOff

/-- The bytes a read delivers to the client. -/
def delivered : Op × Outcome → List UInt8
  | (.read _, ⟨_, some (_, bytes)⟩) => bytes
  | _ => []

/-- The bytes a read delivers to the client from the block `src`. -/
def deliveredFrom (src : Source) : Op × Outcome → List UInt8
  | (.read _, ⟨_, some (src', bytes)⟩) => if src' = src then bytes else []
  | _ => []

/-- The reply an operation queues: that of a write, if its push succeeds. -/
def Op.queued (autopilot : Int32) (mode : FuzzMode) : Op → List UInt8
  | .write buf len true =>
    match autopilotReply autopilot mode buf len with
    | .ok reply => reply
    | .error _ => []
  | _ => []

end FirmwareFuzz
