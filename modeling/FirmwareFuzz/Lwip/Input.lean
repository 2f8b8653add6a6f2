import FirmwareFuzz.Lib.CMemory
import FirmwareFuzz.Lib.Lts
import FirmwareFuzz.Lwip.Pcap
import Mathlib.Data.Set.Basic

/-!
# The packets of the lwIP harness

The data of a test is taken apart by `input_pkts`: into one packet for the
stack, or into packets behind their lengths, with the time to pass before each.
While the stack handles a packet, it calls the applications of the harness, and
these send it data of their own: a length and bytes, from where `input_pkts` has
got to. The cursor in the data (`Remfuzz`) is shared between them.

The harness is a transition system (`harness`): either the control is in the
stack, which may call applications, send packets or return; or it is in
`input_pkts`, which goes on to its next call of the stack. The stack may do
anything, in any order, but it calls an application when no other one is running:
an application is called from none of the functions of the stack that the
applications call (`altcp_write`, `altcp_output`, `udp_send` and so on).

`pbuf_alloc` may find no memory, at any time. `LWIP_ASSERT` stops the program then.
-/

namespace FirmwareFuzz.Lwip

open CLang Endian

/-! ## The cursor -/

inductive FuzzType
  | single
  | multipacket
  | multipacketTime
  deriving DecidableEq, Repr

/-- `remfuzz_ptr`, as an index of the data, and `remfuzz_len`. -/
structure Remfuzz where
  ptr : ℕ
  len : ℕ
  deriving DecidableEq, Repr

/-- Behind `n` bytes. -/
def Remfuzz.advance (r : Remfuzz) (n : ℕ) : Remfuzz := ⟨r.ptr + n, sizeSub r.len n⟩

/-- What `pbuf_alloc` does: it divides a length to the buffers of a chain, or finds
    no memory for it. -/
abbrev Pool : Type := (n : UInt16) → Option {lens : List ℕ // lens.sum = n.toNat}

/-- There is memory for every length. -/
def Pool.Succeeds (pool : Pool) : Prop := ∀ n, pool n ≠ none

/-- The test: its type, the block of its data, and how much of it was read. -/
structure Config where
  type : FuzzType
  data : List UInt8
  len : ℕ
  len_le : len ≤ data.length
  length_le : data.length ≤ ptrdiffMax

/-- The two bytes at the cursor (`memcpy`, `ntohs`). -/
def takeU16 (data : List UInt8) (r : Remfuzz) : Except Fault (UInt16 × Remfuzz) := do
  let bytes ← copyFrom data r.ptr 2
  return (UInt16.ofNat (ofBe bytes), r.advance 2)

/-- The four bytes at the cursor (`memcpy`, `ntohl`). -/
def takeU32 (data : List UInt8) (r : Remfuzz) : Except Fault (UInt32 × Remfuzz) := do
  let bytes ← copyFrom data r.ptr 4
  return (UInt32.ofNat (ofBe bytes), r.advance 4)

/-- The loop that copies data to a chain, from `off` on. -/
def fillPbuf (data : List UInt8) : (off : ℕ) → (lens : List ℕ) →
    Except Fault {qs : List (List UInt8) // qs.flatten.length = lens.sum}
  | _, [] => .ok ⟨[], rfl⟩
  | off, n :: lens =>
    match h : copyFrom data off n with
    | .error e => .error e
    | .ok payload => do
      let qs ← fillPbuf data (off + n) lens
      return ⟨payload :: qs.1, by
        rw [List.flatten_cons, List.length_append, qs.2, length_of_copyFrom h, List.sum_cons]⟩

/-- `pbuf_alloc` of `n` bytes, filled with the data at `off`, if there is memory. -/
def allocPbuf (pool : Pool) (data : List UInt8) (off : ℕ) (n : UInt16) :
    Except Fault (Option Pbuf) :=
  match pool n with
  | none => return none
  | some lens => do
    let qs ← fillPbuf data off lens.1
    return some ⟨qs.1, n, lens.2.symm.trans qs.2.symm⟩

/-! ## The applications -/

variable {A : Type}

/-- What an application calls of the stack, for addresses in `A`. -/
inductive Call (A : Type)
  | recved (n : UInt16)
  | write (bytes : List UInt8)
  | output
  | close
  | send (p : Pbuf)
  | sendto (p : Pbuf) (addr : A) (port : UInt16)
  | disconnect
  | free (p : Pbuf)
  /-- `LWIP_ASSERT("alloc failed", p)`, for no chain. -/
  | abort

def Call.isAbort : Call A → Bool
  | abort => true
  | _ => false

/-- Calls, and then more of them, unless the program is stopped. -/
def Call.andThen (calls calls' : List (Call A)) : List (Call A) :=
  if calls.any Call.isAbort then calls else calls ++ calls'

/-- What an application takes from the data: a length, and bytes. -/
abbrev Taken := UInt16 × List UInt8

/-- The length of the data of an application. -/
def dataLen (max n : UInt16) (r : Remfuzz) : UInt16 :=
  let n := if n < max then n else max
  if n.toNat > r.len then UInt16.ofNat r.len else n

def tcpAppFuzzInput (c : Config) (r : Remfuzz) :
    Except Fault (Option Taken × List (Call A) × Remfuzz) :=
  if r.len > 2 then do
    let (n, r) ← takeU16 c.data r
    let data_len := dataLen 65495 n r
    if data_len ≠ 0 then
      let bytes ← copyFrom c.data r.ptr data_len.toNat
      return (some (n, bytes), [.write bytes, .output], r.advance data_len.toNat)
    else return (some (n, []), [.close], r.advance data_len.toNat)
  else return (none, [], r)

def udpAppFuzzInput (c : Config) (pool : Pool) (addr : Option A) (port : UInt16) (r : Remfuzz) :
    Except Fault (Option Taken × List (Call A) × Remfuzz) :=
  if r.len > 2 then do
    let (n, r) ← takeU16 c.data r
    let data_len := dataLen 65507 n r
    if data_len ≠ 0 then
      match ← allocPbuf pool c.data r.ptr data_len with
      | none => return (some (n, []), [.abort], r)
      | some p =>
        let sent := match addr with
          | none => Call.send p
          | some addr => .sendto p addr port
        return (some (n, p.bytes), [sent, .free p], r.advance data_len.toNat)
    else return (some (n, []), [], r)
  else return (none, [], r)

/-- The callbacks that take data, with the packet received, if any. -/
inductive Callback (A : Type)
  | tcpClientConnected
  | tcpClientRecv (p : Option Pbuf)
  | tcpServerRecv (p : Option Pbuf)
  | udpClientRecv (p : Option Pbuf) (addr : Option A) (port : UInt16)
  | udpServerRecv (p : Option Pbuf) (addr : Option A) (port : UInt16)

/-- A packet received over TCP, or the end of the connection. -/
def tcpRecv (c : Config) (p : Option Pbuf) (r : Remfuzz) :
    Except Fault (Option Taken × List (Call A) × Remfuzz) :=
  match p with
  | none => return (none, [.close], r)
  | some p => do
    let (taken, calls, r) ← tcpAppFuzzInput c r
    return (taken, .recved p.totLen :: calls ++ [.free p], r)

def Callback.run (c : Config) (pool : Pool) (r : Remfuzz) :
    Callback A → Except Fault (Option Taken × List (Call A) × Remfuzz)
  | .tcpClientConnected => tcpAppFuzzInput c r
  | .tcpClientRecv p => tcpRecv c p r
  | .tcpServerRecv p => tcpRecv c p r
  | .udpClientRecv p _ port =>
    match p with
    | none => return (none, [.disconnect], r)
    | some p => do
      let (taken, calls, r) ← udpAppFuzzInput c pool none port r
      return (taken, Call.andThen calls [.free p], r)
  | .udpServerRecv p addr port =>
    match p with
    | none => return (none, [], r)
    | some p => do
      let (taken, calls, r) ← udpAppFuzzInput c pool addr port r
      return (taken, Call.andThen calls [.free p], r)

/-! ## The packets -/

/-- Where the control is. -/
inductive Pc
  /-- In the stack, that is set up. -/
  | setup
  /-- In `input_pkts`, with all of the data for one packet. -/
  | single
  /-- In `input_pkts`, in front of the loop. -/
  | loop
  /-- In `sys_check_timeouts`, in front of a packet. -/
  | check (frame_len : UInt16)
  /-- In `input_pkts`, with a packet to input. -/
  | frame (frame_len : UInt16)
  /-- In `netif->input`. -/
  | input
  /-- In `sys_check_timeouts`, behind a packet. -/
  | after
  | done
  /-- The program was stopped. -/
  | aborted
  deriving DecidableEq, Repr

/-- The control is in the stack. -/
def Pc.inStack : Pc → Bool
  | .setup | .check _ | .input | .after => true
  | _ => false

/-- Where the control is behind the calls of an application. -/
def Pc.behind (pc : Pc) (calls : List (Call A)) : Pc :=
  if calls.any Call.isAbort then .aborted else pc

/-- The harness has the length of a packet, but not the packet. -/
def Pc.early : Pc → Bool
  | .check _ => true
  | _ => false

structure State where
  pc : Pc
  rem : Remfuzz
  sysNowOffset : UInt32
  pcap : Pcap
  deriving DecidableEq, Repr

/-- What happens. -/
inductive Event (A : Type)
  /-- The harness goes on without taking data. -/
  | proceed
  /-- The time to pass, for tests with times, and the length of a packet. -/
  | header (delay : Option UInt32) (n : UInt16)
  /-- A packet for the stack. -/
  | frame (p : Pbuf)
  /-- A packet that is too big. -/
  | tooBig
  /-- No memory for a packet. -/
  | abort
  /-- The stack calls an application, which may take data: in front of a packet
      the harness has the length of already (`early`), or elsewhere. -/
  | callback (early : Bool) (cb : Callback A) (calls : List (Call A)) (taken : Option Taken)
  /-- The stack sends a packet. -/
  | tx (p : Pbuf)

def FuzzType.minlen (type : FuzzType) : ℕ := 2 + if type = .multipacketTime then 4 else 0

def maxPacketSize : UInt16 := 1514

/-- The length of a packet, as much of it as there is. -/
def frameLen (n : UInt16) (r : Remfuzz) : UInt16 :=
  let n := n &&& 0x7FF
  let n := if n < maxPacketSize then n else maxPacketSize
  if n.toNat > r.len then UInt16.ofNat r.len else n

/-- `input_pkt`, for `n` bytes at `off`, up to the call of `netif->input`. -/
def inputPkt (c : Config) (pool : Pool) (s : State) (off n : ℕ) :
    Except Fault (Event A × State) :=
  -- The packets of the loop are smaller.
  if n > 0xFFFF then .ok (.tooBig, { s with pc := .done })
  else do
    match ← allocPbuf pool c.data off (UInt16.ofNat n) with
    | none => return (.abort, { s with pc := .aborted })
    | some p =>
      return (.frame p,
        { s with pc := .input, rem := s.rem.advance n, pcap := pcapDumpPacket s.pcap p })

/-- An iteration of the loop of `input_pkts`, up to its packet. -/
def readHeader (c : Config) (s : State) : Except Fault (Event A × State) :=
  if s.rem.len > c.type.minlen then
    if c.type = .multipacketTime then do
      let (external_delay, r) ← takeU32 c.data s.rem
      let (n, r) ← takeU16 c.data r
      let frame_len := frameLen n r
      let s := { s with rem := r }
      if frame_len ≠ 0 then
        return (.header (some external_delay) n,
          { s with pc := .check frame_len, sysNowOffset := s.sysNowOffset + external_delay })
      else return (.header (some external_delay) n, { s with pc := .loop })
    else do
      let (n, r) ← takeU16 c.data s.rem
      let frame_len := frameLen n r
      let s := { s with rem := r }
      return (.header none n, { s with pc := if frame_len ≠ 0 then .frame frame_len else .loop })
  else return (.proceed, { s with pc := .done })

/-- The next step of the harness: the control returns from the stack, or goes
    on in `input_pkts`. -/
def State.go (c : Config) (pool : Pool) (s : State) : Except Fault (Option (Event A × State)) :=
  match s.pc with
  | .setup =>
    .ok (some (.proceed,
      { s with pc := if c.type = .single then .single else .loop, rem := ⟨0, c.len⟩ }))
  | .single => some <$> inputPkt c pool s 0 c.len
  | .loop => some <$> readHeader c s
  | .check k => .ok (some (.proceed, { s with pc := .frame k }))
  | .frame k => some <$> inputPkt c pool s s.rem.ptr k.toNat
  | .input => .ok (some (.proceed, { s with pc := if c.type = .single then .done else .after }))
  | .after => .ok (some (.proceed, { s with pc := .loop }))
  | .done | .aborted => .ok none

/-- A step of the harness, or of the stack. At each of them, `pbuf_alloc` does one of
    `pools`. -/
inductive Step (c : Config) (pools : Set Pool) : State → Event A → State → Prop
  | go {s s' : State} {e : Event A} {pool : Pool} (hpool : pool ∈ pools) :
      s.go c pool = .ok (some (e, s')) → Step c pools s e s'
  | callback {s : State} {cb : Callback A} {taken : Option Taken} {calls : List (Call A)}
      {r : Remfuzz} {pool : Pool} (hpool : pool ∈ pools) :
      s.pc.inStack = true → cb.run c pool s.rem = .ok (taken, calls, r) →
      Step c pools s (.callback s.pc.early cb calls taken)
        { s with pc := s.pc.behind calls, rem := r }
  | tx {s : State} {p : Pbuf} :
      s.pc.inStack = true → Step c pools s (.tx p) { s with pcap := pcapDumpPacket s.pcap p }

/-- The harness, with the stack. -/
def harness (A : Type) (c : Config) (pools : Set Pool) : Lts State (Event A) := ⟨Step c pools⟩

/-- In front of everything, with a dump of no packets. -/
def Start (s : State) : Prop :=
  s.pc = .setup ∧ s.rem = ⟨0, 0⟩ ∧ s.sysNowOffset = 0 ∧
    ∃ file opened, s.pcap = pcapDumpInit file opened

end FirmwareFuzz.Lwip
