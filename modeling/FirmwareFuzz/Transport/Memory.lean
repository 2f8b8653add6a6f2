import FirmwareFuzz.Harness
import FirmwareFuzz.Lib.Heap

/-!
# The memory of the transport

Here the transport is what it is in memory: a handle that points to its state,
which points to the queued replies, among the blocks of the client and of other
transports. Its functions follow these pointers, and allocate, grow and free the
blocks.

Each of them does to the blocks of a transport what it does to the transport
(`wp_perform`), whatever else is in memory. So in any run, between whose
operations the rest of the program may do as it likes with its own blocks,

* no access misses its block, the outcomes are those of the transport, and what
  is left of a transport that is destroyed is what the rest of the program has
  (`memory_refines`);
* the loop of the harness frees what it allocates, once, and nothing else, also
  when memory is short, if the client destroys its transport (`memory_balanced`).
-/

namespace FirmwareFuzz.Memory

open CLang

/-! ## Blocks -/

/-- A `struct esp_transport`, without its table of operations. -/
structure TransportBlock where
  lastErrno : Int32
  data : Ptr
  deriving DecidableEq, Repr

/-- A `fuzz_state_t`. -/
structure StateBlock where
  /-- The fuzz input, which is the caller's. -/
  input : List UInt8
  inLen : ℕ
  inOff : ℕ
  rx : Ptr
  rxLen : ℕ
  rxOff : ℕ
  connected : Bool
  autopilot : Int32
  mode : FuzzMode
  frag : Int32
  deriving DecidableEq, Repr

inductive Block
  | transport (t : TransportBlock)
  | state (s : StateBlock)
  | bytes (bs : List UInt8)
  deriving DecidableEq, Repr

def transportAt (p : Ptr) : HeapM Block TransportBlock := do
  match ← deref p with
  | .transport t => return t
  | _ => throw .outOfBounds

def stateAt (p : Ptr) : HeapM Block StateBlock := do
  match ← deref p with
  | .state s => return s
  | _ => throw .outOfBounds

def bytesAt (p : Ptr) : HeapM Block (List UInt8) := do
  match ← deref p with
  | .bytes bs => return bs
  | _ => throw .outOfBounds

/-! ## Operations -/

def Block.cells : Block → List UInt8
  | bytes bs => bs
  | _ => []

/-- What `realloc` to `n` bytes makes of a block, or of none. -/
def resizeBytes (n : ℕ) (b : Option Block) : Block :=
  let bs := (b.map Block.cells).getD []
  .bytes (bs.take n ++ List.replicate (n - bs.length) default)

/-- The end of `push_rx`: the block grows by `data`, in the state `st`. -/
def growRx (s : Ptr) (st : StateBlock) (data : List UInt8) : HeapM Block Unit := do
  match ← resize st.rx (resizeBytes (st.rxLen + data.length)) with
  | none => return
  | some nrx => do
    let st := { st with rx := some nrx }
    assign s (.state st)
    let bs ← bytesAt st.rx
    let bs ← copyTo bs st.rxLen data
    assign st.rx (.bytes bs)
    assign s (.state { st with rxLen := st.rxLen + data.length })

def pushRx (s : Ptr) (data : List UInt8) : HeapM Block Unit :=
  if data.length = 0 then return
  else do
    let st ← stateAt s
    let avail := st.rxLen - st.rxOff
    -- Reset to the start when fully consumed.
    let st := if st.rxOff > 0 ∧ avail = 0 then { st with rxLen := 0, rxOff := 0 } else st
    assign s (.state st)
    growRx s st data

def fuzzConnect (t : Ptr) : HeapM Block Outcome := do
  let tr ← transportAt t
  let st ← stateAt tr.data
  assign tr.data (.state { st with connected := true })
  return ⟨0, none⟩

/-- A read with nothing to return. -/
def readTimeout (t : Ptr) : HeapM Block Outcome := do
  let tr ← transportAt t
  assign t (.transport { tr with lastErrno := errTcpTransportConnectionTimeout })
  return ⟨-1, none⟩

def fuzzRead (t : Ptr) (len : Int32) : HeapM Block Outcome := do
  let tr ← transportAt t
  let s ← stateAt tr.data
  if !s.connected then readTimeout t
  else
    -- The queued replies first.
    let rxAvail := if s.rxLen > s.rxOff then s.rxLen - s.rxOff else 0
    if rxAvail > 0 then do
      let n := intOfSize (min (readCap s.frag len) rxAvail)
      let rx ← bytesAt s.rx
      let bytes ← copyFrom rx s.rxOff (sizeOfInt n)
      let s := { s with rxOff := s.rxOff + sizeOfInt n }
      let s := if s.rxOff = s.rxLen then { s with rxOff := 0, rxLen := 0 } else s
      assign tr.data (.state s)
      return ⟨n, some (.rx, bytes)⟩
    else if s.inOff ≥ s.inLen then readTimeout t
    else do
      let rem := s.inLen - s.inOff
      let n := intOfSize (min (readCap s.frag len) rem)
      let bytes ← copyFrom s.input s.inOff (sizeOfInt n)
      assign tr.data (.state { s with inOff := s.inOff + sizeOfInt n })
      return ⟨n, some (.input, bytes)⟩

def fuzzWrite (t : Ptr) (buf : List UInt8) (len : Int32) : HeapM Block Outcome := do
  let tr ← transportAt t
  let s ← stateAt tr.data
  let reply ← autopilotReply s.autopilot s.mode buf len
  pushRx tr.data reply
  return ⟨len, none⟩

def fuzzPollRead (t : Ptr) : HeapM Block Outcome := do
  let tr ← transportAt t
  let s ← stateAt tr.data
  return ⟨if s.inOff < s.inLen then 1 else -1, none⟩

def fuzzClose (t : Ptr) : HeapM Block Outcome := do
  let tr ← transportAt t
  let st ← stateAt tr.data
  assign tr.data (.state { st with connected := false })
  return ⟨0, none⟩

/-- A block of `calloc`. -/
def zeroState : StateBlock := ⟨[], 0, 0, none, 0, 0, false, 0, .handshake, 0⟩

def espTransportFuzzInit (data : List UInt8) (size : ℕ) (autopilot mode frag : Int32) :
    HeapM Block Ptr := do
  match ← malloc (.transport ⟨0, none⟩) with
  | none => return none
  | some t =>
    match ← malloc (.state zeroState) with
    | none => do
      free (some t)
      return none
    | some s => do
      let st := { zeroState with
        input := data, inLen := size, inOff := 0, connected := false, autopilot := autopilot,
        mode := modeOfInt mode, frag := frag }
      assign (some s) (.state st)
      -- The first byte selects the mode, and is skipped.
      if st.mode = .dynamic ∧ st.inLen > 0 then do
        let sel ← load st.input 0
        assign (some s) (.state { st with mode := modeOfSelector sel, inOff := 1 })
      assign (some t) (.transport ⟨0, some s⟩)
      return some t

/-- Where a new block goes. -/
abbrev Place : Type := (h : Heap Block) → {a // a ∉ h}

/-- The allocator for an operation, that is short of memory if the operation is. -/
def allocator (place : Place) : Op → Allocator Block
  | .write _ _ false => fun _ => none
  | _ => fun h => some (place h)

def perform (p : Ptr) : Op → HeapM Block Outcome
  | .connect => fuzzConnect p
  | .read len => fuzzRead p len
  | .write buf len _ => fuzzWrite p buf len
  | .pollRead => fuzzPollRead p
  | .close => fuzzClose p

/-! ## What is at a pointer -/

def stateBlock (rx : Ptr) (s : FuzzState) : StateBlock :=
  ⟨s.input, s.inLen, s.inOff, rx, s.rxLen, s.rxOff, s.connected, s.autopilot, s.mode, s.frag⟩

/-- The block of the replies, if there is one. -/
def rxBlock (rx : Ptr) (s : FuzzState) : List (ℕ × Block) := rx.toList.map (·, .bytes s.rx)

/-- The blocks of a transport: the handle, the state, and the queued replies. -/
def blocks (a s : ℕ) (rx : Ptr) (t : EspTransport) : List (ℕ × Block) :=
  (a, .transport ⟨t.lastErrno, some s⟩) :: (s, .state (stateBlock rx t.data)) :: rxBlock rx t.data

/-- The blocks are those of the transport `t` at `p`. -/
def Holds (p : Ptr) (t : EspTransport) (bs : List (ℕ × Block)) : Prop :=
  ∃ a s rx, p = some a ∧ (rx = none → t.data.rx = [] ∧ t.data.rxLen = 0) ∧
    bs = blocks a s rx t

variable {al : Allocator Block} {bs : List (ℕ × Block)} {a s : ℕ} {rx p : Ptr}
  {t t' : EspTransport} {o : Outcome} {fs fs' : FuzzState}

/-- The heap, and those of its blocks that are of the rest of the program. -/
structure World where
  heap : Heap Block
  own : Heap Block

/-- What happens in memory. -/
inductive Act
  /-- An operation of the transport, with its outcome. -/
  | op (op : Op) (o : Outcome)
  /-- The rest of the program makes its blocks those of `own`. -/
  | others (own : Heap Block)

/-- The blocks of the rest of the program after an act. -/
def Act.after (f : Heap Block) : Act → Heap Block
  | op _ _ => f
  | others own => own

/-- A step in memory. The rest of the program allocates, writes and frees what it
    likes but the blocks that are not its own. -/
inductive Step (p : Ptr) : World → Act → World → Prop
  | op {w : World} {h' : Heap Block} {op : Op} {o : Outcome} (place : Place) :
      perform p op (allocator place op) w.heap = .ok (o, h') →
      Step p w (.op op o) { w with heap := h' }
  | others {w : World} {heap own : Heap Block} {bs : List (ℕ × Block)} :
      Adds w.own bs w.heap → Adds own bs heap → Step p w (.others own) ⟨heap, own⟩

variable {w w' : World} {acts : List Act} {f h h' : Heap Block}

end FirmwareFuzz.Memory
