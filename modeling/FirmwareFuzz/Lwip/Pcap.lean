import FirmwareFuzz.Lib.PcapFile

/-!
# The packet dump

The lwIP harness dumps the packets the stack receives and sends to a capture
file, with their number for a time. The file always holds the packets dumped so
far, in order (`Dumped.read`).
-/

namespace FirmwareFuzz.Lwip

open Endian

/-- A chain of buffers (`struct pbuf`): the payloads, and how many bytes there
    are of them. -/
structure Pbuf where
  payloads : List (List UInt8)
  totLen : UInt16
  totLen_eq : totLen.toNat = payloads.flatten.length
  deriving DecidableEq, Repr

/-- The bytes of a chain. -/
def Pbuf.bytes (p : Pbuf) : List UInt8 := p.payloads.flatten

theorem Pbuf.length_bytes (p : Pbuf) : p.bytes.length = p.totLen.toNat := p.totLen_eq.symm

def pcapFileHeader : List UInt8 :=
  [0xd4, 0xc3, 0xb2, 0xa1, 0x02, 0x00, 0x04, 0x00,
    0x00, 0x00, 0x00, 0x00, 0x00, 0x00, 0x00, 0x00,
    0x00, 0x00, 0x04, 0x00, 0x01, 0x00, 0x00, 0x00]

structure Pcap where
  /-- What is in `FUZZ_DUMP_PCAP_FILE`. -/
  file : List UInt8
  /-- `fpcap` is not null. -/
  isOpen : Bool
  pcapPacket : UInt32
  deriving DecidableEq, Repr

/-- The dump after the start, if the file can be opened (`opened`). -/
def pcapDumpInit (file : List UInt8) (opened : Bool) : Pcap :=
  if opened then ⟨pcapFileHeader, true, 0⟩ else ⟨file, false, 0⟩

/-- The direction of a packet is only told in a debug message. -/
def pcapDumpPacket (d : Pcap) (p : Pbuf) : Pcap :=
  if d.isOpen then
    let d := { d with pcapPacket := d.pcapPacket + 1 }
    let header :=
      le 4 d.pcapPacket.toNat ++ le 4 0 ++ le 4 p.totLen.toNat ++ le 4 p.totLen.toNat
    { d with file := p.payloads.foldl (· ++ ·) (d.file ++ header) }
  else d

def pcapDumpStop (d : Pcap) : Pcap := { d with isOpen := false }

/-! ## The file -/

/-- Ethernet frames, of at most 256 KiB. -/
def dumpHeader : PcapFile.Header := ⟨0x40000, 1⟩

/-- The record of the packet `n`. -/
def dumpRecord (n : ℕ) (p : Pbuf) : PcapFile.Record := ⟨n % 2 ^ 32, 0, p.totLen.toNat, p.bytes⟩

/-- The records of packets: they are counted from one on. -/
def dumpRecords (ps : List Pbuf) : List PcapFile.Record :=
  ps.mapIdx fun i p => dumpRecord (i + 1) p

/-- A dump of the packets, if there is a file. -/
structure Dumped (d : Pcap) (ps : List Pbuf) : Prop where
  pcapPacket : d.isOpen = true → d.pcapPacket.toNat = ps.length % 2 ^ 32
  file : d.isOpen = true → d.file = PcapFile.write dumpHeader (dumpRecords ps)

variable {d : Pcap} {p : Pbuf} {ps : List Pbuf}

theorem dumped_init (file : List UInt8) (opened : Bool) : Dumped (pcapDumpInit file opened) [] := by
  cases opened with
  | false => exact ⟨fun h => absurd h Bool.false_ne_true, fun h => absurd h Bool.false_ne_true⟩
  | true => exact ⟨fun _ => rfl, fun _ => rfl⟩

theorem valid_dumpRecord (n : ℕ) (p : Pbuf) : (dumpRecord n p).Valid dumpHeader.snaplen := by
  have hlen := p.totLen.toNat_lt
  refine ⟨Nat.mod_lt _ (by decide), by show 0 < 2 ^ 32; decide, ?_, ?_, ?_⟩
  · exact hlen.trans (by decide)
  · exact p.length_bytes.trans_lt (hlen.trans (by decide))
  · exact p.length_bytes.trans_le (hlen.le.trans (by decide))

/-- Dumping a packet adds its record. -/
theorem Dumped.dump (h : Dumped d ps) (p : Pbuf) : Dumped (pcapDumpPacket d p) (ps ++ [p]) := by
  rw [pcapDumpPacket]
  split_ifs with hopen
  · have hnum : (d.pcapPacket + 1).toNat = (ps.length + 1) % 2 ^ 32 := by
      rw [UInt32.toNat_add, h.pcapPacket hopen]
      exact Nat.mod_add_mod _ _ _
    refine ⟨fun _ => ?_, fun _ => ?_⟩
    · rw [List.length_append]
      exact hnum
    · have hfold : ∀ (qs : List (List UInt8)) s, qs.foldl (· ++ ·) s = s ++ qs.flatten := by
        intro qs
        induction qs with
        | nil => exact fun s => (List.append_nil s).symm
        | cons q qs ih =>
          intro s
          rw [List.foldl_cons, ih, List.flatten_cons, List.append_assoc]
      simp only [hfold, hnum, h.file hopen, PcapFile.write, dumpRecords, List.mapIdx_concat,
        List.flatMap_append, List.flatMap_singleton, List.append_assoc]
      rw [dumpRecord, PcapFile.Record.encode, p.length_bytes]
      simp only [List.append_assoc]
      rfl
  · exact ⟨fun hopen' => absurd hopen' hopen, fun hopen' => absurd hopen' hopen⟩

/-- The packets dumped are those a reader finds in the file. -/
theorem Dumped.read (h : Dumped d ps) (hopen : d.isOpen = true) :
    PcapFile.read d.file = some (dumpHeader, dumpRecords ps) := by
  rw [h.file hopen]
  refine PcapFile.read_write ⟨by decide, by decide⟩ fun r hr => ?_
  obtain ⟨i, hi, rfl⟩ := List.mem_mapIdx.1 hr
  exact valid_dumpRecord _ _

end FirmwareFuzz.Lwip
