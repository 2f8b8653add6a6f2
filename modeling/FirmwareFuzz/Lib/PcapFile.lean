import FirmwareFuzz.Lib.Codec
import FirmwareFuzz.Lib.Endian

/-!
# Capture files

A capture file of packets, in the byte order of a little-endian machine: a
header, with the link type and the most bytes there are of a packet, and one
record after the other, each with a time, the length of the packet and as much
of its data as was captured. A record says where it ends (`recordCode`), so that
a reader finds in a file what was written to it (`read_write`).
-/

namespace PcapFile

open Endian

/-- The header of a file, without what is always the same. -/
structure Header where
  snaplen : ℕ
  network : ℕ
  deriving DecidableEq, Repr

/-- A packet captured. -/
structure Record where
  sec : ℕ
  usec : ℕ
  /-- The length of the packet, of which `data` may be a part only. -/
  len : ℕ
  data : List UInt8
  deriving DecidableEq, Repr

def magic : ℕ := 0xa1b2c3d4

namespace Header

def Valid (h : Header) : Prop := h.snaplen < 2 ^ 32 ∧ h.network < 2 ^ 32

/-- The magic number, version 2.4, no time zone, no accuracy, and the fields. -/
def encode (h : Header) : List UInt8 :=
  le 4 magic ++ le 2 2 ++ le 2 4 ++ le 4 0 ++ le 4 0 ++ le 4 h.snaplen ++ le 4 h.network

def decode (s : List UInt8) : Option (Header × List UInt8) := do
  let (m, s) ← takeLe 4 s
  let (major, s) ← takeLe 2 s
  let (minor, s) ← takeLe 2 s
  let (_, s) ← takeLe 4 s
  let (_, s) ← takeLe 4 s
  let (snaplen, s) ← takeLe 4 s
  let (network, s) ← takeLe 4 s
  if m = magic ∧ major = 2 ∧ minor = 4 then some (⟨snaplen, network⟩, s) else none

theorem decode_encode {h : Header} (hh : h.Valid) (s : List UInt8) :
    decode (h.encode ++ s) = some (h, s) := by
  obtain ⟨hsnap, hnet⟩ := hh
  have hmagic : magic < 256 ^ 4 := by decide
  have hmajor : 2 < 256 ^ 2 := by decide
  have hminor : 4 < 256 ^ 2 := by decide
  have hzero : 0 < 256 ^ 4 := by decide
  simp only [decode, encode, List.append_assoc, takeLe_le hmagic, takeLe_le hmajor,
    takeLe_le hminor, takeLe_le hzero, takeLe_le (n := 4) hsnap, takeLe_le (n := 4) hnet,
    Option.bind_eq_bind, Option.bind_some, and_self, if_true]

end Header

namespace Record

/-- The fields fit, and no more is captured than a file may have of a packet. -/
def Valid (snaplen : ℕ) (r : Record) : Prop :=
  r.sec < 2 ^ 32 ∧ r.usec < 2 ^ 32 ∧ r.len < 2 ^ 32 ∧ r.data.length < 2 ^ 32 ∧
    r.data.length ≤ snaplen

def encode (r : Record) : List UInt8 :=
  le 4 r.sec ++ le 4 r.usec ++ le 4 r.data.length ++ le 4 r.len ++ r.data

def decode (snaplen : ℕ) (s : List UInt8) : Option (Record × List UInt8) := do
  let (sec, s) ← takeLe 4 s
  let (usec, s) ← takeLe 4 s
  let (incl, s) ← takeLe 4 s
  let (len, s) ← takeLe 4 s
  if incl ≤ snaplen ∧ incl ≤ s.length then some (⟨sec, usec, len, s.take incl⟩, s.drop incl)
  else none

theorem encode_ne_nil (r : Record) : r.encode ≠ [] := by
  rw [← List.length_pos_iff, encode]
  simp only [List.length_append, length_le]
  omega

theorem decode_encode {snaplen : ℕ} {r : Record} (hr : r.Valid snaplen) (s : List UInt8) :
    decode snaplen (r.encode ++ s) = some (r, s) := by
  obtain ⟨hsec, husec, hlen, hincl, hsnap⟩ := hr
  simp only [decode, encode, List.append_assoc, takeLe_le (n := 4) hsec, takeLe_le (n := 4) husec,
    takeLe_le (n := 4) hincl, takeLe_le (n := 4) hlen, Option.bind_eq_bind, Option.bind_some,
    hsnap, List.length_append, Nat.le_add_right, and_self, if_true, List.take_left, List.drop_left]

end Record

/-- A record, as a word of a prefix code. -/
def recordCode (snaplen : ℕ) : PrefixCode Record UInt8 where
  Valid := Record.Valid snaplen
  encode := Record.encode
  decode := Record.decode snaplen
  encode_ne_nil _ := Record.encode_ne_nil _
  decode_encode s h := Record.decode_encode h s

/-- A file with a header and records. -/
def write (h : Header) (rs : List Record) : List UInt8 := h.encode ++ rs.flatMap Record.encode

/-- The header and the records of a file, if all of it can be read. -/
def read (file : List UInt8) : Option (Header × List Record) := do
  let (h, s) ← Header.decode file
  let rs ← PrefixCode.decodeAll (Record.decode h.snaplen) s
  return (h, rs)

/-- What is written to a file is read from it. -/
theorem read_write {h : Header} (hh : h.Valid) {rs : List Record}
    (hrs : ∀ r ∈ rs, r.Valid h.snaplen) : read (write h rs) = some (h, rs) := by
  have hall : PrefixCode.decodeAll (Record.decode h.snaplen) (rs.flatMap Record.encode) = some rs :=
    (recordCode h.snaplen).decodeAll_encode hrs
  simp only [read, write, Header.decode_encode hh, Option.bind_eq_bind, Option.bind_some, hall]
  rfl

end PcapFile
