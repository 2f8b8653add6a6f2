import FirmwareFuzz.Harness

/-!
# The loop of the harness

Each iteration clears the buffer, reads an input into it, and runs the client
on it. The number of bytes read is the length of the input, also when it is
negative.
-/

namespace FirmwareFuzz

open CLang

/-- The size of the buffer of `main`. -/
def bufSize : ℕ := 1460

/-- What `read(0, buf, 1460)` does: it fails, or it reads some bytes. -/
def ReadResult : Type := Option {bytes : List UInt8 // bytes.length ≤ bufSize}

namespace ReadResult

/-- The value of `read`. -/
def ret : ReadResult → ℤ
  | none => -1
  | some bytes => bytes.1.length

/-- The value of `read`, as the `size_t` it is assigned to. -/
def len (r : ReadResult) : ℕ := (r.ret % 2 ^ 64).toNat

/-- The bytes read. -/
def bytes : ReadResult → List UInt8
  | none => []
  | some bytes => bytes.1

/-- The buffer after `memset` and `read`. -/
def fill (r : ReadResult) (buf : List UInt8) : List UInt8 :=
  let buf := List.replicate bufSize 0 ++ buf.drop bufSize
  r.bytes ++ buf.drop r.bytes.length

variable (r : ReadResult)

theorem length_bytes_le : r.bytes.length ≤ bufSize := by
  cases r with
  | none => exact Nat.zero_le _
  | some bytes => exact bytes.2

theorem fill_eq {buf : List UInt8} (h : buf.length = bufSize) :
    r.fill buf = r.bytes ++ List.replicate (bufSize - r.bytes.length) 0 := by
  rw [fill, List.drop_of_length_le h.le, List.append_nil, List.drop_replicate]

theorem length_fill {buf : List UInt8} (h : buf.length = bufSize) :
    (r.fill buf).length = bufSize := by
  have := r.length_bytes_le
  rw [fill_eq r h, List.length_append, List.length_replicate]
  omega

end ReadResult

end FirmwareFuzz
