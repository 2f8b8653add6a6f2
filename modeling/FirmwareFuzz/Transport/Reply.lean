import FirmwareFuzz.Transport.Basic

/-!
# The autopilot's reply

The reply to a buffer depends on the mode, on the type of the packet, in the
first byte of the buffer, and, for a SUBSCRIBE or PUBREL, on the packet
identifier behind its fixed header (`replyTo`). No byte of the buffer beyond
these is read, and none beyond its end (`autopilotReply_eq`).
-/

namespace FirmwareFuzz

open CLang

variable {buf : List UInt8} {len : Int32}

theorem toInt_sub_one (h : 0 < len.toInt) : (len - 1).toInt = len.toInt - 1 := by
  have := len.toInt_lt
  rw [Int32.toInt_sub, Int32.toInt_one, Int.bmod_eq_of_le (by omega) (by omega)]

/-- The two bytes at `i`, if the buffer holds them. -/
def idAt (buf : List UInt8) (i : ℕ) : Option (UInt8 × UInt8) :=
  match buf[i]?, buf[i + 1]? with
  | some idHi, some idLo => some (idHi, idLo)
  | _, _ => none

theorem idAt_of_lt {i : ℕ} (h : i + 1 < buf.length) :
    idAt buf i = some (buf[i], buf[i + 1]) := by
  rw [idAt, List.getElem?_eq_getElem (by omega), List.getElem?_eq_getElem h]

theorem idAt_of_le {i : ℕ} (h : buf.length ≤ i + 1) : idAt buf i = none := by
  rw [idAt, List.getElem?_eq_none h]
  split
  · contradiction
  · rfl

/-- The packet identifier in a buffer: the two bytes behind its fixed header. -/
def headerId (buf : List UInt8) : Option (UInt8 × UInt8) :=
  idAt buf (1 + (byteVarint.scan 4 (buf.drop 1)).2)

/-- The packet identifier read off a buffer is the one in its first `len` bytes. -/
theorem packetId_eq (hpos : 0 < len.toInt) (hlen : len.toInt ≤ buf.length) :
    packetId buf len = .ok (headerId (buf.take len.toInt.toNat)) := by
  have hsub := toInt_sub_one hpos
  have htake : (buf.take len.toInt.toNat).length = len.toInt.toNat := by
    rw [List.length_take, Nat.min_eq_left (by omega)]
  have hscan : (buf.drop 1).take (len - 1).toInt.toNat = (buf.take len.toInt.toNat).drop 1 := by
    rw [List.drop_take, hsub]
    congr 1
    omega
  rw [packetId, parseVarintRemaining_eq_scan (by rw [List.length_drop, hsub]; omega), hscan,
    Except.ok_bind, headerId]
  simp only
  generalize 1 + (byteVarint.scan 4 ((buf.take len.toInt.toNat).drop 1)).2 = i
  -- The identifier is read if, and only if, it is within the first `len` bytes.
  by_cases h : len.toInt ≥ i + 2
  · rw [idAt_of_lt (by omega), List.getElem_take, List.getElem_take]
    simp only [h, if_true, load_of_lt (show i < buf.length by omega),
      load_of_lt (show i + 1 < buf.length by omega)]
    rfl
  · rw [idAt_of_le (by omega)]
    simp only [h, if_false]
    rfl

/-- The packet identifier of a packet is the first two bytes of its body. -/
theorem headerId_packet (ctrl : UInt8) {n : ℕ} (hn : n ≤ maxRemainingLength) (idHi idLo : UInt8)
    (tail : List UInt8) :
    headerId (ctrl :: (byteVarint.encode n ++ idHi :: idLo :: tail)) = some (idHi, idLo) := by
  have hlt : n < 128 ^ (3 + 1) := Nat.lt_succ_of_le hn
  rw [headerId, List.drop_succ_cons, List.drop_zero, byteVarint.scan_encode hlt, idAt_of_lt]
  · simp [Nat.add_comm 1]
  · simp only [List.length_cons, List.length_append]
    omega

/-- The types of packet whose reply, in a mode, has their packet identifier. -/
def EchoesId (mode : FuzzMode) (type : UInt8) : Prop :=
  type = 0x80 ∧ (mode = .subscribe ∨ mode = .connected ∨ mode = .mqtt5) ∨
    type = 0x60 ∧ (mode = .qos ∨ mode = .connected)

instance (mode : FuzzMode) (type : UInt8) : Decidable (EchoesId mode type) :=
  inferInstanceAs (Decidable (_ ∨ _))

/-- The reply to a SUBSCRIBE or PUBREL. -/
def ackTo (mode : FuzzMode) (type idHi idLo : UInt8) : List UInt8 :=
  if type = 0x60 then [0x70, 0x02, idHi, idLo]
  else if mode = .mqtt5 then [0x90, 0x04, idHi, idLo, 0x00, 0x00]
  else [0x90, 0x03, idHi, idLo, 0x00]

/-- The reply to a packet of the given type and packet identifier. -/
def replyTo (mode : FuzzMode) (type : UInt8) (id : Option (UInt8 × UInt8)) : List UInt8 :=
  if type = 0x10 ∧ (mode = .connected ∨ mode = .mqtt5) then
    if mode = .mqtt5 then [0x20, 0x03, 0x00, 0x00, 0x00] else [0x20, 0x02, 0x00, 0x00]
  else if type = 0xC0 then [0xD0, 0x00]
  else if EchoesId mode type then id.elim [] fun (idHi, idLo) => ackTo mode type idHi idLo
  else []

variable {mode : FuzzMode} {type : UInt8}

theorem EchoesId.type_eq (h : EchoesId mode type) : type = 0x80 ∨ type = 0x60 :=
  h.imp And.left And.left

/-- Where the packet identifier is not echoed, it does not matter. -/
theorem replyTo_congr (h : ¬EchoesId mode type) (id id' : Option (UInt8 × UInt8)) :
    replyTo mode type id = replyTo mode type id' := by
  rw [replyTo, replyTo, if_neg h, if_neg h]

/-- A SUBSCRIBE or PUBREL without a packet identifier is not answered. -/
theorem replyTo_none (h : type = 0x80 ∨ type = 0x60) : replyTo mode type none = [] := by
  rcases h with rfl | rfl <;> cases mode <;> rfl

/-- Where it is echoed, there is a reply. -/
theorem replyTo_ne_nil (h : EchoesId mode type) (idHi idLo : UInt8) :
    replyTo mode type (some (idHi, idLo)) ≠ [] := by
  rcases h with ⟨rfl, rfl | rfl | rfl⟩ | ⟨rfl, rfl | rfl⟩ <;> exact List.cons_ne_nil _ _

/-- The reply to a buffer is that to its first `len` bytes, by their type and
    packet identifier. -/
theorem autopilotReply_eq {autopilot : Int32} (hauto : autopilot ≠ 0) (mode : FuzzMode)
    {b : UInt8} {rest : List UInt8} (hpos : 0 < len.toInt)
    (hlen : len.toInt ≤ (b :: rest).length) :
    autopilotReply autopilot mode (b :: rest) len =
      .ok (replyTo mode (b &&& 0xF0) (headerId ((b :: rest).take len.toInt.toNat))) := by
  have hoff : ¬(autopilot = 0 ∨ len ≤ 0) := by
    rintro (h | h)
    · exact hauto h
    · exact Int32.not_lt.2 h (Int32.lt_iff_toInt_lt.2 hpos)
  have hload : load (b :: rest) 0 = .ok b := rfl
  rw [autopilotReply, if_neg hoff, hload, Except.ok_bind, packetId_eq hpos hlen, replyTo]
  simp only [Except.ok_bind]
  generalize b &&& 0xF0 = type
  generalize headerId ((b :: rest).take len.toInt.toNat) = id
  by_cases htype : type = 0x10 ∨ type = 0xC0 ∨ type = 0x80 ∨ type = 0x60
  · -- The types with a branch of their own: the modes decide.
    rcases htype with rfl | rfl | rfl | rfl <;> cases mode <;>
      rcases id with _ | ⟨idHi, idLo⟩ <;> rfl
  · push Not at htype
    obtain ⟨hconnect, hping, hsubscribe, hpubrel⟩ := htype
    simp only [EchoesId, hconnect, hping, hsubscribe, hpubrel, false_and, false_or, if_false]
    rfl

/-- The autopilot reads no byte beyond the `len` bytes written. -/
theorem autopilotReply_ok (autopilot : Int32) (mode : FuzzMode) (hlen : len.toInt ≤ buf.length) :
    ∃ reply, autopilotReply autopilot mode buf len = .ok reply := by
  by_cases hoff : autopilot = 0 ∨ len ≤ 0
  · exact ⟨[], by rw [autopilotReply, if_pos hoff]⟩
  · obtain ⟨hauto, hpos⟩ := not_or.1 hoff
    have hpos : 0 < len.toInt := Int32.lt_iff_toInt_lt.1 (Int32.not_le.1 hpos)
    cases buf with
    | nil => exact absurd (hpos.trans_le hlen) (by simp)
    | cons b rest => exact ⟨_, autopilotReply_eq hauto mode hpos hlen⟩

end FirmwareFuzz
