import FirmwareFuzz.Lib.Codec
import FirmwareFuzz.Mqtt.Packets

/-!
# Framing

A packet is a control byte, the Remaining Length, and a body of that length
(`packet`). Every builder of the seed generator returns a packet
(`Built.isPacket`), whatever it assembles its body from.

A stream of packets is cut by its headers alone: take a control byte, decode
the Remaining Length, take that many bytes (`takePacket`). On packets whose
length the decoder covers this is a prefix code (`packetCode`), so that a
stream of built packets is cut back into them (`splitPackets_built`).
-/

namespace FirmwareFuzz

open CLang

/-- The packet with control byte `ctrl` and the given body. -/
def packet (ctrl : UInt8) (body : List UInt8) : List UInt8 :=
  ctrl :: (byteVarint.encode body.length ++ body)

/-- What follows the fixed header: a control byte, and the bytes up to the first
    one without the continuation bit. -/
def packetBody (p : List UInt8) : List UInt8 :=
  (p.tail.dropWhile fun b => b &&& 0x80 != 0).tail

theorem packetBody_packet (ctrl : UInt8) (body : List UInt8) :
    packetBody (packet ctrl body) = body :=
  byteVarint.tail_dropWhile_encode body.length body

/-! ## Builders -/

/-- The packets returned by the builders. -/
inductive Built : List UInt8 → Prop
  | pktConnack {sp rc p} : pktConnack sp rc = .ok p → Built p
  | pktPingresp {p} : pktPingresp = .ok p → Built p
  | pktPuback {id p} : pktPuback id = .ok p → Built p
  | pktPubrec {id p} : pktPubrec id = .ok p → Built p
  | pktPubrel {id p} : pktPubrel id = .ok p → Built p
  | pktPubcomp {id p} : pktPubcomp id = .ok p → Built p
  | pktSuback {id grants p} : pktSuback id grants = .ok p → Built p
  | pktPublish {topic payload qos dup retain id p} :
      pktPublish topic payload qos dup retain id = .ok p → Built p
  | pkt5Connack {sp rc props p} : pkt5Connack sp rc props = .ok p → Built p
  | pkt5Suback {id codes props p} : pkt5Suback id codes props = .ok p → Built p
  | pkt5PubackLike {ctrl id full p} : pkt5PubackLike ctrl id full = .ok p → Built p
  | pkt5Publish {topic payload qos dup retain id props p} :
      pkt5Publish topic payload qos dup retain id props = .ok p → Built p

/-- A fixed header with the length of the body makes a packet of it. -/
theorem isPacket_of_fh {ctrl : ℤ} {n : ℕ} {h body p : List UInt8} (hh : fh ctrl n = .ok h)
    (hn : n = body.length) (hp : h ++ body = p) : ∃ c body, p = packet c body := by
  obtain ⟨_, rfl⟩ := fh_eq_ok_iff.1 hh
  subst hn
  exact ⟨_, body, hp.symm⟩

theorem isPacket_pktAck {ctrl id : ℤ} {p : List UInt8} (h : pktAck ctrl id = .ok p) :
    ∃ c body, p = packet c body := by
  simp only [pktAck, Except.bind_eq_ok_iff, Except.pure_eq_ok_iff] at h
  obtain ⟨vh, _, hd, hh, hp⟩ := h
  exact isPacket_of_fh hh rfl hp

/-- Every builder returns a packet: the length in its header is that of its body. -/
theorem Built.isPacket {p : List UInt8} (h : Built p) : ∃ ctrl body, p = packet ctrl body := by
  cases h with
  | pktConnack h =>
    simp only [FirmwareFuzz.pktConnack, Except.bind_eq_ok_iff, Except.pure_eq_ok_iff] at h
    obtain ⟨vh, _, hd, hh, hp⟩ := h
    exact isPacket_of_fh hh rfl hp
  | pktPingresp h => exact ⟨0xD0, [], (Except.ok.inj h).symm.trans (by decide +kernel)⟩
  | pktPuback h => exact isPacket_pktAck h
  | pktPubrec h => exact isPacket_pktAck h
  | pktPubrel h => exact isPacket_pktAck h
  | pktPubcomp h => exact isPacket_pktAck h
  | pktSuback h =>
    simp only [FirmwareFuzz.pktSuback, Except.bind_eq_ok_iff, Except.pure_eq_ok_iff] at h
    obtain ⟨grants, _, id, _, hd, hh, hp⟩ := h
    exact isPacket_of_fh hh rfl hp
  | pktPublish h =>
    simp only [FirmwareFuzz.pktPublish, Except.bind_eq_ok_iff, Except.pure_eq_ok_iff] at h
    obtain ⟨⟨ctrl, vh⟩, _, hd, hh, hp⟩ := h
    rw [List.append_assoc] at hp
    exact isPacket_of_fh hh List.length_append.symm hp
  | pkt5Connack h =>
    simp only [FirmwareFuzz.pkt5Connack, Except.bind_eq_ok_iff, Except.pure_eq_ok_iff] at h
    obtain ⟨props, _, flags, _, hd, hh, hp⟩ := h
    exact isPacket_of_fh hh rfl hp
  | pkt5Suback h =>
    simp only [FirmwareFuzz.pkt5Suback, Except.bind_eq_ok_iff, Except.pure_eq_ok_iff] at h
    obtain ⟨props, _, codes, _, id, _, hd, hh, hp⟩ := h
    rw [List.append_assoc hd] at hp
    exact isPacket_of_fh hh List.length_append.symm hp
  | pkt5PubackLike h =>
    simp only [FirmwareFuzz.pkt5PubackLike, Except.bind_eq_ok_iff, Except.pure_eq_ok_iff] at h
    obtain ⟨id, _, hd, hh, hp⟩ := h
    exact isPacket_of_fh hh rfl hp
  | pkt5Publish h =>
    simp only [FirmwareFuzz.pkt5Publish, Except.bind_eq_ok_iff, Except.pure_eq_ok_iff] at h
    obtain ⟨⟨ctrl, vh⟩, _, props, _, hd, hh, hp⟩ := h
    rw [List.append_assoc hd] at hp
    exact isPacket_of_fh hh List.length_append.symm hp

/-! ## Cutting a stream -/

/-- The packet at the front of a stream, and what follows it: one control byte,
    the Remaining Length, and that many bytes. -/
def takePacket : List UInt8 → Option (List UInt8 × List UInt8)
  | [] => none
  | ctrl :: p =>
    match parseVarintRemaining p (intOfSize (min p.length intMax)) with
    | .error _ => none
    | .ok (n, k) => if k + n ≤ p.length then some (ctrl :: p.take (k + n), p.drop (k + n)) else none

/-- The packets of a stream, `none` if it does not end with the last of them. -/
def splitPackets : List UInt8 → Option (List (List UInt8)) := PrefixCode.decodeAll takePacket

theorem takePacket_packet (ctrl : UInt8) {body : List UInt8}
    (h : body.length ≤ maxRemainingLength) (s : List UInt8) :
    takePacket (packet ctrl body ++ s) = some (packet ctrl body, s) := by
  have hlen := length_encode h
  have hfour : (byteVarint.encode body.length).length ≤ 4 := by
    rw [hlen]
    split_ifs <;> omega
  rw [packet, List.cons_append, List.append_assoc, takePacket,
    parseVarintRemaining_encode h (by
      rw [toInt_intOfSize (by rw [intMax]; omega), List.length_append, intMax]
      omega)
      (by rw [toInt_intOfSize (by rw [intMax]; omega)]; omega)]
  simp only
  rw [if_pos (by simp only [List.length_append]; omega), ← List.append_assoc,
    ← List.length_append, List.take_left, List.drop_left]

/-- The packets the decoder covers, as a prefix code. -/
def packetCode : PrefixCode (List UInt8) UInt8 where
  Valid p := ∃ ctrl body, body.length ≤ maxRemainingLength ∧ p = packet ctrl body
  encode := id
  decode := takePacket
  encode_ne_nil := by
    rintro _ ⟨ctrl, body, _, rfl⟩
    exact List.cons_ne_nil _ _
  decode_encode := by
    rintro _ s ⟨ctrl, body, h, rfl⟩
    exact takePacket_packet ctrl h s

/-- A stream of built packets is cut back into them, in order, to its end. -/
theorem splitPackets_built {ps : List (List UInt8)} (hbuilt : ∀ p ∈ ps, Built p)
    (hbody : ∀ p ∈ ps, (packetBody p).length ≤ maxRemainingLength) :
    splitPackets ps.flatten = some ps := by
  rw [← List.flatMap_id]
  refine packetCode.decodeAll_encode fun p hp => ?_
  obtain ⟨ctrl, body, rfl⟩ := (hbuilt p hp).isPacket
  have := hbody _ hp
  rw [packetBody_packet] at this
  exact ⟨ctrl, body, this, rfl⟩

theorem splitPackets_pingresp_pubcomp :
    splitPackets [0xD0, 0x00, 0x70, 0x02, 0x00, 0x01] =
      some [[0xD0, 0x00], [0x70, 0x02, 0x00, 0x01]] := by
  refine @splitPackets_built [[0xD0, 0x00], [0x70, 0x02, 0x00, 0x01]] (fun p hp => ?_) (by decide)
  rcases List.mem_pair.1 hp with rfl | rfl
  · exact .pktPingresp rfl
  · exact .pktPubcomp (show pktPubcomp 1 = _ by decide +kernel)

end FirmwareFuzz
