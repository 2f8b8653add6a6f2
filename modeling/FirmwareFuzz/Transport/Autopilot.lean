import FirmwareFuzz.Mqtt.Packets
import FirmwareFuzz.Transport.Refine

/-!
# The autopilot and the packet builders

The autopilot writes its replies out as bytes; the seed generator builds the
same packets by its builders (`builderReply`). The two agree, for all packet
identifiers and all lengths of the request (`fuzzWrite_builderReply`).
-/

namespace FirmwareFuzz

open CLang

/-- The packet a broker replies with, as the seed generator builds it: nothing
    in the modes, and to the types, that are not answered. -/
def builderReply (mode : FuzzMode) (type : UInt8) (pktId : ℤ) : Except PyError (List UInt8) :=
  if type = 0x10 ∧ mode = .connected then pktConnack false 0
  else if type = 0x10 ∧ mode = .mqtt5 then pkt5Connack false 0 []
  else if type = 0xC0 then pktPingresp
  else if type = 0x80 ∧ (mode = .subscribe ∨ mode = .connected) then pktSuback pktId [0]
  else if type = 0x80 ∧ mode = .mqtt5 then pkt5Suback pktId [0] []
  else if type = 0x60 ∧ (mode = .qos ∨ mode = .connected) then pktPubcomp pktId
  else .ok []

/-! ## The builders, evaluated -/

theorem toBytes2_ofNat {n : ℕ} (hn : n ≤ 65535) :
    toBytes2 n = .ok [UInt8.ofNat (n / 256), UInt8.ofNat (n % 256)] := by
  rw [toBytes2, if_neg (by omega), if_neg (by omega), Int.toNat_natCast]

theorem pktConnack_zero : pktConnack false 0 = .ok [0x20, 0x02, 0x00, 0x00] := by decide +kernel

theorem pkt5Connack_zero : pkt5Connack false 0 [] = .ok [0x20, 0x03, 0x00, 0x00, 0x00] := by
  decide +kernel

variable {n : ℕ} (hn : n ≤ 65535)

include hn

theorem pktSuback_zero :
    pktSuback n [0] = .ok [0x90, 0x03, UInt8.ofNat (n / 256), UInt8.ofNat (n % 256), 0x00] := by
  have hgrants : pyBytes [0] = .ok [0x00] := rfl
  have hfh : fh 0x90 3 = .ok [0x90, 0x03] := by decide +kernel
  rw [pktSuback, hgrants, toBytes2_ofNat hn]
  exact congrArg (· >>= fun h => pure (h ++ _)) hfh

theorem pkt5Suback_zero :
    pkt5Suback n [0] [] =
      .ok [0x90, 0x04, UInt8.ofNat (n / 256), UInt8.ofNat (n % 256), 0x00, 0x00] := by
  have hprops : encRemainingLength (([] : List UInt8).length : ℕ) = .ok [0x00] := by decide +kernel
  have hcodes : pyBytes [0] = .ok [0x00] := rfl
  have hfh : fh 0x90 4 = .ok [0x90, 0x04] := by decide +kernel
  rw [pkt5Suback, hprops, hcodes, toBytes2_ofNat hn]
  exact congrArg (· >>= fun h => pure (h ++ _ ++ _)) hfh

theorem pktPubcomp_eq :
    pktPubcomp n = .ok [0x70, 0x02, UInt8.ofNat (n / 256), UInt8.ofNat (n % 256)] := by
  have hfh : fh 0x70 2 = .ok [0x70, 0x02] := by decide +kernel
  rw [pktPubcomp, pktAck, toBytes2_ofNat hn]
  exact congrArg (· >>= fun h => pure (h ++ _)) hfh

/-- The reply is what the builders return, if the packet identifier is read
    off wherever it is echoed. -/
theorem builderReply_eq (mode : FuzzMode) (type : UInt8) {id : Option (UInt8 × UInt8)}
    (hid : EchoesId mode type → id = some (UInt8.ofNat (n / 256), UInt8.ofNat (n % 256))) :
    builderReply mode type n = .ok (replyTo mode type id) := by
  by_cases hecho : EchoesId mode type
  · rw [hid hecho]
    rcases hecho with ⟨rfl, rfl | rfl | rfl⟩ | ⟨rfl, rfl | rfl⟩
    · exact pktSuback_zero hn
    · exact pktSuback_zero hn
    · exact pkt5Suback_zero hn
    · exact pktPubcomp_eq hn
    · exact pktPubcomp_eq hn
  · -- No packet identifier is needed: the type and the mode decide.
    by_cases htype : type = 0x10 ∨ type = 0xC0 ∨ type = 0x80 ∨ type = 0x60
    · rcases htype with rfl | rfl | rfl | rfl
      · cases mode <;> first | rfl | exact pktConnack_zero | exact pkt5Connack_zero
      · cases mode <;> rfl
      · cases mode <;> first | rfl | exact absurd (by decide) hecho
      · cases mode <;> first | rfl | exact absurd (by decide) hecho
    · push Not at htype
      obtain ⟨hconnect, hping, hsubscribe, hpubrel⟩ := htype
      simp only [builderReply, replyTo, EchoesId, hconnect, hping, hsubscribe, hpubrel, false_and,
        false_or, if_false]

omit hn

/-! ## Requests -/

/-- A SUBSCRIBE or PUBREL, in the form the builders have: a control byte, the
    Remaining Length, the packet identifier, and any tail. -/
def IsRequest (pktId : ℕ) (buf : List UInt8) : Prop :=
  ∃ ctrl remLen idBytes tail, encRemainingLength (2 + tail.length : ℕ) = .ok remLen ∧
    2 + tail.length ≤ maxRemainingLength ∧ toBytes2 pktId = .ok idBytes ∧
    buf = ctrl :: (remLen ++ idBytes ++ tail)

theorem IsRequest.headerId_eq {buf : List UInt8} (h : IsRequest n buf) (hn : n ≤ 65535) :
    headerId buf = some (UInt8.ofNat (n / 256), UInt8.ofNat (n % 256)) := by
  obtain ⟨ctrl, remLen, idBytes, tail, hrem, hle, hid, rfl⟩ := h
  obtain rfl := encRemainingLength_eq_ok_iff.1 hrem
  obtain rfl := Except.ok.inj ((toBytes2_ofNat hn).symm.trans hid)
  rw [List.append_assoc]
  exact headerId_packet ctrl hle _ _ tail

/-- With autopilot on and memory available, a write in any reachable state
    appends to the pending replies the packet the builders return, and changes
    nothing else. Where the packet identifier is echoed, the buffer is a request
    with that identifier; any buffer will do elsewhere. -/
theorem fuzzWrite_builderReply {t : EspTransport} (h : transport.Reachable Initial t)
    (hauto : t.data.autopilot ≠ 0) (ctrl : UInt8) (rest : List UInt8) (len : Int32)
    (hlen : len.toInt = (ctrl :: rest).length) (pktId : ℕ) (hid : pktId ≤ 65535)
    (hreq : EchoesId t.data.mode (ctrl &&& 0xF0) → IsRequest pktId (ctrl :: rest)) :
    ∃ reply rx, builderReply t.data.mode (ctrl &&& 0xF0) pktId = .ok reply ∧
      fuzzWrite t (ctrl :: rest) len true = .ok (⟨len, none⟩,
        { t with data := { t.data with rx := rx, rxLen := t.data.rxLen + reply.length } }) ∧
      (rx.take (t.data.rxLen + reply.length)).drop t.data.rxOff = t.data.rxPending ++ reply ∧
      (reply = [] → rx = t.data.rx) := by
  have hinv := inv_of_reachable h
  have hpos : 0 < len.toInt := by
    rw [hlen, List.length_cons]
    omega
  have htake : (ctrl :: rest).take len.toInt.toNat = ctrl :: rest :=
    List.take_of_length_le (by omega)
  have hreply := autopilotReply_eq hauto t.data.mode hpos hlen.le
  rw [htake] at hreply
  have hbuilder : builderReply t.data.mode (ctrl &&& 0xF0) pktId =
      .ok (replyTo t.data.mode (ctrl &&& 0xF0) (headerId (ctrl :: rest))) :=
    builderReply_eq hid _ _ fun hecho => (hreq hecho).headerId_eq hid
  generalize replyTo t.data.mode (ctrl &&& 0xF0) (headerId (ctrl :: rest)) = reply at *
  have hwrite : fuzzWrite t (ctrl :: rest) len true = .ok (⟨len, none⟩, _) :=
    (fuzzWrite_eq_ok_iff hinv).2 ⟨reply, hreply, rfl, rfl⟩
  -- Pushing no bytes leaves even the block alone.
  by_cases hnil : reply = []
  · subst hnil
    exact ⟨[], t.data.rx, hbuilder, hwrite, (List.append_nil _).symm, fun _ => rfl⟩
  · rw [if_pos ⟨rfl, hnil⟩] at hwrite
    exact ⟨reply, _, hbuilder, hwrite, rxPending_grow hinv reply, fun h => absurd h hnil⟩

theorem fuzzWrite_builderReply_subscribe :
    ∃ t : EspTransport, t.data.mode = .connected ∧ t.data.rxPending = [] ∧ ∃ reply rx,
      builderReply t.data.mode 0x80 0x1234 = .ok reply ∧
      fuzzWrite t [0x82, 0x06, 0x12, 0x34, 0x00, 0x01, 0x61, 0x00] 8 true = .ok (⟨8, none⟩,
        { t with data := { t.data with rx := rx, rxLen := t.data.rxLen + reply.length } }) ∧
      (rx.take (t.data.rxLen + reply.length)).drop t.data.rxOff = t.data.rxPending ++ reply ∧
      (reply = [] → rx = t.data.rx) :=
  have h₀ : Started [] 1 1 0 ⟨0, 0, ⟨[], 0, 0, [], 0, 0, false, 1, .connected, 0⟩⟩ := rfl
  have hreq : IsRequest 0x1234 [0x82, 0x06, 0x12, 0x34, 0x00, 0x01, 0x61, 0x00] :=
    ⟨0x82, [0x06], [0x12, 0x34], [0x00, 0x01, 0x61, 0x00], by decide +kernel, by decide,
      by decide, rfl⟩
  ⟨_, rfl, rfl, fuzzWrite_builderReply (.of_mem ⟨_, _, _, _, h₀⟩) (by decide) 0x82 _ 8 (by decide)
    0x1234 (by decide) fun _ => hreq⟩

end FirmwareFuzz
