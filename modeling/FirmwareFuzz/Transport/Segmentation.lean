import FirmwareFuzz.Lib.Cuts
import FirmwareFuzz.Mqtt.Framing
import FirmwareFuzz.Transport.Streams

/-!
# Writes and packets

The client sends a stream of packets, cut into writes in any way. The autopilot
does not frame the stream: it replies to each write on its own, by the bytes at
its start (`run_writes`). So what it queues depends on the cut
(`coalesced_pingreqs`).

It queues what it would if every packet were written at once
(`segmentation_replies`) if the cut is *aligned*: every packet that calls for a
reply starts a write, together with the bytes the reply depends on
(`ClientPacket.head`), and no write that starts inside of a packet draws a reply.
-/

namespace FirmwareFuzz

open CLang Cuts

variable {mode : FuzzMode} {t t' : EspTransport}

/-! ## Writes -/

/-- The write of a whole buffer. -/
def writeAll (buf : List UInt8) : Op := .write buf (intOfSize buf.length) true

/-- The reply to a whole buffer. -/
def replyToBuffer (mode : FuzzMode) : List UInt8 → List UInt8
  | [] => []
  | b :: rest => replyTo mode (b &&& 0xF0) (headerId (b :: rest))

theorem toInt_length {buf : List UInt8} (h : buf.length ≤ intMax) :
    (intOfSize buf.length).toInt = buf.length :=
  toInt_intOfSize (by rw [intMax] at h; omega)

theorem writeAll_proper {buf : List UInt8} (h : buf.length ≤ intMax) : (writeAll buf).Proper :=
  (toInt_length h).le

/-- What a write queues is the reply to the bytes written. -/
theorem queued_write {autopilot : Int32} (hauto : autopilot ≠ 0) {buf : List UInt8} {len : Int32}
    (hlen : len.toInt ≤ buf.length) :
    (Op.write buf len true).queued autopilot mode =
      replyToBuffer mode (buf.take len.toInt.toNat) := by
  by_cases hpos : 0 < len.toInt
  · obtain ⟨b, rest, rfl⟩ := List.exists_cons_of_length_pos (l := buf) (by omega)
    obtain ⟨n, hn⟩ : ∃ n, len.toInt.toNat = n + 1 := ⟨len.toInt.toNat - 1, by omega⟩
    rw [Op.queued, autopilotReply_eq hauto mode hpos hlen, hn]
    rfl
  · have hoff : autopilot = 0 ∨ len ≤ 0 := .inr (Int32.le_iff_toInt_le.2 (Int.not_lt.1 hpos))
    rw [Op.queued, autopilotReply, if_pos hoff, Int.toNat_of_nonpos (Int.not_lt.1 hpos)]
    rfl

theorem queued_writeAll {autopilot : Int32} (hauto : autopilot ≠ 0) {buf : List UInt8}
    (h : buf.length ≤ intMax) :
    (writeAll buf).queued autopilot mode = replyToBuffer mode buf := by
  have hlen := toInt_length h
  rw [writeAll, queued_write hauto hlen.le, hlen, Int.toNat_natCast, List.take_length]

/-- A run of writes appends to the pending replies those to each write. -/
theorem run_writes (h : Inv t.data) (hauto : t.data.autopilot ≠ 0) {cs : List (List UInt8)}
    (hlen : ∀ c ∈ cs, c.length ≤ intMax) :
    ∃ tr t', t.run (cs.map writeAll) = .ok (tr, t') ∧
      t'.data.rxPending = t.data.rxPending ++ cs.flatMap (replyToBuffer t.data.mode) := by
  have hops : ∀ op ∈ cs.map writeAll, op.Proper := by
    intro op hop
    obtain ⟨c, hc, rfl⟩ := List.mem_map.1 hop
    exact writeAll_proper (hlen c hc)
  obtain ⟨tr, t', hr⟩ := run_ok h hops
  refine ⟨tr, t', hr, ?_⟩
  -- Writes deliver nothing, so all replies are still pending.
  have hnone : tr.flatMap (deliveredFrom .rx) = [] := by
    refine List.flatMap_eq_nil_iff.2 fun e he => ?_
    have hmem : e.1 ∈ cs.map writeAll := trace_ops hr ▸ List.mem_map_of_mem he
    obtain ⟨c, _, hc⟩ := List.mem_map.1 hmem
    obtain ⟨op, o⟩ := e
    subst hc
    rfl
  have hreplies := h.refines.run_replies hr
  rw [hnone, List.nil_append, List.flatMap_map] at hreplies
  rw [hreplies]
  refine congrArg (_ ++ ·) (List.flatMap_congr fun c hc => ?_)
  exact queued_writeAll hauto (hlen c hc)

/-! ## Packets -/

/-- A complete packet of the client. A SUBSCRIBE or PUBREL has a packet identifier. -/
structure ClientPacket where
  ctrl : UInt8
  body : List UInt8
  length_le : body.length ≤ maxRemainingLength
  two_le : ctrl &&& 0xF0 = 0x80 ∨ ctrl &&& 0xF0 = 0x60 → 2 ≤ body.length

namespace ClientPacket

/-- The bytes of the packet. -/
def bytes (p : ClientPacket) : List UInt8 := packet p.ctrl p.body

/-- The bytes the reply depends on: the control byte, and, for a SUBSCRIBE or
    PUBREL, the fixed header and the packet identifier. -/
def head (p : ClientPacket) : List UInt8 :=
  if p.ctrl &&& 0xF0 = 0x80 ∨ p.ctrl &&& 0xF0 = 0x60 then
    p.ctrl :: (byteVarint.encode p.body.length ++ p.body.take 2)
  else [p.ctrl]

theorem bytes_ne_nil (p : ClientPacket) : p.bytes ≠ [] := List.cons_ne_nil _ _

/-- A packet can be written at once. -/
theorem length_bytes_le (p : ClientPacket) : p.bytes.length ≤ intMax := by
  have hle := p.length_le
  have hlt : p.body.length < 128 ^ (3 + 1) := Nat.lt_succ_of_le hle
  have hfour := byteVarint.length_encode_le_iff.2 hlt
  rw [bytes, packet, List.length_cons, List.length_append, intMax]
  rw [maxRemainingLength] at hle
  omega

theorem exists_id {p : ClientPacket} (h : p.ctrl &&& 0xF0 = 0x80 ∨ p.ctrl &&& 0xF0 = 0x60) :
    ∃ idHi idLo tail, p.body = idHi :: idLo :: tail := by
  have htwo := p.two_le h
  rcases hbody : p.body with _ | ⟨idHi, _ | ⟨idLo, tail⟩⟩
  · simp [hbody] at htwo
  · simp [hbody] at htwo
  · exact ⟨idHi, idLo, tail, rfl⟩

/-- Whatever holds the head of a SUBSCRIBE or PUBREL has its packet identifier. -/
theorem headerId_head {p : ClientPacket} (h : p.ctrl &&& 0xF0 = 0x80 ∨ p.ctrl &&& 0xF0 = 0x60) :
    ∃ idHi idLo, ∀ s, headerId (p.head ++ s) = some (idHi, idLo) := by
  obtain ⟨idHi, idLo, tail, hbody⟩ := exists_id h
  refine ⟨idHi, idLo, fun s => ?_⟩
  have hhead : p.head ++ s = p.ctrl :: (byteVarint.encode p.body.length ++ idHi :: idLo :: s) := by
    rw [head, if_pos h, hbody]
    simp
  rw [hhead, headerId_packet _ p.length_le]

/-- What is cut short of the head has not. -/
theorem headerId_eq_none {p : ClientPacket} {rest : List UInt8}
    (hpre : rest <+: byteVarint.encode p.body.length ++ p.body.take 2)
    (hlt : rest.length < (byteVarint.encode p.body.length).length + 2) :
    headerId (p.ctrl :: rest) = none := by
  have hfour : (byteVarint.encode p.body.length).length ≤ 4 :=
    byteVarint.length_encode_le_iff.2 (Nat.lt_succ_of_le p.length_le)
  rw [headerId, List.drop_succ_cons, List.drop_zero]
  refine idAt_of_le ?_
  rw [List.length_cons]
  rcases Nat.lt_or_ge rest.length (byteVarint.encode p.body.length).length with hcut | hcut
  · -- The Remaining Length is cut short: it is scanned to the end of the write.
    have hrest : rest = (byteVarint.encode p.body.length).take rest.length := by
      have := List.prefix_iff_eq_take.1 hpre
      rwa [List.take_append_of_le_length hcut.le] at this
    have hscan := byteVarint.scan_take_encode hcut (hcut.le.trans hfour)
    rw [← hrest] at hscan
    omega
  · -- The packet identifier is cut short.
    obtain ⟨s, rfl⟩ := List.prefix_of_prefix_length_le (List.prefix_append _ _) hpre hcut
    rw [byteVarint.scan_encode (Nat.lt_succ_of_le p.length_le)]
    simp only at hlt ⊢
    omega

theorem head_prefix_bytes (p : ClientPacket) : p.head <+: p.bytes := by
  rw [head, bytes, packet]
  split_ifs
  · exact ⟨p.body.drop 2, by rw [List.cons_append, List.append_assoc, List.take_append_drop]⟩
  · exact ⟨_, rfl⟩

end ClientPacket

theorem replyToBuffer_head (p : ClientPacket) (s : List UInt8) :
    replyToBuffer mode (p.head ++ s) =
      replyTo mode (p.ctrl &&& 0xF0) (headerId (p.head ++ s)) := by
  rw [ClientPacket.head]
  split_ifs <;> rfl

/-- A write holding the head of a packet is answered as the packet. -/
theorem replyToBuffer_of_head {p : ClientPacket} {c : List UInt8} (h : p.head <+: c) :
    replyToBuffer mode c = replyToBuffer mode p.bytes := by
  obtain ⟨s, rfl⟩ := h
  obtain ⟨s', hs'⟩ := p.head_prefix_bytes
  rw [← hs', replyToBuffer_head, replyToBuffer_head]
  by_cases hecho : EchoesId mode (p.ctrl &&& 0xF0)
  · obtain ⟨idHi, idLo, hid⟩ := ClientPacket.headerId_head hecho.type_eq
    rw [hid, hid]
  · exact replyTo_congr hecho _ _

/-- A write that starts with the control byte of a packet is not answered if
    the packet is not. -/
theorem replyToBuffer_eq_nil {p : ClientPacket} (h : replyToBuffer mode p.bytes = [])
    (rest : List UInt8) : replyToBuffer mode (p.ctrl :: rest) = [] := by
  have hecho : ¬EchoesId mode (p.ctrl &&& 0xF0) := by
    intro hecho
    obtain ⟨idHi, idLo, hid⟩ := ClientPacket.headerId_head hecho.type_eq
    obtain ⟨s, hs⟩ := p.head_prefix_bytes
    rw [← hs, replyToBuffer_head, hid] at h
    exact replyTo_ne_nil hecho idHi idLo h
  exact (replyTo_congr hecho _ _).trans h

/-! ## Cuts -/

/-- A cut of a stream of packets into writes, such that a packet that calls for
    a reply starts a write, which holds its head, and that a write starting
    inside of a packet draws no reply. -/
structure Aligned (mode : FuzzMode) (ps : List ClientPacket) (cs : List (List UInt8)) : Prop where
  head : ∀ i p, (i, p) ∈ starts ClientPacket.bytes 0 ps → replyToBuffer mode p.bytes ≠ [] →
    ∃ c, (i, c) ∈ starts id 0 cs ∧ p.head <+: c
  inside : ∀ i c, (i, c) ∈ starts id 0 cs → (∀ p, (i, p) ∉ starts ClientPacket.bytes 0 ps) →
    replyToBuffer mode c = []

/-- A write that starts with a packet and is answered as the packet holds its head. -/
theorem head_prefix_of_reply {p : ClientPacket} {c s : List UInt8} (hc : c ≠ [])
    (hpre : c <+: p.bytes ++ s) (hreply : replyToBuffer mode c ≠ []) : p.head <+: c := by
  have hhead : p.head <+: p.bytes ++ s := p.head_prefix_bytes.trans (List.prefix_append _ _)
  rcases List.prefix_or_prefix_of_prefix hhead hpre with h | hshort
  · exact h
  -- The write is within the head: without all of it, there is no identifier to echo.
  obtain ⟨b, rest, rfl⟩ := List.exists_cons_of_ne_nil hc
  obtain ⟨rfl, _⟩ : b = p.ctrl ∧ _ := List.cons.inj hpre.choose_spec
  rw [ClientPacket.head] at hshort ⊢
  split_ifs at hshort ⊢ with hid
  · obtain ⟨_, hrest⟩ := List.cons_prefix_cons.1 hshort
    have hlen : (byteVarint.encode p.body.length ++ p.body.take 2).length =
        (byteVarint.encode p.body.length).length + 2 := by
      rw [List.length_append, List.length_take, Nat.min_eq_left (p.two_le hid)]
    rcases Nat.lt_or_ge rest.length ((byteVarint.encode p.body.length).length + 2) with hlt | hge
    · rw [replyToBuffer, ClientPacket.headerId_eq_none hrest hlt] at hreply
      exact absurd (replyTo_none hid) hreply
    · rw [hrest.eq_of_length_le (by omega)]
  · exact ⟨rest, rfl⟩

section

variable {ps : List ClientPacket} {cs : List (List UInt8)} {i : ℕ} {c : List UInt8}

/-- An answered write of an aligned cut starts with a packet, and is answered as it. -/
theorem Aligned.exists_packet (h : Aligned mode ps cs) (hne : ∀ c ∈ cs, id c ≠ [])
    (hcut : cs.flatMap id = ps.flatMap ClientPacket.bytes) (hc : (i, c) ∈ starts id 0 cs)
    (hreply : replyToBuffer mode c ≠ []) :
    ∃ p, (i, p) ∈ starts ClientPacket.bytes 0 ps ∧
      replyToBuffer mode p.bytes = replyToBuffer mode c := by
  obtain ⟨p, hp⟩ : ∃ p, (i, p) ∈ starts ClientPacket.bytes 0 ps := by
    by_contra hnone
    exact hreply (h.inside i c hc (not_exists.1 hnone))
  obtain ⟨b, rest, rfl⟩ := List.exists_cons_of_ne_nil (hne c (of_mem_starts hc).2.1)
  obtain ⟨s, s', hs'⟩ := prefix_of_mem_starts hcut hc hp
  obtain ⟨rfl, _⟩ : b = p.ctrl ∧ _ := List.cons.inj hs'
  have hreply' : replyToBuffer mode p.bytes ≠ [] := fun h' => hreply (replyToBuffer_eq_nil h' rest)
  -- The write that holds the head of the packet starts where this one does.
  obtain ⟨c', hc', hhead⟩ := h.head i p hp hreply'
  obtain rfl := eq_of_mem_starts hne hc hc'
  exact ⟨p, hp, (replyToBuffer_of_head hhead).symm⟩

/-- The replies to the writes are those to the packets, each drawn by the write
    at the start of the packet, if and only if the cut is aligned. -/
theorem aligned_iff (hne : ∀ c ∈ cs, c ≠ []) (hcut : cs.flatten = ps.flatMap ClientPacket.bytes) :
    answers id (replyToBuffer mode) cs =
        answers ClientPacket.bytes (fun p => replyToBuffer mode p.bytes) ps ↔
      Aligned mode ps cs := by
  have hne' : ∀ c ∈ cs, id c ≠ [] := hne
  have hcut' : cs.flatMap id = ps.flatMap ClientPacket.bytes := List.flatMap_id.trans hcut
  rw [answers_eq_iff hne' fun p _ => p.bytes_ne_nil]
  constructor
  · rintro ⟨hcs, hps⟩
    constructor
    · -- A packet is answered with the write that starts with it.
      intro i p hp hreply
      obtain ⟨c, hc, heq⟩ := hps i p hp hreply
      obtain ⟨s, hpre⟩ := prefix_of_mem_starts hcut' hc hp
      exact ⟨c, hc, head_prefix_of_reply (hne c (of_mem_starts hc).2.1) hpre (heq ▸ hreply)⟩
    · -- A write that is answered is at the start of a packet.
      intro i c hc hnone
      by_contra hreply
      obtain ⟨p, hp, _⟩ := hcs i c hc hreply
      exact hnone p hp
  · intro h
    refine ⟨fun i c hc hreply => h.exists_packet hne' hcut' hc hreply, fun i p hp hreply => ?_⟩
    obtain ⟨c, hc, hhead⟩ := h.head i p hp hreply
    exact ⟨c, hc, replyToBuffer_of_head hhead⟩

end

/-- However the bytes of a list of packets are cut into writes, what is queued is
    the reply to each write. The replies are those to the packets, each drawn by
    the write at the start of its packet, if and only if the cut is aligned, and
    then what is queued is the same as when every packet is written at once. -/
theorem segmentation_replies (h : transport.Reachable Initial t) (hauto : t.data.autopilot ≠ 0)
    (ps : List ClientPacket) (cs : List (List UInt8)) (hne : ∀ c ∈ cs, c ≠ [])
    (hlen : ∀ c ∈ cs, c.length ≤ intMax) (hcut : cs.flatten = ps.flatMap ClientPacket.bytes) :
    ∃ tr t' trₚ tₚ, t.run (cs.map writeAll) = .ok (tr, t') ∧
      t.run ((ps.map ClientPacket.bytes).map writeAll) = .ok (trₚ, tₚ) ∧
      t'.data.rxPending = t.data.rxPending ++ cs.flatMap (replyToBuffer t.data.mode) ∧
      (answers id (replyToBuffer t.data.mode) cs =
          answers ClientPacket.bytes (fun p => replyToBuffer t.data.mode p.bytes) ps ↔
        Aligned t.data.mode ps cs) ∧
      (Aligned t.data.mode ps cs → t'.data.rxPending = tₚ.data.rxPending) := by
  have hinv := inv_of_reachable h
  have hbytes : ∀ c ∈ ps.map ClientPacket.bytes, c.length ≤ intMax := by
    intro c hc
    obtain ⟨p, _, rfl⟩ := List.mem_map.1 hc
    exact p.length_bytes_le
  obtain ⟨tr, t', hr, hpending⟩ := run_writes hinv hauto hlen
  obtain ⟨trₚ, tₚ, hrₚ, hpendingₚ⟩ := run_writes hinv hauto hbytes
  have haligned : _ ↔ Aligned t.data.mode ps cs := aligned_iff hne hcut
  refine ⟨tr, t', trₚ, tₚ, hr, hrₚ, hpending, haligned, fun ha => ?_⟩
  have hflat : cs.flatMap (replyToBuffer t.data.mode) =
      ps.flatMap fun p => replyToBuffer t.data.mode p.bytes :=
    flatMap_eq_of_answers (haligned.2 ha)
  rw [hpending, hpendingₚ, hflat, List.flatMap_map]

/-- A SUBSCRIBE, cut behind its packet identifier. -/
theorem segmentation_replies_subscribe :
    ∃ (t : EspTransport) (p : ClientPacket), t.data.mode = .connected ∧
      p.bytes = [0x82, 0x06, 0x12, 0x34, 0x00, 0x01, 0x61, 0x00] ∧ ∃ tr t' trₚ tₚ,
      t.run ([[0x82, 0x06, 0x12, 0x34], [0x00, 0x01, 0x61, 0x00]].map writeAll) = .ok (tr, t') ∧
      t.run (([p].map ClientPacket.bytes).map writeAll) = .ok (trₚ, tₚ) ∧
      t'.data.rxPending = tₚ.data.rxPending := by
  have h₀ : Started [] 1 1 0 ⟨0, 0, ⟨[], 0, 0, [], 0, 0, false, 1, .connected, 0⟩⟩ := rfl
  let p : ClientPacket := ⟨0x82, [0x12, 0x34, 0x00, 0x01, 0x61, 0x00], by decide, by decide⟩
  obtain ⟨tr, t', trₚ, tₚ, hr, hrₚ, _, hiff, hpending⟩ :=
    segmentation_replies (.of_mem ⟨_, _, _, _, h₀⟩) (by decide) [p]
      [[0x82, 0x06, 0x12, 0x34], [0x00, 0x01, 0x61, 0x00]] (by decide) (by decide)
      (by decide +kernel)
  have haligned := hiff.1 (by decide +kernel)
  exact ⟨_, p, rfl, by decide +kernel, tr, t', trₚ, tₚ, hr, hrₚ, hpending haligned⟩

/-- Two PINGREQs in one write draw one PINGRESP. -/
theorem coalesced_pingreqs :
    ∃ p : ClientPacket, p.bytes = [0xC0, 0x00] ∧
      ([[0xC0, 0x00, 0xC0, 0x00]] : List (List UInt8)).flatten =
        [[0xC0, 0x00], [0xC0, 0x00]].flatten ∧
      ∃ t₀ tr t trₚ tₚ, Started [] 1 1 0 t₀ ∧
        t₀.run ([[0xC0, 0x00, 0xC0, 0x00]].map writeAll) = .ok (tr, t) ∧
        t.data.rxPending = [0xD0, 0x00] ∧
        t₀.run ([[0xC0, 0x00], [0xC0, 0x00]].map writeAll) = .ok (trₚ, tₚ) ∧
        tₚ.data.rxPending = [0xD0, 0x00, 0xD0, 0x00] :=
  ⟨⟨0xC0, [], by decide, by decide⟩, by decide +kernel, rfl,
    _, _, _, _, _, rfl, rfl, rfl, rfl, rfl⟩

end FirmwareFuzz
