import FirmwareFuzz.Mqtt.Framing
import FirmwareFuzz.Transport.Refine

/-!
# Packets on the line

The replies of the autopilot are packets, and so is what a seed has in it. But
replies are served first, also in the middle of a packet of the input: what is
delivered may be torn. It is not, if a reply is only ever queued when what was
delivered so far is a stream of packets, as a client does that only writes
between the packets it reads (`delivers_packets`).

The line is `Framed` at any time: it has delivered packets, each from one of its
two streams, and a part of another one, whose rest is at the front of the stream
it is from.
-/

namespace FirmwareFuzz

open CLang

/-! ## The line -/

namespace Duplex

variable {α γ : Type*} {c : PrefixCode γ α} {d d' : Duplex α} {l : Label α} {ls : List (Label α)}

/-- The bytes, with the stream they are from. -/
def sourced (src : Source) (bs : List α) : List (Source × α) := bs.map (src, ·)

/-- What is delivered, with the streams it is from. -/
def Label.sourced : Label α → List (Source × α)
  | .reply bs => Duplex.sourced .rx bs
  | .input bs => Duplex.sourced .input bs
  | _ => []

/-- Packets, each from a stream. -/
def packets (c : PrefixCode γ α) (ps : List (Source × γ)) : List (Source × α) :=
  ps.flatMap fun p => sourced p.1 (c.encode p.2)

theorem snd_sourced (src : Source) (bs : List α) : (sourced src bs).map Prod.snd = bs := by
  rw [sourced, List.map_map]
  exact List.map_id bs

theorem sourced_append (src : Source) (bs bs' : List α) :
    sourced src (bs ++ bs') = sourced src bs ++ sourced src bs' := List.map_append

theorem snd_packets (ps : List (Source × γ)) :
    (packets c ps).map Prod.snd = (ps.map Prod.snd).flatMap c.encode := by
  rw [packets, List.map_flatMap, List.flatMap_map]
  simp only [snd_sourced]

theorem packets_append (ps qs : List (Source × γ)) :
    packets c (ps ++ qs) = packets c ps ++ packets c qs := List.flatMap_append

/-- A stream of packets is one of packets from it. -/
theorem exists_packets {bs : List α} (h : c.Whole bs) (src : Source) :
    ∃ ps, (∀ p ∈ ps, c.Valid p.2) ∧ sourced src bs = packets c ps := by
  obtain ⟨as, has, rfl⟩ := h
  refine ⟨as.map (src, ·), List.forall_mem_map.2 has, ?_⟩
  rw [sourced, packets, List.map_flatMap, List.flatMap_map]
  rfl

/-- The rest of `part`, a part of a packet from `src`, is at the front of this
    stream. -/
def Rest (c : PrefixCode γ α) (part : List α) (d : Duplex α) : Source → Prop
  | .rx => c.Whole (part ++ d.replies) ∧ c.Whole d.input
  | .input => d.replies = [] ∧ c.Whole (part ++ d.input)

/-- The line has delivered packets, and a part of another one. -/
def Framed (c : PrefixCode γ α) (got : List (Source × α)) (d : Duplex α) : Prop :=
  ∃ ps src part, (∀ p ∈ ps, c.Valid p.2) ∧ got = packets c ps ++ sourced src part ∧
    Rest c part d src

variable {got : List (Source × α)}

/-- A new line is framed. -/
theorem framed_of_whole (hreplies : d.replies = []) (hinput : c.Whole d.input) : Framed c [] d :=
  ⟨[], .input, [], List.forall_mem_nil _, rfl, hreplies, hinput⟩

/-- With what is pending, packets are delivered. -/
theorem Framed.exists_packets (h : Framed c got d) :
    ∃ ps, (∀ p ∈ ps, c.Valid p.2) ∧
      got ++ (sourced .rx d.replies ++ sourced .input d.input) = packets c ps := by
  obtain ⟨ps, src, part, hps, rfl, hrest⟩ := h
  cases src with
  | rx =>
    obtain ⟨qs, hqs, heq⟩ := Duplex.exists_packets hrest.1 .rx
    obtain ⟨qs', hqs', heq'⟩ := Duplex.exists_packets hrest.2 .input
    refine ⟨ps ++ (qs ++ qs'), ?_, ?_⟩
    · exact List.forall_mem_append.2 ⟨hps, List.forall_mem_append.2 ⟨hqs, hqs'⟩⟩
    · rw [packets_append, packets_append, ← heq, ← heq', sourced_append, List.append_assoc,
        List.append_assoc]
  | input =>
    obtain ⟨hnil, hwhole⟩ := hrest
    obtain ⟨qs, hqs, heq⟩ := Duplex.exists_packets hwhole .input
    refine ⟨ps ++ qs, List.forall_mem_append.2 ⟨hps, hqs⟩, ?_⟩
    rw [packets_append, ← heq, sourced_append, hnil, List.append_assoc]
    rfl

/-- Between packets, both streams are ones of packets. -/
theorem Framed.between (h : Framed c got d) (hgot : c.Whole (got.map Prod.snd)) :
    ∃ ps, (∀ p ∈ ps, c.Valid p.2) ∧ got = packets c ps ∧ c.Whole d.replies ∧ c.Whole d.input := by
  obtain ⟨ps, src, part, hps, rfl, hrest⟩ := h
  rw [List.map_append, snd_sourced, snd_packets] at hgot
  have hwhole : c.Whole ((ps.map Prod.snd).flatMap c.encode) :=
    ⟨_, List.forall_mem_map.2 hps, rfl⟩
  have hpart := hwhole.of_append hgot
  obtain ⟨qs, hqs, heq⟩ := Duplex.exists_packets hpart src
  refine ⟨ps ++ qs, List.forall_mem_append.2 ⟨hps, hqs⟩, by rw [packets_append, heq], ?_⟩
  cases src with
  | rx => exact ⟨hpart.of_append hrest.1, hrest.2⟩
  | input => exact ⟨hrest.1 ▸ PrefixCode.whole_nil, hpart.of_append hrest.2⟩

/-- The line stays framed, if packets are queued between packets. -/
theorem Framed.step (h : Framed c got d) (hst : (line α).step d l d')
    (hq : l.queued ≠ [] → c.Whole l.queued ∧ c.Whole (got.map Prod.snd)) :
    Framed c (got ++ l.sourced) d' := by
  cases hst with
  | @queue bs =>
    show Framed c (got ++ []) _
    rw [List.append_nil]
    by_cases hbs : bs = []
    · rw [hbs, List.append_nil]
      exact h
    · obtain ⟨hwhole, hgot⟩ := hq hbs
      obtain ⟨ps, hps, rfl, hreplies, hinput⟩ := h.between hgot
      exact ⟨ps, .rx, [], hps, (List.append_nil _).symm, hreplies.append hwhole, hinput⟩
  | @reply bs rest honline hne hsplit =>
    obtain ⟨ps, src, part, hps, rfl, hrest⟩ := h
    cases src with
    | rx =>
      obtain ⟨hwhole, hinput⟩ := hrest
      rw [hsplit, ← List.append_assoc] at hwhole
      refine ⟨ps, .rx, part ++ bs, hps, ?_, hwhole, hinput⟩
      rw [Label.sourced, sourced_append, List.append_assoc]
    | input => exact absurd hrest.1 hne
  | @input bs rest honline hnil hne hsplit =>
    obtain ⟨ps, src, part, hps, rfl, hrest⟩ := h
    cases src with
    | rx =>
      -- The packet is over.
      obtain ⟨hwhole, hinput⟩ := hrest
      rw [hnil, List.append_nil] at hwhole
      rw [hsplit] at hinput
      obtain ⟨qs, hqs, heq⟩ := Duplex.exists_packets hwhole .rx
      refine ⟨ps ++ qs, .input, bs, List.forall_mem_append.2 ⟨hps, hqs⟩, ?_, hnil, hinput⟩
      rw [Label.sourced, packets_append, heq]
    | input =>
      obtain ⟨-, hwhole⟩ := hrest
      rw [hsplit, ← List.append_assoc] at hwhole
      refine ⟨ps, .input, part ++ bs, hps, ?_, hnil, hwhole⟩
      rw [Label.sourced, sourced_append, List.append_assoc]
  | connect | close | poll | refuse =>
    show Framed c (got ++ []) _
    rw [List.append_nil]
    exact h

/-- The line is framed after a run. -/
theorem Framed.run (hrun : (line α).Run d ls d') (h : Framed c got d)
    (hq : ∀ ls₁ l ls₂, ls = ls₁ ++ l :: ls₂ → l.queued ≠ [] →
      c.Whole l.queued ∧ c.Whole ((got ++ ls₁.flatMap Label.sourced).map Prod.snd)) :
    Framed c (got ++ ls.flatMap Label.sourced) d' := by
  induction hrun generalizing got with
  | nil =>
    rw [List.flatMap_nil, List.append_nil]
    exact h
  | @cons _ _ _ l ls hst _ ih =>
    have hl := h.step hst fun hne => by
      have hnow := hq [] l ls rfl hne
      rwa [List.flatMap_nil, List.append_nil] at hnow
    rw [List.flatMap_cons, ← List.append_assoc]
    refine ih hl fun ls₁ l' ls₂ hls hne => ?_
    have hlater := hq (l :: ls₁) l' ls₂ (congrArg (l :: ·) hls) hne
    rwa [List.flatMap_cons, ← List.append_assoc] at hlater

end Duplex

/-! ## The transport -/

variable {autopilot mode frag len : Int32} {m : FuzzMode} {buf reply data : List UInt8}
  {t₀ t : EspTransport} {ops : List Op} {tr : List (Op × Outcome)}

theorem valid_packet (ctrl : UInt8) (body : List UInt8) (h : body.length < 128) :
    packetCode.Valid (ctrl :: UInt8.ofNat body.length :: body) := by
  refine ⟨ctrl, body, h.le.trans (by decide), ?_⟩
  rw [packet, byteVarint.encode_of_lt h]
  rfl

/-- The replies of the autopilot are packets. -/
theorem valid_autopilotReply (h : autopilotReply autopilot m buf len = .ok reply)
    (hne : reply ≠ []) : packetCode.Valid reply := by
  rw [autopilotReply] at h
  by_cases hoff : autopilot = 0 ∨ len ≤ 0
  · rw [if_pos hoff] at h
    exact absurd (Except.ok.inj h).symm hne
  rw [if_neg hoff, Except.bind_eq_ok_iff] at h
  obtain ⟨b, -, h⟩ := h
  dsimp only at h
  split_ifs at h
  · obtain rfl := Except.pure_eq_ok_iff.1 h
    exact valid_packet 0x20 [0x00, 0x00, 0x00] (by decide)
  · obtain rfl := Except.pure_eq_ok_iff.1 h
    exact valid_packet 0x20 [0x00, 0x00] (by decide)
  · obtain rfl := Except.pure_eq_ok_iff.1 h
    exact valid_packet 0xD0 [] (by decide)
  · obtain ⟨_ | ⟨idHi, idLo⟩, -, h⟩ := Except.bind_eq_ok_iff.1 h
    · exact absurd (Except.pure_eq_ok_iff.1 h).symm hne
    · obtain rfl := Except.pure_eq_ok_iff.1 h
      exact valid_packet 0x90 [idHi, idLo, 0x00, 0x00] (by simp)
  · obtain ⟨_ | ⟨idHi, idLo⟩, -, h⟩ := Except.bind_eq_ok_iff.1 h
    · exact absurd (Except.pure_eq_ok_iff.1 h).symm hne
    · obtain rfl := Except.pure_eq_ok_iff.1 h
      exact valid_packet 0x90 [idHi, idLo, 0x00] (by simp)
  · obtain ⟨_ | ⟨idHi, idLo⟩, -, h⟩ := Except.bind_eq_ok_iff.1 h
    · exact absurd (Except.pure_eq_ok_iff.1 h).symm hne
    · obtain rfl := Except.pure_eq_ok_iff.1 h
      exact valid_packet 0x70 [idHi, idLo] (by simp)
  · exact absurd (Except.pure_eq_ok_iff.1 h).symm hne

theorem valid_queued {op : Op} (hne : op.queued autopilot m ≠ []) :
    packetCode.Valid (op.queued autopilot m) := by
  rcases op with _ | _ | ⟨buf, len, _ | _⟩ | _ | _
  case write.true =>
    rw [Op.queued] at hne ⊢
    cases hreply : autopilotReply autopilot m buf len with
    | error e =>
      rw [hreply] at hne
      exact absurd rfl hne
    | ok reply =>
      rw [hreply] at hne
      exact valid_autopilotReply hreply hne
  all_goals exact absurd rfl hne

/-- What a read delivers, with the block it comes from. -/
def sourced : Op × Outcome → List (Source × UInt8)
  | (.read _, ⟨_, some (src, bytes)⟩) => bytes.map (src, ·)
  | _ => []

theorem sourced_lineLabel (e : Op × Outcome) : (lineLabel autopilot m e).sourced = sourced e := by
  rcases e with ⟨_ | _ | _ | _ | _, _, _ | ⟨_ | _, _⟩⟩ <;> rfl

theorem snd_sourced (e : Op × Outcome) : (sourced e).map Prod.snd = delivered e := by
  rcases e with ⟨_ | _ | _ | _ | _, _, _ | ⟨_ | _, bytes⟩⟩
  case read.some.rx => exact Duplex.snd_sourced .rx bytes
  case read.some.input => exact Duplex.snd_sourced .input bytes
  all_goals rfl

/-- The input is a stream of packets, and replies are only queued when what was
    delivered is one: then with what is pending, packets are delivered, each
    from the replies or from the input. -/
theorem delivers_packets (h₀ : Started data autopilot mode frag t₀)
    (hinput : packetCode.Whole (if mode = 5 then data.drop 1 else data))
    (hr : t₀.run ops = .ok (tr, t))
    (hwrites : ∀ tr₁ e tr₂, tr = tr₁ ++ e :: tr₂ → e.1.queued autopilot t₀.data.mode ≠ [] →
      packetCode.Whole (tr₁.flatMap delivered)) :
    ∃ ps : List (Source × List UInt8), (∀ p ∈ ps, packetCode.Valid p.2) ∧
      tr.flatMap sourced ++ (t.data.rxPending.map (.rx, ·) ++ t.data.inPending.map (.input, ·)) =
        ps.flatMap fun p => p.2.map (p.1, ·) := by
  have hsnd : ∀ tr : List (Op × Outcome), (tr.flatMap sourced).map Prod.snd =
      tr.flatMap delivered := by
    intro tr
    simp only [List.map_flatMap, snd_sourced]
  have hstart : Duplex.Framed packetCode [] ⟨false, [], if mode = 5 then data.drop 1 else data⟩ :=
    Duplex.framed_of_whole rfl hinput
  have hframed := Duplex.Framed.run (h₀.refines.run hr).1 hstart fun ls₁ l ls₂ hls hne => by
    obtain ⟨tr₁, tr', rfl, rfl, hl⟩ := List.map_eq_append_iff.1 hls
    obtain ⟨e, tr₂, rfl, rfl, rfl⟩ := List.map_eq_cons_iff.1 hl
    rw [queued_lineLabel] at hne ⊢
    refine ⟨PrefixCode.whole_encode (valid_queued hne), ?_⟩
    simp only [List.nil_append, List.flatMap_map, sourced_lineLabel, hsnd]
    exact hwrites tr₁ e tr₂ rfl hne
  obtain ⟨ps, hps, heq⟩ := hframed.exists_packets
  simp only [List.nil_append, List.flatMap_map, sourced_lineLabel] at heq
  exact ⟨ps, hps, heq⟩

/-- A SUBSCRIBE between two packets of the input. -/
theorem delivers_packets_subscribe :
    ∃ t₀ tr t, Started [0x20, 0x02, 0x00, 0x00, 0xD0, 0x00] 1 2 0 t₀ ∧
      t₀.run [.connect, .read 4, .write [0x82, 0x02, 0x00, 0x01] 4 true] = .ok (tr, t) ∧
      ∃ ps : List (Source × List UInt8), (∀ p ∈ ps, packetCode.Valid p.2) ∧
        tr.flatMap sourced ++
            (t.data.rxPending.map (.rx, ·) ++ t.data.inPending.map (.input, ·)) =
          ps.flatMap fun p => p.2.map (p.1, ·) := by
  let t₀ : EspTransport :=
    ⟨0, 0, ⟨[0x20, 0x02, 0x00, 0x00, 0xD0, 0x00], 6, 0, [], 0, 0, false, 1, .subscribe, 0⟩⟩
  have h₀ : Started [0x20, 0x02, 0x00, 0x00, 0xD0, 0x00] 1 2 0 t₀ := rfl
  obtain ⟨t, hr⟩ : ∃ t, t₀.run [.connect, .read 4,
      .write [0x82, 0x02, 0x00, 0x01] 4 true] =
      .ok ([(.connect, ⟨0, none⟩), (.read 4, ⟨4, some (.input, [0x20, 0x02, 0x00, 0x00])⟩),
        (.write [0x82, 0x02, 0x00, 0x01] 4 true, ⟨4, none⟩)], t) := ⟨_, rfl⟩
  have hfirst : packetCode.Whole [0x20, 0x02, 0x00, 0x00] :=
    PrefixCode.whole_encode (valid_packet 0x20 [0x00, 0x00] (by decide))
  have hsecond : packetCode.Whole [0xD0, 0x00] :=
    PrefixCode.whole_encode (valid_packet 0xD0 [] (by decide))
  refine ⟨_, _, t, h₀, hr, delivers_packets h₀ (hfirst.append hsecond) hr ?_⟩
  intro tr₁ e tr₂ htr hne
  rcases tr₁ with _ | ⟨e₁, _ | ⟨e₂, _ | ⟨e₃, tr₁⟩⟩⟩
  · obtain ⟨rfl, -⟩ := List.cons.inj htr
    exact absurd rfl hne
  · obtain ⟨-, htr⟩ := List.cons.inj htr
    obtain ⟨rfl, -⟩ := List.cons.inj htr
    exact absurd rfl hne
  · obtain ⟨rfl, htr'⟩ := List.cons.inj htr
    obtain ⟨rfl, -⟩ := List.cons.inj htr'
    exact hfirst
  · have hlen := congrArg List.length htr
    simp at hlen

end FirmwareFuzz
