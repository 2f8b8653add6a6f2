import FirmwareFuzz.Transport.Refine

/-!
# The streams of the transport

What the client gets over a whole run, whatever it does and whichever
reallocations fail.

* Both streams are conserved (`streams_conserved`): no byte of the queued
  replies or of the input is lost, duplicated or reordered.
* The replies a connection delivers are those pending when it was made, then
  those queued since (`session_replies`): the queue belongs to the transport,
  not to the connection.
* With autopilot off, or in handshake mode, the client gets the input, and
  nothing else unless it writes a PINGREQ (`passThrough`): the autopilot replies
  to it in every mode.
-/

namespace FirmwareFuzz

open CLang

variable {autopilot mode frag : Int32} {m : FuzzMode} {t t' : EspTransport} {d : Duplex UInt8}
  {ops : List Op} {tr : List (Op × Outcome)}

/-! ## Conservation -/

theorem trace_ops (hr : t.run ops = .ok (tr, t')) : tr.map Prod.fst = ops :=
  (Lts.exec_eq_ok_iff.1 hr).2

/-- The replies are conserved. -/
theorem Refines.run_replies (h : Refines autopilot m t d) (hr : t.run ops = .ok (tr, t')) :
    tr.flatMap (deliveredFrom .rx) ++ t'.data.rxPending =
      d.replies ++ ops.flatMap (Op.queued autopilot m) := by
  have hc := Duplex.run_replies (h.run hr).1
  simp only [List.flatMap_map, fromReplies_lineLabel, queued_lineLabel] at hc
  rw [← trace_ops hr, List.flatMap_map]
  exact hc

/-- The input is conserved. -/
theorem Refines.run_input (h : Refines autopilot m t d) (hr : t.run ops = .ok (tr, t')) :
    tr.flatMap (deliveredFrom .input) ++ t'.data.inPending = d.input := by
  have hc := Duplex.run_input (h.run hr).1
  simp only [List.flatMap_map, fromInput_lineLabel] at hc
  exact hc

/-- While nothing is queued, the replies and the input are one stream. -/
theorem Refines.run_stream (h : Refines autopilot m t d) (hr : t.run ops = .ok (tr, t'))
    (hq : ∀ op ∈ ops, op.queued autopilot m = []) :
    tr.flatMap delivered ++ (t'.data.rxPending ++ t'.data.inPending) = d.replies ++ d.input := by
  have hc := Duplex.run_stream (h.run hr).1 fun l hl => by
    obtain ⟨e, he, rfl⟩ := List.mem_map.1 hl
    rw [queued_lineLabel]
    exact hq e.1 (trace_ops hr ▸ List.mem_map_of_mem he)
  simp only [List.flatMap_map, delivered_lineLabel] at hc
  exact hc

/-- From a new handle on, every run of proper operations stays in bounds, and
    conserves both streams: what was delivered of the replies, then what is
    pending, are the replies whose push succeeded; what was delivered of the
    input, then what is left of it, is the input, without its selector byte in
    dynamic mode. -/
theorem streams_conserved (data : List UInt8) (autopilot mode frag : Int32) (ops : List Op)
    (hops : ∀ op ∈ ops, op.Proper) :
    ∃ t₀ tr t, Started data autopilot mode frag t₀ ∧ t₀.run ops = .ok (tr, t) ∧
      t.data.rxOff ≤ t.data.rxLen ∧ t.data.rxLen ≤ t.data.rx.length ∧
      t.data.inOff ≤ t.data.inLen ∧
      tr.flatMap (deliveredFrom .rx) ++ t.data.rxPending =
        ops.flatMap (Op.queued autopilot t₀.data.mode) ∧
      tr.flatMap (deliveredFrom .input) ++ t.data.inPending =
        if mode = 5 then data.drop 1 else data := by
  obtain ⟨t₀, h₀⟩ := exists_started data autopilot mode frag
  obtain ⟨tr, t, hr⟩ := run_ok h₀.refines.inv hops
  have hinv := (h₀.refines.run hr).2.inv
  exact ⟨t₀, tr, t, h₀, hr, hinv.rxOff_le, hinv.rxLen_le, hinv.inOff_le, h₀.refines.run_replies hr,
    h₀.refines.run_input hr⟩

theorem streams_conserved_pingreq :
    ∃ t₀ tr t, Started [0xAA] 1 1 0 t₀ ∧
      t₀.run [.connect, .write [0xC0, 0x00] 2 true, .read 1] = .ok (tr, t) ∧
      t.data.rxOff ≤ t.data.rxLen ∧ t.data.rxLen ≤ t.data.rx.length ∧
      t.data.inOff ≤ t.data.inLen ∧
      tr.flatMap (deliveredFrom .rx) ++ t.data.rxPending =
        [.connect, .write [0xC0, 0x00] 2 true, .read 1].flatMap (Op.queued 1 t₀.data.mode) ∧
      tr.flatMap (deliveredFrom .input) ++ t.data.inPending =
        if (1 : Int32) = 5 then [0xAA].drop 1 else [0xAA] :=
  streams_conserved [0xAA] 1 1 0 [.connect, .write [0xC0, 0x00] 2 true, .read 1] (by decide)

/-! ## Connections -/

/-- A connection, made after any run: what is pending when it is made is
    delivered first. A connection only delivers its own replies if nothing was
    pending. Whatever was done before, nothing is delivered without a connection. -/
theorem session_replies (data : List UInt8) (autopilot mode frag : Int32)
    (before during : List Op) (hbefore : ∀ op ∈ before, op.Proper)
    (hduring : ∀ op ∈ during, op.Proper) :
    ∃ t₀ tr₁ t₁ tr₂ t₂, Started data autopilot mode frag t₀ ∧ t₀.run before = .ok (tr₁, t₁) ∧
      t₁.run (.connect :: during) = .ok (tr₂, t₂) ∧
      tr₁.flatMap (deliveredFrom .rx) ++ t₁.data.rxPending =
        before.flatMap (Op.queued autopilot t₀.data.mode) ∧
      tr₂.flatMap (deliveredFrom .rx) ++ t₂.data.rxPending =
        t₁.data.rxPending ++ during.flatMap (Op.queued autopilot t₀.data.mode) ∧
      (t₁.data.rxPending = [] → tr₂.flatMap (deliveredFrom .rx) <+:
        during.flatMap (Op.queued autopilot t₀.data.mode)) ∧
      ∀ ops tr t, t₀.run ops = .ok (tr, t) → t.data.connected = false →
        ∀ len, fuzzRead t len = .ok (readTimeout t) := by
  obtain ⟨t₀, h₀⟩ := exists_started data autopilot mode frag
  obtain ⟨tr₁, t₁, hr₁⟩ := run_ok h₀.refines.inv hbefore
  have h₁ := (h₀.refines.run hr₁).2
  have hconnect : ∀ op ∈ .connect :: during, op.Proper :=
    List.forall_mem_cons.2 ⟨trivial, hduring⟩
  obtain ⟨tr₂, t₂, hr₂⟩ := run_ok h₁.inv hconnect
  have hreplies : tr₂.flatMap (deliveredFrom .rx) ++ t₂.data.rxPending =
      t₁.data.rxPending ++ during.flatMap (Op.queued autopilot t₀.data.mode) := by
    have := h₁.run_replies hr₂
    exact this
  refine ⟨t₀, tr₁, t₁, tr₂, t₂, h₀, hr₁, hr₂, h₀.refines.run_replies hr₁, hreplies, ?_, ?_⟩
  · intro hnil
    rw [hnil, List.nil_append] at hreplies
    exact ⟨_, hreplies⟩
  · intro ops tr t hr hc len
    exact fuzzRead_timeout (h₀.refines.run hr).2.inv (.inl hc)

theorem session_replies_pingreq :
    ∃ t₀ tr₁ t₁ tr₂ t₂, Started [] 1 1 0 t₀ ∧
      t₀.run [.connect, .write [0xC0, 0x00] 2 true, .read 1, .close] = .ok (tr₁, t₁) ∧
      t₁.run [.connect, .write [0x10, 0x00] 2 true, .read 3] = .ok (tr₂, t₂) ∧
      tr₁.flatMap (deliveredFrom .rx) ++ t₁.data.rxPending =
        [.connect, .write [0xC0, 0x00] 2 true, .read 1, .close].flatMap
          (Op.queued 1 t₀.data.mode) ∧
      tr₂.flatMap (deliveredFrom .rx) ++ t₂.data.rxPending =
        t₁.data.rxPending ++
          [.write [0x10, 0x00] 2 true, .read 3].flatMap (Op.queued 1 t₀.data.mode) ∧
      (t₁.data.rxPending = [] → tr₂.flatMap (deliveredFrom .rx) <+:
        [.write [0x10, 0x00] 2 true, .read 3].flatMap (Op.queued 1 t₀.data.mode)) ∧
      ∀ ops tr t, t₀.run ops = .ok (tr, t) → t.data.connected = false →
        ∀ len, fuzzRead t len = .ok (readTimeout t) :=
  session_replies [] 1 1 0 [.connect, .write [0xC0, 0x00] 2 true, .read 1, .close]
    [.write [0x10, 0x00] 2 true, .read 3] (by decide) (by decide)

/-- The first byte of a PINGRESP is queued without a connection and delivered in
    one, the second is delivered in the next connection. -/
theorem stale_reply :
    ∃ t₀ t₁ tr₁ t₂ tr₂ t₃, Started [] 1 1 0 t₀ ∧
      t₀.run [.write [0xC0, 0x00] 2 true] = .ok (tr₁, t₁) ∧ t₁.data.connected = false ∧
      t₁.data.rxPending = [0xD0, 0x00] ∧
      t₁.run [.connect, .read 1, .close] = .ok (tr₂, t₂) ∧
      tr₂.flatMap (deliveredFrom .rx) = [0xD0] ∧
      t₂.run [.connect, .read 1] =
        .ok ([(.connect, ⟨0, none⟩), (.read 1, ⟨1, some (.rx, [0x00])⟩)], t₃) :=
  ⟨_, _, _, _, _, _, rfl, rfl, rfl, rfl, rfl, rfl, rfl⟩

/-! ## Passing the input through -/

/-- The writes answered even in handshake mode: those of a PINGREQ, with
    autopilot on. -/
def Op.pushesPingresp (autopilot : Int32) : Op → Bool
  | .write (b :: _) len true => autopilot ≠ 0 && 0 < len && b &&& 0xF0 = 0xC0
  | _ => false

theorem queued_eq_nil_iff (hpass : autopilot = 0 ∨ m = .handshake) (op : Op) :
    op.queued autopilot m = [] ↔ op.pushesPingresp autopilot = false := by
  rcases op with _ | _ | ⟨_ | ⟨b, buf⟩, len, _ | _⟩ | _ | _
  any_goals exact iff_of_true rfl rfl
  · -- An empty buffer: its first byte is out of bounds, or is not looked at.
    have : Op.queued autopilot m (.write [] len true) = [] := by
      rw [Op.queued, autopilotReply]
      split_ifs <;> rfl
    exact iff_of_true this rfl
  · have hload : load (b :: buf) 0 = .ok b := rfl
    rw [Op.queued, autopilotReply, Op.pushesPingresp, hload, Except.ok_bind]
    rcases hpass with rfl | rfl
    · simp
    · -- In handshake mode, the branch of PINGREQ is the only one left.
      simp only [reduceCtorEq, or_self, and_false, if_false]
      by_cases hoff : autopilot = 0 ∨ len ≤ 0
      · have : autopilot = 0 ∨ ¬0 < len := hoff.imp_right Int32.not_lt.2
        rw [if_pos hoff]
        refine iff_of_true rfl ?_
        rcases this with h | h <;> simp [h]
      · obtain ⟨hon, hlen⟩ := not_or.1 hoff
        rw [if_neg hoff]
        by_cases hb : b &&& 0xF0 = 0xC0
        · simp [hon, Int32.not_le.1 hlen, hb, pure, Except.pure]
        · simp [hb, pure, Except.pure]

/-- With autopilot off, or in handshake mode, every run without a PINGREQ that is
    answered delivers a prefix of the input; proper operations can be run. -/
theorem passThrough (h₀ : Started data autopilot mode frag t)
    (hpass : autopilot = 0 ∨ t.data.mode = .handshake)
    (hping : ∀ op ∈ ops, op.pushesPingresp autopilot = false) :
    (∀ tr t', t.run ops = .ok (tr, t') →
      tr.flatMap delivered <+: if mode = 5 then data.drop 1 else data) ∧
    ((∀ op ∈ ops, op.Proper) → ∃ tr t', t.run ops = .ok (tr, t')) := by
  refine ⟨fun tr t' hr => ⟨_, h₀.refines.run_stream hr fun op hop => ?_⟩,
    run_ok h₀.refines.inv⟩
  exact (queued_eq_nil_iff hpass op).2 (hping op hop)

theorem passThrough_subscribe :
    ∃ t₀ tr t, Started [0x20, 0x00] 1 0 0 t₀ ∧
      t₀.run [.connect, .write [0x82, 0x02, 0x00, 0x01] 4 true, .read 1, .close] = .ok (tr, t) ∧
      tr.flatMap delivered <+: if (0 : Int32) = 5 then [0x20, 0x00].drop 1 else [0x20, 0x00] := by
  let ops : List Op := [.connect, .write [0x82, 0x02, 0x00, 0x01] 4 true, .read 1, .close]
  have h₀ : Started [0x20, 0x00] 1 0 0
      ⟨0, 0, ⟨[0x20, 0x00], 2, 0, [], 0, 0, false, 1, .handshake, 0⟩⟩ := rfl
  have hping : ∀ op ∈ ops, op.pushesPingresp 1 = false := by decide
  obtain ⟨hpass, hrun⟩ := passThrough h₀ (.inr rfl) hping
  obtain ⟨tr, t, hr⟩ := hrun (by decide)
  exact ⟨_, tr, t, h₀, hr, hpass tr t hr⟩

/-- In handshake mode, on an empty input, a PINGREQ is answered. -/
theorem handshake_pingresp :
    ∃ t₀ tr t, Started [] 1 0 0 t₀ ∧ t₀.data.mode = .handshake ∧
      t₀.run [.connect, .write [0xC0, 0x00] 2 true, .read 2] = .ok (tr, t) ∧
      tr.flatMap delivered = [0xD0, 0x00] ∧ ¬tr.flatMap delivered <+: [] :=
  ⟨_, _, _, rfl, rfl, rfl, rfl, by decide⟩

end FirmwareFuzz
