import FirmwareFuzz.Mqtt.Framing

/-!
# Reading a PUBLISH

The two builders of a PUBLISH, for MQTT 3.1.1 and MQTT 5, take the same
arguments (`Publish`), and assemble a packet from the same fields
(`build_eq_ok_iff`). A receiver reads these fields off by the layout of the
packet (`readPublish`): the flags in the control byte, and then one field after
the other off the front of the body, each telling where it ends; the payload is
what is left.

Whatever lengths the fields have, the receiver gets back the arguments the
packet carries (`readPublish_build`).
-/

namespace FirmwareFuzz

inductive MqttVersion
  | v311
  | v5
  deriving DecidableEq, Repr

/-! ## Fields -/

/-- A number of two bytes. -/
def takeUInt16 : List UInt8 → Option (ℕ × List UInt8)
  | hi :: lo :: s => some (256 * hi.toNat + lo.toNat, s)
  | _ => none

def takeBytes (n : ℕ) (s : List UInt8) : Option (List UInt8 × List UInt8) :=
  if n ≤ s.length then some (s.take n, s.drop n) else none

/-- A variable-length integer, of at most four bytes. -/
def takeVarint (s : List UInt8) : Option (ℕ × List UInt8) := byteVarint.read 4 s

def codePoint (c : Char) : Fin 0x110000 :=
  ⟨c.toNat, by rcases c.valid with h | h <;> simp only [Char.toNat] <;> omega⟩

/-- `b.decode("utf-8")`. -/
def decodeUtf8 (b : List UInt8) : Option PyStr :=
  b.toByteArray.utf8Decode?.map fun cs => cs.toList.map codePoint

/-- A string, behind its length. -/
def takeUtf8 (s : List UInt8) : Option (PyStr × List UInt8) := do
  let (n, s) ← takeUInt16 s
  let (utf8, s) ← takeBytes n s
  return (← decodeUtf8 utf8, s)

theorem takeUInt16_bytes2 {n : ℕ} (hn : n ≤ 65535) (s : List UInt8) :
    takeUInt16 (bytes2 n ++ s) = some (n, s) := by
  have hhi : n / 256 < UInt8.size := by
    rw [UInt8.size]
    omega
  have hlo : n % 256 < UInt8.size := Nat.mod_lt _ (by decide)
  rw [bytes2, List.cons_append, List.cons_append, List.nil_append, takeUInt16,
    UInt8.toNat_ofNat_of_lt' hhi, UInt8.toNat_ofNat_of_lt' hlo, Nat.div_add_mod]

theorem takeBytes_append (b s : List UInt8) : takeBytes b.length (b ++ s) = some (b, s) := by
  rw [takeBytes, if_pos (by simp), List.take_left, List.drop_left]

theorem takeVarint_encode {n : ℕ} (hn : n ≤ maxRemainingLength) (s : List UInt8) :
    takeVarint (byteVarint.encode n ++ s) = some (n, s) :=
  byteVarint.read_encode (k := 3) (Nat.lt_succ_of_le hn) s

theorem encodeUtf8From_eq_ok {i : ℕ} {s : PyStr} {b : List UInt8}
    (h : encodeUtf8From i s = .ok b) :
    ∃ cs : List Char, cs.map codePoint = s ∧ cs.flatMap String.utf8EncodeChar = b := by
  induction s generalizing i b with
  | nil => exact ⟨[], rfl, Except.ok.inj h⟩
  | cons c s ih =>
    rw [encodeUtf8From] at h
    split_ifs at h with hc
    obtain ⟨rest, hrest, h⟩ := Except.bind_eq_ok_iff.1 h
    obtain ⟨cs, rfl, rfl⟩ := ih hrest
    exact ⟨Char.ofNatAux c.1 hc :: cs, rfl, Except.ok.inj h⟩

/-- An encoded string is the encoding of its characters. -/
theorem encodeUtf8_eq_ok {s : PyStr} {b : List UInt8} (h : encodeUtf8 s = .ok b) :
    ∃ cs : List Char, cs.map codePoint = s ∧ cs.flatMap String.utf8EncodeChar = b :=
  encodeUtf8From_eq_ok h

theorem decodeUtf8_of_encodeUtf8 {s : PyStr} {b : List UInt8} (h : encodeUtf8 s = .ok b) :
    decodeUtf8 b = some s := by
  obtain ⟨cs, rfl, rfl⟩ := encodeUtf8_eq_ok h
  have hdecode := List.utf8Decode?_utf8Encode (l := cs)
  rw [List.utf8Encode] at hdecode
  rw [decodeUtf8, hdecode, Option.map_some]

theorem takeUtf8_encUtf8 {topic : PyStr} {b : List UInt8} (h : encUtf8 topic = .ok b)
    (s : List UInt8) : takeUtf8 (b ++ s) = some (topic, s) := by
  obtain ⟨utf8, henc, hlen, rfl⟩ := encUtf8_eq_ok_iff.1 h
  rw [takeUtf8, List.append_assoc, takeUInt16_bytes2 hlen]
  simp [takeBytes_append, decodeUtf8_of_encodeUtf8 henc]

/-! ## Building -/

/-- The arguments of a PUBLISH; those for MQTT 3.1.1 have no properties. -/
structure Publish where
  topic : PyStr
  payload : List UInt8
  qos : ℤ
  dup : Bool
  retain : Bool
  pktId : Option ℤ
  properties : List UInt8
  deriving DecidableEq

def Publish.build (x : Publish) : MqttVersion → Except PyError (List UInt8)
  | .v311 => pktPublish x.topic x.payload x.qos x.dup x.retain x.pktId
  | .v5 => pkt5Publish x.topic x.payload x.qos x.dup x.retain x.pktId x.properties

/-- The control byte of a PUBLISH. -/
def publishCtrl (qos : ℤ) (dup retain : Bool) : ℕ :=
  let ctrl := if dup then 0x30 ||| 0x08 else 0x30
  let ctrl := if qos = 1 then ctrl ||| 0x02 else if qos = 2 then ctrl ||| 0x04 else ctrl
  if retain then ctrl ||| 0x01 else ctrl

/-- The bytes of the packet identifier, none at QoS 0. -/
def pktIdBytes (qos : ℤ) (pktId : Option ℤ) : Except PyError (List UInt8) :=
  if qos > 0 then
    match pktId with
    | none => .error (.valueError "pkt_id required for qos>0")
    | some pktId => toBytes2 pktId
  else .ok []

/-- The bytes of the properties, with their length. -/
def propertyBytes (v : MqttVersion) (properties : List UInt8) : List UInt8 :=
  match v with
  | .v311 => []
  | .v5 => byteVarint.encode properties.length ++ properties

theorem publishHeader_eq {qos : ℤ} (hq : qos = 0 ∨ qos = 1 ∨ qos = 2) (topic : PyStr)
    (dup retain : Bool) (pktId : Option ℤ) :
    publishHeader topic qos dup retain pktId = do
      let name ← encUtf8 topic
      let id ← pktIdBytes qos pktId
      return (publishCtrl qos dup retain, name ++ id) := by
  have hguard : ¬(qos ≠ 0 ∧ qos ≠ 1 ∧ qos ≠ 2) := by tauto
  rw [publishHeader, if_neg hguard]
  refine congrArg (encUtf8 topic >>= ·) (funext fun name => ?_)
  by_cases hpos : qos > 0
  · simp only [pktIdBytes, if_pos hpos]
    cases pktId <;> rfl
  · simp only [pktIdBytes, if_neg hpos, Except.ok_bind, List.append_nil]
    rfl

theorem qos_of_publishHeader {topic : PyStr} {qos : ℤ} {dup retain : Bool} {pktId : Option ℤ}
    {x : ℤ × List UInt8} (h : publishHeader topic qos dup retain pktId = .ok x) :
    qos = 0 ∨ qos = 1 ∨ qos = 2 := by
  by_contra hq
  push Not at hq
  rw [publishHeader, if_pos hq] at h
  exact nomatch h

theorem publishCtrl_lt (qos : ℤ) (dup retain : Bool) : publishCtrl qos dup retain < 256 := by
  rw [publishCtrl]
  cases dup <;> cases retain <;> split_ifs <;> decide

namespace Publish

variable {x : Publish} {v : MqttVersion} {p : List UInt8}

/-- A builder of a PUBLISH writes its fields one after the other, and raises if
    it cannot write one of them. -/
theorem build_eq_ok_iff :
    x.build v = .ok p ↔
      (x.qos = 0 ∨ x.qos = 1 ∨ x.qos = 2) ∧ ∃ name id, encUtf8 x.topic = .ok name ∧
        pktIdBytes x.qos x.pktId = .ok id ∧
        packet (UInt8.ofNat (publishCtrl x.qos x.dup x.retain))
          (name ++ (id ++ (propertyBytes v x.properties ++ x.payload))) = p := by
  by_cases hq : x.qos = 0 ∨ x.qos = 1 ∨ x.qos = 2
  · have hctrl := publishCtrl_lt x.qos x.dup x.retain
    have hfh : ∀ n, fh (publishCtrl x.qos x.dup x.retain) n =
        .ok (UInt8.ofNat (publishCtrl x.qos x.dup x.retain) :: byteVarint.encode n) := fun n =>
      fh_eq_ok_iff.2 ⟨by omega, rfl⟩
    rw [and_iff_right hq]
    cases v
    · simp only [build, pktPublish, publishHeader_eq hq, bind_assoc, pure_bind, hfh,
        Except.ok_bind, Except.bind_eq_ok_iff, Except.pure_eq_ok_iff, propertyBytes,
        exists_and_left, packet, List.cons_append, List.nil_append, List.append_assoc,
        List.length_append, Nat.add_assoc]
    · simp only [build, pkt5Publish, publishHeader_eq hq, bind_assoc, pure_bind, hfh,
        Except.ok_bind, Except.bind_eq_ok_iff, Except.pure_eq_ok_iff, propertyBytes,
        encRemainingLength_ofNat, exists_and_left, packet, List.cons_append, List.append_assoc,
        List.length_append, Nat.add_assoc]
  · refine iff_of_false (fun h => hq ?_) fun h => hq h.1
    cases v
    · obtain ⟨_, hheader, _⟩ := Except.bind_eq_ok_iff.1 h
      exact qos_of_publishHeader hheader
    · obtain ⟨_, hheader, _⟩ := Except.bind_eq_ok_iff.1 h
      exact qos_of_publishHeader hheader

end Publish

/-! ## Reading -/

/-- A packet identifier, above QoS 0. -/
def takePktId (qos : ℤ) (s : List UInt8) : Option (Option ℤ × List UInt8) :=
  if qos > 0 then (takeUInt16 s).map fun (n, s) => (some (n : ℤ), s) else some (none, s)

def takeProperties : MqttVersion → List UInt8 → Option (List UInt8 × List UInt8)
  | .v311, s => some ([], s)
  | .v5, s => do
    let (n, s) ← takeVarint s
    takeBytes n s

/-- The PUBLISH in a packet, by the layout of MQTT. -/
def readPublish (v : MqttVersion) : List UInt8 → Option Publish
  | [] => none
  | ctrl :: s => do
    let (n, s) ← takeVarint s
    if ctrl &&& 0xF0 ≠ 0x30 ∨ s.length ≠ n then none
    else
      let qos : ℤ := ((ctrl >>> 1) &&& 0x03).toNat
      let (topic, s) ← takeUtf8 s
      let (pktId, s) ← takePktId qos s
      let (properties, payload) ← takeProperties v s
      return { topic := topic, payload := payload, qos := qos, dup := ctrl &&& 0x08 != 0,
               retain := ctrl &&& 0x01 != 0, pktId := pktId, properties := properties }

/-- The flags are read back from the control byte. -/
theorem flags_publishCtrl {qos : ℤ} (hq : qos = 0 ∨ qos = 1 ∨ qos = 2) (dup retain : Bool) :
    UInt8.ofNat (publishCtrl qos dup retain) &&& 0xF0 = 0x30 ∧
      (((UInt8.ofNat (publishCtrl qos dup retain) >>> 1) &&& 0x03).toNat : ℤ) = qos ∧
      (UInt8.ofNat (publishCtrl qos dup retain) &&& 0x08 != 0) = dup ∧
      (UInt8.ofNat (publishCtrl qos dup retain) &&& 0x01 != 0) = retain := by
  rcases hq with rfl | rfl | rfl <;> cases dup <;> cases retain <;> decide

theorem takePktId_pktIdBytes {qos : ℤ} {pktId : Option ℤ} {b : List UInt8}
    (h : pktIdBytes qos pktId = .ok b) (s : List UInt8) :
    takePktId qos (b ++ s) = some (if qos > 0 then pktId else none, s) := by
  rw [takePktId]
  by_cases hpos : qos > 0
  · simp only [pktIdBytes, if_pos hpos] at h ⊢
    cases pktId with
    | none => exact nomatch h
    | some id =>
      obtain ⟨⟨hle, hle'⟩, rfl⟩ := toBytes2_eq_ok_iff.1 h
      rw [takeUInt16_bytes2 (by omega), Option.map_some, Int.toNat_of_nonneg hle]
  · simp only [pktIdBytes, if_neg hpos, Except.ok.injEq] at h ⊢
    rw [← h, List.nil_append]

namespace Publish

/-- What a packet carries of the arguments. -/
def carried (x : Publish) (v : MqttVersion) : Publish :=
  { x with pktId := if x.qos > 0 then x.pktId else none,
           properties := match v with | .v311 => [] | .v5 => x.properties }

end Publish

theorem takeProperties_propertyBytes {v : MqttVersion} {x : Publish}
    (h : (propertyBytes v x.properties).length ≤ maxRemainingLength) (s : List UInt8) :
    takeProperties v (propertyBytes v x.properties ++ s) = some ((x.carried v).properties, s) := by
  cases v with
  | v311 => rfl
  | v5 =>
    simp only [propertyBytes, List.length_append] at h
    rw [takeProperties, propertyBytes, List.append_assoc, takeVarint_encode (by omega)]
    exact takeBytes_append _ _

/-- What a builder writes is read back, as long as the Remaining Length covers it. -/
theorem readPublish_of_build {x : Publish} {v : MqttVersion} {p : List UInt8}
    (h : x.build v = .ok p) (hbody : (packetBody p).length ≤ maxRemainingLength) :
    readPublish v p = some (x.carried v) := by
  obtain ⟨hq, name, id, hname, hid, rfl⟩ := Publish.build_eq_ok_iff.1 h
  rw [packetBody_packet] at hbody
  obtain ⟨htype, hqos, hdup, hretain⟩ := flags_publishCtrl hq x.dup x.retain
  have hproperties : (propertyBytes v x.properties).length ≤ maxRemainingLength := by
    simp only [List.length_append] at hbody
    omega
  rw [packet, readPublish, takeVarint_encode hbody]
  simp only [Option.bind_eq_bind, Option.bind_some, htype, hqos, ne_eq, not_true_eq_false, or_self,
    if_false, takeUtf8_encUtf8 hname, takePktId_pktIdBytes hid,
    takeProperties_propertyBytes hproperties, hdup, hretain]
  rfl

namespace Publish

/-- The arguments a builder can write: a topic with a UTF-8 form that fits its
    length, a QoS, and a packet identifier above QoS 0. -/
structure Valid (x : Publish) : Prop where
  topic : ∃ utf8, encodeUtf8 x.topic = .ok utf8 ∧ utf8.length ≤ 65535
  qos : x.qos = 0 ∨ x.qos = 1 ∨ x.qos = 2
  pktId : 0 < x.qos → ∃ id, x.pktId = some id ∧ 0 ≤ id ∧ id ≤ 65535

theorem Valid.exists_build {x : Publish} (hx : x.Valid) (v : MqttVersion) :
    ∃ p, x.build v = .ok p := by
  obtain ⟨utf8, hutf8, hlen⟩ := hx.topic
  have hid : ∃ id, pktIdBytes x.qos x.pktId = .ok id := by
    rw [pktIdBytes.eq_def]
    split_ifs with hpos
    · obtain ⟨id, hid, hle⟩ := hx.pktId hpos
      rw [hid]
      exact ⟨_, toBytes2_eq_ok_iff.2 ⟨hle, rfl⟩⟩
    · exact ⟨[], rfl⟩
  obtain ⟨id, hid⟩ := hid
  exact ⟨_, build_eq_ok_iff.2
    ⟨hx.qos, _, id, encUtf8_eq_ok_iff.2 ⟨utf8, hutf8, hlen, rfl⟩, hid, rfl⟩⟩

end Publish

/-- The builders of a PUBLISH are inverted by reading the packet: the arguments
    it carries come back, hence no other arguments give the same packet. -/
theorem readPublish_build (v : MqttVersion) (x : Publish) (hx : x.Valid) :
    ∃ p, x.build v = .ok p ∧ ((packetBody p).length ≤ maxRemainingLength →
      readPublish v p = some (x.carried v) ∧
        ∀ y : Publish, y.build v = .ok p → y.carried v = x.carried v) := by
  obtain ⟨p, hp⟩ := hx.exists_build v
  refine ⟨p, hp, fun hbody => ?_⟩
  have hread := readPublish_of_build hp hbody
  refine ⟨hread, fun y hy => ?_⟩
  have hy' := readPublish_of_build hy hbody
  exact Option.some.inj (hy'.symm.trans hread)

theorem readPublish_build_qos1 :
    readPublish .v5 [0x3A, 0x09, 0x00, 0x01, 0x74, 0x12, 0x34, 0x02, 0x01, 0x01, 0x68] =
      some ⟨[0x74], [0x68], 1, true, false, some 0x1234, [0x01, 0x01]⟩ := by
  have hvalid : (⟨[0x74], [0x68], 1, true, false, some 0x1234, [0x01, 0x01]⟩ : Publish).Valid :=
    ⟨⟨[0x74], by decide, by decide⟩, .inr (.inl rfl), fun _ => ⟨0x1234, rfl, by decide, by decide⟩⟩
  obtain ⟨p, hp, h⟩ := readPublish_build .v5 _ hvalid
  have hbuild : (⟨[0x74], [0x68], 1, true, false, some 0x1234, [0x01, 0x01]⟩ : Publish).build .v5 =
      .ok [0x3A, 0x09, 0x00, 0x01, 0x74, 0x12, 0x34, 0x02, 0x01, 0x01, 0x68] := by decide +kernel
  obtain rfl := Except.ok.inj (hbuild.symm.trans hp)
  exact (h (by decide)).1

end FirmwareFuzz
