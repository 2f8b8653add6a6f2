import FirmwareFuzz.Mqtt.Publish

/-!
# Valid packets

The builders check few of the rules MQTT has for the packets they are for.
Reading a packet by its control byte and its body, these are rules on its
lengths, its packet identifier, its flags and its codes (`ValidPacket`).

A builder returns what it can write (`Call.exists_run_iff`). It returns valid
packets only if the arguments it can write obey the rules
(`Call.valid_iff`); on others it returns an invalid packet without raising.
-/

namespace FirmwareFuzz

/-! ## Rules -/

/-- The number of bytes of the variable-length integer at the front. -/
def varintSize (s : List UInt8) : ℕ := (s.takeWhile fun b => b &&& 0x80 != 0).length + 1

/-- The type of a packet: 2 for a CONNACK, 3 for a PUBLISH, 4 to 7 for its
    acknowledgements, 9 for a SUBACK. -/
def typeOf (ctrl : UInt8) : ℕ := ctrl.toNat / 16

def qosOf (ctrl : UInt8) : ℕ := ((ctrl >>> 1) &&& 0x03).toNat

def dupOf (ctrl : UInt8) : Bool := ctrl &&& 0x08 != 0

/-- The size of the topic of a PUBLISH, with its length. -/
def topicSize (body : List UInt8) : ℕ := 2 + ((takeUInt16 body).map Prod.fst).getD 0

/-- The packet identifier, in the packets that have one. -/
def pktIdField (ctrl : UInt8) (body : List UInt8) : Option ℕ :=
  if typeOf ctrl = 3 then
    if qosOf ctrl = 0 then none else (takeUInt16 (body.drop (topicSize body))).map Prod.fst
  else if 4 ≤ typeOf ctrl ∧ typeOf ctrl ≤ 11 then (takeUInt16 body).map Prod.fst
  else none

/-- The body from its property length on, in the packets that have one. -/
def propertyField (v : MqttVersion) (ctrl : UInt8) (body : List UInt8) : Option (List UInt8) :=
  match v with
  | .v311 => none
  | .v5 =>
    if typeOf ctrl = 3 then some (body.drop (topicSize body + if qosOf ctrl = 0 then 0 else 2))
    else if typeOf ctrl = 2 ∨ typeOf ctrl = 9 then some (body.drop 2)
    else if 4 ≤ typeOf ctrl ∧ typeOf ctrl ≤ 7 ∧ 3 < body.length then some (body.drop 3)
    else none

/-- The return codes of a SUBACK. -/
def codesField (v : MqttVersion) (body : List UInt8) : List UInt8 :=
  match v with
  | .v311 => body.drop 2
  | .v5 =>
    let (n, k) := byteVarint.scan 4 (body.drop 2)
    body.drop (2 + k + n)

/-- The rules on a packet with control byte `ctrl` and the given body. -/
structure Rules (v : MqttVersion) (ctrl : UInt8) (body : List UInt8) : Prop where
  propertyLength : ∀ s, propertyField v ctrl body = some s → varintSize s ≤ 4
  pktId : pktIdField ctrl body ≠ some 0
  dup : typeOf ctrl = 3 → qosOf ctrl = 0 → dupOf ctrl = false
  codes : typeOf ctrl = 9 → codesField v body ≠ []
  /-- A CONNACK has its session-present flag in its first byte, and its return code
      in the second one. -/
  sessionPresent :
    typeOf ctrl = 2 → ∀ rc, body[1]? = some rc → rc ≠ 0 → body.headD 0 &&& 0x01 = 0

/-- The rules on a packet. -/
structure ValidPacket (v : MqttVersion) (p : List UInt8) : Prop where
  remainingLength : varintSize p.tail ≤ 4
  rules : Rules v (p.headD 0) (packetBody p)

theorem varintSize_encode (n : ℕ) (s : List UInt8) :
    varintSize (byteVarint.encode n ++ s) = (byteVarint.encode n).length :=
  byteVarint.length_takeWhile_encode n s

theorem length_encode_le_four_iff {n : ℕ} :
    (byteVarint.encode n).length ≤ 4 ↔ n ≤ maxRemainingLength :=
  (byteVarint.length_encode_le_iff (k := 3)).trans Nat.lt_succ_iff

theorem validPacket_packet_iff {v : MqttVersion} {ctrl : UInt8} {body : List UInt8} :
    ValidPacket v (packet ctrl body) ↔ body.length ≤ maxRemainingLength ∧ Rules v ctrl body := by
  have hsize : varintSize (packet ctrl body).tail ≤ 4 ↔ body.length ≤ maxRemainingLength := by
    rw [packet, List.tail_cons, varintSize_encode, length_encode_le_four_iff]
  constructor
  · rintro ⟨hlen, hrules⟩
    rw [packetBody_packet] at hrules
    exact ⟨hsize.1 hlen, hrules⟩
  · rintro ⟨hlen, hrules⟩
    refine ⟨hsize.2 hlen, ?_⟩
    rwa [packetBody_packet]

theorem takeUInt16_fst {id : ℕ} (hid : id ≤ 65535) (s : List UInt8) :
    (takeUInt16 (bytes2 id ++ s)).map Prod.fst = some id := by
  rw [takeUInt16_bytes2 hid, Option.map_some]

/-- The property length, where the body goes on with properties. -/
theorem propertyLength_propertyBytes {v : MqttVersion} {props : List UInt8}
    (h : (propertyBytes v props).length ≤ maxRemainingLength) (hv : v = .v5) (s : List UInt8) :
    varintSize (propertyBytes v props ++ s) ≤ 4 := by
  subst hv
  simp only [propertyBytes, List.length_append] at h
  rw [propertyBytes, List.append_assoc, varintSize_encode, length_encode_le_four_iff]
  omega

theorem rules_connack_iff {v : MqttVersion} {props : List UInt8}
    (h : (propertyBytes v props).length ≤ maxRemainingLength) (flags rc : UInt8) :
    Rules v 0x20 (flags :: rc :: propertyBytes v props) ↔ (rc ≠ 0 → flags &&& 0x01 = 0) := by
  have htype : typeOf 0x20 = 2 := rfl
  have hsize := propertyLength_propertyBytes h
  constructor
  · intro hrules
    exact hrules.sessionPresent rfl rc rfl
  · intro hrc
    refine ⟨fun s hs => ?_, ?_, fun h' => absurd h' (by decide),
      fun h' => absurd h' (by decide), ?_⟩
    · cases v with
      | v311 => exact absurd hs nofun
      | v5 =>
        obtain rfl := Option.some.inj hs
        simpa using hsize rfl []
    · exact nofun
    · rintro _ rc' hrc' hne
      obtain rfl := Option.some.inj hrc'
      exact hrc hne

theorem rules_ack_iff {ctrl : UInt8} (htype : 4 ≤ typeOf ctrl ∧ typeOf ctrl ≤ 7) {id : ℕ}
    (hid : id ≤ 65535) : Rules .v311 ctrl (bytes2 id) ↔ id ≠ 0 := by
  have hpublish : typeOf ctrl ≠ 3 := by omega
  have hfield : pktIdField ctrl (bytes2 id) = some id := by
    rw [pktIdField, if_neg hpublish, if_pos (by omega)]
    simpa using takeUInt16_fst hid []
  constructor
  · intro hrules h
    exact hrules.pktId (h ▸ hfield)
  · intro hne
    refine ⟨nofun, ?_, fun h => absurd h hpublish, fun h => ?_, fun h => ?_⟩
    · rw [hfield, Ne, Option.some_inj]
      exact hne
    · omega
    · omega

theorem codesField_eq {v : MqttVersion} {props : List UInt8}
    (h : (propertyBytes v props).length ≤ maxRemainingLength) (id : ℕ) (codes : List UInt8) :
    codesField v (bytes2 id ++ (propertyBytes v props ++ codes)) = codes := by
  cases v with
  | v311 => rfl
  | v5 =>
    simp only [propertyBytes, List.length_append] at h
    have hle : props.length ≤ maxRemainingLength := by omega
    have hlt : props.length < 128 ^ (3 + 1) := Nat.lt_succ_of_le hle
    have hscan := byteVarint.scan_encode hlt (props ++ codes)
    have hdrop : (bytes2 id ++ (propertyBytes .v5 props ++ codes)).drop 2 =
        byteVarint.encode props.length ++ (props ++ codes) := by
      rw [propertyBytes, List.append_assoc]
      rfl
    simp only [codesField]
    rw [hdrop, hscan]
    simp only
    rw [Nat.add_assoc, ← List.drop_drop, hdrop, ← List.drop_drop, List.drop_left, List.drop_left]

theorem rules_suback_iff {v : MqttVersion} {props : List UInt8}
    (h : (propertyBytes v props).length ≤ maxRemainingLength) {id : ℕ} (hid : id ≤ 65535)
    (codes : List UInt8) :
    Rules v 0x90 (bytes2 id ++ (propertyBytes v props ++ codes)) ↔ id ≠ 0 ∧ codes ≠ [] := by
  have hfield : pktIdField 0x90 (bytes2 id ++ (propertyBytes v props ++ codes)) = some id :=
    takeUInt16_fst hid _
  have hcodes := codesField_eq h id codes
  constructor
  · intro hrules
    refine ⟨fun hzero => hrules.pktId (hzero ▸ hfield), ?_⟩
    have := hrules.codes rfl
    rwa [hcodes] at this
  · rintro ⟨hne, hnil⟩
    refine ⟨fun s hs => ?_, ?_, fun h => absurd h (by decide), fun _ => ?_,
      fun h => absurd h (by decide)⟩
    · cases v with
      | v311 => exact absurd hs nofun
      | v5 =>
        obtain rfl := Option.some.inj hs
        exact propertyLength_propertyBytes h rfl codes
    · rw [hfield, Ne, Option.some_inj]
      exact hne
    · rwa [hcodes]

theorem fields_publishCtrl {qos : ℤ} (hq : qos = 0 ∨ qos = 1 ∨ qos = 2) (dup retain : Bool) :
    typeOf (UInt8.ofNat (publishCtrl qos dup retain)) = 3 ∧
      (qosOf (UInt8.ofNat (publishCtrl qos dup retain)) = 0 ↔ qos = 0) ∧
      dupOf (UInt8.ofNat (publishCtrl qos dup retain)) = dup := by
  rcases hq with rfl | rfl | rfl <;> cases dup <;> cases retain <;> decide

theorem topicSize_encUtf8 {topic : PyStr} {name : List UInt8} (h : encUtf8 topic = .ok name)
    (s : List UInt8) : topicSize (name ++ s) = name.length := by
  obtain ⟨utf8, _, hlen, rfl⟩ := encUtf8_eq_ok_iff.1 h
  rw [topicSize, List.append_assoc, takeUInt16_fst hlen, Option.getD_some, List.length_append]
  rfl

theorem length_pktIdBytes {qos : ℤ} {pktId : Option ℤ} {b : List UInt8}
    (h : pktIdBytes qos pktId = .ok b) : b.length = if qos > 0 then 2 else 0 := by
  by_cases hpos : qos > 0
  · simp only [pktIdBytes, if_pos hpos] at h ⊢
    cases pktId with
    | none => cases h
    | some id =>
      obtain ⟨_, rfl⟩ := toBytes2_eq_ok_iff.1 h
      rfl
  · simp only [pktIdBytes, if_neg hpos, Except.ok.injEq] at h ⊢
    rw [← h, List.length_nil]

theorem takeUInt16_pktIdBytes {qos : ℤ} (hpos : qos > 0) {pktId : Option ℤ} {b : List UInt8}
    (h : pktIdBytes qos pktId = .ok b) (s : List UInt8) :
    (takeUInt16 (b ++ s)).map Prod.fst ≠ some 0 ↔ pktId ≠ some 0 := by
  have htake := takePktId_pktIdBytes h s
  simp only [takePktId, if_pos hpos, Option.map_eq_some_iff] at htake
  obtain ⟨⟨n, s'⟩, htake, heq⟩ := htake
  rw [htake, ← (Prod.mk.inj heq).1]
  simp

/-- The packet identifier of a PUBLISH, above QoS 0, is behind its topic. -/
theorem pktIdField_publish {x : Publish} {ctrl : UInt8} {name id : List UInt8}
    (hq : x.qos = 0 ∨ x.qos = 1 ∨ x.qos = 2) (htype : typeOf ctrl = 3)
    (hqos : qosOf ctrl = 0 ↔ x.qos = 0) (hname : encUtf8 x.topic = .ok name)
    (hid : pktIdBytes x.qos x.pktId = .ok id) (s : List UInt8) :
    pktIdField ctrl (name ++ (id ++ s)) ≠ some 0 ↔ (x.qos > 0 → x.pktId ≠ some 0) := by
  rw [pktIdField, if_pos htype, topicSize_encUtf8 hname, List.drop_left]
  by_cases hpos : x.qos > 0
  · rw [if_neg (by omega), takeUInt16_pktIdBytes hpos hid]
    exact ⟨fun h _ => h, fun h => h hpos⟩
  · rw [if_pos (by omega)]
    exact iff_of_true nofun fun h => absurd h hpos

/-- The properties of a PUBLISH are behind its packet identifier. -/
theorem propertyField_publish {x : Publish} {ctrl : UInt8} {name id : List UInt8}
    (hq : x.qos = 0 ∨ x.qos = 1 ∨ x.qos = 2) (htype : typeOf ctrl = 3)
    (hqos : qosOf ctrl = 0 ↔ x.qos = 0) (hname : encUtf8 x.topic = .ok name)
    (hid : pktIdBytes x.qos x.pktId = .ok id) (s : List UInt8) :
    propertyField .v5 ctrl (name ++ (id ++ s)) = some s := by
  have hlen : id.length = if qosOf ctrl = 0 then 0 else 2 := by
    rw [length_pktIdBytes hid]
    split_ifs <;> omega
  rw [propertyField, if_pos htype, topicSize_encUtf8 hname, ← hlen, ← List.drop_drop,
    List.drop_left, List.drop_left]

theorem rules_publish_iff {x : Publish} {v : MqttVersion} {name id : List UInt8}
    (hq : x.qos = 0 ∨ x.qos = 1 ∨ x.qos = 2) (hname : encUtf8 x.topic = .ok name)
    (hid : pktIdBytes x.qos x.pktId = .ok id)
    (hprops : (propertyBytes v x.properties).length ≤ maxRemainingLength) :
    Rules v (UInt8.ofNat (publishCtrl x.qos x.dup x.retain))
        (name ++ (id ++ (propertyBytes v x.properties ++ x.payload))) ↔
      (x.qos = 0 → x.dup = false) ∧ (x.qos > 0 → x.pktId ≠ some 0) := by
  obtain ⟨htype, hqos, hdup⟩ := fields_publishCtrl hq x.dup x.retain
  generalize UInt8.ofNat (publishCtrl x.qos x.dup x.retain) = ctrl at *
  have hpktId := pktIdField_publish hq htype hqos hname hid
    (propertyBytes v x.properties ++ x.payload)
  constructor
  · intro hrules
    exact ⟨fun h => hdup ▸ hrules.dup htype (hqos.2 h), hpktId.1 hrules.pktId⟩
  · rintro ⟨hd, hi⟩
    refine ⟨fun s hs => ?_, hpktId.2 hi, fun _ h => hdup.trans (hd (hqos.1 h)), fun h => by omega,
      fun h => by omega⟩
    cases v with
    | v311 => exact absurd hs nofun
    | v5 =>
      rw [propertyField_publish hq htype hqos hname hid, Option.some_inj] at hs
      subst hs
      exact propertyLength_propertyBytes hprops rfl x.payload

/-! ## Calls -/

/-- The calls of the builders, with all their arguments. -/
inductive Call
  | pktConnack (sessionPresent : Bool) (rc : ℤ)
  | pktPuback (pktId : ℤ)
  | pktPubrec (pktId : ℤ)
  | pktPubrel (pktId : ℤ)
  | pktPubcomp (pktId : ℤ)
  | pktSuback (pktId : ℤ) (grants : List ℤ)
  | pktPublish (x : Publish)
  | pkt5Connack (sessionPresent : Bool) (reasonCode : ℤ) (properties : List UInt8)
  | pkt5Suback (pktId : ℤ) (reasonCodes : List ℤ) (properties : List UInt8)
  | pkt5PubackLike (ctrl : ℤ) (pktId : ℤ) (includeReason : Bool)
  | pkt5Publish (x : Publish)

namespace Call

def version : Call → MqttVersion
  | pkt5Connack .. | pkt5Suback .. | pkt5PubackLike .. | pkt5Publish _ => .v5
  | _ => .v311

def run : Call → Except PyError (List UInt8)
  | pktConnack sp rc => FirmwareFuzz.pktConnack sp rc
  | pktPuback id => FirmwareFuzz.pktPuback id
  | pktPubrec id => FirmwareFuzz.pktPubrec id
  | pktPubrel id => FirmwareFuzz.pktPubrel id
  | pktPubcomp id => FirmwareFuzz.pktPubcomp id
  | pktSuback id grants => FirmwareFuzz.pktSuback id grants
  | pktPublish x => x.build .v311
  | pkt5Connack sp rc props => FirmwareFuzz.pkt5Connack sp rc props
  | pkt5Suback id codes props => FirmwareFuzz.pkt5Suback id codes props
  | pkt5PubackLike ctrl id full => FirmwareFuzz.pkt5PubackLike ctrl id full
  | pkt5Publish x => x.build .v5

/-- A packet identifier that fits its two bytes. -/
def IsId (id : ℤ) : Prop := 0 ≤ id ∧ id ≤ 65535

/-- A code that fits its byte. -/
def IsCode (rc : ℤ) : Prop := 0 ≤ rc ∧ rc < 256

/-- The builder can write the arguments. -/
def Writable : Call → Prop
  | pktConnack _ rc => IsCode rc
  | pktPuback id | pktPubrec id | pktPubrel id | pktPubcomp id => IsId id
  | pktSuback id grants => IsId id ∧ ∀ rc ∈ grants, IsCode rc
  | pktPublish x | pkt5Publish x => x.Valid
  | pkt5Connack _ rc _ => IsCode rc
  | pkt5Suback id codes _ => IsId id ∧ ∀ rc ∈ codes, IsCode rc
  | pkt5PubackLike ctrl id _ => IsCode ctrl ∧ IsId id

/-- The size of `n` bytes behind their length. -/
def sized (n : ℕ) : ℕ :=
  n + if n < 128 then 1 else if n < 16384 then 2 else if n < 2097152 then 3 else 4

/-- The arguments of a PUBLISH obey the rules: DUP only above QoS 0, an identifier
    that is not 0, and a body the Remaining Length covers. -/
def LawfulPublish (x : Publish) (properties : ℕ) : Prop :=
  (x.qos = 0 → x.dup = false) ∧ (x.qos > 0 → x.pktId ≠ some 0) ∧
    ∀ utf8, encodeUtf8 x.topic = .ok utf8 →
      2 + utf8.length + (if x.qos > 0 then 2 else 0) + properties + x.payload.length ≤
        maxRemainingLength

/-- The arguments of `pkt5_puback_like` obey the rules. Its control byte is not
    checked, and may be that of another packet. -/
def LawfulPubackLike (ctrl id : ℕ) (full : Bool) : Prop :=
  if ctrl / 16 = 2 then id % 256 = 0 ∨ id / 256 % 2 = 0
  else if ctrl / 16 = 3 then
    if ctrl / 2 % 4 = 0 then ctrl / 8 % 2 = 0 else id ≠ 0 ∨ full = false
  else if ctrl / 16 = 9 then id ≠ 0 ∧ full = true
  else if 4 ≤ ctrl / 16 ∧ ctrl / 16 ≤ 11 then id ≠ 0
  else True

/-- The arguments obey the rules. -/
def Lawful : Call → Prop
  | pktConnack sp rc => rc ≠ 0 → sp = false
  | pktPuback id | pktPubrec id | pktPubrel id | pktPubcomp id => id ≠ 0
  | pktSuback id grants => id ≠ 0 ∧ grants ≠ [] ∧ 2 + grants.length ≤ maxRemainingLength
  | pktPublish x => LawfulPublish x 0
  | pkt5Connack sp rc props => (rc ≠ 0 → sp = false) ∧ 2 + sized props.length ≤ maxRemainingLength
  | pkt5Suback id codes props =>
    id ≠ 0 ∧ codes ≠ [] ∧ 2 + sized props.length + codes.length ≤ maxRemainingLength
  | pkt5PubackLike ctrl id full => LawfulPubackLike ctrl.toNat id.toNat full
  | pkt5Publish x => LawfulPublish x (sized x.properties.length)

/-! ### What the builders return -/

theorem pktConnack_eq_ok_iff {sp : Bool} {rc : ℤ} {p : List UInt8} :
    FirmwareFuzz.pktConnack sp rc = .ok p ↔
      IsCode rc ∧ packet 0x20 [if sp then 0x01 else 0x00, UInt8.ofNat rc.toNat] = p := by
  have hflags : (0 : ℤ) ≤ (if sp then 0x01 else 0x00) ∧ (if sp then 0x01 else 0x00 : ℤ) < 256 := by
    cases sp <;> decide
  simp only [FirmwareFuzz.pktConnack, Except.bind_eq_ok_iff, Except.pure_eq_ok_iff,
    pyBytes_eq_ok_iff, fh_eq_ok_iff, List.forall_mem_cons]
  constructor
  · rintro ⟨_, ⟨⟨_, hrc, _⟩, rfl⟩, _, ⟨_, rfl⟩, rfl⟩
    exact ⟨hrc, by cases sp <;> rfl⟩
  · rintro ⟨hrc, rfl⟩
    exact ⟨_, ⟨⟨hflags, hrc, List.forall_mem_nil _⟩, rfl⟩, _, ⟨by decide, rfl⟩, by cases sp <;> rfl⟩

theorem pktAck_eq_ok_iff {ctrl id : ℤ} {p : List UInt8} :
    pktAck ctrl id = .ok p ↔
      (IsCode ctrl ∧ IsId id) ∧ packet (UInt8.ofNat ctrl.toNat) (bytes2 id.toNat) = p := by
  simp only [pktAck, Except.bind_eq_ok_iff, Except.pure_eq_ok_iff, toBytes2_eq_ok_iff, fh_eq_ok_iff]
  constructor
  · rintro ⟨_, ⟨hid, rfl⟩, _, ⟨hctrl, rfl⟩, rfl⟩
    exact ⟨⟨hctrl, hid⟩, rfl⟩
  · rintro ⟨⟨hctrl, hid⟩, rfl⟩
    exact ⟨_, ⟨hid, rfl⟩, _, ⟨hctrl, rfl⟩, rfl⟩

theorem pktSuback_eq_ok_iff {id : ℤ} {grants : List ℤ} {p : List UInt8} :
    FirmwareFuzz.pktSuback id grants = .ok p ↔ (IsId id ∧ ∀ rc ∈ grants, IsCode rc) ∧
      packet 0x90 (bytes2 id.toNat ++ grants.map fun rc => UInt8.ofNat rc.toNat) = p := by
  simp only [FirmwareFuzz.pktSuback, Except.bind_eq_ok_iff, Except.pure_eq_ok_iff,
    pyBytes_eq_ok_iff, toBytes2_eq_ok_iff, fh_eq_ok_iff]
  constructor
  · rintro ⟨_, ⟨hgrants, rfl⟩, _, ⟨hid, rfl⟩, _, ⟨_, rfl⟩, rfl⟩
    exact ⟨⟨hid, hgrants⟩, rfl⟩
  · rintro ⟨⟨hid, hgrants⟩, rfl⟩
    exact ⟨_, ⟨hgrants, rfl⟩, _, ⟨hid, rfl⟩, _, ⟨by decide, rfl⟩, rfl⟩

theorem pkt5Connack_eq_ok_iff {sp : Bool} {rc : ℤ} {props p : List UInt8} :
    FirmwareFuzz.pkt5Connack sp rc props = .ok p ↔ IsCode rc ∧
      packet 0x20 ((if sp then 0x01 else 0x00) :: UInt8.ofNat rc.toNat ::
        propertyBytes .v5 props) = p := by
  have hflags : (0 : ℤ) ≤ (if sp then 0x01 else 0x00) ∧ (if sp then 0x01 else 0x00 : ℤ) < 256 := by
    cases sp <;> decide
  simp only [FirmwareFuzz.pkt5Connack, encRemainingLength_ofNat, Except.ok_bind,
    Except.bind_eq_ok_iff, Except.pure_eq_ok_iff, pyBytes_eq_ok_iff, fh_eq_ok_iff,
    List.forall_mem_cons]
  constructor
  · rintro ⟨_, ⟨⟨_, hrc, _⟩, rfl⟩, _, ⟨_, rfl⟩, rfl⟩
    exact ⟨hrc, by cases sp <;> rfl⟩
  · rintro ⟨hrc, rfl⟩
    exact ⟨_, ⟨⟨hflags, hrc, List.forall_mem_nil _⟩, rfl⟩, _, ⟨by decide, rfl⟩, by cases sp <;> rfl⟩

theorem pkt5Suback_eq_ok_iff {id : ℤ} {codes : List ℤ} {props p : List UInt8} :
    FirmwareFuzz.pkt5Suback id codes props = .ok p ↔ (IsId id ∧ ∀ rc ∈ codes, IsCode rc) ∧
      packet 0x90 (bytes2 id.toNat ++
        (propertyBytes .v5 props ++ codes.map fun rc => UInt8.ofNat rc.toNat)) = p := by
  simp only [FirmwareFuzz.pkt5Suback, encRemainingLength_ofNat, Except.ok_bind,
    Except.bind_eq_ok_iff, Except.pure_eq_ok_iff, pyBytes_eq_ok_iff, toBytes2_eq_ok_iff,
    fh_eq_ok_iff]
  constructor
  · rintro ⟨_, ⟨hcodes, rfl⟩, _, ⟨hid, rfl⟩, _, ⟨_, rfl⟩, rfl⟩
    refine ⟨⟨hid, hcodes⟩, ?_⟩
    simp [packet, propertyBytes, Nat.add_assoc]
  · rintro ⟨⟨hid, hcodes⟩, rfl⟩
    refine ⟨_, ⟨hcodes, rfl⟩, _, ⟨hid, rfl⟩, _, ⟨by decide, rfl⟩, ?_⟩
    simp [packet, propertyBytes, Nat.add_assoc]

theorem pkt5PubackLike_eq_ok_iff {ctrl id : ℤ} {full : Bool} {p : List UInt8} :
    FirmwareFuzz.pkt5PubackLike ctrl id full = .ok p ↔ (IsCode ctrl ∧ IsId id) ∧
      packet (UInt8.ofNat ctrl.toNat)
        (bytes2 id.toNat ++ if full then [0x00, 0x00] else []) = p := by
  simp only [FirmwareFuzz.pkt5PubackLike, Except.bind_eq_ok_iff, Except.pure_eq_ok_iff,
    toBytes2_eq_ok_iff, fh_eq_ok_iff]
  constructor
  · rintro ⟨_, ⟨hid, rfl⟩, _, ⟨hctrl, rfl⟩, rfl⟩
    exact ⟨⟨hctrl, hid⟩, by cases full <;> rfl⟩
  · rintro ⟨⟨hctrl, hid⟩, rfl⟩
    exact ⟨_, ⟨hid, rfl⟩, _, ⟨hctrl, rfl⟩, by cases full <;> rfl⟩

/-! ### The acknowledgements of MQTT 5 -/

theorem fields_ofNat {c : ℕ} (hc : c < 256) :
    typeOf (UInt8.ofNat c) = c / 16 ∧ qosOf (UInt8.ofNat c) = c / 2 % 4 ∧
      dupOf (UInt8.ofNat c) = decide (c / 8 % 2 = 1) ∧
      (UInt8.ofNat c &&& 0x01 = 0 ↔ c % 2 = 0) ∧ (UInt8.ofNat c = 0 ↔ c = 0) := by
  have h : ∀ c : Fin 256, typeOf (UInt8.ofNat c) = c / 16 ∧ qosOf (UInt8.ofNat c) = c / 2 % 4 ∧
      dupOf (UInt8.ofNat c) = decide (c.1 / 8 % 2 = 1) ∧
      (UInt8.ofNat c &&& 0x01 = 0 ↔ c.1 % 2 = 0) ∧ (UInt8.ofNat c = 0 ↔ c.1 = 0) := by
    decide +kernel
  exact h ⟨c, hc⟩

/-- The two bytes `pkt5_puback_like` may write behind the packet identifier. -/
def reasonBytes (full : Bool) : List UInt8 := if full then [0x00, 0x00] else []

theorem propertyLength_pubackLike (ctrl : UInt8) (id : ℕ) (full : Bool) (s : List UInt8)
    (hs : propertyField .v5 ctrl (bytes2 id ++ reasonBytes full) = some s) : varintSize s ≤ 4 := by
  have hdrop : ∀ n, varintSize ((bytes2 id ++ reasonBytes full).drop (2 + n)) ≤ 4 := by
    intro n
    rw [← List.drop_drop]
    show varintSize ((reasonBytes full).drop n) ≤ 4
    cases full with
    | false => simp [reasonBytes, varintSize]
    | true =>
      rcases n with _ | _ | n
      · decide
      · decide
      · simp [reasonBytes, varintSize]
  rw [propertyField] at hs
  by_cases htype : typeOf ctrl = 3
  · rw [if_pos htype, topicSize, Nat.add_assoc, Option.some_inj] at hs
    exact hs ▸ hdrop _
  · rw [if_neg htype] at hs
    split_ifs at hs
    · exact Option.some.inj hs ▸ hdrop 0
    · exact Option.some.inj hs ▸ hdrop 1

/-- Read as a PUBLISH, its packet identifier may stand where the reason is. -/
theorem pktId_pubackLike {id : ℕ} (hid : id ≤ 65535) (full : Bool) :
    (takeUInt16 ((bytes2 id ++ reasonBytes full).drop
      (topicSize (bytes2 id ++ reasonBytes full)))).map Prod.fst ≠ some 0 ↔
      id ≠ 0 ∨ full = false := by
  rw [topicSize, takeUInt16_fst hid, Option.getD_some, ← List.drop_drop]
  show ((takeUInt16 ((reasonBytes full).drop id)).map Prod.fst ≠ some 0) ↔ _
  cases full with
  | false => simp [reasonBytes, takeUInt16]
  | true => rcases id with _ | _ | id <;> simp [reasonBytes, takeUInt16]

/-- The rules an acknowledgement of MQTT 5 may break, in its arguments. -/
theorem rules_pubackLike {c id : ℕ} (hc : c < 256) (hid : id ≤ 65535) (full : Bool) :
    Rules .v5 (UInt8.ofNat c) (bytes2 id ++ reasonBytes full) ↔
      pktIdField (UInt8.ofNat c) (bytes2 id ++ reasonBytes full) ≠ some 0 ∧
      (c / 16 = 3 → c / 2 % 4 = 0 → c / 8 % 2 = 0) ∧ (c / 16 = 9 → full = true) ∧
      (c / 16 = 2 → id % 256 = 0 ∨ id / 256 % 2 = 0) := by
  obtain ⟨htype, hqos, hdup, _, _⟩ := fields_ofNat hc
  have hhi : id / 256 < 256 := by omega
  have hlo : id % 256 < 256 := by omega
  constructor
  · intro h
    refine ⟨h.pktId, fun h3 h0 => ?_, fun h9 => ?_, fun h2 => ?_⟩
    · have := h.dup (htype.trans h3) (hqos.trans h0)
      rw [hdup, decide_eq_false_iff_not] at this
      omega
    · have := h.codes (htype.trans h9)
      cases full with
      | false => exact absurd rfl this
      | true => rfl
    · have := h.sessionPresent (htype.trans h2) _ rfl
      rw [Ne, (fields_ofNat hlo).2.2.2.2] at this
      exact or_iff_not_imp_left.2 fun h' => (fields_ofNat hhi).2.2.2.1.1 (this h')
  · rintro ⟨hid, h3, h9, h2⟩
    refine ⟨propertyLength_pubackLike _ _ _, hid, fun ht hq => ?_, fun ht => ?_, fun ht => ?_⟩
    · rw [hdup, decide_eq_false_iff_not]
      have := h3 (htype.symm.trans ht) (hqos.symm.trans hq)
      omega
    · rw [h9 (htype.symm.trans ht)]
      exact List.cons_ne_nil (0x00 : UInt8) []
    · intro rc hrc hne
      obtain rfl := Option.some.inj hrc
      rw [Ne, (fields_ofNat hlo).2.2.2.2] at hne
      exact (fields_ofNat hhi).2.2.2.1.2 ((h2 (htype.symm.trans ht)).resolve_left hne)

theorem rules_pubackLike_iff {c id : ℕ} (hc : c < 256) (hid : id ≤ 65535) (full : Bool) :
    Rules .v5 (UInt8.ofNat c) (bytes2 id ++ reasonBytes full) ↔ LawfulPubackLike c id full := by
  obtain ⟨htype, hqos, _, _, _⟩ := fields_ofNat hc
  rw [rules_pubackLike hc hid, LawfulPubackLike, pktIdField, htype, hqos]
  have hshort : (takeUInt16 (bytes2 id ++ reasonBytes full)).map Prod.fst ≠ some 0 ↔ id ≠ 0 := by
    rw [takeUInt16_fst hid, Ne, Option.some_inj]
  by_cases h3 : c / 16 = 3
  · have h2 : c / 16 ≠ 2 := by omega
    have h9 : c / 16 ≠ 9 := by omega
    by_cases h0 : c / 2 % 4 = 0
    · simp [h3, h0]
    · simp only [h3, h0, if_true, if_false, pktId_pubackLike hid]
      simp
  · simp only [h3, if_false, false_imp_iff, true_and]
    by_cases hid' : 4 ≤ c / 16 ∧ c / 16 ≤ 11
    · have h2 : c / 16 ≠ 2 := by omega
      simp only [h2, if_false, false_imp_iff, and_true, hid', and_self, if_true, hshort]
      by_cases h9 : c / 16 = 9 <;> simp [h9]
    · have h9 : c / 16 ≠ 9 := by omega
      by_cases h2 : c / 16 = 2 <;> simp [h2, h9, hid']

/-! ### Validity -/

theorem sized_le_iff {props : List UInt8} {k : ℕ} :
    k + (propertyBytes .v5 props).length ≤ maxRemainingLength ↔
      k + sized props.length ≤ maxRemainingLength := by
  rw [propertyBytes, List.length_append, sized]
  by_cases hle : props.length ≤ maxRemainingLength
  · rw [length_encode hle]
    omega
  · omega

theorem valid_of_build {x : Publish} {v : MqttVersion} {p : List UInt8} (h : x.build v = .ok p) :
    x.Valid := by
  obtain ⟨hq, name, id, hname, hid, rfl⟩ := Publish.build_eq_ok_iff.1 h
  obtain ⟨utf8, hutf8, hlen, _⟩ := encUtf8_eq_ok_iff.1 hname
  refine ⟨⟨utf8, hutf8, hlen⟩, hq, fun hpos => ?_⟩
  simp only [pktIdBytes, if_pos hpos] at hid
  cases hpkt : x.pktId with
  | none => simp [hpkt] at hid
  | some i =>
    rw [hpkt] at hid
    exact ⟨i, rfl, (toBytes2_eq_ok_iff.1 hid).1⟩

/-- A builder raises on the arguments it cannot write, and on no others. -/
theorem exists_run_iff {c : Call} : (∃ p, c.run = .ok p) ↔ c.Writable := by
  have hack : ∀ ctrl id : ℤ, IsCode ctrl → ((∃ p, pktAck ctrl id = .ok p) ↔ IsId id) := by
    intro ctrl id hctrl
    simp only [pktAck_eq_ok_iff, exists_and_left, exists_eq', and_true, and_iff_right hctrl]
  cases c with
  | pktConnack sp rc => simp [run, pktConnack_eq_ok_iff, Writable]
  | pktPuback id => exact hack _ _ ⟨by decide, by decide⟩
  | pktPubrec id => exact hack _ _ ⟨by decide, by decide⟩
  | pktPubrel id => exact hack _ _ ⟨by decide, by decide⟩
  | pktPubcomp id => exact hack _ _ ⟨by decide, by decide⟩
  | pktSuback id grants => simp [run, pktSuback_eq_ok_iff, Writable]
  | pktPublish x =>
    exact ⟨fun ⟨_, h⟩ => valid_of_build (v := .v311) h, fun h => h.exists_build .v311⟩
  | pkt5Connack sp rc props => simp [run, pkt5Connack_eq_ok_iff, Writable]
  | pkt5Suback id codes props => simp [run, pkt5Suback_eq_ok_iff, Writable]
  | pkt5PubackLike ctrl id full => simp [run, pkt5PubackLike_eq_ok_iff, Writable]
  | pkt5Publish x =>
    exact ⟨fun ⟨_, h⟩ => valid_of_build (v := .v5) h, fun h => h.exists_build .v5⟩

theorem IsId.toNat_le {id : ℤ} (h : IsId id) : id.toNat ≤ 65535 := Int.toNat_le.2 h.2

theorem IsCode.toNat_lt {rc : ℤ} (h : IsCode rc) : rc.toNat < 256 :=
  (Int.toNat_lt_of_ne_zero (by decide)).2 h.2

theorem toNat_ne_zero_iff {id : ℤ} (h : IsId id) : id.toNat ≠ 0 ↔ id ≠ 0 := by
  have := h.1
  omega

theorem validPacket_pktAck_iff {ctrl id : ℤ} {p : List UInt8} (h : pktAck ctrl id = .ok p)
    (htype : 4 ≤ typeOf (UInt8.ofNat ctrl.toNat) ∧ typeOf (UInt8.ofNat ctrl.toNat) ≤ 7) :
    ValidPacket .v311 p ↔ id ≠ 0 := by
  obtain ⟨⟨_, hid⟩, rfl⟩ := pktAck_eq_ok_iff.1 h
  have hlen : (bytes2 id.toNat).length ≤ maxRemainingLength :=
    (Nat.le_of_ble_eq_true rfl : 2 ≤ maxRemainingLength)
  rw [validPacket_packet_iff, rules_ack_iff htype hid.toNat_le, toNat_ne_zero_iff hid]
  exact and_iff_right hlen

theorem validPacket_connack_iff (v : MqttVersion) (sp : Bool) {rc : ℤ} (hrc : IsCode rc)
    (props : List UInt8) :
    ValidPacket v (packet 0x20 ((if sp then 0x01 else 0x00) :: UInt8.ofNat rc.toNat ::
        propertyBytes v props)) ↔
      (rc ≠ 0 → sp = false) ∧ 2 + (propertyBytes v props).length ≤ maxRemainingLength := by
  have hzero : UInt8.ofNat rc.toNat ≠ 0 ↔ rc ≠ 0 := by
    rw [Ne, (fields_ofNat hrc.toNat_lt).2.2.2.2]
    have := hrc.1
    omega
  have hflags : (if sp then 0x01 else 0x00 : UInt8) &&& 0x01 = 0 ↔ sp = false := by
    cases sp <;> decide
  rw [validPacket_packet_iff, List.length_cons, List.length_cons, Nat.add_comm 2, and_comm]
  refine and_congr_left fun hlen => ?_
  rw [rules_connack_iff (by omega), hzero, hflags]

theorem validPacket_suback_iff (v : MqttVersion) {id : ℤ} (hid : IsId id) (props : List UInt8)
    (codes : List ℤ) :
    ValidPacket v (packet 0x90 (bytes2 id.toNat ++
        (propertyBytes v props ++ codes.map fun rc => UInt8.ofNat rc.toNat))) ↔
      id ≠ 0 ∧ codes ≠ [] ∧
        2 + (propertyBytes v props).length + codes.length ≤ maxRemainingLength := by
  have hlen : (bytes2 id.toNat ++ (propertyBytes v props ++
      codes.map fun rc => UInt8.ofNat rc.toNat)).length =
      2 + (propertyBytes v props).length + codes.length := by
    rw [List.length_append, List.length_append, List.length_map, ← Nat.add_assoc]
    rfl
  rw [validPacket_packet_iff, hlen, and_comm, ← and_assoc]
  refine and_congr_left fun hmax => ?_
  rw [rules_suback_iff (by omega) hid.toNat_le, toNat_ne_zero_iff hid]
  exact and_congr_right fun _ => not_congr List.map_eq_nil_iff

theorem validPacket_publish_iff {x : Publish} {v : MqttVersion} {p : List UInt8}
    (h : x.build v = .ok p) :
    ValidPacket v p ↔ LawfulPublish x (propertyBytes v x.properties).length := by
  obtain ⟨hq, name, id, hname, hid, rfl⟩ := Publish.build_eq_ok_iff.1 h
  obtain ⟨utf8, hutf8, _, hname'⟩ := encUtf8_eq_ok_iff.1 hname
  have hlen : (name ++ (id ++ (propertyBytes v x.properties ++ x.payload))).length =
      2 + utf8.length + (if x.qos > 0 then 2 else 0) + (propertyBytes v x.properties).length +
        x.payload.length := by
    rw [← length_pktIdBytes hid, ← hname']
    simp only [List.length_append, bytes2, List.length_cons, List.length_nil]
    omega
  rw [validPacket_packet_iff, hlen, LawfulPublish, hutf8, and_comm, ← and_assoc]
  simp only [Except.ok.injEq, forall_eq']
  exact and_congr_left fun hmax => rules_publish_iff hq hname hid (by omega)

theorem validPacket_pubackLike_iff {ctrl id : ℤ} (hctrl : IsCode ctrl) (hid : IsId id)
    (full : Bool) :
    ValidPacket .v5 (packet (UInt8.ofNat ctrl.toNat) (bytes2 id.toNat ++ reasonBytes full)) ↔
      LawfulPubackLike ctrl.toNat id.toNat full := by
  have hlen : (bytes2 id.toNat ++ reasonBytes full).length ≤ maxRemainingLength := by
    cases full
    · exact (Nat.le_of_ble_eq_true rfl : 2 ≤ maxRemainingLength)
    · exact (Nat.le_of_ble_eq_true rfl : 4 ≤ maxRemainingLength)
  rw [validPacket_packet_iff, and_iff_right hlen, rules_pubackLike_iff hctrl.toNat_lt hid.toNat_le]

theorem lawfulPublish_sized_iff {x : Publish} :
    LawfulPublish x (propertyBytes .v5 x.properties).length ↔
      LawfulPublish x (sized x.properties.length) := by
  refine and_congr_right fun _ => and_congr_right fun _ => forall_congr' fun utf8 =>
    imp_congr_right fun _ => ?_
  rw [Nat.add_right_comm, sized_le_iff, Nat.add_right_comm]

/-- What a builder returns is valid if, and only if, its arguments obey the rules. -/
theorem validPacket_iff_lawful {c : Call} {p : List UInt8} (h : c.run = .ok p) :
    ValidPacket c.version p ↔ c.Lawful := by
  cases c with
  | pktConnack sp rc =>
    obtain ⟨hrc, rfl⟩ := pktConnack_eq_ok_iff.1 h
    exact (validPacket_connack_iff .v311 sp hrc []).trans (and_iff_left (Nat.le_of_ble_eq_true rfl))
  | pktPuback id => exact validPacket_pktAck_iff h (by decide)
  | pktPubrec id => exact validPacket_pktAck_iff h (by decide)
  | pktPubrel id => exact validPacket_pktAck_iff h (by decide)
  | pktPubcomp id => exact validPacket_pktAck_iff h (by decide)
  | pktSuback id grants =>
    obtain ⟨⟨hid, _⟩, rfl⟩ := pktSuback_eq_ok_iff.1 h
    exact validPacket_suback_iff .v311 hid [] grants
  | pktPublish x => exact validPacket_publish_iff (v := .v311) h
  | pkt5Connack sp rc props =>
    obtain ⟨hrc, rfl⟩ := pkt5Connack_eq_ok_iff.1 h
    exact (validPacket_connack_iff .v5 sp hrc props).trans (and_congr_right fun _ => sized_le_iff)
  | pkt5Suback id codes props =>
    obtain ⟨⟨hid, _⟩, rfl⟩ := pkt5Suback_eq_ok_iff.1 h
    refine (validPacket_suback_iff .v5 hid props codes).trans ?_
    rw [Nat.add_right_comm, sized_le_iff, Nat.add_right_comm]
    rfl
  | pkt5PubackLike ctrl id full =>
    obtain ⟨⟨hctrl, hid⟩, rfl⟩ := pkt5PubackLike_eq_ok_iff.1 h
    exact validPacket_pubackLike_iff hctrl hid full
  | pkt5Publish x =>
    exact (validPacket_publish_iff (v := .v5) h).trans lawfulPublish_sized_iff

/-- A builder raises or returns a valid packet if, and only if, the arguments it
    can write obey the rules. -/
theorem valid_iff (c : Call) :
    (∀ p, c.run = .ok p → ValidPacket c.version p) ↔ (c.Writable → c.Lawful) := by
  constructor
  · intro hvalid hw
    obtain ⟨p, hp⟩ := exists_run_iff.2 hw
    exact (validPacket_iff_lawful hp).1 (hvalid p hp)
  · intro hlawful p hp
    exact (validPacket_iff_lawful hp).2 (hlawful (exists_run_iff.1 ⟨p, hp⟩))

/-- The seed `publish_qos0_dup.bin`, with a shorter topic: its PUBLISH has DUP set
    at QoS 0. -/
theorem publish_qos0_dup :
    ∃ p, (pktPublish ⟨[0x74], [0x64, 0x75, 0x70], 0, true, false, none, []⟩).run = .ok p ∧
      ¬ValidPacket .v311 p := by
  refine ⟨[0x38, 0x06, 0x00, 0x01, 0x74, 0x64, 0x75, 0x70], by decide +kernel, fun hvalid => ?_⟩
  exact absurd (hvalid.rules.dup (by decide) (by decide)) (by decide)

end Call

end FirmwareFuzz
