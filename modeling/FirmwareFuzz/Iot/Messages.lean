import FirmwareFuzz.Iot.Strings

/-!
# The two message formats

The text of a message (`Message.render`), and the struct the parser makes of
it: for every message whose parts fit their arrays, the parts it was made of
(`Message.parse_render`). The program finds the format by the first bytes
(`analyse_eq`).
-/

namespace FirmwareFuzz.Iot

open CLang

variable {b : Bounds} {l t p v r input stdin msg : List UInt8}

/-! ## Dispatch -/

theorem analyse_eq (hl : 0 ∉ l) (m : List UInt8) : analyse b (l ++ 0 :: m) =
    if text "mqtt" <+: l then
      Stdout.lift (parseMqttTopic b (l ++ 0 :: m) mqttMessage) >>= printMqttAnalysis b
    else if text "GET" <+: l ∨ text "POST" <+: l then
      Stdout.lift (parseHttpRequest b (l ++ 0 :: m) httpMessage) >>= printHttpAnalysis b
    else if 10 < l.length then
      printf (text "Error: %s\n") [some (text "Unknown format")]
    else printf (text "Error: %s\n") [none] := by
  obtain ⟨mqtt, hmqtt, hmqtt'⟩ := exists_strncmp hl m (s := "mqtt") (n := 4) (by decide) rfl
  obtain ⟨get, hget, hget'⟩ := exists_strncmp hl m (s := "GET") (n := 3) (by decide) rfl
  obtain ⟨post, hpost, hpost'⟩ := exists_strncmp hl m (s := "POST") (n := 4) (by decide) rfl
  have hunknown : strcpy (List.replicate 20 0) (cString "Unknown format") =
      .ok (text "Unknown format" ++ 0 :: List.replicate 5 0) := by decide
  have htext : strText (text "Unknown format" ++ 0 :: List.replicate 5 0) =
      .ok (text "Unknown format") := by decide
  simp only [analyse, Stdout.liftM_eq]
  simp only [hmqtt, hget, hpost, hmqtt', hget', hpost', Stdout.lift_ok_bind, strlen_append hl,
    hunknown, htext]

/-- The two prefixes exclude each other. -/
theorem not_mqtt_of_http (h : text "GET" <+: l ∨ text "POST" <+: l) : ¬text "mqtt" <+: l := by
  intro hmqtt
  rcases h with h | h
  · exact absurd (List.prefix_of_prefix_length_le h hmqtt (by decide)) (by decide)
  · exact absurd (List.prefix_of_prefix_length_le h hmqtt (by decide)) (by decide)

/-- A request starts with its method. -/
theorem method_ne_nil (h : text "GET" <+: v ++ space :: r ∨ text "POST" <+: v ++ space :: r) :
    v ≠ [] := by
  rintro rfl
  rcases h with h | h
  · exact absurd (List.cons_prefix_cons.1 h).1 (by decide)
  · exact absurd (List.cons_prefix_cons.1 h).1 (by decide)

theorem output_main {block : List UInt8} (h : readMessage input stdin = .ok (some block)) :
    (main b input stdin).output = banner.output ++ (analyse b block).output := by
  have hbanner : banner.result = .ok () := rfl
  rw [main, Stdout.bind_of_ok hbanner, Stdout.liftM_eq, h, Stdout.lift_ok_bind]
  exact congrArg (banner.output ++ ·) (Stdout.output_bind_pure _ _)

/-! ## The members -/

theorem length_mqttMessage : mqttMessage.length = 320 := List.length_replicate

theorem length_httpMessage : httpMessage.length = 328 := List.length_replicate

/-- A topic and a payload can be stored when they fit their arrays. -/
theorem exists_storeMqtt_iff :
    (∃ msg, storeMqtt .field mqttMessage t p = .ok msg) ↔ t.length ≤ 63 ∧ p.length ≤ 255 := by
  have htopic : topic.off + topic.size ≤ mqttMessage.length := by
    rw [length_mqttMessage]
    decide
  have hpayload : ∀ msg : List UInt8, msg.length = mqttMessage.length →
      ((∃ msg', payload.write .field msg 0 (p ++ [0]) = .ok msg') ↔ p.length ≤ 255) := by
    intro msg hmsg
    rw [length_mqttMessage] at hmsg
    rw [Field.exists_write_iff (hmsg ▸ by decide), Nat.zero_add, List.length_append]
    exact Nat.succ_le_succ_iff
  rw [storeMqtt, Field.exists_write_bind_iff htopic hpayload, Nat.zero_add, List.length_append]
  exact and_congr_left' Nat.succ_le_succ_iff

theorem storeMqtt_fields (ht : 0 ∉ t) (hp : 0 ∉ p)
    (h : storeMqtt .field mqttMessage t p = .ok msg) :
    strText (topic.room .field msg) = .ok t ∧ strText (payload.room .field msg) = .ok p := by
  obtain ⟨msg', h, h'⟩ := Except.bind_eq_ok_iff.1 h
  obtain ⟨m, hm⟩ := Field.room_write_string h
  obtain ⟨m', hm'⟩ := Field.room_write_string h'
  rw [Field.room_write_of_disjoint h' (by decide), hm, hm', strText_append ht, strText_append hp]
  exact ⟨rfl, rfl⟩

theorem exists_storeTarget_iff {q : Option (List UInt8 × List UInt8)}
    (hmsg : msg.length = httpMessage.length) :
    (∃ msg', storeTarget .field msg q = .ok msg') ↔
      ∀ pt ∈ q, pt.1.length ≤ 63 ∧ pt.2.length ≤ 255 := by
  rw [length_httpMessage] at hmsg
  cases q with
  | none => exact ⟨fun _ => nofun, fun _ => ⟨msg, rfl⟩⟩
  | some pt =>
    have hbody : ∀ msg' : List UInt8, msg'.length = msg.length →
        ((∃ msg'', body.write .field msg' 0 (pt.2 ++ [0]) = .ok msg'') ↔ pt.2.length ≤ 255) := by
      intro msg' hmsg'
      rw [hmsg] at hmsg'
      rw [Field.exists_write_iff (hmsg' ▸ by decide), Nat.zero_add, List.length_append]
      exact Nat.succ_le_succ_iff
    simp only [Option.mem_def, Option.some_inj, forall_eq']
    rw [storeTarget, Field.exists_write_bind_iff (hmsg ▸ by decide) hbody, Nat.zero_add,
      List.length_append]
    exact and_congr_left' Nat.succ_le_succ_iff

/-- A method, and a path and a body if there are any, can be stored when they
    fit their arrays. -/
theorem exists_storeHttp_iff {q : Option (List UInt8 × List UInt8)} :
    (∃ msg, storeHttp .field httpMessage v q = .ok msg) ↔
      v.length ≤ 7 ∧ ∀ pt ∈ q, pt.1.length ≤ 63 ∧ pt.2.length ≤ 255 := by
  have hmethod : method.off + method.size ≤ httpMessage.length := by
    rw [length_httpMessage]
    decide
  rw [storeHttp, Field.exists_write_bind_iff hmethod fun _ => exists_storeTarget_iff, Nat.zero_add,
    List.length_append]
  exact and_congr_left' Nat.succ_le_succ_iff

theorem storeHttp_fields {q : Option (List UInt8 × List UInt8)} (hv : 0 ∉ v)
    (hq : ∀ pt ∈ q, 0 ∉ pt.1 ∧ 0 ∉ pt.2) (h : storeHttp .field httpMessage v q = .ok msg) :
    strText (method.room .field msg) = .ok v ∧
      strText (path.room .field msg) = .ok (q.getD ([], [])).1 ∧
      strText (body.room .field msg) = .ok (q.getD ([], [])).2 := by
  obtain ⟨msg₁, hmethod, hrest⟩ := Except.bind_eq_ok_iff.1 h
  obtain ⟨m, hm⟩ := Field.room_write_string hmethod
  cases q with
  | none =>
    obtain rfl := Except.ok.inj hrest
    -- The path and the body are as they were initialised.
    rw [Field.room_write_of_disjoint (g := path) hmethod (by decide),
      Field.room_write_of_disjoint (g := body) hmethod (by decide), hm, strText_append hv]
    exact ⟨rfl, Field.strText_room_replicate (by decide) (by decide),
      Field.strText_room_replicate (by decide) (by decide)⟩
  | some pt =>
    obtain ⟨msg₂, hp, ht⟩ := Except.bind_eq_ok_iff.1 hrest
    obtain ⟨hp0, ht0⟩ := hq pt rfl
    obtain ⟨m₁, hm₁⟩ := Field.room_write_string hp
    obtain ⟨m₂, hm₂⟩ := Field.room_write_string ht
    rw [Field.room_write_of_disjoint (g := method) ht (by decide),
      Field.room_write_of_disjoint (g := method) hp (by decide),
      Field.room_write_of_disjoint (g := path) ht (by decide), hm, hm₁, hm₂, strText_append hv,
      strText_append hp0, strText_append ht0]
    exact ⟨rfl, rfl, rfl⟩

/-! ## Messages -/

/-- A message, by its parts. -/
inductive Message
  | mqtt (topic payload : List UInt8)
  | http (method path body : List UInt8)
  deriving DecidableEq, Repr

namespace Message

/-- The text of a message. -/
def render : Message → List UInt8
  | .mqtt t p => text "mqtt" ++ t ++ space :: p
  | .http v p t => v ++ space :: p ++ space :: t

/-- The parts of a message contain neither NUL nor the end of a line, those
    before a space contain no space, and each fits its array. -/
def Valid : Message → Prop
  | .mqtt t p => (t ++ p).all inLine ∧ space ∉ t ∧ t.length ≤ 63 ∧ p.length ≤ 255
  | .http v p t => (v ++ p ++ t).all inLine ∧ (text "GET" <+: v ∨ text "POST" <+: v) ∧
      space ∉ v ∧ space ∉ p ∧ v.length ≤ 7 ∧ p.length ≤ 63 ∧ t.length ≤ 255

/-- The parser for the format of a message. -/
def parse (input : List UInt8) : Message → Except Fault (List UInt8)
  | .mqtt _ _ => parseMqttTopic .field input mqttMessage
  | .http _ _ _ => parseHttpRequest .field input httpMessage

/-- What is printed for a struct in the format of a message. -/
def print (msg : List UInt8) : Message → Stdout Unit
  | .mqtt _ _ => printMqttAnalysis .field msg
  | .http _ _ _ => printHttpAnalysis .field msg

/-- The members of a struct are the parts of a message. -/
def Holds (msg : List UInt8) : Message → Prop
  | .mqtt t p => strText (topic.room .field msg) = .ok t ∧ strText (payload.room .field msg) = .ok p
  | .http v p t => strText (method.room .field msg) = .ok v ∧
      strText (path.room .field msg) = .ok p ∧ strText (body.room .field msg) = .ok t

instance (m : Message) : Decidable m.Valid := by
  cases m <;> exact inferInstanceAs (Decidable (_ ∧ _))

theorem length_render_le {m : Message} (hm : m.Valid) : m.render.length ≤ 511 := by
  cases m with
  | mqtt t p =>
    obtain ⟨-, -, ht, hp⟩ := hm
    have : (text "mqtt").length = 4 := rfl
    simp only [render, List.length_append, List.length_cons]
    omega
  | http v p t =>
    obtain ⟨-, -, -, -, hv, hp, ht⟩ := hm
    simp only [render, List.length_append, List.length_cons]
    omega

theorem inLine_of_mem_render {m : Message} (hm : m.Valid) : ∀ c ∈ m.render, inLine c = true := by
  have hspace : inLine space = true := rfl
  rw [← List.all_eq_true]
  cases m with
  | mqtt t p =>
    have hmqtt : (text "mqtt").all inLine = true := rfl
    simp only [Valid, List.all_append, Bool.and_eq_true] at hm
    simp only [render, List.all_append, List.all_cons, Bool.and_eq_true]
    exact ⟨⟨hmqtt, hm.1.1⟩, hspace, hm.1.2⟩
  | http v p t =>
    simp only [Valid, List.all_append, Bool.and_eq_true] at hm
    simp only [render, List.all_append, List.all_cons, Bool.and_eq_true]
    exact ⟨⟨hm.1.1.1, hspace, hm.1.1.2⟩, hspace, hm.1.2⟩

end Message

/-- A line on `stdin`, up to its end or the end of the input. -/
theorem line_append (hl : ∀ c ∈ l, inLine c = true) (hlen : l.length ≤ 511) {rest : List UInt8}
    (hrest : ∀ c ∈ rest.head?, inLine c = false) : line (l ++ rest) = l := by
  have hlen' : l.length ≤ maxBufferSize * 2 - 1 := hlen
  rw [line, List.take_append, List.take_of_length_le hlen', List.takeWhile_append_of_pos hl]
  cases h : rest.take (maxBufferSize * 2 - 1 - l.length) with
  | nil => rw [List.takeWhile_nil, List.append_nil]
  | cons c rest' =>
    obtain ⟨rest'', rfl⟩ : c :: rest' <+: rest := h ▸ List.take_prefix _ _
    have hc : c ∈ (c :: rest' ++ rest'').head? := rfl
    rw [List.takeWhile_cons_of_neg (Bool.eq_false_iff.1 (hrest c hc)), List.append_nil]

namespace Message

theorem zero_notMem_render {m : Message} (hm : m.Valid) : 0 ∉ m.render :=
  fun h => absurd (inLine_of_mem_render hm 0 h) (by decide)

/-- The program takes the branch of the format of a message. -/
theorem analyse_render {m : Message} (hm : m.Valid) (k : List UInt8) :
    analyse .field (m.render ++ 0 :: k) =
      Stdout.lift (m.parse (m.render ++ 0 :: k)) >>= fun msg => m.print msg := by
  rw [analyse_eq (zero_notMem_render hm)]
  cases m with
  | mqtt t p =>
    have hmqtt : text "mqtt" <+: (mqtt t p).render := ⟨t ++ space :: p, rfl⟩
    rw [if_pos hmqtt]
    rfl
  | http v p t =>
    have hstart : v <+: (http v p t).render := ⟨space :: p ++ space :: t, by simp [render]⟩
    have hhttp : text "GET" <+: (http v p t).render ∨ text "POST" <+: (http v p t).render :=
      hm.2.1.imp (·.trans hstart) (·.trans hstart)
    rw [if_neg (not_mqtt_of_http hhttp), if_pos hhttp]
    rfl

/-- The parts a message is made of are what the parser stores. -/
theorem exists_parse {m : Message} (hm : m.Valid) (k : List UInt8) :
    ∃ msg, m.parse (m.render ++ 0 :: k) = .ok msg ∧ m.Holds msg := by
  have hzero := zero_notMem_render hm
  have hlen : m.render.length < 2 ^ 31 := (length_render_le hm).trans_lt (by decide)
  cases m with
  | mqtt t p =>
    obtain ⟨-, ht, htlen, hplen⟩ := hm
    have hcut : cut space ((mqtt t p).render.drop 4) = some (t, p) := cut_append ht p
    have h4 : 4 ≤ (mqtt t p).render.length := by
      simp only [render, List.length_append]
      exact Nat.le_add_right_of_le (Nat.le_add_right 4 _)
    have ht0 : 0 ∉ t := fun h => hzero (by simp [render, h])
    have hp0 : 0 ∉ p := fun h => hzero (by simp [render, h])
    obtain ⟨msg, hmsg⟩ := exists_storeMqtt_iff.2 ⟨htlen, hplen⟩
    exact ⟨msg, (parseMqttTopic_of_some hzero h4 hlen hcut k).trans hmsg,
      storeMqtt_fields ht0 hp0 hmsg⟩
  | http v p t =>
    obtain ⟨-, -, hv, hp, hvlen, hplen, htlen⟩ := hm
    have hcut : cut space (http v p t).render = some (v, p ++ space :: t) :=
      cut_eq_some_iff.2 ⟨by simp [render], hv⟩
    have hv0 : 0 ∉ v := fun h => hzero (by simp [render, h])
    have hp0 : 0 ∉ p := fun h => hzero (by simp [render, h])
    have ht0 : 0 ∉ t := fun h => hzero (by simp [render, h])
    have hpt : ∀ pt ∈ some (p, t), pt.1.length ≤ 63 ∧ pt.2.length ≤ 255 :=
      fun _ h => Option.mem_some.1 h ▸ ⟨hplen, htlen⟩
    obtain ⟨msg, hmsg⟩ := exists_storeHttp_iff.2 ⟨hvlen, hpt⟩
    have hpt0 : ∀ pt ∈ some (p, t), 0 ∉ pt.1 ∧ 0 ∉ pt.2 :=
      fun _ h => Option.mem_some.1 h ▸ ⟨hp0, ht0⟩
    refine ⟨msg, ?_, storeHttp_fields hv0 hpt0 hmsg⟩
    rw [parse, parseHttpRequest_of_some hzero hcut, cut_append hp]
    exact hmsg

/-- On a line with a message in one of the two formats, the program takes the
    branch of the format, and the parser stores the parts of the message. -/
theorem parse_render {m : Message} (hm : m.Valid) (hinput : input.length = maxBufferSize * 2)
    {rest : List UInt8} (hrest : ∀ c ∈ rest.head?, inLine c = false) :
    ∃ block msg, readMessage input (m.render ++ rest) = .ok (some block) ∧
      m.parse block = .ok msg ∧ m.Holds msg ∧
      (main .field input (m.render ++ rest)).output = banner.output ++ (m.print msg).output := by
  have hne : m.render ++ rest ≠ [] := by
    cases m <;> simp [render]
  obtain ⟨k, hk⟩ := readMessage_eq hinput hne
  rw [line_append (inLine_of_mem_render hm) (length_render_le hm) hrest] at hk
  obtain ⟨msg, hmsg, hholds⟩ := exists_parse hm k
  refine ⟨_, msg, hk, hmsg, hholds, ?_⟩
  rw [output_main hk, analyse_render hm, hmsg, Stdout.lift_ok_bind]

/-- A status report, on a line of its own. -/
def status : Message := .mqtt (text "/dev/1") (text "\x7b\"status\": \"on\"\x7d")

theorem parse_render_status : ∃ block msg,
    readMessage (List.replicate 512 0) (status.render ++ [0x0A]) = .ok (some block) ∧
      status.parse block = .ok msg ∧ status.Holds msg ∧
      (main .field (List.replicate 512 0) (status.render ++ [0x0A])).output =
        banner.output ++ (status.print msg).output :=
  parse_render (by decide) List.length_replicate fun _ h => Option.mem_some.1 h ▸ rfl

end Message

end FirmwareFuzz.Iot
