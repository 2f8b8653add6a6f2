import FirmwareFuzz.Iot.Lookup
import FirmwareFuzz.Iot.Messages
import FirmwareFuzz.Lib.COverrun

/-!
# The fuzz tests of the parser

The fuzz tests call the parser on strings, in a memory where only accesses
outside of a whole struct are noticed, and expect the strings in its members to
fit them. A test is given by whether its expectations hold.

* These expectations miss nothing: the tests of the two formats pass exactly on
  the inputs whose parts all fit their arrays (`fuzzMqtt_iff`, `fuzzHttp_iff`).
* Those on a JSON value are never what makes a test fail, and a test that builds
  its JSON text from short enough parts never fails (`fuzzJson_iff`).
* The test of edge cases expects nothing: parts that overrun their arrays inside
  of the struct pass it (`fuzzEdgeCases_iff`).
-/

namespace FirmwareFuzz.Iot

open CLang

/-! ## The tests -/

section

variable (b : Bounds)

/-- What the tests of `parse_mqtt_topic` do with an input. -/
def expectMqtt (input : List UInt8) : Except Fault Bool := do
  let msg ← parseMqttTopic b (input ++ [0]) mqttMessage
  let topicLen ← strlen (topic.room b msg)
  let payloadLen ← strlen (payload.room b msg)
  return topicLen ≤ maxTopicSize - 1 && payloadLen ≤ maxBufferSize - 1

/-- What the tests of `parse_http_request` do with an input. -/
def expectHttp (input : List UInt8) : Except Fault Bool := do
  let msg ← parseHttpRequest b (input ++ [0]) httpMessage
  let methodLen ← strlen (method.room b msg)
  let pathLen ← strlen (path.room b msg)
  let bodyLen ← strlen (body.room b msg)
  return methodLen ≤ method.size - 1 && pathLen ≤ maxPathSize - 1 && bodyLen ≤ maxBufferSize - 1

def fuzzMqttTopicParsing (input : List UInt8) : Except Fault Bool :=
  if input.length < 4 then .ok true else expectMqtt b input

def fuzzHttpRequestParsing (input : List UInt8) : Except Fault Bool :=
  if input = [] ∨ 1000 < input.length then .ok true else expectHttp b input

def fuzzMqttStructured (topic payload : List UInt8) : Except Fault Bool :=
  if topic = [] ∨ payload = [] then .ok true
  else
    let mqtt_input := text "mqtt" ++ topic ++ space :: payload
    if 1000 < mqtt_input.length then .ok true else expectMqtt b mqtt_input

def fuzzHttpMethodPath (method path body : List UInt8) : Except Fault Bool :=
  if method = [] ∨ path = [] then .ok true
  else
    let http_request := method ++ space :: path ++ space :: body
    if 800 < http_request.length then .ok true else expectHttp b http_request

def fuzzJsonExtraction (json key : List UInt8) : Except Fault Bool :=
  if json = [] ∨ key = [] ∨ 1000 < json.length ∨ 30 < key.length then .ok true
  else do
    let value := List.replicate maxValueSize 0
    let (result, value) ← extractJsonValue (json ++ [0]) (key ++ [0]) value
    if result > 0 then
      return result ≥ 0 && (← strlen value) ≤ maxValueSize - 1
    else
      return result ≥ 0

/-- The JSON text of `FuzzJsonKeyValue`. -/
def jsonKeyValue (pre key value suf : List UInt8) : List UInt8 :=
  pre ++ quote :: key ++ [quote, 0x3A, quote] ++ value ++ quote :: suf

def fuzzJsonKeyValue (pre key value suf : List UInt8) : Except Fault Bool :=
  if key = [] ∨ 20 < key.length then .ok true
  else
    let json := jsonKeyValue pre key value suf
    if 800 < json.length then .ok true
    else do
      let extracted := List.replicate maxValueSize 0
      let (result, extracted) ← extractJsonValue (json ++ [0]) (key ++ [0]) extracted
      if result > 0 then
        return (← strlen extracted) ≤ maxValueSize - 1 && 0 < (← strlen extracted)
      else
        return true

/-- The array `value` is as the stack has it, and `m` is what can be read behind the
    string: it may be part of a larger buffer. -/
def fuzzEdgeCases (value m : List UInt8) (input_type : Int32) (data : List UInt8) :
    Except Fault Bool :=
  if 500 < data.length then .ok true
  else
    match input_type.toInt.tmod 3 with
    | 0 => do
      let _ ← parseMqttTopic b (data ++ 0 :: m) mqttMessage
      return true
    | 1 => do
      let _ ← extractJsonValue (data ++ 0 :: m) (cString "test") value
      return true
    | 2 => do
      let _ ← parseHttpRequest b (data ++ 0 :: m) httpMessage
      return true
    | _ => return true

end

variable {b : Bounds} {input data t p v x y json key value m msg : List UInt8}
  {q : Option (List UInt8 × List UInt8)}

theorem strlen_eq_ok_iff {n : ℕ} : strlen x = .ok n ↔ ∃ y, strText x = .ok y ∧ y.length = n := by
  simp only [strlen, Except.bind_eq_ok_iff, Except.pure_eq_ok_iff]

/-- The parts of a string without NUL that is cut have none. -/
theorem zero_notMem_of_cut (hx : 0 ∉ x) (h : cut space x = some (t, p)) : 0 ∉ t ∧ 0 ∉ p := by
  obtain ⟨rfl, -⟩ := cut_eq_some_iff.1 h
  exact ⟨fun h => hx (by simp [h]), fun h => hx (by simp [h])⟩

/-! ## MQTT -/

theorem expectMqtt_eq_true_iff :
    expectMqtt b input = .ok true ↔
      ∃ msg t p, parseMqttTopic b (input ++ [0]) mqttMessage = .ok msg ∧
        strText (topic.room b msg) = .ok t ∧ strText (payload.room b msg) = .ok p ∧
        t.length ≤ 63 ∧ p.length ≤ 255 := by
  simp only [expectMqtt, Except.bind_eq_ok_iff, Except.pure_eq_ok_iff, strlen_eq_ok_iff,
    Bool.and_eq_true, decide_eq_true_iff]
  constructor
  · rintro ⟨msg, hmsg, _, ⟨t, ht, rfl⟩, _, ⟨p, hp, rfl⟩, hfit⟩
    exact ⟨msg, t, p, hmsg, ht, hp, hfit⟩
  · rintro ⟨msg, t, p, hmsg, ht, hp, hfit⟩
    exact ⟨msg, hmsg, _, ⟨t, ht, rfl⟩, _, ⟨p, hp, rfl⟩, hfit⟩

theorem storeMqtt_object (h : storeMqtt .field mqttMessage t p = .ok msg) :
    storeMqtt .object mqttMessage t p = .ok msg := by
  obtain ⟨msg₁, htopic, hpayload⟩ := Except.bind_eq_ok_iff.1 h
  exact Except.bind_eq_ok_iff.2 ⟨msg₁, Field.write_object htopic, Field.write_object hpayload⟩

/-- What was stored fits its arrays if the strings of the struct do. -/
theorem length_le_of_storeMqtt (ht : 0 ∉ t) (hp : 0 ∉ p)
    (h : storeMqtt .object mqttMessage t p = .ok msg)
    (hx : strText (topic.room .object msg) = .ok x)
    (hy : strText (payload.room .object msg) = .ok y) (hxlen : x.length ≤ 63)
    (hylen : y.length ≤ 255) : t.length ≤ 63 ∧ p.length ≤ 255 := by
  obtain ⟨msg₁, htopic, hpayload⟩ := Except.bind_eq_ok_iff.1 h
  have hlen : msg.length = 320 := by
    rw [Field.length_write hpayload, Field.length_write htopic, length_mqttMessage]
  have hkeep : msg.take 64 = msg₁.take 64 := Field.take_write hpayload le_rfl
  have htlt := Field.length_lt_of_strText htopic ht hkeep (hlen ▸ by decide) hx
    (Nat.lt_succ_of_le hxlen)
  have hplt := Field.length_lt_of_strText hpayload hp rfl (hlen ▸ by decide) hy
    (Nat.lt_succ_of_le hylen)
  exact ⟨Nat.le_of_lt_succ htlt, Nat.le_of_lt_succ hplt⟩

/-- The parser on a block: the first four characters are skipped unseen. -/
theorem parseMqttTopic_block (hzero : 0 ∈ x.drop 4) (hlen : x.length ≤ 2 ^ 31) :
    parseMqttTopic b x msg =
      match cut space (cText (x.drop 4)) with
      | none => .ok msg
      | some (t, p) => storeMqtt b msg t p := by
  obtain ⟨y, m₀, hy⟩ := List.append_of_mem hzero
  obtain ⟨htext, m, hm⟩ := exists_cText y m₀
  have hl : 0 ∉ text "mqtt" ++ cText y := List.not_mem_append (by decide) (zero_notMem_cText _)
  have hl4 : 4 ≤ (text "mqtt" ++ cText y).length :=
    (List.prefix_append (text "mqtt") _).length_le
  have hllen : (text "mqtt" ++ cText y).length < 2 ^ 31 := by
    have hle := (cText_prefix_self y).length_le
    have hdrop := congrArg List.length hy
    have hfour : (text "mqtt").length = 4 := rfl
    rw [List.length_drop, List.length_append, List.length_cons] at hdrop
    rw [List.length_append, hfour]
    omega
  have hdrop : x.drop 4 = (text "mqtt" ++ cText y ++ 0 :: m).drop 4 := by
    rw [hy, hm, List.append_assoc]
    rfl
  have hparse : parseMqttTopic b x msg =
      parseMqttTopic b (text "mqtt" ++ cText y ++ 0 :: m) msg := by
    rw [parseMqttTopic, parseMqttTopic, hdrop]
  have htail : (text "mqtt" ++ cText y).drop 4 = cText y := rfl
  rw [hparse, hy, htext]
  cases hcut : cut space (cText y) with
  | none => exact parseMqttTopic_of_none hl hl4 (htail ▸ hcut) m
  | some q => exact parseMqttTopic_of_some hl hl4 hllen (htail ▸ hcut) m

theorem parseMqttTopic_string (h4 : 4 ≤ input.length) (hlen : input.length < 2 ^ 31) :
    parseMqttTopic b (input ++ [0]) msg =
      match cut space (cText (input.drop 4)) with
      | none => .ok msg
      | some (t, p) => storeMqtt b msg t p := by
  have hdrop : (input ++ [0]).drop 4 = input.drop 4 ++ [0] := List.drop_append_of_le_length h4
  have hmem : 0 ∈ (input ++ [0]).drop 4 := hdrop ▸ List.mem_append_right _ List.mem_cons_self
  have hblock : (input ++ [0]).length ≤ 2 ^ 31 := by
    rw [List.length_append, List.length_singleton]
    exact hlen
  rw [parseMqttTopic_block hmem hblock, hdrop, (exists_cText _ []).1]

/-- The expectations hold if and only if no array of the struct is overrun. -/
theorem expectMqtt_iff (h4 : 4 ≤ input.length) (hlen : input.length < 2 ^ 31) :
    expectMqtt .object input = .ok true ↔
      ∃ msg, parseMqttTopic .field (input ++ [0]) mqttMessage = .ok msg := by
  simp only [expectMqtt_eq_true_iff, parseMqttTopic_string h4 hlen]
  cases hcut : cut space (cText (input.drop 4)) with
  | none =>
    refine iff_of_true ⟨mqttMessage, [], [], rfl, ?_, ?_, by decide, by decide⟩ ⟨mqttMessage, rfl⟩
    · exact Field.strText_room_replicate (by decide) (by decide)
    · exact Field.strText_room_replicate (by decide) (by decide)
  | some q =>
    obtain ⟨t, p⟩ := q
    obtain ⟨ht, hp⟩ := zero_notMem_of_cut (zero_notMem_cText _) hcut
    constructor
    · rintro ⟨msg, x, y, hmsg, hx, hy, hxlen, hylen⟩
      exact exists_storeMqtt_iff.2 (length_le_of_storeMqtt ht hp hmsg hx hy hxlen hylen)
    · rintro ⟨msg, hmsg⟩
      obtain ⟨htopic, hpayload⟩ := storeMqtt_fields ht hp hmsg
      exact ⟨msg, t, p, storeMqtt_object hmsg, Field.strText_room_object htopic,
        Field.strText_room_object hpayload, exists_storeMqtt_iff.1 ⟨msg, hmsg⟩⟩

/-- The tests of `parse_mqtt_topic` pass on what they skip, and on the inputs
    that overrun no array. -/
theorem fuzzMqtt_iff :
    (∀ input : List UInt8, input.length < 2 ^ 31 →
      (fuzzMqttTopicParsing .object input = .ok true ↔ input.length < 4 ∨
        ∃ msg, parseMqttTopic .field (input ++ [0]) mqttMessage = .ok msg)) ∧
    ∀ t p : List UInt8, t ≠ [] → p ≠ [] → t.length + p.length ≤ 995 →
      (fuzzMqttStructured .object t p = .ok true ↔
        ∃ msg, parseMqttTopic .field (text "mqtt" ++ t ++ space :: p ++ [0]) mqttMessage =
          .ok msg) := by
  constructor
  · intro input hlen
    rw [fuzzMqttTopicParsing]
    split_ifs with hshort
    · exact iff_of_true rfl (.inl hshort)
    · rw [expectMqtt_iff (Nat.not_lt.1 hshort) hlen]
      exact (or_iff_right hshort).symm
  · intro t p ht hp hlen
    have hfour : (text "mqtt").length = 4 := rfl
    have hinput : (text "mqtt" ++ t ++ space :: p).length = t.length + p.length + 5 := by
      rw [List.length_append, List.length_append, List.length_cons, hfour]
      omega
    rw [fuzzMqttStructured, if_neg (not_or.2 ⟨ht, hp⟩)]
    simp only
    rw [if_neg (by omega)]
    exact expectMqtt_iff (by omega) (by omega)

theorem fuzzMqtt_iff_fits :
    fuzzMqttTopicParsing .object (text "mqtt/a b") = .ok true ∧
      fuzzMqttStructured .object (text "/a") (text "b") = .ok true := by
  have hstore : ∃ msg, storeMqtt .field mqttMessage (text "/a") (text "b") = .ok msg :=
    exists_storeMqtt_iff.2 (by decide)
  constructor
  · refine (fuzzMqtt_iff.1 (text "mqtt/a b") (by decide)).2 (.inr ?_)
    rw [parseMqttTopic_string (by decide) (by decide)]
    exact hstore
  · refine (fuzzMqtt_iff.2 (text "/a") (text "b") (by decide) (by decide) (by decide)).2 ?_
    rw [parseMqttTopic_string (by decide) (by decide)]
    exact hstore

/-! ## HTTP -/

theorem expectHttp_eq_true_iff :
    expectHttp b input = .ok true ↔
      ∃ msg v p t, parseHttpRequest b (input ++ [0]) httpMessage = .ok msg ∧
        strText (method.room b msg) = .ok v ∧ strText (path.room b msg) = .ok p ∧
        strText (body.room b msg) = .ok t ∧ v.length ≤ 7 ∧ p.length ≤ 63 ∧ t.length ≤ 255 := by
  simp only [expectHttp, Except.bind_eq_ok_iff, Except.pure_eq_ok_iff, strlen_eq_ok_iff,
    Bool.and_eq_true, decide_eq_true_iff, and_assoc]
  constructor
  · rintro ⟨msg, hmsg, _, ⟨v, hv, rfl⟩, _, ⟨p, hp, rfl⟩, _, ⟨t, ht, rfl⟩, hfit⟩
    exact ⟨msg, v, p, t, hmsg, hv, hp, ht, hfit⟩
  · rintro ⟨msg, v, p, t, hmsg, hv, hp, ht, hfit⟩
    exact ⟨msg, hmsg, _, ⟨v, hv, rfl⟩, _, ⟨p, hp, rfl⟩, _, ⟨t, ht, rfl⟩, hfit⟩

theorem storeHttp_object (h : storeHttp .field httpMessage v q = .ok msg) :
    storeHttp .object httpMessage v q = .ok msg := by
  obtain ⟨msg₁, hmethod, htarget⟩ := Except.bind_eq_ok_iff.1 h
  refine Except.bind_eq_ok_iff.2 ⟨msg₁, Field.write_object hmethod, ?_⟩
  cases q with
  | none => exact htarget
  | some pt =>
    obtain ⟨msg₂, hpath, hbody⟩ := Except.bind_eq_ok_iff.1 htarget
    exact Except.bind_eq_ok_iff.2 ⟨msg₂, Field.write_object hpath, Field.write_object hbody⟩

/-- What was stored fits its arrays if the strings of the struct do. -/
theorem length_le_of_storeHttp {x y z : List UInt8} (hv : 0 ∉ v)
    (hq : ∀ pt ∈ q, 0 ∉ pt.1 ∧ 0 ∉ pt.2) (h : storeHttp .object httpMessage v q = .ok msg)
    (hx : strText (method.room .object msg) = .ok x) (hy : strText (path.room .object msg) = .ok y)
    (hz : strText (body.room .object msg) = .ok z) (hxlen : x.length ≤ 7) (hylen : y.length ≤ 63)
    (hzlen : z.length ≤ 255) : v.length ≤ 7 ∧ ∀ pt ∈ q, pt.1.length ≤ 63 ∧ pt.2.length ≤ 255 := by
  obtain ⟨msg₁, hmethod, htarget⟩ := Except.bind_eq_ok_iff.1 h
  have hlen₁ : msg₁.length = 328 := by rw [Field.length_write hmethod, length_httpMessage]
  cases q with
  | none =>
    obtain rfl := Except.ok.inj htarget
    have hvlt := Field.length_lt_of_strText hmethod hv rfl (hlen₁ ▸ by decide) hx
      (Nat.lt_succ_of_le hxlen)
    exact ⟨Nat.le_of_lt_succ hvlt, fun _ h => nomatch h⟩
  | some pt =>
    obtain ⟨hp, ht⟩ := hq pt rfl
    obtain ⟨msg₂, hpath, hbody⟩ := Except.bind_eq_ok_iff.1 htarget
    have hlen : msg.length = 328 := by
      rw [Field.length_write hbody, Field.length_write hpath, hlen₁]
    have hmethodkeep : msg.take 8 = msg₁.take 8 :=
      (Field.take_write hbody (by decide)).trans (Field.take_write hpath le_rfl)
    have hpathkeep : msg.take 72 = msg₂.take 72 := Field.take_write hbody le_rfl
    have hvlt := Field.length_lt_of_strText hmethod hv hmethodkeep (hlen ▸ by decide) hx
      (Nat.lt_succ_of_le hxlen)
    have hplt := Field.length_lt_of_strText hpath hp hpathkeep (hlen ▸ by decide) hy
      (Nat.lt_succ_of_le hylen)
    have htlt := Field.length_lt_of_strText hbody ht rfl (hlen ▸ by decide) hz
      (Nat.lt_succ_of_le hzlen)
    refine ⟨Nat.le_of_lt_succ hvlt, fun pt' hpt' => ?_⟩
    obtain rfl := Option.mem_some.1 hpt'
    exact ⟨Nat.le_of_lt_succ hplt, Nat.le_of_lt_succ htlt⟩

theorem parseHttpRequest_string (input m : List UInt8) :
    parseHttpRequest b (input ++ 0 :: m) msg =
      match cut space (cText input) with
      | none => .ok msg
      | some (v, r) => storeHttp b msg v (cut space r) := by
  obtain ⟨-, m, hm⟩ := exists_cText input m
  rw [hm]
  cases hcut : cut space (cText input) with
  | none => exact parseHttpRequest_of_none (zero_notMem_cText input) hcut m
  | some q => exact parseHttpRequest_of_some (zero_notMem_cText input) hcut m

/-- The expectations hold if and only if no array of the struct is overrun. -/
theorem expectHttp_iff (input : List UInt8) :
    expectHttp .object input = .ok true ↔
      ∃ msg, parseHttpRequest .field (input ++ [0]) httpMessage = .ok msg := by
  simp only [expectHttp_eq_true_iff, parseHttpRequest_string]
  cases hcut : cut space (cText input) with
  | none =>
    refine iff_of_true ⟨httpMessage, [], [], [], rfl, ?_, ?_, ?_, by decide, by decide, by decide⟩
      ⟨httpMessage, rfl⟩
    · exact Field.strText_room_replicate (by decide) (by decide)
    · exact Field.strText_room_replicate (by decide) (by decide)
    · exact Field.strText_room_replicate (by decide) (by decide)
  | some vr =>
    obtain ⟨v, r⟩ := vr
    obtain ⟨hv, hr⟩ := zero_notMem_of_cut (zero_notMem_cText _) hcut
    have hq : ∀ pt ∈ cut space r, 0 ∉ pt.1 ∧ 0 ∉ pt.2 :=
      fun pt hpt => zero_notMem_of_cut hr (Option.mem_def.1 hpt)
    constructor
    · rintro ⟨msg, x, y, z, hmsg, hx, hy, hz, hxlen, hylen, hzlen⟩
      exact exists_storeHttp_iff.2
        (length_le_of_storeHttp hv hq hmsg hx hy hz hxlen hylen hzlen)
    · rintro ⟨msg, hmsg⟩
      obtain ⟨hmethod, hpath, hbody⟩ := storeHttp_fields hv hq hmsg
      obtain ⟨hvlen, hlens⟩ := exists_storeHttp_iff.1 ⟨msg, hmsg⟩
      refine ⟨msg, v, _, _, storeHttp_object hmsg, Field.strText_room_object hmethod,
        Field.strText_room_object hpath, Field.strText_room_object hbody, hvlen, ?_⟩
      cases hcut' : cut space r with
      | none => decide
      | some pt => exact hlens pt hcut'

/-- The tests of `parse_http_request` pass on what they skip, and on the inputs
    that overrun no array. -/
theorem fuzzHttp_iff :
    (∀ input : List UInt8, input ≠ [] → input.length ≤ 1000 →
      (fuzzHttpRequestParsing .object input = .ok true ↔
        ∃ msg, parseHttpRequest .field (input ++ [0]) httpMessage = .ok msg)) ∧
    ∀ v p t : List UInt8, v ≠ [] → p ≠ [] → v.length + p.length + t.length ≤ 798 →
      (fuzzHttpMethodPath .object v p t = .ok true ↔
        ∃ msg, parseHttpRequest .field (v ++ space :: p ++ space :: t ++ [0]) httpMessage =
          .ok msg) := by
  constructor
  · intro input hne hlen
    rw [fuzzHttpRequestParsing, if_neg (not_or.2 ⟨hne, Nat.not_lt.2 hlen⟩)]
    exact expectHttp_iff input
  · intro v p t hv hp hlen
    have hinput : (v ++ space :: p ++ space :: t).length = v.length + p.length + t.length + 2 := by
      simp only [List.length_append, List.length_cons]
      omega
    rw [fuzzHttpMethodPath, if_neg (not_or.2 ⟨hv, hp⟩)]
    simp only
    rw [if_neg (by omega)]
    exact expectHttp_iff _

theorem fuzzHttp_iff_fits :
    fuzzHttpRequestParsing .object (text "GET /a b") = .ok true ∧
      fuzzHttpMethodPath .object (text "GET") (text "/a") (text "b") = .ok true := by
  have hstore : ∃ msg,
      storeHttp .field httpMessage (text "GET") (some (text "/a", text "b")) = .ok msg :=
    exists_storeHttp_iff.2 ⟨by decide, fun _ h => Option.mem_some.1 h ▸ by decide⟩
  constructor
  · refine (fuzzHttp_iff.1 (text "GET /a b") (by decide) (by decide)).2 ?_
    rw [parseHttpRequest_string]
    exact hstore
  · refine (fuzzHttp_iff.2 (text "GET") (text "/a") (text "b") (by decide) (by decide)
      (by decide)).2 ?_
    rw [parseHttpRequest_string]
    exact hstore

/-! ## JSON -/

theorem skipSign_suffix (x : List UInt8) : skipSign x <:+ x := by
  rw [skipSign.eq_def]
  split
  · exact List.suffix_cons _ _
  · exact List.suffix_cons _ _
  · exact List.suffix_refl _

theorem length_integerText_le (x : List UInt8) : (integerText x).length ≤ x.length := by
  have hsign := (skipSign_suffix x).length_le
  have hdigits := (List.takeWhile_prefix isdigit (l := skipSign x)).length_le
  rw [integerText]
  split_ifs
  · exact Nat.zero_le _
  · rw [List.length_append, List.length_take]
    omega

theorem length_valueText_le (y : List UInt8) : (valueText y).length ≤ y.length := by
  rw [valueText]
  cases hq : quoted y with
  | none => exact length_integerText_le y
  | some v => exact (isInfix_of_quoted hq).length_le

/-- A value that fits its array is stored as a text, not an empty one if its
    length is reported as positive. -/
theorem extractValue_fits (hy : 0 ∉ y) (hspace : y.dropWhile isspace = y)
    (hlen : y.length < 2 ^ 31) (hvalue : value.length = 64)
    (hfit : ∀ v ∈ quoted y, v.length ≤ 63) (m : List UInt8) :
    ∃ n value', extractValue (y ++ 0 :: m) value = .ok (n, value') ∧ 0 ≤ n.toInt ∧
      (0 < n.toInt → ∃ x, strText value' = .ok x ∧ 0 < x.length ∧ x.length ≤ 63) := by
  have hret : ∀ n value', extractValue (y ++ 0 :: m) value = .ok (n, value') →
      n.toInt = (valueText y).length := by
    intro n value' h
    rw [ret_extractValue hy hspace h, toInt_intOfSize ((length_valueText_le y).trans_lt hlen)]
  cases hq : quoted y with
  | some v =>
    have hv := hfit v hq
    have hzero : 0 ∉ v := fun h => hy ((isInfix_of_quoted hq).mem h)
    have hextract : extractValue (y ++ 0 :: m) value =
        .ok (intOfSize v.length, v ++ 0 :: value.drop (v.length + 1)) := by
      rw [extractValue_quoted hy (by omega) hq, copyTo_string (by omega)]
      rfl
    have htext : valueText y = v := by rw [valueText, hq, Option.getD_some]
    have hn := hret _ _ hextract
    rw [htext] at hn
    refine ⟨_, _, hextract, by omega, fun hpos => ⟨v, strText_append hzero _, by omega, hv⟩⟩
  | none =>
    by_cases hc : y.head? = some quote
    · -- The quotes are not closed.
      obtain ⟨y, rfl⟩ := List.head?_eq_some_iff.1 hc
      rw [quoted, if_pos rfl, Option.map_eq_none_iff] at hq
      refine ⟨0, value, ?_, le_rfl, fun h => absurd h (by decide)⟩
      rw [extractValue_quote (List.not_mem_of_not_mem_cons hy), hq]
    · obtain ⟨num, hnum, hrange⟩ := exists_strtol y m
      obtain ⟨e, he⟩ := exists_strtolEnd y m
      have hdecimal := length_decimal_le hrange
      have hextract : extractValue (y ++ 0 :: m) value =
          .ok (intOfSize e, decimal num ++ 0 :: value.drop ((decimal num).length + 1)) := by
        rw [extractValue_of_ne hc, extractNumber, hnum, Except.ok_bind, copyTo_string (by omega),
          Except.ok_bind, he]
        rfl
      have hn := hret _ _ hextract
      refine ⟨_, _, hextract, by omega, fun _ => ⟨decimal num, ?_, ?_, by omega⟩⟩
      · exact strText_append (zero_notMem_decimal num) _
      · have hdigits := List.length_pos_iff.2 (digits_ne_nil num.natAbs)
        rw [decimal]
        split_ifs
        · exact Nat.succ_pos _
        · exact hdigits

/-- There was room for a quoted value that was stored. -/
theorem length_le_of_extractValue {r : Int32 × List UInt8} (hy : 0 ∉ y) (hlen : y.length < 2 ^ 31)
    (hvalue : value.length = 64) {m : List UInt8} (h : extractValue (y ++ 0 :: m) value = .ok r) :
    ∀ v ∈ quoted y, v.length ≤ 63 := by
  intro v hv
  have hvlen : v.length < 2 ^ 31 := (isInfix_of_quoted hv).length_le.trans_lt hlen
  rw [extractValue_quoted hy hvlen hv] at h
  obtain ⟨value', hcopy, -⟩ := Except.bind_eq_ok_iff.1 h
  by_contra hlt
  have hroom : ¬0 + (v ++ [0]).length ≤ value.length := by
    rw [List.length_append, List.length_singleton]
    omega
  rw [copyTo, if_neg hroom] at hcopy
  cases hcopy

/-- The tests look into an array of zeros, of 64 cells. -/
theorem length_zeros : (List.replicate maxValueSize (0 : UInt8)).length = 64 :=
  List.length_replicate

/-- The value of a key fits its array, if there is a quoted one. -/
def ValueFits (json key : List UInt8) : Prop :=
  ∀ y ∈ behind (cutKey (cText key)) (cText json), ∀ v ∈ quoted y, v.length ≤ 63

theorem extractJsonValue_string (json m key value : List UInt8) :
    ∃ m', extractJsonValue (json ++ 0 :: m) (key ++ [0]) value =
      match behind (cutKey (cText key)) (cText json) with
      | none => .ok (0, value)
      | some y => extractValue (y ++ 0 :: m') value := by
  obtain ⟨-, m, hm⟩ := exists_cText json m
  obtain ⟨-, m', hm'⟩ := exists_cText key []
  refine ⟨m, ?_⟩
  rw [hm, hm']
  refine (extractJsonValue_text (zero_notMem_cText json) (zero_notMem_cText key) m m').trans ?_
  cases behind (cutKey (cText key)) (cText json) <;> rfl

/-- A value that fits its array is extracted, in bounds, to what the tests
    expect. -/
theorem extractJsonValue_fits (hlen : json.length < 2 ^ 31) (hvalue : value.length = 64)
    (hfit : ValueFits json key) (m : List UInt8) :
    ∃ n value', extractJsonValue (json ++ 0 :: m) (key ++ [0]) value = .ok (n, value') ∧
      0 ≤ n.toInt ∧ (0 < n.toInt → ∃ x, strText value' = .ok x ∧ 0 < x.length ∧ x.length ≤ 63) := by
  obtain ⟨m, hm⟩ := extractJsonValue_string json m key value
  rw [hm]
  cases hy : behind (cutKey (cText key)) (cText json) with
  | none => exact ⟨0, value, rfl, le_rfl, fun h => absurd h (by decide)⟩
  | some y =>
    have hylen : y.length < 2 ^ 31 :=
      ((behind_suffix hy).length_le.trans (cText_prefix_self json).length_le).trans_lt hlen
    exact extractValue_fits (zero_notMem_behind (zero_notMem_cText json) hy) (dropWhile_behind hy)
      hylen hvalue (hfit y hy) m

theorem valueFits_of_extractJsonValue (hlen : json.length < 2 ^ 31) (hvalue : value.length = 64)
    {r : Int32 × List UInt8} (h : extractJsonValue (json ++ 0 :: m) (key ++ [0]) value = .ok r) :
    ValueFits json key := by
  obtain ⟨m, hm⟩ := extractJsonValue_string json m key value
  intro y hy
  rw [Option.mem_def] at hy
  rw [hm, hy] at h
  have hylen : y.length < 2 ^ 31 :=
    ((behind_suffix hy).length_le.trans (cText_prefix_self json).length_le).trans_lt hlen
  exact length_le_of_extractValue (zero_notMem_behind (zero_notMem_cText json) hy) hylen hvalue h

/-- A value is extracted if and only if it fits its array. -/
theorem exists_extractJsonValue_iff (hlen : json.length < 2 ^ 31) (hvalue : value.length = 64) :
    (∃ r, extractJsonValue (json ++ 0 :: m) (key ++ [0]) value = .ok r) ↔ ValueFits json key := by
  constructor
  · rintro ⟨r, hr⟩
    exact valueFits_of_extractJsonValue hlen hvalue hr
  · intro hfit
    obtain ⟨n, value', hextract, -⟩ := extractJsonValue_fits hlen hvalue hfit m
    exact ⟨(n, value'), hextract⟩

/-- A text without quotes is on one side of them. -/
theorem infix_or_infix {l r : List UInt8} (hv : quote ∉ v) (h : v <:+: l ++ quote :: r) :
    v <:+: l ∨ v <:+: r := by
  induction l with
  | nil =>
    rcases List.infix_cons_iff.1 h with hpre | hinfix
    · cases v with
      | nil => exact .inr (List.nil_infix)
      | cons c v =>
        have hc := (List.cons_prefix_cons.1 hpre).1
        exact absurd (hc ▸ List.mem_cons_self) hv
    · exact .inr hinfix
  | cons a l ih =>
    rw [List.cons_append] at h
    rcases List.infix_cons_iff.1 h with hpre | hinfix
    · left
      rcases List.prefix_or_prefix_of_prefix hpre (List.prefix_append (a :: l) _) with h | h
      · exact h.isInfix
      · obtain ⟨w, rfl⟩ := h
        rw [← List.cons_append, List.prefix_append_right_inj] at hpre
        cases w with
        | nil => exact (List.append_nil (a :: l)).symm ▸ List.infix_refl _
        | cons c w =>
          have hc := (List.cons_prefix_cons.1 hpre).1
          exact absurd (List.mem_append_right _ (hc ▸ List.mem_cons_self)) hv
    · exact (ih hinfix).imp_left (·.trans (List.suffix_cons a l).isInfix)

/-- In a text of short parts between quotes, no value is too long. -/
theorem valueFits_jsonKeyValue {pre suf : List UInt8} (hpre : pre.length ≤ 63)
    (hkey : key.length ≤ 63) (hvalue : value.length ≤ 63) (hsuf : suf.length ≤ 63) :
    ValueFits (jsonKeyValue pre key value suf) key := by
  intro y hy v hv
  have hinfix : v <:+: jsonKeyValue pre key value suf :=
    (isInfix_of_quoted hv).trans ((behind_suffix hy).isInfix.trans (cText_prefix_self _).isInfix)
  obtain ⟨-, -, hquote⟩ := quoted_eq_some hv
  have hsplit : jsonKeyValue pre key value suf =
      pre ++ quote :: (key ++ quote :: ([0x3A] ++ quote :: (value ++ quote :: suf))) := by
    simp [jsonKeyValue]
  rw [hsplit] at hinfix
  rcases infix_or_infix hquote hinfix with h | h
  · exact h.length_le.trans hpre
  rcases infix_or_infix hquote h with h | h
  · exact h.length_le.trans hkey
  rcases infix_or_infix hquote h with h | h
  · exact h.length_le.trans (by decide)
  rcases infix_or_infix hquote h with h | h
  · exact h.length_le.trans hvalue
  · exact h.length_le.trans hsuf

/-- The test of extraction passes on what overruns no array, and the one that
    builds its text from short parts always passes. -/
theorem fuzzJson_iff :
    (∀ json key : List UInt8, json ≠ [] → key ≠ [] → json.length ≤ 1000 → key.length ≤ 30 →
      (fuzzJsonExtraction json key = .ok true ↔
        ∃ r, extractJsonValue (json ++ [0]) (key ++ [0]) (List.replicate maxValueSize 0) =
          .ok r)) ∧
    ∀ pre key value suf : List UInt8, pre.length ≤ 63 → value.length ≤ 63 → suf.length ≤ 63 →
      fuzzJsonKeyValue pre key value suf = .ok true := by
  constructor
  · intro json key hjson hkey hlen hklen
    have hguard : ¬(json = [] ∨ key = [] ∨ 1000 < json.length ∨ 30 < key.length) := by
      push Not
      exact ⟨hjson, hkey, hlen, hklen⟩
    rw [fuzzJsonExtraction, if_neg hguard]
    constructor
    · intro h
      obtain ⟨r, hr, -⟩ := Except.bind_eq_ok_iff.1 h
      exact ⟨r, hr⟩
    · rintro ⟨r, hr⟩
      obtain ⟨n, value, hextract, hn, hvalue⟩ := extractJsonValue_fits (by omega) length_zeros
        (valueFits_of_extractJsonValue (by omega) length_zeros hr) []
      have hge : n ≥ 0 := Int32.le_iff_toInt_le.2 hn
      simp only [hextract, Except.ok_bind]
      by_cases hpos : n > 0
      · obtain ⟨x, hx, -, hxlen⟩ := hvalue (Int32.lt_iff_toInt_lt.1 hpos)
        change x.length ≤ maxValueSize - 1 at hxlen
        have hstrlen : strlen value = .ok x.length := strlen_eq_ok_iff.2 ⟨x, hx, rfl⟩
        rw [if_pos hpos, hstrlen, decide_eq_true hge, Except.ok_bind, decide_eq_true hxlen]
        rfl
      · rw [if_neg hpos, decide_eq_true hge]
        rfl
  · intro pre key value suf hpre hvalue hsuf
    rw [fuzzJsonKeyValue]
    split_ifs with hguard
    · rfl
    have hkey : key.length ≤ 20 := Nat.not_lt.1 (not_or.1 hguard).2
    have hlen : (jsonKeyValue pre key value suf).length < 2 ^ 31 := by
      simp only [jsonKeyValue, List.length_append, List.length_cons, List.length_nil]
      omega
    simp only
    split_ifs with hlong
    · rfl
    obtain ⟨n, extracted, hextract, -, htext⟩ := extractJsonValue_fits hlen length_zeros
      (valueFits_jsonKeyValue hpre (hkey.trans (by decide)) hvalue hsuf) []
    simp only [hextract, Except.ok_bind]
    by_cases hpos : n > 0
    · obtain ⟨x, hx, hxpos, hxlen⟩ := htext (Int32.lt_iff_toInt_lt.1 hpos)
      change x.length ≤ maxValueSize - 1 at hxlen
      have hstrlen : strlen extracted = .ok x.length := strlen_eq_ok_iff.2 ⟨x, hx, rfl⟩
      rw [if_pos hpos, hstrlen, Except.ok_bind, Except.ok_bind, decide_eq_true hxlen,
        decide_eq_true hxpos]
      rfl
    · rw [if_neg hpos]
      rfl

/-- A value in the members of a JSON text, and one built. -/
theorem fuzzJson_iff_fits :
    fuzzJsonExtraction (jsonKeyValue [] (text "k") (text "v") []) (text "k") = .ok true ∧
      fuzzJsonKeyValue [] (text "k") (text "v") [] = .ok true := by
  refine ⟨(fuzzJson_iff.1 _ (text "k") (by decide) (by decide) (by decide) (by decide)).2 ?_,
    fuzzJson_iff.2 [] (text "k") (text "v") [] (by decide) (by decide) (by decide)⟩
  have hfit : ValueFits (jsonKeyValue [] (text "k") (text "v") []) (text "k") :=
    valueFits_jsonKeyValue (by decide) (by decide) (by decide) (by decide)
  exact (exists_extractJsonValue_iff (by decide) length_zeros).2 hfit

/-! ## Edge cases -/

/-- A topic and a payload can be stored when they fit the struct. -/
theorem exists_storeMqtt_object_iff :
    (∃ msg, storeMqtt .object mqttMessage t p = .ok msg) ↔ t.length ≤ 319 ∧ p.length ≤ 255 := by
  have hpayload : ∀ msg : List UInt8, msg.length = mqttMessage.length →
      ((∃ msg', payload.write .object msg 0 (p ++ [0]) = .ok msg') ↔ p.length ≤ 255) := by
    intro msg hmsg
    rw [Field.exists_write_object_iff, hmsg, length_mqttMessage, List.length_append]
    show 64 + 0 + (p.length + 1) ≤ 320 ↔ p.length ≤ 255
    omega
  rw [storeMqtt, Field.exists_write_object_bind_iff hpayload, length_mqttMessage,
    List.length_append]
  show 0 + 0 + (t.length + 1) ≤ 320 ∧ _ ↔ t.length ≤ 319 ∧ _
  omega

/-- A method, and a path and a body if there are any, can be stored when they
    fit the struct. -/
theorem exists_storeHttp_object_iff :
    (∃ msg, storeHttp .object httpMessage v q = .ok msg) ↔
      v.length ≤ 327 ∧ ∀ pt ∈ q, pt.1.length ≤ 319 ∧ pt.2.length ≤ 255 := by
  have htarget : ∀ msg : List UInt8, msg.length = httpMessage.length →
      ((∃ msg', storeTarget .object msg q = .ok msg') ↔
        ∀ pt ∈ q, pt.1.length ≤ 319 ∧ pt.2.length ≤ 255) := by
    intro msg hmsg
    rw [length_httpMessage] at hmsg
    cases q with
    | none => exact iff_of_true ⟨msg, rfl⟩ fun _ h => nomatch h
    | some pt =>
      have hbody : ∀ msg' : List UInt8, msg'.length = msg.length →
          ((∃ msg'', body.write .object msg' 0 (pt.2 ++ [0]) = .ok msg'') ↔
            pt.2.length ≤ 255) := by
        intro msg' hmsg'
        rw [Field.exists_write_object_iff, hmsg', hmsg, List.length_append]
        show 72 + 0 + (pt.2.length + 1) ≤ 328 ↔ pt.2.length ≤ 255
        omega
      simp only [Option.mem_def, Option.some_inj, forall_eq']
      rw [storeTarget, Field.exists_write_object_bind_iff hbody, hmsg, List.length_append]
      show 8 + 0 + (pt.1.length + 1) ≤ 328 ∧ _ ↔ pt.1.length ≤ 319 ∧ _
      omega
  rw [storeHttp, Field.exists_write_object_bind_iff htarget, length_httpMessage,
    List.length_append]
  refine and_congr_left' ?_
  show 0 + 0 + (v.length + 1) ≤ 328 ↔ v.length ≤ 327
  omega

/-- The block goes on to a terminator behind the first four characters, or else the
    parser leaves it. -/
theorem zero_mem_of_parseMqttTopic {msg' : List UInt8} (h : parseMqttTopic b x msg = .ok msg') :
    0 ∈ x.drop 4 := by
  rw [parseMqttTopic] at h
  obtain ⟨pos, hpos, h⟩ := Except.bind_eq_ok_iff.1 h
  cases pos with
  | none => exact zero_mem_of_strchr hpos
  | some pos =>
    -- The payload is a string behind the space.
    simp only [Except.bind_eq_ok_iff, Field.strcpy] at h
    obtain ⟨_, _, _, _, _, _, t, ht, -⟩ := h
    obtain ⟨-, m, hm⟩ := strText_eq_ok ht
    refine List.mem_of_mem_drop (i := pos + 1) ?_
    rw [hm]
    exact List.mem_append_right _ List.mem_cons_self

/-- The test expects nothing of what it calls. -/
theorem bind_const_eq_true_iff {α : Type} {e : Except Fault α} :
    (e >>= fun _ => (pure true : Except Fault Bool)) = .ok true ↔ ∃ a, e = .ok a := by
  simp only [Except.bind_eq_ok_iff, Except.pure_eq_ok_iff, and_true]

/-- What overruns an array, but not its struct, passes. A topic is looked for behind
    the first four characters, and so behind a shorter string. -/
theorem fuzzEdgeCases_iff (hvalue : value.length = 64) (hdata : data.length ≤ 500)
    (hm : (data ++ 0 :: m).length ≤ 2 ^ 31) (input_type : Int32) :
    fuzzEdgeCases .object value m input_type data = .ok true ↔
      (input_type.toInt.tmod 3 = 0 → 0 ∈ (data ++ 0 :: m).drop 4 ∧
        ∀ q ∈ cut space (cText ((data ++ 0 :: m).drop 4)),
          q.1.length ≤ 319 ∧ q.2.length ≤ 255) ∧
      (input_type.toInt.tmod 3 = 1 → ValueFits data (text "test")) ∧
      (input_type.toInt.tmod 3 = 2 → ∀ q ∈ cut space (cText data), q.1.length ≤ 327 ∧
        ∀ q' ∈ cut space q.2, q'.1.length ≤ 319 ∧ q'.2.length ≤ 255) := by
  rw [fuzzEdgeCases, if_neg (Nat.not_lt.2 hdata)]
  generalize input_type.toInt.tmod 3 = k
  split
  · -- MQTT
    rw [bind_const_eq_true_iff]
    simp only [forall_const, zero_ne_one, OfNat.zero_ne_ofNat, false_imp_iff, and_true]
    by_cases hzero : 0 ∈ (data ++ 0 :: m).drop 4
    · rw [parseMqttTopic_block hzero hm]
      cases hcut : cut space (cText ((data ++ 0 :: m).drop 4)) with
      | none => exact iff_of_true ⟨_, rfl⟩ ⟨hzero, fun _ h => nomatch h⟩
      | some q =>
        simp only [Option.mem_def, Option.some_inj, forall_eq', hzero, true_and]
        exact exists_storeMqtt_object_iff
    · refine iff_of_false ?_ fun h => hzero h.1
      rintro ⟨_, h⟩
      exact hzero (zero_mem_of_parseMqttTopic h)
  · -- JSON
    rw [bind_const_eq_true_iff]
    simp only [forall_const, one_ne_zero, OfNat.one_ne_ofNat, false_imp_iff, and_true, true_and]
    exact exists_extractJsonValue_iff (hdata.trans_lt (by decide)) hvalue
  · -- HTTP
    rw [bind_const_eq_true_iff]
    simp only [forall_const, OfNat.ofNat_ne_zero, OfNat.ofNat_ne_one, false_imp_iff, true_and]
    rw [parseHttpRequest_string]
    cases hcut : cut space (cText data) with
    | none => exact iff_of_true ⟨_, rfl⟩ fun _ h => nomatch h
    | some q =>
      simp only [Option.mem_def, Option.some_inj, forall_eq']
      exact exists_storeHttp_object_iff
  · exact iff_of_true rfl ⟨fun h => by contradiction, fun h => by contradiction,
      fun h => by contradiction⟩

/-- A method too long for its array passes, and so does a string too short for the
    name of a format, in a buffer of 16 bytes. -/
theorem fuzzEdgeCases_iff_overrun :
    fuzzEdgeCases .object (List.replicate 64 0) [] 2 (text "PROPFIND /a b") = .ok true ∧
      fuzzEdgeCases .object (List.replicate 64 0) (List.replicate 12 0) 0 (text "mqt") =
        .ok true := by
  constructor
  · refine (fuzzEdgeCases_iff List.length_replicate (by decide) (by decide) 2).2
      ⟨?_, ?_, fun _ q hq => ?_⟩
    · exact fun h => absurd h (by decide)
    · exact fun h => absurd h (by decide)
    · have hcut : cut space (cText (text "PROPFIND /a b")) =
          some (text "PROPFIND", text "/a b") := by decide
      rw [hcut] at hq
      obtain rfl := Option.mem_some.1 hq
      exact ⟨by decide, fun q' hq' => Option.mem_some.1 hq' ▸ by decide⟩
  · refine (fuzzEdgeCases_iff List.length_replicate (by decide) (by decide) 0).2
      ⟨fun _ => ⟨by decide, fun q hq => ?_⟩, ?_, ?_⟩
    · have hcut : cut space (cText ((text "mqt" ++ 0 :: List.replicate 12 0).drop 4)) = none := by
        decide
      rw [hcut] at hq
      cases hq
    · exact fun h => absurd h (by decide)
    · exact fun h => absurd h (by decide)

end FirmwareFuzz.Iot
