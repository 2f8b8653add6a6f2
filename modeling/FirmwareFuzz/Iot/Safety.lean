import FirmwareFuzz.Iot.Messages

/-!
# The lines the parser is safe on

A run of the program is safe if it comes to its end, every access inside of
its array, and passes no null pointer to `printf`. The lines it is safe on are
known exactly (`main_safe_iff`): a message in one of the two formats is, when
its parts and its quoted values fit their arrays, or when it has no space; any
other line is, when it is long enough for the text of the error to be set.
-/

namespace FirmwareFuzz.Iot

open CLang

variable {l t p v x input stdin msg : List UInt8} {s : String}

/-- No null pointer among the arguments. -/
def NoNull (call : Printf) : Prop := none ∉ call.args

/-- The quoted values of `keys` fit their arrays. -/
def ValuesFit (keys : List String) (x : List UInt8) : Prop :=
  ∀ s ∈ keys, ∀ v ∈ quotedValue s x, v.length ≤ 63

instance (keys : List String) (x : List UInt8) : Decidable (ValuesFit keys x) :=
  inferInstanceAs (Decidable (∀ s ∈ keys, ∀ v ∈ quotedValue s x, v.length ≤ 63))

def SafeMqtt (l : List UInt8) : Prop :=
  ∀ q ∈ cut space (l.drop 4), q.1.length ≤ 63 ∧ q.2.length ≤ 255 ∧
    ValuesFit ["device_id", "temperature", "status"] q.2

def SafeHttp (l : List UInt8) : Prop :=
  ∀ q ∈ cut space l, q.1.length ≤ 7 ∧
    ∀ q' ∈ cut space q.2, q'.1.length ≤ 63 ∧ q'.2.length ≤ 255 ∧
      ValuesFit ["action", "value"] q'.2

instance (l : List UInt8) : Decidable (SafeMqtt l) :=
  inferInstanceAs (Decidable (∀ q ∈ cut space (l.drop 4), _ ∧ _))

instance (l : List UInt8) : Decidable (SafeHttp l) :=
  inferInstanceAs (Decidable (∀ q ∈ cut space l, _ ∧ _))

/-- The lines the program is safe on. -/
def SafeLine (l : List UInt8) : Prop :=
  (text "mqtt" <+: l ∧ SafeMqtt l) ∨
  ((text "GET" <+: l ∨ text "POST" <+: l) ∧ SafeHttp l) ∨
  (¬(text "mqtt" <+: l ∨ text "GET" <+: l ∨ text "POST" <+: l) ∧ 10 < l.length)

theorem valuesFit_nil : ValuesFit [] x := nofun

theorem valuesFit_cons {keys : List String} :
    ValuesFit (s :: keys) x ↔ (∀ v ∈ quotedValue s x, v.length ≤ 63) ∧ ValuesFit keys x :=
  List.forall_mem_cons

theorem noNull_nil (format : List UInt8) : NoNull ⟨format, []⟩ := List.not_mem_nil

theorem noNull_some (format x : List UInt8) : NoNull ⟨format, [some x]⟩ :=
  List.not_mem_cons_of_ne_of_not_mem nofun List.not_mem_nil

instance (l : List UInt8) : Decidable (SafeLine l) := inferInstanceAs (Decidable (_ ∨ _ ∨ _))

/-! ## Values -/

theorem printJsonValue_ends {json key format value : List UInt8} {n : Int32}
    (h : extractJsonValue json key (List.replicate maxValueSize 0) = .ok (n, value))
    (hvalue : n ≠ 0 → ∃ x, strText value = .ok x) :
    (printJsonValue json key format).Ends NoNull := by
  rw [printJsonValue, Stdout.liftM_eq, h, Stdout.lift_ok_bind]
  by_cases hn : n = 0
  · simp only [hn, ne_eq, not_true_eq_false, if_false]
    exact Stdout.ends_pure ()
  · obtain ⟨x, hx⟩ := hvalue hn
    simp only [ne_eq, hn, not_false_eq_true, if_true, Stdout.liftM_eq, hx, Stdout.lift_ok_bind,
      Stdout.ends_printf_iff]
    exact noNull_some format x

/-- A value is printed when its text, if it is a quoted one, fits its array. -/
theorem printJsonValue_ends_iff (hs : IsKey s) (hx : 0 ∉ x) (hlen : x.length < 2 ^ 31)
    (m : List UInt8) (format : List UInt8) :
    (printJsonValue (x ++ 0 :: m) (cString s) format).Ends NoNull ↔
      ∀ v ∈ quotedValue s x, v.length ≤ 63 := by
  have hvalue : (List.replicate maxValueSize (0 : UInt8)).length = 64 := List.length_replicate
  cases h : quotedValue s x with
  | none =>
    obtain ⟨n, value, hn, htext⟩ := extractJsonValue_unquoted hs hx h m
      ((by decide : 21 ≤ 64).trans hvalue.ge)
    exact ⟨fun _ v hv => absurd hv (Option.not_mem_none v), fun _ => printJsonValue_ends hn htext⟩
  | some v =>
    have hextract : extractJsonValue (x ++ 0 :: m) (cString s)
        (List.replicate maxValueSize 0) = _ := extractJsonValue_quoted hs hx hlen h m
    rw [copyTo, Nat.zero_add, List.length_append, List.length_singleton, hvalue] at hextract
    simp only [Option.mem_def, Option.some_inj, forall_eq']
    constructor
    · intro hends
      by_contra hv
      rw [if_neg (by omega)] at hextract
      rw [printJsonValue, Stdout.liftM_eq, hextract] at hends
      obtain ⟨_, h, _⟩ := Stdout.ends_lift_bind_iff.1 hends
      cases h
    · intro hv
      rw [if_pos (by omega)] at hextract
      refine printJsonValue_ends hextract fun _ => ⟨v, ?_⟩
      rw [List.take_zero, List.nil_append, List.append_assoc]
      exact strText_append (fun h0 => hx ((isInfix_of_quotedValue h).mem h0)) _

/-! ## Printing a struct -/

theorem printMqttAnalysis_ends_iff (ht : strText (topic.room .field msg) = .ok t)
    (hp : strText (payload.room .field msg) = .ok p) (hlen : p.length < 2 ^ 31) :
    (printMqttAnalysis .field msg).Ends NoNull ↔
      ValuesFit ["device_id", "temperature", "status"] p := by
  obtain ⟨hp0, m, hroom⟩ := strText_eq_ok hp
  have hvalue : ∀ s format, IsKey s →
      ((printJsonValue (payload.room .field msg) (cString s) format).Ends NoNull ↔
        ∀ v ∈ quotedValue s p, v.length ≤ 63) := by
    intro s format hs
    rw [hroom]
    exact printJsonValue_ends_iff hs hp0 hlen m format
  simp only [printMqttAnalysis, Stdout.liftM_eq, ht, hp, Stdout.lift_ok_bind,
    Stdout.ends_printf_iff, Stdout.ends_then_iff, noNull_nil, noNull_some, true_and, and_true,
    valuesFit_cons, valuesFit_nil]
  rw [hvalue _ _ (by decide), hvalue _ _ (by decide), hvalue _ _ (by decide)]

/-- The warning about a method has room for the path. -/
theorem warnEmptyMethod_ends (hv : strText (method.room .field msg) = .ok v)
    (hp : strText (path.room .field msg) = .ok p) (h : v = [] → p = []) :
    (warnEmptyMethod .field msg).Ends NoNull := by
  by_cases h0 : v = []
  · subst h0
    rw [h rfl] at hp
    rw [warnEmptyMethod_of_nil hv hp, Stdout.ends_printf_iff]
    exact noNull_nil _
  · rw [warnEmptyMethod_of_ne_nil hv h0]
    exact Stdout.ends_pure ()

theorem printHttpAnalysis_ends_iff (hv : strText (method.room .field msg) = .ok v)
    (hp : strText (path.room .field msg) = .ok p) (ht : strText (body.room .field msg) = .ok t)
    (h : v = [] → p = []) (hlen : t.length < 2 ^ 31) :
    (printHttpAnalysis .field msg).Ends NoNull ↔ ValuesFit ["action", "value"] t := by
  obtain ⟨ht0, m, hroom⟩ := strText_eq_ok ht
  have hvalue : ∀ s format, IsKey s →
      ((printJsonValue (body.room .field msg) (cString s) format).Ends NoNull ↔
        ∀ v ∈ quotedValue s t, v.length ≤ 63) := by
    intro s format hs
    rw [hroom]
    exact printJsonValue_ends_iff hs ht0 hlen m format
  simp only [printHttpAnalysis, Stdout.liftM_eq, hv, hp, ht, Stdout.lift_ok_bind,
    Stdout.ends_printf_iff, Stdout.ends_then_iff, noNull_nil, noNull_some, true_and, and_true,
    valuesFit_cons, valuesFit_nil, warnEmptyMethod_ends hv hp h]
  rw [hvalue _ _ (by decide), hvalue _ _ (by decide)]

/-- A struct of zeros has empty strings, which hold no quoted value. -/
theorem printMqttAnalysis_zero : (printMqttAnalysis .field mqttMessage).Ends NoNull := by
  have htopic : strText (topic.room .field mqttMessage) = .ok [] :=
    Field.strText_room_replicate (by decide) (by decide)
  have hpayload : strText (payload.room .field mqttMessage) = .ok [] :=
    Field.strText_room_replicate (by decide) (by decide)
  exact (printMqttAnalysis_ends_iff htopic hpayload (by decide)).2 (by decide)

theorem printHttpAnalysis_zero : (printHttpAnalysis .field httpMessage).Ends NoNull := by
  have hmethod : strText (method.room .field httpMessage) = .ok [] :=
    Field.strText_room_replicate (by decide) (by decide)
  have hpath : strText (path.room .field httpMessage) = .ok [] :=
    Field.strText_room_replicate (by decide) (by decide)
  have hbody : strText (body.room .field httpMessage) = .ok [] :=
    Field.strText_room_replicate (by decide) (by decide)
  exact (printHttpAnalysis_ends_iff hmethod hpath hbody (fun _ => rfl) (by decide)).2 (by decide)

/-- What is stored of a request, whose method is not empty, is printed to the end
    when the quoted values of its body fit. -/
theorem printHttpAnalysis_stored_iff {q : Option (List UInt8 × List UInt8)} (hv : 0 ∉ v)
    (hne : v ≠ []) (hq : ∀ pt ∈ q, 0 ∉ pt.1 ∧ 0 ∉ pt.2) (hlen : ∀ pt ∈ q, pt.2.length < 2 ^ 31)
    (hmsg : storeHttp .field httpMessage v q = .ok msg) :
    (printHttpAnalysis .field msg).Ends NoNull ↔ ∀ pt ∈ q, ValuesFit ["action", "value"] pt.2 := by
  obtain ⟨hmethod, hpath, hbody⟩ := storeHttp_fields hv hq hmsg
  cases q with
  | none =>
    rw [printHttpAnalysis_ends_iff hmethod hpath hbody (absurd · hne) (by decide)]
    exact ⟨fun _ => nofun, fun _ => by decide⟩
  | some pt =>
    rw [printHttpAnalysis_ends_iff hmethod hpath hbody (absurd · hne) (hlen pt rfl)]
    simp only [Option.mem_def, Option.some_inj, forall_eq', Option.getD_some]

/-! ## The branches -/

theorem mqtt_ends_iff (hl : 0 ∉ l) (hlen : l.length ≤ 511) (hmqtt : text "mqtt" <+: l)
    (m : List UInt8) :
    (Stdout.lift (parseMqttTopic .field (l ++ 0 :: m) mqttMessage) >>=
      printMqttAnalysis .field).Ends NoNull ↔ SafeMqtt l := by
  have h4 : 4 ≤ l.length := hmqtt.length_le
  rw [Stdout.ends_lift_bind_iff, SafeMqtt]
  cases hcut : cut space (l.drop 4) with
  | none =>
    rw [parseMqttTopic_of_none hl h4 hcut]
    exact ⟨fun _ => nofun, fun _ => ⟨mqttMessage, rfl, printMqttAnalysis_zero⟩⟩
  | some q =>
    obtain ⟨t, p⟩ := q
    obtain ⟨hsplit, -⟩ := cut_eq_some_iff.1 hcut
    have hmem : ∀ c, c ∈ t ++ space :: p → c ∈ l := fun c hc => List.mem_of_mem_drop (hsplit ▸ hc)
    have ht : 0 ∉ t := fun h => hl (hmem 0 (by simp [h]))
    have hp : 0 ∉ p := fun h => hl (hmem 0 (by simp [h]))
    have hplen : p.length < 2 ^ 31 := by
      have := congrArg List.length hsplit
      rw [List.length_append, List.length_drop, List.length_cons] at this
      omega
    rw [parseMqttTopic_of_some hl h4 (hlen.trans_lt (by decide)) hcut]
    simp only [Option.mem_def, Option.some_inj, forall_eq', ← and_assoc]
    rw [← exists_storeMqtt_iff]
    constructor
    · rintro ⟨msg, hmsg, hends⟩
      obtain ⟨htopic, hpayload⟩ := storeMqtt_fields ht hp hmsg
      exact ⟨⟨msg, hmsg⟩, (printMqttAnalysis_ends_iff htopic hpayload hplen).1 hends⟩
    · rintro ⟨⟨msg, hmsg⟩, hfit⟩
      obtain ⟨htopic, hpayload⟩ := storeMqtt_fields ht hp hmsg
      exact ⟨msg, hmsg, (printMqttAnalysis_ends_iff htopic hpayload hplen).2 hfit⟩

theorem http_ends_iff (hl : 0 ∉ l) (hlen : l.length ≤ 511)
    (hhttp : text "GET" <+: l ∨ text "POST" <+: l) (m : List UInt8) :
    (Stdout.lift (parseHttpRequest .field (l ++ 0 :: m) httpMessage) >>=
      printHttpAnalysis .field).Ends NoNull ↔ SafeHttp l := by
  rw [Stdout.ends_lift_bind_iff, SafeHttp]
  cases hcut : cut space l with
  | none =>
    rw [parseHttpRequest_of_none hl hcut]
    exact ⟨fun _ => nofun, fun _ => ⟨httpMessage, rfl, printHttpAnalysis_zero⟩⟩
  | some q =>
    obtain ⟨v, r⟩ := q
    rw [parseHttpRequest_of_some hl hcut]
    obtain ⟨rfl, -⟩ := cut_eq_some_iff.1 hcut
    have hv : 0 ∉ v := fun h => hl (by simp [h])
    have hne := method_ne_nil hhttp
    have hq : ∀ pt ∈ cut space r, (0 ∉ pt.1 ∧ 0 ∉ pt.2) ∧ pt.2.length < 2 ^ 31 := by
      intro pt hpt
      obtain ⟨rfl, -⟩ := cut_eq_some_iff.1 (Option.mem_def.1 hpt)
      refine ⟨⟨fun h => hl (by simp [h]), fun h => hl (by simp [h])⟩, ?_⟩
      simp only [List.length_append, List.length_cons] at hlen
      omega
    have hends : ∀ msg, storeHttp .field httpMessage v (cut space r) = .ok msg →
        ((printHttpAnalysis .field msg).Ends NoNull ↔
          ∀ pt ∈ cut space r, ValuesFit ["action", "value"] pt.2) := fun msg hmsg =>
      printHttpAnalysis_stored_iff hv hne (fun pt hpt => (hq pt hpt).1)
        (fun pt hpt => (hq pt hpt).2) hmsg
    simp only [Option.mem_some_iff, forall_eq']
    constructor
    · rintro ⟨msg, hmsg, h⟩
      obtain ⟨hvlen, hlens⟩ := exists_storeHttp_iff.1 ⟨msg, hmsg⟩
      have hfit := (hends msg hmsg).1 h
      exact ⟨hvlen, fun pt hpt => ⟨(hlens pt hpt).1, (hlens pt hpt).2, hfit pt hpt⟩⟩
    · rintro ⟨hvlen, hrest⟩
      obtain ⟨msg, hmsg⟩ :=
        exists_storeHttp_iff.2 ⟨hvlen, fun pt hpt => ⟨(hrest pt hpt).1, (hrest pt hpt).2.1⟩⟩
      exact ⟨msg, hmsg, (hends msg hmsg).2 fun pt hpt => (hrest pt hpt).2.2⟩

theorem analyse_safe_iff (hl : 0 ∉ l) (hlen : l.length ≤ 511) (m : List UInt8) :
    (analyse .field (l ++ 0 :: m)).Ends NoNull ↔ SafeLine l := by
  rw [analyse_eq hl, SafeLine]
  split_ifs with hmqtt hhttp hlong
  · rw [mqtt_ends_iff hl hlen hmqtt]
    have hnot : ¬(text "GET" <+: l ∨ text "POST" <+: l) := fun h => not_mqtt_of_http h hmqtt
    simp [hmqtt, hnot]
  · rw [http_ends_iff hl hlen hhttp]
    simp [hmqtt, hhttp]
  · simp [hmqtt, hhttp, hlong, Stdout.ends_printf_iff, noNull_some]
  · simp [hmqtt, hhttp, hlong, Stdout.ends_printf_iff, NoNull]

/-- The program is safe on a line if and only if the parts and the quoted values
    of its message fit their arrays, or the line has no space, or it is in no
    known format and long. -/
theorem main_safe_iff (hinput : input.length = maxBufferSize * 2) (hstdin : stdin ≠ []) :
    (main .field input stdin).Ends NoNull ↔ SafeLine (line stdin) := by
  obtain ⟨m, hm⟩ := readMessage_eq hinput hstdin
  rw [main, Stdout.ends_then_iff, Stdout.liftM_eq, hm, Stdout.lift_ok_bind, Stdout.ends_then_iff,
    analyse_safe_iff (zero_notMem_line stdin) (length_line_le stdin)]
  have hbanner : banner.Ends NoNull := by
    simp only [banner, Stdout.ends_then_iff, Stdout.ends_printf_iff, noNull_nil, and_true]
  exact (and_iff_right hbanner).trans (and_iff_left (Stdout.ends_pure 0))

/-- The program is safe on the line of the status report. -/
theorem main_safe_iff_status :
    (main .field (List.replicate 512 0) Message.status.render).Ends NoNull :=
  (main_safe_iff List.length_replicate (by decide)).2 (by decide +kernel)

end FirmwareFuzz.Iot
