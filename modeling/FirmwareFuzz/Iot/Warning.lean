import FirmwareFuzz.Iot.Messages

/-!
# The formats the parser prints with

The warning about an empty method is a format with the path in it. But the
method is never empty when there is a path: the line starts with it, and what
is stored later, even too long for its array, comes behind its first byte
(`path_of_method`). So no part of the input ever is in a format
(`formats_constant`).
-/

namespace FirmwareFuzz.Iot

open CLang

variable {b : Bounds} {l t p v x input stdin block msg msg' : List UInt8} {c : UInt8}
  {q : Option (List UInt8 × List UInt8)}

/-! ## The first byte of the struct -/

/-- What is stored of a request leaves the first byte of the method. -/
theorem storeHttp_head (h : storeHttp b msg (c :: v) q = .ok msg') : msg'.take 1 = [c] := by
  obtain ⟨msg₁, hmethod, htarget⟩ := Except.bind_eq_ok_iff.1 h
  have hhead : msg₁.take 1 = [c] := by
    obtain ⟨-, -, rfl⟩ := Field.write_eq_ok_iff.1 hmethod
    rfl
  cases q with
  | none =>
    obtain rfl := Except.ok.inj htarget
    exact hhead
  | some pt =>
    obtain ⟨msg₂, hpath, hbody⟩ := Except.bind_eq_ok_iff.1 htarget
    rw [Field.take_write hbody (by decide), Field.take_write hpath (by decide), hhead]

/-- A method whose first byte is no NUL is not empty. -/
theorem ne_nil_of_head (hmsg : msg.take 1 = [c]) (hc : c ≠ 0)
    (h : strText (method.room b msg) = .ok x) : x ≠ [] := by
  cases msg with
  | nil => exact nomatch hmsg
  | cons a msg =>
    obtain rfl := (List.cons.inj hmsg).1
    rintro rfl
    obtain ⟨-, m, hroom⟩ := strText_eq_ok h
    have : a = 0 := by
      cases b with
      | field => exact (List.cons.inj hroom).1
      | object => exact (List.cons.inj hroom).1
    exact hc this

/-- A request without a method has no path. -/
theorem path_of_method (hl : 0 ∉ l) (hhttp : text "GET" <+: l ∨ text "POST" <+: l)
    {m : List UInt8} (h : parseHttpRequest b (l ++ 0 :: m) httpMessage = .ok msg)
    (hmethod : strText (method.room b msg) = .ok []) : strText (path.room b msg) = .ok [] := by
  cases hcut : cut space l with
  | none =>
    rw [parseHttpRequest_of_none hl hcut] at h
    obtain rfl := Except.ok.inj h
    exact Field.strText_room_replicate (by decide) (by decide)
  | some q =>
    obtain ⟨v, r⟩ := q
    rw [parseHttpRequest_of_some hl hcut] at h
    obtain ⟨rfl, -⟩ := cut_eq_some_iff.1 hcut
    cases v with
    | nil => exact absurd rfl (method_ne_nil hhttp)
    | cons c v =>
      have hc : c ≠ 0 := fun h => hl (h ▸ List.mem_cons_self)
      exact absurd rfl (ne_nil_of_head (storeHttp_head h) hc hmethod)

/-! ## The formats -/

/-- The warning about an empty method. -/
def warning : String := "Warning: Empty method in request: "

/-- The formats of the source, and the warning. -/
def formats : List String :=
  ["IoT Network Message Parser\n", "Supported formats:\n",
    "  MQTT: mqtt/topic/path \x7b\"key\":\"value\"\x7d\n",
    "  HTTP: GET /path \x7b\"key\":\"value\"\x7d\n",
    "  HTTP: POST /path \x7b\"key\":\"value\"\x7d\n", "Enter message: ",
    "=== MQTT Message Analysis ===\n", "Topic: %s\n", "Payload: %s\n", "Device ID: %s\n",
    "Temperature: %s\n", "Status: %s\n", "=== HTTP Request Analysis ===\n", "Method: %s\n",
    "Path: %s\n", "Body: %s\n", warning, "Action: %s\n", "Value: %s\n", "\n", "Error: %s\n"]

/-- The format is one of the program. -/
def IsLiteral (call : Printf) : Prop := ∃ s ∈ formats, call.format = text s

theorem isLiteral {s : String} (hs : s ∈ formats) (args : List (Option (List UInt8))) :
    IsLiteral ⟨text s, args⟩ := ⟨s, hs, rfl⟩

theorem warnEmptyMethod_output
    (h : strText (method.room b msg) = .ok [] → strText (path.room b msg) = .ok []) :
    ∀ call ∈ (warnEmptyMethod b msg).output, call = ⟨text warning, []⟩ := by
  cases hmethod : strText (method.room b msg) with
  | error e =>
    have hlen : strlen (method.room b msg) = .error e := by
      rw [strlen, hmethod]
      rfl
    rw [warnEmptyMethod, Stdout.liftM_eq, hlen]
    exact List.forall_mem_nil _
  | ok v =>
    by_cases hv : v = []
    · subst hv
      rw [warnEmptyMethod_of_nil hmethod (h hmethod)]
      exact fun _ => List.eq_of_mem_singleton
    · rw [warnEmptyMethod_of_ne_nil hmethod hv]
      exact List.forall_mem_nil _

theorem printJsonValue_prints {json key : List UInt8} {s : String} (hs : s ∈ formats) :
    (printJsonValue json key (text s)).Prints IsLiteral := by
  refine Stdout.prints_lift_bind fun (n, value) => ?_
  by_cases hn : n = 0
  · simp only [hn, ne_eq, not_true_eq_false, if_false]
    exact Stdout.prints_pure ()
  · simp only [ne_eq, hn, not_false_eq_true, if_true]
    exact Stdout.prints_lift_bind fun _ => Stdout.prints_printf_iff.2 (isLiteral hs _)

theorem printMqttAnalysis_prints : (printMqttAnalysis b msg).Prints IsLiteral := by
  refine Stdout.prints_printf_bind (isLiteral (by decide) _) ?_
  refine Stdout.prints_lift_bind fun _ => ?_
  refine Stdout.prints_printf_bind (isLiteral (by decide) _) ?_
  refine Stdout.prints_lift_bind fun _ => ?_
  refine Stdout.prints_printf_bind (isLiteral (by decide) _) ?_
  refine Stdout.prints_bind (printJsonValue_prints (by decide)) fun _ _ => ?_
  refine Stdout.prints_bind (printJsonValue_prints (by decide)) fun _ _ => ?_
  refine Stdout.prints_bind (printJsonValue_prints (by decide)) fun _ _ => ?_
  exact Stdout.prints_printf_iff.2 (isLiteral (by decide) _)

theorem printHttpAnalysis_prints
    (h : strText (method.room b msg) = .ok [] → strText (path.room b msg) = .ok []) :
    (printHttpAnalysis b msg).Prints IsLiteral := by
  have hwarn : (warnEmptyMethod b msg).Prints IsLiteral := by
    intro call hcall
    rw [warnEmptyMethod_output h call hcall]
    exact isLiteral (by decide) _
  refine Stdout.prints_printf_bind (isLiteral (by decide) _) ?_
  refine Stdout.prints_lift_bind fun _ => ?_
  refine Stdout.prints_printf_bind (isLiteral (by decide) _) ?_
  refine Stdout.prints_lift_bind fun _ => ?_
  refine Stdout.prints_printf_bind (isLiteral (by decide) _) ?_
  refine Stdout.prints_lift_bind fun _ => ?_
  refine Stdout.prints_printf_bind (isLiteral (by decide) _) ?_
  refine Stdout.prints_bind hwarn fun _ _ => ?_
  refine Stdout.prints_bind (printJsonValue_prints (by decide)) fun _ _ => ?_
  refine Stdout.prints_bind (printJsonValue_prints (by decide)) fun _ _ => ?_
  exact Stdout.prints_printf_iff.2 (isLiteral (by decide) _)

theorem analyse_prints (hl : 0 ∉ l) (m : List UInt8) :
    (analyse b (l ++ 0 :: m)).Prints IsLiteral := by
  rw [analyse_eq hl]
  split_ifs with hmqtt hhttp hlong
  · exact Stdout.prints_lift_bind fun _ => printMqttAnalysis_prints
  · exact Stdout.prints_bind (Stdout.prints_lift _) fun _ h =>
      printHttpAnalysis_prints (path_of_method hl hhttp h)
  · exact Stdout.prints_printf_iff.2 (isLiteral (by decide) _)
  · exact Stdout.prints_printf_iff.2 (isLiteral (by decide) _)

theorem main_prints (hinput : input.length = maxBufferSize * 2) :
    (main b input stdin).Prints IsLiteral := by
  have hbanner : banner.Prints IsLiteral := by
    refine Stdout.prints_printf_bind (isLiteral (by decide) _) ?_
    refine Stdout.prints_printf_bind (isLiteral (by decide) _) ?_
    refine Stdout.prints_printf_bind (isLiteral (by decide) _) ?_
    refine Stdout.prints_printf_bind (isLiteral (by decide) _) ?_
    refine Stdout.prints_printf_bind (isLiteral (by decide) _) ?_
    exact Stdout.prints_printf_iff.2 (isLiteral (by decide) _)
  refine Stdout.prints_bind hbanner fun _ _ => ?_
  by_cases hstdin : stdin = []
  · subst hstdin
    exact Stdout.prints_pure 0
  · obtain ⟨m, hm⟩ := readMessage_eq hinput hstdin
    rw [Stdout.liftM_eq, hm, Stdout.lift_ok_bind]
    exact Stdout.prints_bind (analyse_prints (zero_notMem_line stdin) m) fun _ _ =>
      Stdout.prints_pure 0

/-- Every format the program prints with is one of its own, even when a part of
    a request goes on into the next arrays of the struct. Of a request, the
    warning is the text of the source, without a conversion, in an array with
    room for it, since without a method there is no path. -/
theorem formats_constant (hinput : input.length = maxBufferSize * 2) :
    (main .object input stdin).Prints IsLiteral ∧
    (∀ block msg, readMessage input stdin = .ok (some block) → ¬text "mqtt" <+: line stdin →
      text "GET" <+: line stdin ∨ text "POST" <+: line stdin →
      parseHttpRequest .object block httpMessage = .ok msg →
        (strText (method.room .object msg) = .ok [] → strText (path.room .object msg) = .ok []) ∧
        ∀ call ∈ (warnEmptyMethod .object msg).output, call = ⟨text warning, []⟩) ∧
    0x25 ∉ text warning ∧ (text warning).length < 100 := by
  refine ⟨main_prints hinput, fun block msg hblock _ hhttp hmsg => ?_, by decide, by decide⟩
  have hstdin : stdin ≠ [] := by
    rintro rfl
    exact nomatch hblock
  obtain ⟨m, hm⟩ := readMessage_eq hinput hstdin
  obtain rfl := Option.some.inj (Except.ok.inj (hm.symm.trans hblock))
  have hpath := path_of_method (zero_notMem_line stdin) hhttp hmsg
  exact ⟨hpath, warnEmptyMethod_output hpath⟩

/-- On the line of a request without any space, the warning is printed. -/
theorem formats_constant_get :
    (∀ call ∈ (main .object (List.replicate 512 0) (text "GET")).output, IsLiteral call) ∧
      ⟨text warning, []⟩ ∈ (warnEmptyMethod .object httpMessage).output :=
  ⟨(formats_constant List.length_replicate).1, by decide +kernel⟩

end FirmwareFuzz.Iot
