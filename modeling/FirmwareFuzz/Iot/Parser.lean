import FirmwareFuzz.Lib.CDecimal
import FirmwareFuzz.Lib.CPrint
import FirmwareFuzz.Lib.CStruct

/-!
# The IoT message parser

The sample program `iot_parser.c`: it reads a line, splits a message in the
MQTT or in the HTTP format into the members of a struct, and prints them with
some values of the JSON text they carry.

An array of a struct is a `Field` of the block of the struct, and the
functions that touch one depend on the `Bounds`: each array for itself, or the
struct as one flat array. Every other array is a block of its own.

What a function prints and where it stops is kept apart (`Stdout`): a run that
ends in a fault has still printed what it printed before.
-/

namespace FirmwareFuzz.Iot

open CLang

/-! ## Parsing -/

def maxBufferSize : ℕ := 256
def maxTopicSize : ℕ := 64
def maxPathSize : ℕ := 64
def maxKeySize : ℕ := 32
def maxValueSize : ℕ := 64

/-! The members of `mqtt_message_t`. -/

def topic : Field := ⟨0, maxTopicSize⟩
def payload : Field := ⟨maxTopicSize, maxBufferSize⟩

/-- `mqtt_message_t msg = {0}` -/
def mqttMessage : List UInt8 := List.replicate (maxTopicSize + maxBufferSize) 0

/-! The members of `http_message_t`. -/

def method : Field := ⟨0, 8⟩
def path : Field := ⟨8, maxPathSize⟩
def body : Field := ⟨8 + maxPathSize, maxBufferSize⟩

/-- `http_message_t msg = {0}` -/
def httpMessage : List UInt8 := List.replicate (8 + maxPathSize + maxBufferSize) 0

def space : UInt8 := 0x20
def quote : UInt8 := 0x22

variable (b : Bounds)

def parseMqttTopic (input msg : List UInt8) : Except Fault (List UInt8) := do
  let input := input.drop 4
  match ← strchr space input with
  | none => return msg
  | some space_pos =>
    let topic_len := intOfSize space_pos
    let msg ← topic.write b msg 0 (← strncpy (sizeOfInt topic_len) input)
    let msg ← topic.write b msg (sizeOfInt topic_len) [0]
    payload.strcpy b msg (input.drop (space_pos + 1))

/-- `snprintf(search_key, sizeof(search_key), "\"%s\":", key)`: cut at the size. -/
def searchKey (key : List UInt8) : Except Fault (List UInt8) := do
  return (quote :: (← strText key) ++ [quote, 0x3A]).take (maxKeySize + 4 - 1) ++ [0]

/-- `extract_json_value`, from a value without quotes on. -/
def extractNumber (value_start value : List UInt8) : Except Fault (Int32 × List UInt8) := do
  let num ← strtol value_start
  let value ← copyTo value 0 (decimal num ++ [0])
  return (intOfSize (← strtolEnd value_start), value)

/-- `extract_json_value`, from the first byte of the value on. -/
def extractValue (value_start value : List UInt8) : Except Fault (Int32 × List UInt8) := do
  if (← load value_start 0) = quote then
    let value_start := value_start.drop 1
    match ← strchr quote value_start with
    | none => return (0, value)
    | some value_end =>
      let len := intOfSize value_end
      let value ← copyTo value 0 (← strncpy (sizeOfInt len) value_start)
      let value ← copyTo value (sizeOfInt len) [0]
      return (len, value)
  else
    extractNumber value_start value

/-- The result, and the array `value` points to. -/
def extractJsonValue (json key value : List UInt8) : Except Fault (Int32 × List UInt8) := do
  let search_key ← searchKey key
  match ← strstr json search_key with
  | none => return (0, value)
  | some key_pos =>
    extractValue (← skipSpace (json.drop (key_pos + (← strlen search_key)))) value

/-- The copy of the input is made in a block with room for it. -/
def parseHttpRequest (input msg : List UInt8) : Except Fault (List UInt8) := do
  let input_copy := List.replicate ((← strlen input) + 1) 0
  let input_copy ← strcpy input_copy input
  match ← strchr space input_copy with
  | none => return msg
  | some method_end =>
    let input_copy ← copyTo input_copy method_end [0]
    let msg ← method.strcpy b msg input_copy
    let path_start := method_end + 1
    match ← strchr space (input_copy.drop path_start) with
    | none => return msg
    | some path_len =>
      let path_end := path_start + path_len
      let input_copy ← copyTo input_copy path_end [0]
      let msg ← path.strcpy b msg (input_copy.drop path_start)
      let body_start := path_end + 1
      body.strcpy b msg (input_copy.drop body_start)

/-! ## Printing -/

/-- `if (extract_json_value(json, key, value)) printf(format, value)`, with a new
    array for the value. -/
def printJsonValue (json key format : List UInt8) : Stdout Unit := do
  let (len, value) ← extractJsonValue json key (List.replicate maxValueSize 0)
  if len ≠ 0 then
    printf format [some (← strText value)]

def printMqttAnalysis (msg : List UInt8) : Stdout Unit := do
  printf (text "=== MQTT Message Analysis ===\n") []
  printf (text "Topic: %s\n") [some (← strText (topic.room b msg))]
  printf (text "Payload: %s\n") [some (← strText (payload.room b msg))]
  printJsonValue (payload.room b msg) (cString "device_id") (text "Device ID: %s\n")
  printJsonValue (payload.room b msg) (cString "temperature") (text "Temperature: %s\n")
  printJsonValue (payload.room b msg) (cString "status") (text "Status: %s\n")
  printf (text "\n") []

/-- The warning about an empty method, whose text is a format. -/
def warnEmptyMethod (msg : List UInt8) : Stdout Unit := do
  let error_msg := List.replicate 100 0
  if (← strlen (method.room b msg)) = 0 then
    let warning := text "Warning: Empty method in request: " ++ (← strText (path.room b msg))
    let error_msg ← copyTo error_msg 0 (warning ++ [0])
    printf (← strText error_msg) []

def printHttpAnalysis (msg : List UInt8) : Stdout Unit := do
  printf (text "=== HTTP Request Analysis ===\n") []
  printf (text "Method: %s\n") [some (← strText (method.room b msg))]
  printf (text "Path: %s\n") [some (← strText (path.room b msg))]
  printf (text "Body: %s\n") [some (← strText (body.room b msg))]
  warnEmptyMethod b msg
  printJsonValue (body.room b msg) (cString "action") (text "Action: %s\n")
  printJsonValue (body.room b msg) (cString "value") (text "Value: %s\n")
  printf (text "\n") []

/-! ## The program -/

/-- The bytes `fgets` takes: up to the end of the line, and `n` at most. -/
def takeLine : (n : ℕ) → List UInt8 → List UInt8
  | 0, _ => []
  | _ + 1, [] => []
  | n + 1, c :: stdin => c :: if c = 0x0A then [] else takeLine n stdin

/-- `fgets(s, n, stdin)`, on what is left of `stdin`: `none` at its end. -/
def fgets (s : List UInt8) (n : ℕ) (stdin : List UInt8) : Except Fault (Option (List UInt8)) :=
  if stdin = [] then .ok none else return some (← copyTo s 0 (takeLine (n - 1) stdin ++ [0]))

/-- The message read to `input`, without the end of the line. -/
def readMessage (input stdin : List UInt8) : Except Fault (Option (List UInt8)) := do
  match ← fgets input (maxBufferSize * 2) stdin with
  | none => return none
  | some input => return some (← copyTo input (← strcspn 0x0A input) [0])

/-- What `main` does with a message. -/
def analyse (input : List UInt8) : Stdout Unit := do
  let mqtt ← strncmp 4 input (cString "mqtt")
  let get ← strncmp 3 input (cString "GET")
  let post ← strncmp 4 input (cString "POST")
  if mqtt = .eq then
    printMqttAnalysis b (← parseMqttTopic b input mqttMessage)
  else if get = .eq ∨ post = .eq then
    printHttpAnalysis b (← parseHttpRequest b input httpMessage)
  else if 10 < (← strlen input) then
    let unknown_format ← strcpy (List.replicate 20 0) (cString "Unknown format")
    printf (text "Error: %s\n") [some (← strText unknown_format)]
  else
    printf (text "Error: %s\n") [none]

def banner : Stdout Unit := do
  printf (text "IoT Network Message Parser\n") []
  printf (text "Supported formats:\n") []
  printf (text "  MQTT: mqtt/topic/path \x7b\"key\":\"value\"\x7d\n") []
  printf (text "  HTTP: GET /path \x7b\"key\":\"value\"\x7d\n") []
  printf (text "  HTTP: POST /path \x7b\"key\":\"value\"\x7d\n") []
  printf (text "Enter message: ") []

/-- The program, on the array `input` as the stack has it. -/
def main (input stdin : List UInt8) : Stdout Int32 := do
  banner
  match ← readMessage input stdin with
  | none => return 0
  | some input =>
    analyse b input
    return 0

end FirmwareFuzz.Iot
