import FirmwareFuzz.Harness

/-!
# The input of the lwIP harness

`lwip_fuzztest` takes the data of a test from a file or from a UDP server, as
its arguments say. The test for `--udp` comes after the one for any argument at
all: a file is read whenever there is an argument (`lwipFuzztest_eq`), and the
documented choice is made unless the first argument is `--udp`
(`lwipFuzztest_eq_iff`).
-/

namespace FirmwareFuzz.Lwip

open CLang

/-- `FUZZ_UDP_SERVER_ADDR` -/
def fuzzUdpServerAddr : List UInt8 := cString "127.0.0.1"

/-- `FUZZ_UDP_SERVER_PORT` -/
def fuzzUdpServerPort : Int32 := 50037

/-- Where the data comes from. -/
inductive Input
  | file (filename : List UInt8)
  | udp (server : List UInt8) (port : Int32)
  deriving DecidableEq, Repr

/-- The input `lwip_fuzztest` reads, for the blocks of the argument vector. -/
def lwipFuzztest (argv : List (List UInt8)) : Except Fault Input := do
  let argc := argv.length
  if argc > 1 then
    return .file (← load argv 1)
  else if argc > 2 then
    if (← strcmp (← load argv 1) (cString "--udp")) = .eq then
      let udp_server ← if argc > 3 then load argv 2 else pure fuzzUdpServerAddr
      let udp_port ← if argc > 4 then atoi (← load argv 3) else pure fuzzUdpServerPort
      return .udp udp_server udp_port
    else
      return .udp fuzzUdpServerAddr fuzzUdpServerPort
  else
    return .udp fuzzUdpServerAddr fuzzUdpServerPort

/-- The port an argument asks for, or the default. -/
def portOf : Option Arg → Except Fault Int32
  | some port => atoi port.block
  | none => .ok fuzzUdpServerPort

/-- The documented input: of the arguments behind `--udp`, the first is the
    address of the server, the second its port, and the others are for nothing. -/
def documentedInput : List Arg → Except Fault Input
  | _ :: a :: args =>
    if a.text = text "--udp" then do
      let port ← portOf args[1]?
      return .udp ((args[0]?.map Arg.block).getD fuzzUdpServerAddr) port
    else .ok (.file a.block)
  | _ => .ok (.udp fuzzUdpServerAddr fuzzUdpServerPort)

/-- Any argument is taken for the name of a file. -/
theorem lwipFuzztest_eq (argv : List (List UInt8)) :
    lwipFuzztest argv =
      .ok ((argv[1]?.map Input.file).getD (.udp fuzzUdpServerAddr fuzzUdpServerPort)) := by
  rcases argv with _ | ⟨p, _ | ⟨a, args⟩⟩ <;> rfl

/-- With `--udp`, the documented input is no file. -/
theorem documentedInput_udp {p a : Arg} (ha : a.text = text "--udp") (args : List Arg)
    (filename : List UInt8) : documentedInput (p :: a :: args) ≠ .ok (.file filename) := by
  rw [documentedInput, if_pos ha]
  intro h
  obtain ⟨port, -, h⟩ := Except.bind_eq_ok_iff.1 h
  cases h

/-- The input is the documented one, unless the first argument is `--udp`. -/
theorem lwipFuzztest_eq_iff (argv : List Arg) :
    lwipFuzztest (argv.map Arg.block) = documentedInput argv ↔
      ∀ a, argv[1]? = some a → a.text ≠ text "--udp" := by
  rw [lwipFuzztest_eq, List.getElem?_map]
  rcases argv with _ | ⟨p, _ | ⟨a, args⟩⟩
  · exact iff_of_true rfl fun _ h => by cases h
  · exact iff_of_true rfl fun _ h => by cases h
  · constructor
    · intro h a' ha' htext
      obtain rfl := Option.some.inj ha'
      exact documentedInput_udp htext args a.block h.symm
    · intro h
      rw [documentedInput, if_neg (h a rfl)]
      rfl

/-- `--udp` is taken for the name of a file. -/
theorem lwipFuzztest_udp :
    lwipFuzztest [cString "fuzz_test", cString "--udp"] = .ok (.file (cString "--udp")) ∧
      documentedInput [arg "fuzz_test" (by decide), arg "--udp" (by decide)] =
        .ok (.udp (cString "127.0.0.1") 50037) :=
  ⟨rfl, rfl⟩

end FirmwareFuzz.Lwip
