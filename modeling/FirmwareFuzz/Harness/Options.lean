import FirmwareFuzz.Harness

/-!
# The options

What the documented options ask for (`options`), and when `parse_args` does it
(`parseArgs_eq_iff`): the prefix of `--frag=N` is compared one byte too far, so
the option never counts, and without a number it is read beyond its end.
-/

namespace FirmwareFuzz

open CLang

variable {g : Globals} {a : Arg} {args argv : List Arg}

/-- An argument that ends with its terminator: what is beyond must not be read. -/
def Arg.exact (a : Arg) : List UInt8 := a.text ++ [0]

/-- What follows `--frag=` in a text. -/
def fragNumber (a : List UInt8) : Option (List UInt8) :=
  if a.take 7 = text "--frag=" then some (a.drop 7) else none

/-- What follows the last `--frag=` of an argument vector. -/
def lastFragNumber (argv : List Arg) : Option (List UInt8) :=
  ((argv.drop 1).filterMap fun a => fragNumber a.text).getLast?

/-- The number `atoi` reads in a text, but no negative one. -/
def fragValue (n : List UInt8) : Int32 :=
  match atoi (n ++ [0]) with
  | .ok i => if i < 0 then 0 else i
  | .error _ => 0

/-- What the options of an argument vector ask for. -/
def options (argv : List Arg) : Globals where
  gAutopilot := if (argv.drop 1).any fun a => a.text = text "--autopilot" then 1 else 0
  gMode := ((lastModeName argv).map modeNumber).getD 0
  gFrag := ((lastFragNumber argv).map fragValue).getD 0

/-! ## The loop -/

/-- `--frag=` alone is read beyond its end, no other argument is. -/
theorem parseArg_frag (h : a.text = text "--frag=") : parseArg g a.exact = .error .outOfBounds := by
  rw [Arg.exact, h]
  rfl

theorem parseArg_exact (h : a.text ≠ text "--frag=") : parseArg g a.exact =
    .ok { g with
      gAutopilot := if a.text = text "--autopilot" then 1 else g.gAutopilot
      gMode := ((modeName a.text).map modeNumber).getD g.gMode } :=
  parseArg_block (a := ⟨a.text, [], a.zero_notMem⟩) h

/-- No argument changes `g_frag`. -/
theorem exists_foldlM_parseArg (h : ∀ a ∈ args, a.text ≠ text "--frag=") :
    ∃ g', (args.map Arg.exact).foldlM parseArg g = .ok g' ∧ g'.gFrag = g.gFrag ∧
      g'.gAutopilot =
        if args.any fun a => a.text = text "--autopilot" then 1 else g.gAutopilot := by
  induction args generalizing g with
  | nil => exact ⟨g, rfl, rfl, rfl⟩
  | cons a args ih =>
    obtain ⟨ha, hargs⟩ := List.forall_mem_cons.1 h
    rw [List.map_cons, List.foldlM_cons, parseArg_exact ha, Except.ok_bind, List.any_cons]
    obtain ⟨g', hg', hfrag, hauto⟩ := ih hargs
    refine ⟨g', hg', hfrag, hauto.trans ?_⟩
    by_cases htext : a.text = text "--autopilot"
    · simp only [htext, if_true, decide_true, Bool.true_or, ite_self]
    · simp only [htext, if_false, decide_false, Bool.false_or]

theorem foldlM_parseArg_ne_ok {g' : Globals}
    (h : (args.map Arg.exact).foldlM parseArg g = .ok g') :
    ∀ a ∈ args, a.text ≠ text "--frag=" := by
  induction args generalizing g with
  | nil => exact List.forall_mem_nil _
  | cons a args ih =>
    rw [List.map_cons, List.foldlM_cons, Except.bind_eq_ok_iff] at h
    obtain ⟨g₁, ha, h⟩ := h
    refine List.forall_mem_cons.2 ⟨fun hfrag => ?_, ih h⟩
    rw [parseArg_frag hfrag] at ha
    cases ha

/-- `parse_args` does what the options ask for, reading no argument beyond its
    terminator, if and only if no argument is `--frag=` alone, and the last
    `--frag=N`, if there is one, asks for no fragmentation. -/
theorem parseArgs_eq_iff (argv : List Arg) :
    parseArgs (argv.map Arg.exact) = .ok (options argv) ↔
      (∀ a ∈ argv.drop 1, a.text ≠ text "--frag=") ∧
        ((lastFragNumber argv).map fragValue).getD 0 = 0 := by
  rw [parseArgs, ← List.map_drop]
  constructor
  · intro h
    have hargs := foldlM_parseArg_ne_ok h
    obtain ⟨g, hg, hfrag, -⟩ := exists_foldlM_parseArg hargs
    obtain rfl := Except.ok.inj (hg.symm.trans h)
    exact ⟨hargs, hfrag⟩
  · rintro ⟨hargs, hzero⟩
    obtain ⟨⟨auto, mode, frag⟩, hg, rfl, rfl⟩ :=
      exists_foldlM_parseArg (g := ⟨0, 0, 0⟩) hargs
    have hmode : mode = ((lastModeName argv).map modeNumber).getD 0 := by
      have hblock : (argv.drop 1).map Arg.exact =
          ((argv.drop 1).map fun a => (⟨a.text, [], a.zero_notMem⟩ : Arg)).map Arg.block := by
        rw [List.map_map]
        rfl
      rw [hblock] at hg
      have hmode := gMode_foldlM hg
      rw [List.filterMap_map] at hmode
      exact hmode
    rw [hg, options, hzero, hmode]

/-- `--frag=16` does nothing. -/
theorem parseArgs_frag16 :
    parseArgs [cString "fuzz", cString "--frag=16"] = .ok ⟨0, 0, 0⟩ ∧
      options [arg "fuzz" (by decide), arg "--frag=16" (by decide)] = ⟨0, 0, 16⟩ :=
  ⟨rfl, by decide⟩

end FirmwareFuzz
