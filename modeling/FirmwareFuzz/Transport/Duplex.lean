import FirmwareFuzz.Lib.Lts

/-!
# Two streams on one line

What the fuzz transport is for, in its own terms: a line that can be online or
not, and that serves two streams to its reader, the *replies* queued on it and
then a fixed *input*, in any portions.

Over any run, each stream is conserved: what was delivered of it, followed by
what is left of it, is what was there and what was queued (`run_replies`,
`run_input`). While nothing is queued, the line serves the replies and then the
input, as one stream (`run_stream`).
-/

namespace FirmwareFuzz

variable {α : Type*}

/-- The line: what is left of the two streams. -/
structure Duplex (α : Type*) where
  online : Bool
  replies : List α
  input : List α

namespace Duplex

/-- What happens on the line. -/
inductive Label (α : Type*)
  | connect
  | close
  | poll
  /-- A read that gets nothing. -/
  | refuse
  /-- A read that gets the portion `bs` of the replies. -/
  | reply (bs : List α)
  /-- A read that gets the portion `bs` of the input. -/
  | input (bs : List α)
  | queue (bs : List α)

inductive Step : Duplex α → Label α → Duplex α → Prop
  | connect {d : Duplex α} : Step d .connect { d with online := true }
  | close {d : Duplex α} : Step d .close { d with online := false }
  | poll {d : Duplex α} : Step d .poll d
  | refuse {d : Duplex α} : d.online = false ∨ d.replies = [] ∧ d.input = [] → Step d .refuse d
  | reply {d : Duplex α} {bs rest : List α} :
      d.online = true → d.replies ≠ [] → d.replies = bs ++ rest →
      Step d (.reply bs) { d with replies := rest }
  | input {d : Duplex α} {bs rest : List α} :
      d.online = true → d.replies = [] → d.input ≠ [] → d.input = bs ++ rest →
      Step d (.input bs) { d with input := rest }
  | queue {d : Duplex α} {bs : List α} : Step d (.queue bs) { d with replies := d.replies ++ bs }

/-- The line, as a transition system. -/
def line (α : Type*) : Lts (Duplex α) (Label α) := ⟨Step⟩

/-- The replies delivered. -/
def Label.fromReplies : Label α → List α
  | .reply bs => bs
  | _ => []

/-- The input delivered. -/
def Label.fromInput : Label α → List α
  | .input bs => bs
  | _ => []

/-- What is delivered, from either stream. -/
def Label.delivered : Label α → List α
  | .reply bs => bs
  | .input bs => bs
  | _ => []

/-- What is queued. -/
def Label.queued : Label α → List α
  | .queue bs => bs
  | _ => []

variable {d d' : Duplex α} {ls : List (Label α)}

/-- The replies are conserved. -/
theorem run_replies (h : (line α).Run d ls d') :
    ls.flatMap Label.fromReplies ++ d'.replies = d.replies ++ ls.flatMap Label.queued := by
  refine h.conserves fun l _ s s' hst => ?_
  cases hst with
  | reply _ _ hs => simp [Label.fromReplies, Label.queued, hs]
  | _ => simp [Label.fromReplies, Label.queued]

/-- The input is conserved. -/
theorem run_input (h : (line α).Run d ls d') :
    ls.flatMap Label.fromInput ++ d'.input = d.input := by
  refine h.drains Duplex.input fun l _ s s' hst => ?_
  cases hst with
  | input _ _ _ hs => simp [Label.fromInput, hs]
  | _ => simp [Label.fromInput]

/-- While nothing is queued, the line serves one stream, the replies and then
    the input. -/
theorem run_stream (h : (line α).Run d ls d') (hq : ∀ l ∈ ls, l.queued = []) :
    ls.flatMap Label.delivered ++ (d'.replies ++ d'.input) = d.replies ++ d.input := by
  refine h.drains (fun d => d.replies ++ d.input) fun l hl s s' hst => ?_
  have := hq l hl
  cases hst with
  | reply _ _ hs => simp [Label.delivered, hs]
  | input _ hr _ hs => simp [Label.delivered, hr, hs]
  | queue => simp_all [Label.delivered, Label.queued]
  | _ => simp [Label.delivered]

end Duplex

end FirmwareFuzz
