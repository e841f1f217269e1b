import NumericScript.Machine.Session

/-! # Runs

A run of code from its start to its end, with all lines of input at hand from the beginning. -/

namespace NumericScript

/-- How a run ended. -/
structure RunOutcome where
  status : Status
  output : String
  diagnostics : List Diagnostic
  /-- The lines of input that were not read. -/
  unread : List String

namespace RunOutcome

/-- Whether the run came to the end of the program. -/
def succeeded (o : RunOutcome) : Bool := o.status = .halted .finished

/-- The outcome for code that cannot run. -/
def ofCodeError (e : CodeError) (lines : List String) : RunOutcome :=
  ⟨.halted .fault, "", [e.diagnostic .runtime], lines⟩

end RunOutcome

namespace Session

/-- Answers requests for input until the session is over.  When there are no more lines, the
session is cancelled. -/
def answerAll (image : Image) (fuel : Nat) :
    List String → Session → Option (Session × List String)
  | lines, s =>
    match s.status, lines with
    | .awaitingInput _ _, [] => some (s.cancelInput image, [])
    | .awaitingInput _ _, line :: rest => do
      let s ← s.provideInput image fuel line
      answerAll image fuel rest s
    | _, lines => some (s, lines)

end Session

/-- Runs code that is made ready.  Gives nothing if the machine does not come to rest within
`fuel` turns. -/
def Image.run (image : Image) (fuel : Nat) (lines : List String) : Option RunOutcome := do
  let s ← (Session.start image).run image fuel none
  let (s, unread) ← s.answerAll image fuel lines
  return ⟨s.status, s.machine.output, s.diagnostics, unread⟩

/-- Runs code. -/
def Code.run (c : Code) (settings : MachineSettings) (fuel : Nat) (lines : List String) :
    Option RunOutcome :=
  match Image.ofCode c settings with
  | .ok image => image.run fuel lines
  | .error e => some (.ofCodeError e lines)

end NumericScript
