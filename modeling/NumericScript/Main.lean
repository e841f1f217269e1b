import NumericScript.CommandLine

/-! # The program

Reads the files that the arguments name, and lets `CommandLine` do the work.  Lines of input
are read when the running code asks for them. -/

open NumericScript

namespace NumericScript.CommandLine

/-- The number that the operating system has for an error of a file. -/
def errorNumber? : IO.Error → Option Nat
  | .noFileOrDirectory _ code _ | .inappropriateType _ code _ | .invalidArgument _ code _ =>
    some (if code < 0x80000000 then code else 0 - code).toNat
  | _ => none

/-- Why a file cannot be read. -/
def fileError (e : IO.Error) : FileError :=
  ((errorNumber? e).bind FileError.ofNumber?).getD (.other (toString e))

/-- Reads a file. -/
def readFile (path : String) : IO (Except Failure String) := do
  match (← (IO.FS.readBinFile path).toBaseIO) with
  | .ok octets =>
    match String.fromUTF8? octets with
    | some text => pure (.ok text)
    | none => pure (.error (.unreadable path .notText))
  | .error e => pure (.error (.unreadable path (fileError e)))

/-- Answers requests for input with lines from standard input. -/
partial def interact (image : Image) (stdin : IO.FS.Stream) (s : Session) : IO Session := do
  match s.status with
  | .awaitingInput _ _ =>
    let line ← stdin.getLine
    if line.isEmpty then pure (s.cancelInput image)
    else
      match s.provideInput image Session.horizon line with
      | some s => interact image stdin s
      | none => pure s
  | _ => pure s

/-- Runs code with input from standard input. -/
def runCode (code : Code) (settings : MachineSettings) : IO RunOutcome := do
  match Image.ofCode code settings with
  | .error e => pure (.ofCodeError e [])
  | .ok image =>
    let start := Session.start image
    let s := ((start.run image Session.horizon none).getD start)
    let s ← interact image (← IO.getStdin) s
    pure ⟨s.status, s.machine.output, s.diagnostics, []⟩

/-- Writes a response and gives its status. -/
def write (r : Response) : IO UInt32 := do
  IO.print r.stdout
  IO.eprint r.stderr
  pure r.status.toUInt32

/-- The settings and the source text that arguments ask for. -/
def gather (o : Options) : IO (Except Failure (Settings × String)) := do
  let settings ← match o.settings with
    | none => pure (.ok {})
    | some path => do
      let text ← readFile path
      pure (text >>= CommandLine.settings path)
  match settings with
  | .error f => pure (.error f)
  | .ok settings =>
    match o.input with
    | some path => do
      let text ← readFile path
      pure (text.map fun source => (settings, source))
    | none => do
      let source ← (← IO.getStdin).readToEnd
      pure (.ok (settings, source))

/-- Does what the arguments ask for. -/
def perform (o : Options) : IO UInt32 := do
  match (← gather o) with
  | .error f => write (.ofFailure f "")
  | .ok (settings, source) =>
    match prepare o settings source with
    | .done r => write r
    | .ready code r => do
      let outcome ← runCode code settings.machine
      write (finish source r outcome)

end NumericScript.CommandLine

def main (args : List String) : IO UInt32 := do
  match CommandLine.options args with
  | .error f => CommandLine.write (.ofFailure f "")
  | .ok o => CommandLine.perform o
