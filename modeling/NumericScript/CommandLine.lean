import NumericScript.CommandLine.Folder
import NumericScript.Emit
import NumericScript.Run
import NumericScript.Settings.Document

/-! # The command line

What the program does for its arguments: it reads settings and a source text, compiles, shows
what it is asked to show, and runs the code.  Reading files and talking to the user are left
to `Main`; here is what is written, and the status at the end. -/

namespace NumericScript.CommandLine

/-- The choices that arguments make. -/
structure Options where
  settings : Option String := none
  emit : List Emit := []
  run : Bool := true
  /-- The file with the source text, which else comes from standard input. -/
  input : Option String := none
deriving DecidableEq, Repr

/-- What ends the program before it has done its work. -/
inductive Failure where
  | missingPath (arg : String)
  | missingTarget (arg : String)
  | unknownTarget (name : String)
  | manyInputs
  | unreadable (path : String) (cause : FileError)
  | badSettings (path : String)
  /-- The symbols have no written form. -/
  | symbols
deriving DecidableEq, Repr

namespace Failure

/-- The wording of a failure. -/
def message : Failure → String
  | missingPath arg => "Missing path after " ++ arg
  | missingTarget arg => "Missing target after " ++ arg
  | unknownTarget name => "Unknown --emit target '" ++ name ++ "'"
  | manyInputs => "Only one input file is supported"
  | unreadable path _ => "Reading " ++ path
  | badSettings path => "Loading " ++ path
  | symbols => "Serializing symbols"

/-- What a failure comes from, if there is more to say. -/
def cause? : Failure → Option String
  | unreadable _ cause => some cause.message
  | badSettings _ => some "Parsing configuration"
  | symbols => some "serializing nested enums in YAML is not supported yet"
  | _ => none

/-- A failure as it is shown. -/
def text (f : Failure) : String :=
  "Error: " ++ f.message ++ "\n"
    ++ (f.cause?.map fun cause => "\nCaused by:\n    " ++ cause ++ "\n").getD ""

end Failure

/-! ### Arguments -/

/-- The choices that arguments make, added to those of the arguments before. -/
def optionsFrom (o : Options) : List String → Except Failure Options
  | [] => .ok o
  | "--no-run" :: rest => optionsFrom { o with run := false } rest
  | arg :: rest =>
    if arg = "--config" ∨ arg = "-c" then
      match rest with
      | [] => .error (.missingPath arg)
      | path :: rest => optionsFrom { o with settings := some path } rest
    else if arg = "--emit" ∨ arg = "-e" then
      match rest with
      | [] => .error (.missingTarget arg)
      | name :: rest =>
        match Emit.ofName? name with
        | none => .error (.unknownTarget name)
        | some e => optionsFrom { o with emit := o.emit ++ [e] } rest
    else
      match o.input with
      | some _ => .error .manyInputs
      | none => optionsFrom { o with input := some arg } rest

/-- The choices that arguments make. -/
def options (args : List String) : Except Failure Options := optionsFrom {} args

/-- The settings that a file with the given text makes. -/
def settings (path text : String) : Except Failure Settings :=
  match Settings.ofDocument? text with
  | some s => .ok s
  | none => .error (.badSettings path)

/-! ### Work -/

/-- What was written, and the status at the end. -/
structure Response where
  stdout : String
  stderr : String
  status : Nat
deriving DecidableEq, Repr

/-- The response to a failure, after what was written before. -/
def Response.ofFailure (f : Failure) (stdout : String) : Response := ⟨stdout, f.text, 1⟩

/-- The work up to the run: it is over, or code is to be run. -/
inductive Prepared where
  | done (r : Response)
  /-- Code is to be run; `r` is the response so far. -/
  | ready (code : Code) (r : Response)

/-- Diagnostics as they are shown. -/
def report (ds : List Diagnostic) : String := unlines (ds.map Diagnostic.text)

/-- Shows one thing after the other, after what was shown before. -/
def emitAll (c : Compilation) (shown : String) : List Emit → String × Option Failure
  | [] => (shown, none)
  | e :: es =>
    match c.emit? e with
    | some text => emitAll c (shown ++ text) es
    | none => (shown, some .symbols)

/-- Compiles and shows what is to be shown. -/
def prepare (o : Options) (s : Settings) (source : String) : Prepared :=
  let c := compile source s
  match emitAll c "" o.emit with
  | (shown, some f) => .done (.ofFailure f shown)
  | (shown, none) =>
    let r : Response := ⟨shown, report c.diagnostics, 0⟩
    match c.succeeded, c.optimized with
    | true, some code => if o.run then .ready code r else .done r
    | _, _ => .done { r with status := 1 }

/-- The status of a program whose run is aborted. -/
def abortedStatus : Nat := 101

/-- The response after a run. -/
def finish (source : String) (r : Response) (outcome : RunOutcome) : Response :=
  if outcome.status = .halted .aborted then
    ⟨r.stdout, r.stderr ++ Fault.overflow.message ++ "\n", abortedStatus⟩
  else
    ⟨r.stdout ++ outcome.output,
      r.stderr ++ report (attachContext source outcome.diagnostics),
      if outcome.succeeded then 0 else 1⟩

/-! ### The whole program -/

/-- The lines of a text, each with its end. -/
def inputLines (text : String) : List String :=
  let parts := text.toList.splitOn '\n'
  let ended := parts.dropLast.map fun cs => String.ofList (cs ++ ['\n'])
  match parts.getLast? with
  | none | some [] => ended
  | some rest => ended ++ [String.ofList rest]

/-- What is to be done: the choices, the settings and the source text, and the lines of input
for the running code. -/
structure Task where
  options : Options
  settings : Settings
  source : String
  lines : List String

/-- What is to be done for arguments, given standard input and how files are read: to their
text, or to why they cannot be read. -/
def task (args : List String) (stdin : String) (contents : String → Except FileError String) :
    Except Failure Task := do
  let read (path : String) : Except Failure String :=
    (contents path).mapError (.unreadable path)
  let o ← options args
  let s ← match o.settings with
    | none => pure {}
    | some path => do settings path (← read path)
  match o.input with
  | none => return ⟨o, s, stdin, []⟩
  | some path => return ⟨o, s, ← read path, inputLines stdin⟩

/-- The response to arguments.  There is none if the running code does not come to rest within
`fuel` turns. -/
def respond (args : List String) (stdin : String) (contents : String → Except FileError String)
    (fuel : Nat) : Option Response :=
  match task args stdin contents with
  | .error f => some (.ofFailure f "")
  | .ok t =>
    match prepare t.options t.settings t.source with
    | .done r => some r
    | .ready code r => (code.run t.settings.machine fuel t.lines).map (finish t.source r)

end NumericScript.CommandLine
