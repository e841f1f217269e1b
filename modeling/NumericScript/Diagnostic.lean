import NumericScript.Syntax.Statement
import NumericScript.Token.Scan
import NumericScript.Text.Blank

/-! # Diagnostics

What the stages report, in one form: phase, severity, message and place, with the line of the
source it points to and the names that may have been meant. -/

namespace NumericScript

/-- The stage that reports. -/
inductive Phase where
  | lexical
  | syntactic
  | semantic
  | runtime
deriving DecidableEq, Repr

/-- The stage as diagnostics name it. -/
def Phase.text : Phase → String
  | .lexical => "lexical"
  | .syntactic => "syntax"
  | .semantic => "semantic"
  | .runtime => "runtime"

/-- Whether a diagnostic stops the later stages. -/
inductive Severity where
  | error
  | warning
deriving DecidableEq, Repr

/-- The severity as diagnostics name it. -/
def Severity.text : Severity → String
  | .error => "error"
  | .warning => "warning"

/-- A report of one of the stages. -/
structure Diagnostic where
  phase : Phase
  severity : Severity
  message : String
  line : Nat
  column : Nat
  /-- The line of the source, once it is attached. -/
  context : Option String
  suggestions : List String
deriving DecidableEq, Repr

namespace Diagnostic

/-- An error without context and suggestions. -/
def error (phase : Phase) (message : String) (line column : Nat) : Diagnostic :=
  ⟨phase, .error, message, line, column, none, []⟩

/-- Whether a diagnostic is an error. -/
def isError (d : Diagnostic) : Bool := d.severity = .error

/-- The diagnostic of a lexical error. -/
def ofLexical (r : LexicalReport) : Diagnostic := error .lexical r.cause.message r.line r.column

/-- The diagnostic of a syntax error. -/
def ofSyntax (r : SyntaxReport) : Diagnostic :=
  error .syntactic r.cause.message r.loc.line r.loc.column

/-! ### Text -/

/-- The context line, and below it a mark under the column. -/
def contextText (d : Diagnostic) : String :=
  match d.context with
  | none => ""
  | some line => "\n    " ++ line ++ "\n    " ++ "".pushn ' ' (d.column - 1) ++ "^"

/-- The names that may have been meant. -/
def suggestionText (d : Diagnostic) : String :=
  if d.suggestions.isEmpty then ""
  else "\n    did you mean: " ++ ", ".intercalate d.suggestions ++ "?"

/-- A diagnostic as it is shown. -/
def text (d : Diagnostic) : String :=
  "[" ++ d.phase.text ++ " " ++ d.severity.text ++ "] line " ++ toString d.line ++ ", column "
    ++ toString d.column ++ ": " ++ d.message ++ d.contextText ++ d.suggestionText

end Diagnostic

/-- A line without the carriage return at its end. -/
def stripReturn (cs : List Char) : List Char :=
  if cs.getLast? = some '\r' then cs.dropLast else cs

/-- The lines of a text.  A line feed ends a line; what follows the last one is a line only if
it is not empty. -/
def sourceLines (source : String) : List String :=
  let parts := source.toList.splitOn '\n'
  let lines := if parts.getLast? = some [] then parts.dropLast else parts
  lines.map fun cs => String.ofList (stripReturn cs)

/-- Attaches the line it points to to a diagnostic that has no context yet. -/
def Diagnostic.attach (lines : List String) (d : Diagnostic) : Diagnostic :=
  if d.context.isSome || d.line = 0 then d
  else { d with context := (lines[d.line - 1]?).map Text.trimEnd }

/-- Attaches the lines of `source` to diagnostics that have no context yet. -/
def attachContext (source : String) (ds : List Diagnostic) : List Diagnostic :=
  let lines := sourceLines source
  ds.map (·.attach lines)

/-- Whether there is an error among the diagnostics. -/
def hasErrors (ds : List Diagnostic) : Bool := ds.any (·.isError)

end NumericScript
