import NumericScript.Builtin
import NumericScript.Diagnostic

/-! # What analysis reports -/

namespace NumericScript

/-- What a parameter asks for: a type for a function of the program, a kind for a builtin. -/
inductive Demand where
  | ty (t : Ty)
  | kind (k : ParamKind)
deriving DecidableEq, Repr

/-- The demand as messages name it. -/
def Demand.text : Demand → String
  | .ty t => t.text
  | .kind k => k.text

/-- Whether an argument of type `t` meets a demand. -/
def Demand.accepts : Demand → Ty → Bool
  | .ty p, t => p.accepts t
  | .kind k, t => k.accepts t

/-- The faults that analysis finds in a program, and its warning. -/
inductive SemanticError where
  | redeclaration (name : String) (previousLine : Nat)
  | undeclaredVariable (name : String)
  | undeclaredFunction (name : String)
  | notAVariable (name : String)
  | notAFunction (name : String)
  | nestedFunction (name : String)
  | voidVariable (name : String)
  | invalidOperands (op : BinaryOp) (left right : Ty)
  | invalidOperand (op : UnaryOp) (operand : Ty)
  | assignMismatch (name : String) (expected found : Ty)
  | conditionNotBoolean (construct : Keyword) (found : Ty)
  | repeatCountNotInt (found : Ty)
  | argumentCount (name : String) (expected found : Nat)
  | argumentType (name : String) (position : Nat) (expected : Demand) (found : Ty)
  | returnOutsideFunction
  | returnTypeMismatch (name : String) (expected found : Ty)
  | missingReturnValue (name : String) (expected : Ty)
  | unexpectedReturnValue (name : String)
  | loopControlOutsideLoop (keyword : Keyword)
  | notIndexable (found : Ty)
  | indexNotInt (found : Ty)
  | matrixIndexArity
  | arrayIndexArity
  | raggedMatrix (expected row found : Nat)
  | nonNumericMatrixElement (found : Ty)
  | mixedArrayElements (expected found : Ty)
  | inputTarget (name : String) (found : Ty)
  | voidValue
  | unusedVariable (name : String)
deriving DecidableEq, Repr

/-- The wording of a report. -/
def SemanticError.message : SemanticError → String
  | redeclaration name line =>
    "'" ++ name ++ "' is already declared in this scope (line " ++ toString line ++ ")"
  | undeclaredVariable name => "Undeclared variable '" ++ name ++ "'"
  | undeclaredFunction name => "Undeclared function '" ++ name ++ "'"
  | notAVariable name => "'" ++ name ++ "' is a function, not a variable"
  | notAFunction name => "'" ++ name ++ "' is a variable, not a function"
  | nestedFunction name => "Functions can only be declared at the top level ('" ++ name ++ "')"
  | voidVariable name => "Variable '" ++ name ++ "' cannot have type void"
  | invalidOperands op left right =>
    "Operator '" ++ op.symbol ++ "' cannot be applied to " ++ left.text ++ " and " ++ right.text
  | invalidOperand op operand =>
    "Operator '" ++ op.symbol ++ "' cannot be applied to " ++ operand.text
  | assignMismatch name expected found =>
    "Cannot assign " ++ found.text ++ " to '" ++ name ++ "' of type " ++ expected.text
  | conditionNotBoolean construct found =>
    "Condition of '" ++ construct.word ++ "' must be boolean, found " ++ found.text
  | repeatCountNotInt found => "Repeat count must be int, found " ++ found.text
  | argumentCount name expected found =>
    "Function '" ++ name ++ "' expects " ++ toString expected ++ " arguments, got "
      ++ toString found
  | argumentType name position expected found =>
    "Argument " ++ toString position ++ " of '" ++ name ++ "' must be " ++ expected.text
      ++ ", found " ++ found.text
  | returnOutsideFunction => "'return' outside of a function"
  | returnTypeMismatch name expected found =>
    "Function '" ++ name ++ "' must return " ++ expected.text ++ ", found " ++ found.text
  | missingReturnValue name expected =>
    "Function '" ++ name ++ "' must return a value of type " ++ expected.text
  | unexpectedReturnValue name =>
    "Function '" ++ name ++ "' returns void and cannot return a value"
  | loopControlOutsideLoop keyword => "'" ++ keyword.word ++ "' outside of a loop"
  | notIndexable found => "Cannot index into " ++ found.text
  | indexNotInt found => "Index must be int, found " ++ found.text
  | matrixIndexArity => "Matrix elements are accessed as m[row][col]"
  | arrayIndexArity => "Array elements take a single index"
  | raggedMatrix expected row found =>
    "Matrix literal rows must all have " ++ toString expected ++ " elements, row "
      ++ toString row ++ " has " ++ toString found
  | nonNumericMatrixElement found => "Matrix elements must be numbers, found " ++ found.text
  | mixedArrayElements expected found =>
    "Array elements must share one type, found " ++ expected.text ++ " and " ++ found.text
  | inputTarget name found =>
    "Cannot read input into '" ++ name ++ "' of type " ++ found.text
  | voidValue => "Expression has no value"
  | unusedVariable name => "Variable '" ++ name ++ "' is declared but never used"

/-- Whether a report is an error.  A variable that is never used is none. -/
def SemanticError.severity : SemanticError → Severity
  | unusedVariable _ => .warning
  | _ => .error

/-- A report, its place, and the names that may have been meant. -/
structure SemanticReport where
  cause : SemanticError
  loc : Loc
  suggestions : List String
deriving DecidableEq, Repr

/-- The diagnostic of a report of analysis. -/
def Diagnostic.ofSemantic (r : SemanticReport) : Diagnostic :=
  ⟨.semantic, r.cause.severity, r.cause.message, r.loc.line, r.loc.column, none, r.suggestions⟩

end NumericScript
