import NumericScript.Builtin
import NumericScript.Syntax
import NumericScript.Decimal.Text

/-! # Faults

The ways in which a run goes wrong, each with what its message tells. -/

namespace NumericScript

/-- What a value is at run time, and what an operation asks for instead. -/
inductive Kind where
  | int | float | str | bool | array | matrix | void
  | number | numberOrMatrix | rowAndColumn | singleIndex | returnValue
deriving DecidableEq, Repr

/-- The kind as messages name it. -/
def Kind.text : Kind → String
  | .int => "int"
  | .float => "float"
  | .str => "string"
  | .bool => "boolean"
  | .array => "array"
  | .matrix => "matrix"
  | .void => "void"
  | .number => "number"
  | .numberOrMatrix => "number or matrix"
  | .rowAndColumn => "row and column index"
  | .singleIndex => "single index"
  | .returnValue => "return value"

/-- The extents of a matrix: rows and columns. -/
structure Shape where
  rows : Nat
  cols : Nat
deriving DecidableEq, Repr

/-- A shape as messages write it. -/
def Shape.text (s : Shape) : String := toString s.rows ++ "x" ++ toString s.cols

/-- Faults of a run. -/
inductive Fault where
  | divisionByZero
  | moduloByZero
  | indexOutOfBounds (index : Int64) (length : Nat)
  | stackDepthExceeded (limit : Nat)
  | invalidInput (text : String) (expected : Ty)
  | invalidOperands (op : BinaryOp) (left right : Kind)
  | unexpectedValue (expected found : Kind)
  | shapeMismatch (op : BinaryOp) (left right : Shape)
  | notSquare (shape : Shape)
  | singularMatrix
  | domainError (f : Builtin) (value : Double)
  | emptyArray (f : Builtin)
  | tooFewValues (f : Builtin) (needed found : Nat)
  | negativeExponent (exponent : Int64)
  | missingReturn (function : String)
  | inputCancelled
  | stepLimitExceeded (limit : Nat)
  | unknownLabel (label : String)
  | undefinedVariable (name : String)
  | undefinedFunction (name : String)
  | arityMismatch (name : String) (expected found : Nat)
  /-- The quotient of the smallest integer by minus one does not fit 64 bits.  A run that
  meets this does not end in a reported fault but is aborted. -/
  | overflow
deriving DecidableEq, Repr

/-- The wording of a fault. -/
def Fault.message : Fault → String
  | .divisionByZero => "Division by zero"
  | .moduloByZero => "Modulo by zero"
  | .indexOutOfBounds index length =>
    "Index " ++ toString index.toInt ++ " out of bounds for length " ++ toString length
  | .stackDepthExceeded limit => "Maximum call depth of " ++ toString limit ++ " exceeded"
  | .invalidInput text expected =>
    "Cannot convert input '" ++ text ++ "' to " ++ expected.text
  | .invalidOperands op left right =>
    "Operator '" ++ op.symbol ++ "' cannot be applied to " ++ left.text ++ " and " ++ right.text
  | .unexpectedValue expected found => "Expected " ++ expected.text ++ ", got " ++ found.text
  | .shapeMismatch op left right =>
    "Matrix shapes " ++ left.text ++ " and " ++ right.text ++ " are incompatible for '"
      ++ op.symbol ++ "'"
  | .notSquare shape => "Matrix must be square, got " ++ shape.text
  | .singularMatrix => "Matrix is singular and cannot be inverted"
  | .domainError f value =>
    "Argument " ++ Decimal.plainText value ++ " is outside the domain of " ++ f.name
  | .emptyArray f => f.name ++ " of an empty array"
  | .tooFewValues f needed found =>
    f.name ++ " needs at least " ++ toString needed ++ " values, got " ++ toString found
  | .negativeExponent exponent =>
    "Negative exponent " ++ toString exponent.toInt ++ " in integer power"
  | .missingReturn function => "Function '" ++ function ++ "' ended without returning a value"
  | .inputCancelled => "Input cancelled"
  | .stepLimitExceeded limit => "Step limit of " ++ toString limit ++ " instructions exceeded"
  | .unknownLabel label => "Unknown label '" ++ label ++ "'"
  | .undefinedVariable name => "Undefined variable '" ++ name ++ "'"
  | .undefinedFunction name => "Undefined function '" ++ name ++ "'"
  | .arityMismatch name expected found =>
    "Function '" ++ name ++ "' expected " ++ toString expected ++ " arguments, got "
      ++ toString found
  | .overflow => "attempt to divide with overflow"

/-- The position of an index in a container of `length` elements. -/
def checkedIndex (index : Int64) (length : Nat) : Except Fault Nat :=
  if 0 ≤ index.toInt ∧ index.toInt < length then .ok index.toInt.toNat
  else .error (.indexOutOfBounds index length)

theorem checkedIndex_lt {index : Int64} {length i : Nat} (h : checkedIndex index length = .ok i) :
    i < length := by
  unfold checkedIndex at h
  split at h
  · cases h; omega
  · cases h

end NumericScript
