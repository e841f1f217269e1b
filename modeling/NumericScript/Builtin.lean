import NumericScript.Ty

/-! # Builtin functions

The functions that every program may call: their names, what they take and what type they
give.  What they compute is in `Builtin.Call`.

* `Builtin.ofName?_name`: every builtin is found by its name. -/

namespace NumericScript

/-- The unit in which trigonometric functions take and give angles. -/
inductive AngleMode where
  | radians
  | degrees
deriving DecidableEq, Repr, Inhabited

/-- What a parameter of a builtin takes. -/
inductive ParamKind where
  | number
  | int
  /-- An array of numbers. -/
  | numericArray
  /-- An array of anything. -/
  | anyArray
  | matrix
deriving DecidableEq, Repr

namespace ParamKind

/-- Whether a parameter takes arguments of type `t`; nothing is refused of which nothing is
known. -/
def accepts : ParamKind → Ty → Bool
  | _, .unknown => true
  | number, t => t.isNumeric
  | int, .int => true
  | numericArray, .array e => e.isNumeric || e.isUnknown
  | anyArray, .array _ => true
  | matrix, .matrix _ => true
  | _, _ => false

/-- The kind as messages name it. -/
def text : ParamKind → String
  | number => "number"
  | int => "int"
  | numericArray => "numeric array"
  | anyArray => "array"
  | matrix => "matrix"

@[simp] theorem accepts_unknown (k : ParamKind) : k.accepts .unknown = true := by
  cases k <;> rfl

end ParamKind

/-- The builtin functions. -/
inductive Builtin where
  | sin | cos | tan | asin | acos | atan | sinh | cosh | tanh | exp
  | ln | lg | log | log10 | log2 | sqrt | cbrt | abs | floor | ceil | round
  | factorial | gcd | lcm | pi | e | degrees | radians
  | len | sum | max | min | mean | median | stdev | variance
  | det | trace | inverse | transpose
deriving DecidableEq, Repr

namespace Builtin

/-- All builtins. -/
def all : List Builtin :=
  [sin, cos, tan, asin, acos, atan, sinh, cosh, tanh, exp, ln, lg, log, log10, log2, sqrt,
   cbrt, abs, floor, ceil, round, factorial, gcd, lcm, pi, e, degrees, radians, len, sum, max,
   min, mean, median, stdev, variance, det, trace, inverse, transpose]

/-- The name by which programs call a builtin. -/
def name : Builtin → String
  | sin => "sin" | cos => "cos" | tan => "tan" | asin => "asin" | acos => "acos"
  | atan => "atan" | sinh => "sinh" | cosh => "cosh" | tanh => "tanh" | exp => "exp"
  | ln => "ln" | lg => "lg" | log => "log" | log10 => "log10" | log2 => "log2"
  | sqrt => "sqrt" | cbrt => "cbrt" | abs => "abs" | floor => "floor" | ceil => "ceil"
  | round => "round" | factorial => "factorial" | gcd => "gcd" | lcm => "lcm" | pi => "pi"
  | e => "e" | degrees => "degrees" | radians => "radians" | len => "len" | sum => "sum"
  | max => "max" | min => "min" | mean => "mean" | median => "median" | stdev => "stdev"
  | variance => "variance" | det => "det" | trace => "trace" | inverse => "inverse"
  | transpose => "transpose"

/-- The builtin of the given name, if there is one. -/
def ofName? (text : String) : Option Builtin := all.find? (·.name = text)

theorem ofName?_name (b : Builtin) : ofName? b.name = some b := by
  cases b <;> decide

theorem name_of_ofName? {text : String} {b : Builtin} (h : ofName? text = some b) :
    b.name = text := by
  simpa using List.find?_some h

/-- What a builtin takes. -/
def params : Builtin → List ParamKind
  | pi | e | degrees | radians => []
  | factorial => [.int]
  | gcd | lcm => [.int, .int]
  | len => [.anyArray]
  | log => [.number, .number]
  | sum | max | min | mean | median | stdev | variance => [.numericArray]
  | det | trace | inverse | transpose => [.matrix]
  | _ => [.number]

/-- How many of the parameters need an argument.  The base of `log` may be left out. -/
def required : Builtin → Nat
  | log => 1
  | b => b.params.length

/-- Whether a builtin takes `count` arguments. -/
def acceptsArity (b : Builtin) (count : Nat) : Bool :=
  b.required ≤ count && count ≤ b.params.length

/-- The type of what a builtin gives. -/
def returns : Builtin → Ty
  | floor | ceil | round | factorial | gcd | lcm | len => .int
  | degrees | radians => .void
  | inverse | transpose => .matrix none
  | _ => .float

end Builtin

end NumericScript
