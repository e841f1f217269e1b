import NumericScript.Double.CubeRoot
import NumericScript.Value.Arithmetic

/-! # Calling builtins

What the builtin functions compute.  `degrees` and `radians` set the unit of angles that the
calls after them work with; no other builtin changes it. -/

namespace NumericScript.Builtin

/-- The ratio of a circle's circumference to its diameter. -/
def piValue : Double := 3.14159265358979323846264338327950288

/-- The base of the natural logarithm. -/
def eValue : Double := 2.71828182845904523536028747135266250

/-- An angle in the unit `mode`, in radians. -/
def toRadians (mode : AngleMode) (x : Double) : Double :=
  match mode with
  | .radians => x
  | .degrees => x * (piValue / 180.0)

/-- An angle in radians, in the unit `mode`. -/
def fromRadians (mode : AngleMode) (x : Double) : Double :=
  match mode with
  | .radians => x
  | .degrees => x * 57.2957795130823208767981548141051703

/-- The absolute value, which wraps at the smallest whole number. -/
def absInt (n : Int64) : Int64 := if n.toInt < 0 then -n else n

/-- The greatest common divisor by remainders, on absolute values.  Each remainder is less in
size than the divisor before it. -/
def gcdFrom (a b : Int64) : Int64 :=
  if b.toInt = 0 then a else gcdFrom b (a % b)
termination_by b.toInt.natAbs
decreasing_by
  rename_i h
  rw [Int64.toInt_mod]
  have h₁ : (a.toInt.tmod b.toInt).natAbs = a.toInt.natAbs % b.toInt.natAbs := Int.natAbs_tmod ..
  rw [h₁]
  exact Nat.mod_lt _ (by omega)

/-- The greatest common divisor. -/
def gcdInt (a b : Int64) : Int64 := gcdFrom (absInt a) (absInt b)

/-- The least common multiple.  The division cannot be carried out when its quotient does not
fit 64 bits. -/
def lcmInt (a b : Int64) : Except Fault Int64 :=
  let divisor := gcdInt a b
  if divisor = 0 then .ok 0
  else if a = Int64.minValue ∧ divisor = -1 then .error .overflow
  else .ok (absInt (a / divisor * b))

/-- The product of the numbers from 1 to `n`. -/
def factorialNat : Nat → Nat
  | 0 => 1
  | n + 1 => (n + 1) * factorialNat n

/-- The value in the middle of the sorted doubles, or the mean of the two in the middle. -/
def medianOf (xs : List Double) : Double :=
  let sorted := xs.mergeSort fun a b => a.orderKey ≤ b.orderKey
  let middle := sorted.length / 2
  if sorted.length % 2 = 0 then
    (sorted.getD (middle - 1) 0.0 + sorted.getD middle 0.0) / 2.0
  else sorted.getD middle 0.0

/-- The mean. -/
def meanOf (xs : List Double) : Double := Matrix.sum xs / Double.ofNat xs.length

/-- The mean of the squares of the distances from the mean. -/
def varianceOf (xs : List Double) : Double :=
  let mean := meanOf xs
  Matrix.sum (xs.map fun x => (x - mean) * (x - mean)) / Double.ofNat xs.length

/-- Refuses an empty list in the name of `f`. -/
def nonempty (f : Builtin) (xs : List Double) : Except Fault (List Double) :=
  if xs.isEmpty then .error (.emptyArray f) else .ok xs

/-- Refuses a list of fewer than two values in the name of `f`. -/
def several (f : Builtin) (xs : List Double) : Except Fault (List Double) :=
  match xs with
  | [] => .error (.emptyArray f)
  | [_] => .error (.tooFewValues f 2 1)
  | xs => .ok xs

/-- The argument of a logarithm, which has to be above zero. -/
def logArgument (f : Builtin) (v : Value) : Except Fault Double := do
  let x ← v.asDouble
  if x ≤ 0.0 then throw (.domainError f x)
  return x

/-- The argument of an inverse trigonometric function, which has to lie between -1 and 1. -/
def unitArgument (f : Builtin) (v : Value) : Except Fault Double := do
  let x ← v.asDouble
  if -1.0 ≤ x ∧ x ≤ 1.0 then return x
  throw (.domainError f x)

/-- A function of doubles on a value. -/
def onDouble (g : Double → Double) (v : Value) : Except Fault Value := do
  return .float (g (← v.asDouble))

/-- A rounding of doubles to whole numbers on a value. -/
def rounded (g : Float → Float) (v : Value) : Except Fault Value := do
  return .int (g (← v.asDouble).toFloat).toInt64

/-- Calls of one argument. -/
def callOne (mode : AngleMode) (f : Builtin) (v : Value) : Except Fault Value := do
  match f with
  | sin => onDouble (fun x => (toRadians mode x).map Float.sin) v
  | cos => onDouble (fun x => (toRadians mode x).map Float.cos) v
  | tan => onDouble (fun x => (toRadians mode x).map Float.tan) v
  | asin => return .float (fromRadians mode ((← unitArgument f v).map Float.asin))
  | acos => return .float (fromRadians mode ((← unitArgument f v).map Float.acos))
  | atan => onDouble (fun x => fromRadians mode (x.map Float.atan)) v
  | sinh => onDouble (.map Float.sinh) v
  | cosh => onDouble (.map Float.cosh) v
  | tanh => onDouble (.map Float.tanh) v
  | exp => onDouble (.map Float.exp) v
  | ln => return .float ((← logArgument f v).map Float.log)
  | lg | log | log10 => return .float ((← logArgument f v).map Float.log10)
  | log2 => return .float ((← logArgument f v).map Float.log2)
  | sqrt =>
    let x ← v.asDouble
    if x < 0.0 then throw (.domainError f x)
    return .float (x.map Float.sqrt)
  | cbrt => onDouble Double.cubeRoot v
  | abs => onDouble Double.abs v
  | floor => rounded Float.floor v
  | ceil => rounded Float.ceil v
  | round => rounded Float.round v
  | factorial =>
    let n ← v.asInt
    if 0 ≤ n.toInt ∧ n.toInt ≤ 20 then return .int (Int64.ofNat (factorialNat n.toInt.toNat))
    throw (.domainError f (.ofInt64 n))
  | len => return .int (Int64.ofNat (← v.asArray).length)
  | sum => return .float (Matrix.sum (← v.asNumbers))
  | max =>
    return .float ((← nonempty f (← v.asNumbers)).foldl .maximum (.infinite true))
  | min =>
    return .float ((← nonempty f (← v.asNumbers)).foldl .minimum (.infinite false))
  | mean => return .float (meanOf (← nonempty f (← v.asNumbers)))
  | median => return .float (medianOf (← nonempty f (← v.asNumbers)))
  | stdev => return .float ((varianceOf (← several f (← v.asNumbers))).map Float.sqrt)
  | variance => return .float (varianceOf (← several f (← v.asNumbers)))
  | det => return .float (← (← v.asMatrix).determinant)
  | trace => return .float (← (← v.asMatrix).trace)
  | inverse => return .matrix (← (← v.asMatrix).inverse)
  | transpose => return .matrix (← v.asMatrix).transpose
  | f => throw (.arityMismatch f.name f.params.length 1)

/-- Calls of two arguments. -/
def callTwo (f : Builtin) (v w : Value) : Except Fault Value := do
  match f with
  | gcd =>
    let a ← v.asInt
    return .int (gcdInt a (← w.asInt))
  | lcm =>
    let a ← v.asInt
    return .int (← lcmInt a (← w.asInt))
  | log =>
    let x ← logArgument f v
    let base ← w.asDouble
    if base ≤ 0.0 || base == 1.0 then throw (.domainError f base)
    return .float (x.map Float.log / base.map Float.log)
  | f => throw (.arityMismatch f.name f.params.length 2)

/-- Calls without arguments, which may change the unit of angles. -/
def callNone (mode : AngleMode) (f : Builtin) : Except Fault (Value × AngleMode) :=
  match f with
  | pi => .ok (.float piValue, mode)
  | e => .ok (.float eValue, mode)
  | degrees => .ok (.void, .degrees)
  | radians => .ok (.void, .radians)
  | f => .error (.arityMismatch f.name f.params.length 0)

/-- Calls a builtin: its result, and the unit of angles from then on. -/
def call (f : Builtin) (args : List Value) (mode : AngleMode) :
    Except Fault (Value × AngleMode) := do
  if f.acceptsArity args.length then
    match args with
    | [] => callNone mode f
    | [v] => return (← callOne mode f v, mode)
    | [v, w] => return (← callTwo f v w, mode)
    | args => throw (.arityMismatch f.name f.params.length args.length)
  else throw (.arityMismatch f.name f.params.length args.length)

end NumericScript.Builtin
