import NumericScript.Double.Remainder
import NumericScript.Value

/-! # Operators on values

What operators compute, and the faults they raise on values they do not apply to.  Whole
numbers are of 64 bits and wrap around; a whole number and a double are computed with as
doubles.

* `Arithmetic.pow_eq`: the power of whole numbers is repeated multiplication. -/

namespace NumericScript

/-- Operations on one value. -/
inductive UnaryFn where
  | neg
  | not
  /-- Widens a whole number to a double. -/
  | toFloat
  | transpose
deriving DecidableEq, Repr

/-- The operation on values that a unary operator stands for. -/
def UnaryOp.fn : UnaryOp → UnaryFn
  | .neg => .neg
  | .not => .not
  | .transpose => .transpose

/-- What an operation on one value applies to. -/
def UnaryFn.operandKind : UnaryFn → Kind
  | .neg => .numberOrMatrix
  | .not => .bool
  | .toFloat => .number
  | .transpose => .matrix

namespace Arithmetic

/-- `a` to the power `n`, by repeated squaring. -/
def pow (a : Int64) (n : Nat) : Int64 :=
  if n = 0 then 1
  else
    let half := pow a (n / 2)
    if n % 2 = 0 then half * half else half * half * a
termination_by n
decreasing_by omega

theorem pow_add (a : Int64) (m n : Nat) : a ^ (m + n) = a ^ m * a ^ n := by
  induction n with
  | zero => rw [Nat.add_zero, Int64.pow_zero, Int64.mul_one]
  | succ n ih => rw [← Nat.add_assoc, Int64.pow_succ, Int64.pow_succ, ih, Int64.mul_assoc]

theorem pow_eq (a : Int64) (n : Nat) : pow a n = a ^ n := by
  induction n using Nat.strongRecOn with
  | ind n ih =>
    rw [pow]
    split
    · subst n; exact (Int64.pow_zero a).symm
    · have h := ih (n / 2) (by omega)
      simp only [h]
      split
      · conv => rhs; rw [show n = n / 2 + n / 2 by omega]
        rw [pow_add]
      · conv => rhs; rw [show n = n / 2 + n / 2 + 1 by omega]
        rw [Int64.pow_succ, pow_add]

/-- The largest exponent of whole numbers that is told from greater ones. -/
def exponentBound : Nat := UInt32.size - 1

/-- Operators between whole numbers. -/
def ints (op : BinaryOp) (a b : Int64) : Except Fault Value :=
  match op with
  | .add => .ok (.int (a + b))
  | .sub => .ok (.int (a - b))
  | .mul => .ok (.int (a * b))
  | .div => if b = 0 then .error .divisionByZero else .ok (.int (a / b))
  | .mod => if b = 0 then .error .moduloByZero else .ok (.int (a % b))
  | .pow =>
    if b.toInt < 0 then .error (.negativeExponent b)
    else .ok (.int (pow a (min b.toInt.toNat exponentBound)))
  | .eq => .ok (.bool (a = b))
  | .ne => .ok (.bool (a ≠ b))
  | .lt => .ok (.bool (a < b))
  | .le => .ok (.bool (a ≤ b))
  | .gt => .ok (.bool (b < a))
  | .ge => .ok (.bool (b ≤ a))
  | .and | .or => .error (.invalidOperands op .int .int)

/-- Operators between doubles. -/
def doubles (op : BinaryOp) (a b : Double) : Except Fault Value :=
  match op with
  | .add => .ok (.float (a + b))
  | .sub => .ok (.float (a - b))
  | .mul => .ok (.float (a * b))
  | .div => if b == 0.0 then .error .divisionByZero else .ok (.float (a / b))
  | .mod => if b == 0.0 then .error .moduloByZero else .ok (.float (Double.remainder a b))
  | .pow => .ok (.float (a.pow b))
  | .eq => .ok (.bool (a == b))
  | .ne => .ok (.bool (a != b))
  | .lt => .ok (.bool (a < b))
  | .le => .ok (.bool (a ≤ b))
  | .gt => .ok (.bool (b < a))
  | .ge => .ok (.bool (b ≤ a))
  | .and | .or => .error (.invalidOperands op .number .number)

/-- Operators between texts, which are ordered character by character. -/
def strs (op : BinaryOp) (a b : String) : Except Fault Value :=
  match op with
  | .add => .ok (.str (a ++ b))
  | .eq => .ok (.bool (a = b))
  | .ne => .ok (.bool (a ≠ b))
  | .lt => .ok (.bool (a < b))
  | .le => .ok (.bool (¬ b < a))
  | .gt => .ok (.bool (b < a))
  | .ge => .ok (.bool (¬ a < b))
  | _ => .error (.invalidOperands op .str .str)

/-- Operators between truth values. -/
def bools (op : BinaryOp) (a b : Bool) : Except Fault Value :=
  match op with
  | .and => .ok (.bool (a && b))
  | .or => .ok (.bool (a || b))
  | .eq => .ok (.bool (a = b))
  | .ne => .ok (.bool (a ≠ b))
  | _ => .error (.invalidOperands op .bool .bool)

/-- Operators between matrices. -/
def matrices (op : BinaryOp) (a b : Matrix) : Except Fault Value :=
  match op with
  | .add => .matrix <$> a.zipWith .add (· + ·) b
  | .sub => .matrix <$> a.zipWith .sub (· - ·) b
  | .mul => .matrix <$> a.multiply b
  | _ => .error (.invalidOperands op .matrix .matrix)

/-- Operators between a matrix and a number. -/
def scaled (op : BinaryOp) (m : Matrix) (k : Value) : Except Fault Value := do
  match op with
  | .mul =>
    let k ← k.asDouble
    return .matrix (m.map (· * k))
  | .div =>
    let k ← k.asDouble
    if k == 0.0 then throw .divisionByZero
    return .matrix (m.map (· / k))
  | .pow =>
    let k ← k.asInt
    .matrix <$> m.power k
  | _ => throw (.invalidOperands op .matrix k.kind)

end Arithmetic

open Arithmetic

/-- What an operator gives on two values. -/
def BinaryOp.apply (op : BinaryOp) (left right : Value) : Except Fault Value :=
  match left, right with
  | .int a, .int b => ints op a b
  | .int a, .float b => doubles op (.ofInt64 a) b
  | .float a, .int b => doubles op a (.ofInt64 b)
  | .float a, .float b => doubles op a b
  | .str a, .str b => strs op a b
  | .bool a, .bool b => bools op a b
  | .matrix a, .matrix b => matrices op a b
  | .matrix m, .int b => scaled op m (.int b)
  | .matrix m, .float b => scaled op m (.float b)
  | .int a, .matrix m =>
    if op = .mul then .ok (.matrix (m.map (Double.ofInt64 a * ·)))
    else .error (.invalidOperands op .int .matrix)
  | .float a, .matrix m =>
    if op = .mul then .ok (.matrix (m.map (a * ·)))
    else .error (.invalidOperands op .float .matrix)
  | left, right => .error (.invalidOperands op left.kind right.kind)

/-- What an operation gives on one value. -/
def UnaryFn.apply (f : UnaryFn) (operand : Value) : Except Fault Value :=
  match f, operand with
  | .neg, .int n => .ok (.int (-n))
  | .neg, .float x => .ok (.float (-x))
  | .neg, .matrix m => .ok (.matrix (m.map (- ·)))
  | .not, .bool b => .ok (.bool (!b))
  | .toFloat, .int n => .ok (.float (.ofInt64 n))
  | .toFloat, .float x => .ok (.float x)
  | .transpose, .matrix m => .ok (.matrix m.transpose)
  | f, v => .error (v.unexpected f.operandKind)

end NumericScript
