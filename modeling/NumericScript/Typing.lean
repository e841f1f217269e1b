import NumericScript.Syntax

/-! # Types of operators

The type of an operation from the types of its operands, where there is one. -/

namespace NumericScript

/-- The type of an arithmetic operation between matrices. -/
def Ty.ofMatrices? (op : BinaryOp) (a b : Option (Nat × Nat)) : Option Ty :=
  match op with
  | .add | .sub =>
    match a, b with
    | some s, some t => if s = t then some (.matrix (some s)) else none
    | _, _ => some (.matrix (a.or b))
  | .mul =>
    match a, b with
    | some s, some t => if s.2 = t.1 then some (.matrix (some (s.1, t.2))) else none
    | _, _ => some (.matrix none)
  | _ => none

/-- The type of an arithmetic operation between a matrix and a number of type `k`. -/
def Ty.ofScaled? (op : BinaryOp) (shape : Option (Nat × Nat)) (k : Ty) : Option Ty :=
  match op with
  | .mul | .div => some (.matrix shape)
  | .pow =>
    if k = .int then
      match shape with
      | some s => if s.1 = s.2 then some (.matrix shape) else none
      | none => some (.matrix none)
    else none
  | _ => none

/-- The type of an arithmetic operation. -/
def Ty.ofArithmetic? (op : BinaryOp) (left right : Ty) : Option Ty :=
  match left, right with
  | .int, .int => some .int
  | .int, .float | .float, .int | .float, .float => some .float
  | .str, .str => if op = .add then some .str else none
  | .matrix a, .matrix b => Ty.ofMatrices? op a b
  | .matrix a, .int => Ty.ofScaled? op a .int
  | .matrix a, .float => Ty.ofScaled? op a .float
  | .int, .matrix b | .float, .matrix b => if op = .mul then some (.matrix b) else none
  | _, _ => none

/-- The type of `left op right`, for known types of the operands. -/
def BinaryOp.ty? (op : BinaryOp) (left right : Ty) : Option Ty :=
  match op with
  | .add | .sub | .mul | .div | .mod | .pow => Ty.ofArithmetic? op left right
  | .lt | .le | .gt | .ge =>
    if (left.isNumeric && right.isNumeric) || (left = .str && right = .str) then some .bool
    else none
  | .eq | .ne =>
    if (left.isNumeric && right.isNumeric) || (left = right && (left = .str || left = .bool))
    then some .bool
    else none
  | .and | .or => if left = .bool && right = .bool then some .bool else none

/-- The type of an operation on one operand of known type. -/
def UnaryOp.ty? (op : UnaryOp) (operand : Ty) : Option Ty :=
  match op, operand with
  | .neg, .int => some .int
  | .neg, .float => some .float
  | .neg, .matrix shape => some (.matrix shape)
  | .not, .bool => some .bool
  | .transpose, .matrix shape => some (.matrix (shape.map fun s => (s.2, s.1)))
  | _, _ => none

/-- The type of a variable declared with type `declared` and initialized with a value of type
`init`.  An array without element type takes that of its first value. -/
def Ty.refine (declared init : Ty) : Ty :=
  match declared, init with
  | .array .unknown, .array e => .array e
  | t, _ => t

end NumericScript
