import NumericScript.Double.Parts
import NumericScript.Optimize.Pass

/-! # Cheaper operations

A pass that replaces an operation by a cheaper one with the same outcome: `x * 1` by `x`,
`x * 2` by `x + x`, `x ^ 2` by `x * x`, and a division by a power of two by a multiplication.

A square is a product only of a number, because the square of a matrix that is not square is
another fault than the product.  So the pass keeps track of the places that surely hold
numbers. -/

namespace NumericScript

/-! ### Numbers -/

/-- What surely holds a number: places, and perhaps what the last call gave. -/
structure Scalars where
  places : List Place
  returned : Bool
deriving DecidableEq, Repr

/-- Whether an operator computes a number from numbers. -/
def BinaryOp.isArithmetic : BinaryOp → Bool
  | .add | .sub | .mul | .div | .mod | .pow => true
  | _ => false

/-- Whether a call surely gives a number. -/
def Callee.givesNumber : Callee → Bool
  | .builtin f => f.returns.isNumeric
  | .user _ => false

namespace Scalars

/-- Nothing is known to hold a number. -/
def none : Scalars := ⟨[], false⟩

/-- Whether an operand surely is a number. -/
def holds (s : Scalars) : Operand → Bool
  | .const c => c.isNumber
  | .returned => s.returned
  | .place p => p ∈ s.places

/-- `p` holds a number from now on. -/
def learn (s : Scalars) (p : Place) : Scalars := { s with places := p :: s.places }

/-- Nothing is known of `p` from now on. -/
def forget (s : Scalars) (p : Place) : Scalars :=
  { s with places := s.places.filter (· ≠ p) }

/-- Whether an operation surely writes a number. -/
def writes (s : Scalars) : Op → Bool
  | .assign _ c => c.isNumber
  | .copy _ src => s.holds src
  | .input _ t => t.isNumeric
  | .unary _ .toFloat _ => true
  | .unary _ .neg o => s.holds o
  | .binary _ op l r => op.isArithmetic && s.holds l && s.holds r
  | .load _ _ _ col => col.isSome
  | _ => false

/-- What surely holds a number after an operation. -/
def after (s : Scalars) (op : Op) : Scalars :=
  match op with
  | .label _ => none
  | .call f _ => ⟨s.places.filter Place.isTemp, f.givesNumber⟩
  | .store base _ _ _ => s.forget base
  | op =>
    if op.endsBlock then { s with places := [] }
    else
      match op.dest? with
      | some d => if s.writes op then s.learn d else s.forget d
      | .none => s

end Scalars

/-! ### Operations -/

namespace Operand

/-- Whether an operand is a constant. -/
def isConst : Operand → Bool
  | const _ => true
  | _ => false

/-- Whether an operand is the whole number `n`. -/
def isInt (n : Int64) : Operand → Bool
  | const (.int m) => m = n
  | _ => false

end Operand

/-- The greatest exponent of a power of two by which dividing is multiplying. -/
def powerBound : Nat := 64

/-- `2 ^ -k` for the double `2 ^ k`. -/
def reciprocalPower? (x : Double) : Option Double :=
  match Double.parts x with
  | .finite false mantissa exponent =>
    let k : Int := exponent + mantissa.log2
    if Nat.pow 2 mantissa.log2 = mantissa ∧ k.natAbs ≤ powerBound then
      some (Double.ofParts false 1 (-k))
    else none
  | _ => none

/-- The factor by which dividing by an operand is multiplying. -/
def Operand.factor? : Operand → Option Double
  | const (.float x) => reciprocalPower? x
  | _ => none

/-- A cheaper operation with the same outcome as `left op right`. -/
def cheaper? (s : Scalars) (d : Place) (op : BinaryOp) (left right : Operand) : Option Op :=
  match op with
  | .mul =>
    if right.isInt 1 then some (.copy d left)
    else if left.isInt 1 then some (.copy d right)
    else if right.isInt 2 then some (.binary d .add left left)
    else if left.isInt 2 then some (.binary d .add right right)
    else none
  | .div =>
    if right.isInt 1 then some (.copy d left)
    else right.factor?.map fun k => .binary d .mul left (.const (.float k))
  | .pow =>
    if right.isInt 2 && s.holds left then some (.binary d .mul left left) else none
  | _ => none

/-- A cheaper operation with the same outcome.  Operations between constants are left to
folding. -/
def Op.cheaper? (s : Scalars) : Op → Option Op
  | .binary d op left right =>
    if left.isConst && right.isConst then none else NumericScript.cheaper? s d op left right
  | _ => none

/-- Replaces operations by cheaper ones, beginning with what is known before. -/
def strengthFrom (s : Scalars) : List Instr → Passed
  | [] => ⟨[], 0⟩
  | i :: is =>
    let rest := strengthFrom (s.after i.op) is
    match i.op.cheaper? s with
    | some op => ⟨{ i with op := op } :: rest.code, rest.changes + 1⟩
    | none => ⟨i :: rest.code, rest.changes⟩

/-- Replaces operations by cheaper ones. -/
def strength (code : List Instr) : Passed := strengthFrom Scalars.none code

theorem length_strengthFrom (s : Scalars) (code : List Instr) :
    (strengthFrom s code).code.length = code.length := by
  induction code generalizing s with
  | nil => rfl
  | cons i is ih =>
    unfold strengthFrom
    split <;> simp [ih]

end NumericScript
