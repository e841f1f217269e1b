/-! # Static types

The types that declarations name and that analysis computes.  A matrix type may know its
shape; an array type may know its element type; `unknown` stands where nothing is known, and
goes with every type.

* `Ty.accepts_self`: every type accepts itself.
* `Ty.accepts_unknown`, `Ty.unknown_accepts`: nothing is refused on the ground of `unknown`. -/

namespace NumericScript

/-- Static types. -/
inductive Ty where
  | int
  | float
  | str
  | bool
  | array (element : Ty)
  /-- Matrices, of the given number of rows and columns if it is known. -/
  | matrix (shape : Option (Nat × Nat))
  | void
  | unknown
deriving DecidableEq, Repr, Inhabited

namespace Ty

/-- Whether values of the type are numbers. -/
def isNumeric : Ty → Bool
  | int | float => true
  | _ => false

/-- Whether nothing is known of the type. -/
def isUnknown : Ty → Bool
  | unknown => true
  | _ => false

/-- Whether the type is one of matrices. -/
def isMatrix : Ty → Bool
  | matrix _ => true
  | _ => false

@[simp] theorem isUnknown_iff {t : Ty} : t.isUnknown = true ↔ t = unknown := by
  cases t <;> simp [isUnknown]

/-- The type of the elements of a container. -/
def element? : Ty → Option Ty
  | array e => some e
  | matrix _ => some float
  | unknown => some unknown
  | _ => none

/-- Whether a place of the first type takes a value of the second.  Whole numbers are
widened to doubles; containers of which one leaves something open go together. -/
def accepts : Ty → Ty → Bool
  | unknown, _ => true
  | _, unknown => true
  | float, int => true
  | array a, array b => a.isUnknown || b.isUnknown || a = b
  | matrix a, matrix b => a.isNone || b.isNone || a = b
  | a, b => a = b

@[simp] theorem unknown_accepts (t : Ty) : unknown.accepts t = true := by
  cases t <;> rfl

@[simp] theorem accepts_unknown (t : Ty) : t.accepts unknown = true := by
  cases t <;> rfl

@[simp] theorem accepts_self (t : Ty) : t.accepts t = true := by
  cases t <;> simp [accepts]

/-- The type as the language writes it. -/
def text : Ty → String
  | int => "int"
  | float => "float"
  | str => "string"
  | bool => "boolean"
  | array unknown => "array"
  | array e => "array<" ++ e.text ++ ">"
  | matrix (some (rows, cols)) => "matrix[" ++ toString rows ++ "x" ++ toString cols ++ "]"
  | matrix none => "matrix"
  | void => "void"
  | unknown => "unknown"

end Ty

end NumericScript
