import NumericScript.Matrix

/-! # Values

What variables hold and expressions give at run time. -/

namespace NumericScript

/-- Values. -/
inductive Value where
  | int (n : Int64)
  | float (x : Double)
  | str (s : String)
  | bool (b : Bool)
  | array (items : List Value)
  | matrix (m : Matrix)
  /-- What an array holds before it is filled, and what a call without result leaves. -/
  | void

namespace Value

/-- The kind of a value. -/
def kind : Value → Kind
  | int _ => .int
  | float _ => .float
  | str _ => .str
  | bool _ => .bool
  | array _ => .array
  | matrix _ => .matrix
  | void => .void

/-- The fault of meeting a value where `expected` is asked for. -/
def unexpected (v : Value) (expected : Kind) : Fault := .unexpectedValue expected v.kind

/-- The whole number a value is. -/
def asInt : Value → Except Fault Int64
  | int n => .ok n
  | v => .error (v.unexpected .int)

/-- The number a value is, as a double. -/
def asDouble : Value → Except Fault Double
  | int n => .ok (.ofInt64 n)
  | float x => .ok x
  | v => .error (v.unexpected .number)

/-- The truth value a value is. -/
def asBool : Value → Except Fault Bool
  | bool b => .ok b
  | v => .error (v.unexpected .bool)

/-- The elements of an array. -/
def asArray : Value → Except Fault (List Value)
  | array items => .ok items
  | v => .error (v.unexpected .array)

/-- The matrix a value is. -/
def asMatrix : Value → Except Fault Matrix
  | matrix m => .ok m
  | v => .error (v.unexpected .matrix)

/-- The numbers in an array, as doubles. -/
def asNumbers (v : Value) : Except Fault (List Double) := do
  (← v.asArray).mapM asDouble

/-! ### Text -/

/-- A truth value as the language writes it. -/
def boolText : Bool → String
  | true => "true"
  | false => "false"

mutual

/-- A value as the language shows it. -/
def text : Value → String
  | int n => toString n.toInt
  | float x => Decimal.valueText x
  | str s => s
  | bool b => boolText b
  | array items => "[" ++ ", ".intercalate (texts items) ++ "]"
  | matrix m => m.text
  | void => "void"

/-- The texts of several values. -/
def texts : List Value → List String
  | [] => []
  | v :: vs => v.text :: texts vs

end

theorem texts_eq_map (vs : List Value) : texts vs = vs.map text := by
  induction vs with
  | nil => rfl
  | cons v vs ih => rw [texts, ih, List.map_cons]

end Value

end NumericScript
