import NumericScript.Value.Arithmetic

/-! # Three-address code

Programs for the machine: lists of instructions that each do one thing to at most a few
places.  Control moves by jumps to labels, which are instructions of their own and do nothing
when they are met.

* `Op.operands_mapOperands`: mapping the operands of an instruction maps the list of them.
* `Op.dest?_mapOperands`, `Op.target?_mapOperands`: and changes neither what the instruction
  writes nor where it jumps. -/

namespace NumericScript

/-- A variable, by the slot under which it is stored. -/
structure Variable where
  slot : String
  storage : Storage
deriving DecidableEq, Repr

/-- Constants in code. -/
inductive Constant where
  | int (n : Int64)
  | float (x : Double)
  | str (s : String)
  | bool (b : Bool)
deriving DecidableEq, Repr

namespace Constant

/-- The value of a constant. -/
def toValue : Constant → Value
  | int n => .int n
  | float x => .float x
  | str s => .str s
  | bool b => .bool b

/-- The constant with a given value.  Arrays, matrices and the missing value have none. -/
def ofValue? : Value → Option Constant
  | .int n => some (int n)
  | .float x => some (float x)
  | .str s => some (str s)
  | .bool b => some (bool b)
  | .array _ | .matrix _ | .void => none

/-- Whether a constant is a number. -/
def isNumber : Constant → Bool
  | int _ | float _ => true
  | str _ | bool _ => false

@[simp] theorem ofValue?_toValue (c : Constant) : ofValue? c.toValue = some c := by
  cases c <;> rfl

theorem toValue_of_ofValue? {v : Value} {c : Constant} (h : ofValue? v = some c) :
    c.toValue = v := by
  cases v <;> simp [ofValue?] at h <;> subst h <;> rfl

end Constant

/-- What an instruction can write: a temporary of the current call, or a variable. -/
inductive Place where
  | temp (id : Nat)
  | var (v : Variable)
deriving DecidableEq, Repr

/-- Whether a place is a temporary. -/
def Place.isTemp : Place → Bool
  | temp _ => true
  | var _ => false

/-- What an instruction can read. -/
inductive Operand where
  | place (p : Place)
  | const (c : Constant)
  /-- What the last call gave. -/
  | returned
deriving DecidableEq, Repr

/-- Labels: those made for loops and branches, and one for every function. -/
inductive Label where
  | local (id : Nat)
  | function (name : String)
deriving DecidableEq, Repr

/-- What a call calls. -/
inductive Callee where
  | user (name : String)
  | builtin (f : Builtin)
deriving DecidableEq, Repr

/-- The name of what is called. -/
def Callee.name : Callee → String
  | user name => name
  | builtin f => f.name

/-- Operations. -/
inductive Op where
  | assign (dest : Place) (value : Constant)
  | copy (dest : Place) (src : Operand)
  | binary (dest : Place) (op : BinaryOp) (left right : Operand)
  | unary (dest : Place) (f : UnaryFn) (operand : Operand)
  | label (l : Label)
  | jump (target : Label)
  | jumpIfFalse (cond : Operand) (target : Label)
  /-- Adds an argument for the next call. -/
  | param (value : Operand)
  /-- Calls with the last `argc` arguments. -/
  | call (callee : Callee) (argc : Nat)
  | return (value : Option Operand)
  /-- Prints a value, and after it a line feed or a space. -/
  | print (value : Operand) (newline : Bool)
  | input (dest : Place) (ty : Ty)
  | newArray (dest : Place) (len : Nat)
  | newMatrix (dest : Place) (rows cols : Nat)
  | load (dest : Place) (base row : Operand) (col : Option Operand)
  | store (base : Place) (row : Operand) (col : Option Operand) (value : Operand)
  | halt
deriving DecidableEq, Repr

namespace Op

/-- The place that an operation overwrites as a whole. -/
def dest? : Op → Option Place
  | assign d _ | copy d _ | binary d _ _ _ | unary d _ _ | input d _ | newArray d _
  | newMatrix d _ _ | load d _ _ _ => some d
  | _ => none

/-- The operation with another place to overwrite. -/
def withDest (d : Place) : Op → Op
  | assign _ c => assign d c
  | copy _ s => copy d s
  | binary _ op l r => binary d op l r
  | unary _ f o => unary d f o
  | input _ t => input d t
  | newArray _ n => newArray d n
  | newMatrix _ r c => newMatrix d r c
  | load _ b r c => load d b r c
  | op => op

/-- The operands, in the order in which listings show them. -/
def operands : Op → List Operand
  | copy _ s => [s]
  | binary _ _ l r => [l, r]
  | unary _ _ o => [o]
  | jumpIfFalse c _ => [c]
  | param v => [v]
  | print v _ => [v]
  | .return v => v.toList
  | load _ b r c => b :: r :: c.toList
  | store _ r c v => r :: (c.toList ++ [v])
  | _ => []

/-- The operation with every operand changed by `g`. -/
def mapOperands (g : Operand → Operand) : Op → Op
  | copy d s => copy d (g s)
  | binary d op l r => binary d op (g l) (g r)
  | unary d f o => unary d f (g o)
  | jumpIfFalse c l => jumpIfFalse (g c) l
  | param v => param (g v)
  | print v n => print (g v) n
  | .return v => .return (v.map g)
  | load d b r c => load d (g b) (g r) (c.map g)
  | store b r c v => store b (g r) (c.map g) (g v)
  | op => op

/-- Where an operation jumps. -/
def target? : Op → Option Label
  | jump l | jumpIfFalse _ l => some l
  | _ => none

/-- The label that an operation is. -/
def label? : Op → Option Label
  | label l => some l
  | _ => none

/-- Whether control never goes on to the next instruction. -/
def endsBlock : Op → Bool
  | jump _ | .return _ | halt => true
  | _ => false

theorem operands_mapOperands (g : Operand → Operand) (op : Op) :
    (op.mapOperands g).operands = op.operands.map g := by
  cases op <;> simp [mapOperands, operands, Option.toList_map]

@[simp] theorem dest?_mapOperands (g : Operand → Operand) (op : Op) :
    (op.mapOperands g).dest? = op.dest? := by
  cases op <;> rfl

@[simp] theorem target?_mapOperands (g : Operand → Operand) (op : Op) :
    (op.mapOperands g).target? = op.target? := by
  cases op <;> rfl

@[simp] theorem label?_mapOperands (g : Operand → Operand) (op : Op) :
    (op.mapOperands g).label? = op.label? := by
  cases op <;> rfl

theorem dest?_withDest {d : Place} {op : Op} (h : op.dest?.isSome) :
    (op.withDest d).dest? = some d := by
  cases op <;> simp_all [dest?, withDest]

end Op

/-- An operation and the line of the source it comes from. -/
structure Instr where
  op : Op
  line : Nat
deriving DecidableEq, Repr

/-- A function in code. -/
structure FunctionInfo where
  name : String
  label : Label
  /-- The variables that take the arguments. -/
  params : List Variable
  returnsValue : Bool
  line : Nat
deriving DecidableEq, Repr

/-- A program for the machine. -/
structure Code where
  instrs : List Instr
  functions : List FunctionInfo
deriving DecidableEq, Repr

end NumericScript
