import NumericScript.Double
import NumericScript.Ty

/-! # Syntax trees

Expressions, statements and programs.  A tree carries room for what analysis finds out: every
expression has a type annotation and every name of a variable a binding, both empty at
first.  `Expr.annotate` and `Name.bind` fill them once and never change them again. -/

namespace NumericScript

/-- Where a variable lives: for the whole program, or in the frame of a call. -/
inductive Storage where
  | global
  | local
deriving DecidableEq, Repr

/-- The variable that a name stands for: its slot, declared type and storage. -/
structure Binding where
  slot : String
  ty : Ty
  storage : Storage
deriving DecidableEq, Repr

/-- A name in the source, with its binding once there is one. -/
structure Name where
  text : String
  binding : Option Binding
deriving DecidableEq, Repr

namespace Name

/-- A name without a binding. -/
def unbound (text : String) : Name := ⟨text, none⟩

/-- Binds a name that has no binding yet. -/
def bind (x : Name) (b : Binding) : Name := { x with binding := x.binding.or (some b) }

@[simp] theorem bind_text (x : Name) (b : Binding) : (x.bind b).text = x.text := rfl

theorem bind_bind (x : Name) (b c : Binding) : (x.bind b).bind c = x.bind b := by
  cases h : x.binding <;> simp [bind, h]

end Name

/-- Operators between two operands. -/
inductive BinaryOp where
  | add | sub | mul | div | mod | pow
  | eq | ne | lt | le | gt | ge
  | and | or
deriving DecidableEq, Repr

/-- The operator as it is written. -/
def BinaryOp.symbol : BinaryOp → String
  | .add => "+" | .sub => "-" | .mul => "*" | .div => "/" | .mod => "%" | .pow => "^"
  | .eq => "==" | .ne => "!=" | .lt => "<" | .le => "<=" | .gt => ">" | .ge => ">="
  | .and => "and" | .or => "or"

/-- All operators between two operands. -/
def BinaryOp.all : List BinaryOp :=
  [.add, .sub, .mul, .div, .mod, .pow, .eq, .ne, .lt, .le, .gt, .ge, .and, .or]

/-- Operators on one operand. -/
inductive UnaryOp where
  | neg | not | transpose
deriving DecidableEq, Repr

/-- The operator as messages write it. -/
def UnaryOp.symbol : UnaryOp → String
  | .neg => "-" | .not => "not" | .transpose => "^t"

/-- A line and a column of the source. -/
structure Loc where
  line : Nat
  column : Nat
deriving DecidableEq, Repr, Inhabited

/-- What every expression carries: its place, and its type once there is one. -/
structure Mark where
  loc : Loc
  ty : Option Ty
deriving DecidableEq, Repr, Inhabited

/-- Expressions. -/
inductive Expr where
  | int (mark : Mark) (value : Int64)
  | float (mark : Mark) (value : Double)
  | str (mark : Mark) (value : String)
  | bool (mark : Mark) (value : Bool)
  | name (mark : Mark) (x : Name)
  | binary (mark : Mark) (op : BinaryOp) (left right : Expr)
  | unary (mark : Mark) (op : UnaryOp) (operand : Expr)
  | call (mark : Mark) (callee : String) (args : List Expr)
  | array (mark : Mark) (items : List Expr)
  | matrix (mark : Mark) (rows : List (List Expr))
  /-- An element of an array, or with a column an entry of a matrix. -/
  | index (mark : Mark) (base row : Expr) (col : Option Expr)
deriving Repr

namespace Expr

/-- The mark of an expression. -/
def mark : Expr → Mark
  | int m _ | float m _ | str m _ | bool m _ | name m _ | binary m _ _ _ | unary m _ _
  | call m _ _ | array m _ | matrix m _ | index m _ _ _ => m

/-- The place of an expression. -/
def loc (e : Expr) : Loc := e.mark.loc

/-- The annotated type, `unknown` where there is none. -/
def ty (e : Expr) : Ty := e.mark.ty.getD .unknown

end Expr

/-- Annotates a mark that has no type yet. -/
def Mark.annotate (m : Mark) (t : Ty) : Mark := { m with ty := m.ty.or (some t) }

@[simp] theorem Mark.annotate_loc (m : Mark) (t : Ty) : (m.annotate t).loc = m.loc := rfl

theorem Mark.annotate_annotate (m : Mark) (s t : Ty) :
    (m.annotate s).annotate t = m.annotate s := by
  cases h : m.ty <;> simp [annotate, h]

/-- A parameter of a function. -/
structure Param where
  name : Name
  ty : Ty
  loc : Loc
deriving DecidableEq, Repr

/-- The subscript of an assigned element: a row, and for a matrix a column. -/
structure Subscript where
  row : Expr
  col : Option Expr
deriving Repr

/-- Statements. -/
inductive Stmt where
  | decl (loc : Loc) (x : Name) (declared : Ty) (init : Expr)
  | assign (loc : Loc) (x : Name) (subscript : Option Subscript) (value : Expr)
  | function (loc : Loc) (name : String) (returns : Ty) (params : List Param)
      (body : List Stmt)
  | cond (loc : Loc) (condition : Expr) (body : List Stmt) (orElse : Option (List Stmt))
  | while (loc : Loc) (condition : Expr) (body : List Stmt)
  | repeat (loc : Loc) (count : Expr) (body : List Stmt)
  | for (loc : Loc) (init : Stmt) (condition : Expr) (update : Stmt) (body : List Stmt)
  | break (loc : Loc)
  | continue (loc : Loc)
  | return (loc : Loc) (value : Option Expr)
  | print (loc : Loc) (values : List Expr)
  | input (loc : Loc) (x : Name)
  | expr (loc : Loc) (e : Expr)
deriving Repr

/-- The place of a statement. -/
def Stmt.loc : Stmt → Loc
  | .decl p _ _ _ | .assign p _ _ _ | .function p _ _ _ _ | .cond p _ _ _ | .while p _ _
  | .repeat p _ _ | .for p _ _ _ _ | .break p | .continue p | .return p _ | .print p _
  | .input p _ | .expr p _ => p

/-- A program is the list of its statements at top level. -/
abbrev Program := List Stmt

end NumericScript
