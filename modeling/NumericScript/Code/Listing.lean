import NumericScript.Code
import NumericScript.Text.Quoted

/-! # Listings

The text of code: one instruction a line, with its index in front, and labels at the margin. -/

namespace NumericScript

/-- A constant as listings write it.  Texts are quoted. -/
def Constant.text : Constant → String
  | .str s => Text.quoted s
  | c => c.toValue.text

/-- A place as listings write it. -/
def Place.text : Place → String
  | .temp id => "t" ++ toString id
  | .var v => v.slot

/-- An operand as listings write it. -/
def Operand.text : Operand → String
  | .place p => p.text
  | .const c => c.text
  | .returned => "retval"

/-- A label as listings write it. -/
def Label.text : Label → String
  | .local id => "L" ++ toString id
  | .function name => "fn_" ++ name

namespace Op

/-- An index in brackets. -/
def indexText (index : Operand) : String := "[" ++ index.text ++ "]"

/-- A row and perhaps a column in brackets. -/
def subscriptText (row : Operand) (col : Option Operand) : String :=
  indexText row ++ (col.map indexText).getD ""

/-- An operation as listings write it. -/
def text : Op → String
  | assign d c => d.text ++ " = " ++ c.text
  | copy d s => d.text ++ " = " ++ s.text
  | binary d op l r => d.text ++ " = " ++ l.text ++ " " ++ op.symbol ++ " " ++ r.text
  | unary d .neg o => d.text ++ " = -" ++ o.text
  | unary d .not o => d.text ++ " = not " ++ o.text
  | unary d .toFloat o => d.text ++ " = to_float " ++ o.text
  | unary d .transpose o => d.text ++ " = " ++ o.text ++ " ^t"
  | label l => l.text ++ ":"
  | jump l => "goto " ++ l.text
  | jumpIfFalse c l => "if_false " ++ c.text ++ " goto " ++ l.text
  | param v => "param " ++ v.text
  | call f argc => "call " ++ f.name ++ ", " ++ toString argc
  | .return none => "return"
  | .return (some v) => "return " ++ v.text
  | print v newline => "print " ++ v.text ++ if newline then "" else ","
  | input d t => "input " ++ d.text ++ " : " ++ t.text
  | newArray d n => d.text ++ " = array[" ++ toString n ++ "]"
  | newMatrix d r c => d.text ++ " = matrix[" ++ toString r ++ "x" ++ toString c ++ "]"
  | load d b r c => d.text ++ " = " ++ b.text ++ subscriptText r c
  | store b r c v => b.text ++ subscriptText r c ++ " = " ++ v.text
  | halt => "halt"

end Op

namespace Code

/-- `text` moved to the right end of a column of `width` characters. -/
def padLeft (width : Nat) (text : String) : String := "".pushn ' ' (width - text.length) ++ text

/-- The line for the instruction at `index`. -/
def line (index : Nat) (op : Op) : String :=
  if op.label?.isSome then op.text else padLeft 4 (toString index) ++ "  " ++ op.text

/-- The lines for instructions, the first at `index`. -/
def linesFrom (index : Nat) : List Instr → List String
  | [] => []
  | i :: is => line index i.op :: linesFrom (index + 1) is

/-- The lines of the listing. -/
def lines (c : Code) : List String := linesFrom 0 c.instrs

/-- The listing, in which every line has an end. -/
def text (c : Code) : String := String.join (c.lines.map (· ++ "\n"))

theorem length_linesFrom (index : Nat) (is : List Instr) :
    (linesFrom index is).length = is.length := by
  induction is generalizing index with
  | nil => rfl
  | cons i is ih => simp [linesFrom, ih]

end Code

end NumericScript
