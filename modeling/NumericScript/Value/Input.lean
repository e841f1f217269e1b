import NumericScript.Value
import NumericScript.Text.Blank
import NumericScript.Decimal.Read

/-! # Values from input lines -/

namespace NumericScript.Value

/-- Whether `c` belongs to the end of a line. -/
def isLineEnd (c : Char) : Bool := c = '\r' || c = '\n'

/-- The value of type `ty` that an input line holds.  White space around numbers and truth
values does not count; a text is the line without its end. -/
def ofInput (line : String) (ty : Ty) : Except Fault Value :=
  let word := Text.trim line
  let found (v : Option Value) : Except Fault Value :=
    match v with
    | some v => .ok v
    | none => .error (.invalidInput word ty)
  match ty with
  | .int => found ((Decimal.readInt? word).map int)
  | .float => found ((Decimal.readDouble? word).map float)
  | .bool =>
    found (if word = "true" then some (bool true)
      else if word = "false" then some (bool false) else none)
  | .str => .ok (str (String.ofList (Text.dropEndWhile isLineEnd line.toList)))
  | _ => found none

end NumericScript.Value
