import NumericScript.Value

/-! # Elements of arrays and matrices

Reading and writing `a[i]` in an array and `m[r][c]` in a matrix. -/

namespace NumericScript.Value

/-- The element of an array at `row`, or the entry of a matrix at `row` and a column. -/
def loadIndex (base : Value) (row : Int64) (col : Option Int64) : Except Fault Value :=
  match base, col with
  | array items, none => do
    let i ← checkedIndex row items.length
    return items.getD i .void
  | matrix m, some c => float <$> m.get row c
  | matrix _, none => .error (.unexpectedValue .rowAndColumn .singleIndex)
  | v, _ => .error (v.unexpected .array)

/-- The container with `value` in the place of an element. -/
def storeIndex (base : Value) (row : Int64) (col : Option Int64) (value : Value) :
    Except Fault Value :=
  match base, col with
  | array items, none => do
    let i ← checkedIndex row items.length
    return array (items.set i value)
  | matrix m, some c => do
    let x ← value.asDouble
    matrix <$> m.set row c x
  | matrix _, none => .error (.unexpectedValue .rowAndColumn .singleIndex)
  | v, _ => .error (v.unexpected .array)

end NumericScript.Value
