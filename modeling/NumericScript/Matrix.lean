import NumericScript.Fault

/-! # Matrices

Matrices of doubles with their entries in one array, row after row.  Every operation is given
by `Matrix.ofFn`, that is by what stands in row `r` and column `c` of its result.

* `Matrix.ofFn_wellFormed`: a matrix given by its entries holds as many as its shape says.
* `Matrix.entry_ofFn`: and holds the given ones. -/

namespace NumericScript

/-- A matrix of doubles. -/
structure Matrix where
  rows : Nat
  cols : Nat
  /-- The entries, row after row. -/
  data : Array Double

namespace Matrix

/-- Whether a matrix holds as many entries as its shape says. -/
def WellFormed (m : Matrix) : Prop := m.data.size = m.rows * m.cols

/-- The extents of a matrix. -/
def shape (m : Matrix) : Shape := ⟨m.rows, m.cols⟩

/-- What stands in row `r` and column `c`. -/
def entry (m : Matrix) (r c : Nat) : Double := m.data.getD (r * m.cols + c) 0.0

/-- The matrix with `f r c` in row `r` and column `c`. -/
def ofFn (rows cols : Nat) (f : Nat → Nat → Double) : Matrix :=
  ⟨rows, cols, Array.ofFn fun k : Fin (rows * cols) => f (k / cols) (k % cols)⟩

@[simp] theorem ofFn_rows (rows cols : Nat) (f : Nat → Nat → Double) :
    (ofFn rows cols f).rows = rows := rfl

@[simp] theorem ofFn_cols (rows cols : Nat) (f : Nat → Nat → Double) :
    (ofFn rows cols f).cols = cols := rfl

theorem ofFn_wellFormed (rows cols : Nat) (f : Nat → Nat → Double) :
    (ofFn rows cols f).WellFormed := by
  simp [WellFormed, ofFn]

theorem offset_lt {r c rows cols : Nat} (hr : r < rows) (hc : c < cols) :
    r * cols + c < rows * cols := by
  have h := Nat.mul_le_mul_right cols (Nat.succ_le_of_lt hr)
  rw [Nat.succ_mul] at h
  omega

theorem entry_ofFn {rows cols r c : Nat} (f : Nat → Nat → Double) (hr : r < rows)
    (hc : c < cols) : (ofFn rows cols f).entry r c = f r c := by
  have h := offset_lt hr hc
  have hd : (r * cols + c) / cols = r := by
    rw [Nat.mul_comm, Nat.mul_add_div (by omega), Nat.div_eq_of_lt hc, Nat.add_zero]
  have hm : (r * cols + c) % cols = c := by
    rw [Nat.mul_comm, Nat.mul_add_mod, Nat.mod_eq_of_lt hc]
  simp [entry, ofFn, Array.getD, h, hd, hm]

/-- The matrix of zeros. -/
def zeros (rows cols : Nat) : Matrix := ofFn rows cols fun _ _ => 0.0

/-- The identity matrix. -/
def identity (size : Nat) : Matrix := ofFn size size fun r c => if r = c then 1.0 else 0.0

/-- The matrix with the given rows; the first row tells the number of columns. -/
def ofRows (rows : List (List Double)) : Matrix :=
  ⟨rows.length, (rows.headD []).length, rows.flatten.toArray⟩

/-- Whether two matrices have the same shape and equal entries. -/
def equals (a b : Matrix) : Bool :=
  a.rows = b.rows && a.cols = b.cols && a.data.size = b.data.size
    && (List.range a.data.size).all fun k => a.data.getD k 0.0 == b.data.getD k 0.0

/-! ### Elements -/

/-- The entry at two indices. -/
def get (m : Matrix) (row col : Int64) : Except Fault Double := do
  let r ← checkedIndex row m.rows
  let c ← checkedIndex col m.cols
  return m.entry r c

/-- The matrix with `x` at two indices. -/
def set (m : Matrix) (row col : Int64) (x : Double) : Except Fault Matrix := do
  let r ← checkedIndex row m.rows
  let c ← checkedIndex col m.cols
  return { m with data := m.data.setIfInBounds (r * m.cols + c) x }

/-! ### Arithmetic -/

/-- Rows and columns exchanged. -/
def transpose (m : Matrix) : Matrix := ofFn m.cols m.rows fun r c => m.entry c r

/-- `f` applied to every entry. -/
def map (f : Double → Double) (m : Matrix) : Matrix :=
  ofFn m.rows m.cols fun r c => f (m.entry r c)

/-- Two matrices of one shape combined entry by entry, in the name of `op`. -/
def zipWith (op : BinaryOp) (f : Double → Double → Double) (a b : Matrix) : Except Fault Matrix :=
  if a.rows = b.rows ∧ a.cols = b.cols then
    .ok (ofFn a.rows a.cols fun r c => f (a.entry r c) (b.entry r c))
  else .error (.shapeMismatch op a.shape b.shape)

/-- The sum from left to right.  It starts at the negative zero, which is neutral. -/
def sum (xs : List Double) : Double := xs.foldl (· + ·) (-0.0)

/-- The product of matrices that fit. -/
def product (a b : Matrix) : Matrix :=
  ofFn a.rows b.cols fun r c => sum ((List.range a.cols).map fun k => a.entry r k * b.entry k c)

/-- The product of two matrices. -/
def multiply (a b : Matrix) : Except Fault Matrix :=
  if a.cols = b.rows then .ok (a.product b) else .error (.shapeMismatch .mul a.shape b.shape)

/-- Asks for a square matrix. -/
def requireSquare (m : Matrix) : Except Fault Unit :=
  if m.rows = m.cols then .ok () else .error (.notSquare m.shape)

/-- The sum of the diagonal. -/
def trace (m : Matrix) : Except Fault Double := do
  m.requireSquare
  return sum ((List.range m.rows).map fun i => m.entry i i)

/-! ### Elimination -/

/-- A pivot below this size counts as zero. -/
def singularBound : Double := 1e-10

/-- The row, from `col` on, whose entry in column `col` is largest in size; of several the
last. -/
def pivot (m : Matrix) (col : Nat) : Nat :=
  (List.range' col (m.rows - col)).foldl
    (fun best r =>
      if (m.entry r col).abs.orderKey < (m.entry best col).abs.orderKey then best else r)
    col

/-- Rows `a` and `b` exchanged. -/
def swapRows (m : Matrix) (a b : Nat) : Matrix :=
  ofFn m.rows m.cols fun r c => m.entry (if r = a then b else if r = b then a else r) c

/-- Column `col` cleared below the diagonal. -/
def clearBelow (m : Matrix) (col : Nat) : Matrix :=
  ofFn m.rows m.cols fun r c =>
    if col < r ∧ col ≤ c then
      m.entry r c - m.entry r col / m.entry col col * m.entry col c
    else m.entry r c

/-- Elimination from column `col` on, for `left` columns, with `det` the product of the
pivots so far and its sign turned at every exchange of rows. -/
def eliminate (m : Matrix) (det : Double) : Nat → Nat → Double
  | 0, _ => det
  | left + 1, col =>
    let p := m.pivot col
    if (m.entry p col).abs < singularBound then 0.0
    else
      let work := if p = col then m else m.swapRows p col
      let det := if p = col then det else -det
      eliminate (work.clearBelow col) (det * work.entry col col) left (col + 1)

/-- The determinant, by elimination with partial pivoting. -/
def determinant (m : Matrix) : Except Fault Double := do
  m.requireSquare
  return m.eliminate 1.0 m.rows 0

/-- Row `row` divided by `x`. -/
def divideRow (m : Matrix) (row : Nat) (x : Double) : Matrix :=
  ofFn m.rows m.cols fun r c => if r = row then m.entry r c / x else m.entry r c

/-- From every other row the multiple of row `row` taken that `factor` gives. -/
def clearOthers (m : Matrix) (row : Nat) (factor : Nat → Double) : Matrix :=
  ofFn m.rows m.cols fun r c =>
    if r = row then m.entry r c else m.entry r c - factor r * m.entry row c

/-- Elimination of whole columns from `col` on, for `left` columns, with every step done to
`inverse` as well. -/
def eliminateAll (m inverse : Matrix) : Nat → Nat → Except Fault Matrix
  | 0, _ => .ok inverse
  | left + 1, col =>
    let p := m.pivot col
    if (m.entry p col).abs < singularBound then .error .singularMatrix
    else
      let work := m.swapRows p col
      let inverse := inverse.swapRows p col
      let diagonal := work.entry col col
      let work := work.divideRow col diagonal
      let inverse := inverse.divideRow col diagonal
      let factor := fun r => work.entry r col
      eliminateAll (work.clearOthers col factor) (inverse.clearOthers col factor) left (col + 1)

/-- The inverse, by elimination of whole columns. -/
def inverse (m : Matrix) : Except Fault Matrix := do
  m.requireSquare
  m.eliminateAll (identity m.rows) m.rows 0

/-! ### Powers -/

/-- The product of `acc` and `base ^ n` by repeated squaring, without a factor `acc` if there
is none yet. -/
def powerFrom (acc : Option Matrix) (base : Matrix) (n : Nat) : Option Matrix :=
  let acc :=
    if n % 2 = 1 then
      match acc with
      | some a => some (a.product base)
      | none => some base
    else acc
  if n / 2 = 0 then acc else powerFrom acc (base.product base) (n / 2)
termination_by n
decreasing_by omega

/-- An integer power; a negative exponent inverts first. -/
def power (m : Matrix) (exponent : Int64) : Except Fault Matrix := do
  m.requireSquare
  if exponent.toInt = 0 then return identity m.rows
  else
    let base ← if exponent.toInt < 0 then m.inverse else pure m
    return (powerFrom none base exponent.toInt.natAbs).getD (identity m.rows)

/-! ### Text -/

/-- One row between brackets. -/
def rowText (m : Matrix) (r : Nat) : String :=
  "[" ++ ", ".intercalate ((List.range m.cols).map fun c => Decimal.valueText (m.entry r c))
    ++ "]"

/-- A matrix as the language shows it. -/
def text (m : Matrix) : String :=
  "[" ++ ", ".intercalate ((List.range m.rows).map m.rowText) ++ "]"

end Matrix

end NumericScript
