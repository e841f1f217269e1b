/-! # Near misses of names

`editDistance` counts the insertions, deletions and substitutions of single characters that
lead from one text to another.  `suggest` ranks candidates for a misspelled name by it.

The distances from the first characters of `a` to all beginnings of `b` make up a row;
`nextRow` computes the row for one character more of `a`. -/

namespace NumericScript.Spelling

/-- The rest of a row for one more character `x`, to the right of the distance `left`, below
the distances `diagonal :: above` of the row before. -/
def rowTail (x : Char) : Nat → Nat → List Nat → List Char → List Nat
  | left, diagonal, up :: above, y :: ys =>
    let d := min (min (diagonal + if x = y then 0 else 1) (up + 1)) (left + 1)
    d :: rowTail x d up above ys
  | _, _, _, _ => []

/-- The row of distances for one more character `x`. -/
def nextRow (b : List Char) (row : List Nat) (x : Char) : List Nat :=
  match row with
  | [] => []
  | d :: above => (d + 1) :: rowTail x (d + 1) d above b

/-- The distances from the empty text to all beginnings of `b`. -/
def firstRow (b : List Char) : List Nat := List.range (b.length + 1)

/-- The least number of single-character edits that lead from `a` to `b`. -/
def editDistance (a b : List Char) : Nat :=
  (a.foldl (nextRow b) (firstRow b)).getLastD 0

theorem length_rowTail (x : Char) (left diagonal : Nat) (above : List Nat) (b : List Char)
    (h : above.length = b.length) : (rowTail x left diagonal above b).length = b.length := by
  induction b generalizing left diagonal above with
  | nil => cases above <;> simp_all [rowTail]
  | cons y ys ih =>
    cases above with
    | nil => simp at h
    | cons up above => simp_all [rowTail]

theorem length_nextRow {b : List Char} {row : List Nat} (x : Char)
    (h : row.length = b.length + 1) : (nextRow b row x).length = b.length + 1 := by
  cases row with
  | nil => simp at h
  | cons d above => simp [nextRow, length_rowTail x (d + 1) d above b (by simpa using h)]

/-- Whether the first of two ranked candidates comes first: by distance, then by name. -/
def before (p q : Nat × String) : Bool := p.1 < q.1 || (p.1 = q.1 && ¬ q.2 < p.2)

/-- The candidates other than `name` at most `maxDistance` away from it, each with its
distance, once each and in order. -/
def ranked (name : String) (candidates : List String) (maxDistance : Nat) :
    List (Nat × String) :=
  let near := (candidates.filter (· ≠ name)).map fun c => (editDistance name.toList c.toList, c)
  ((near.filter (·.1 ≤ maxDistance)).mergeSort before).eraseReps

/-- The best `limit` candidates for `name`. -/
def suggest (name : String) (candidates : List String) (maxDistance limit : Nat) :
    List String :=
  ((ranked name candidates maxDistance).take limit).map (·.2)

end NumericScript.Spelling
