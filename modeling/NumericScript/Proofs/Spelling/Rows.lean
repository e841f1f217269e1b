import NumericScript.Proofs.Checked.InPlace
import NumericScript.Proofs.Spelling.Edits

/-! # Rows of distances

The distance of two texts is found row by row, a row for every beginning of the first text with its
distances to all beginnings of the second.  Beginnings grow at their ends, so here they are read
backwards.  In place there are two rows that change places: one row is computed over what is left of
the row before the last, and what is left there does not matter.

* `rowOf`, `nextRow_rowOf`: what a row holds, and that the next one does.
* `editDistance_eq_distance`: so the distance is found.
* `InPlace.editDistance?_eq`: and it is found in place.
* `editDistance_isLeast`: it is the least number of edits. -/

namespace NumericScript.Spelling

variable {u v a b : List Char} {x : Char}

/-! ### Rows -/

/-- The distances from `u` to the texts that begin with `v` and go on with a part of `b`, from one
character on. -/
def rowFrom (u v : List Char) : List Char → List Nat
  | [] => []
  | y :: b => distance u (y :: v) :: rowFrom u (y :: v) b

/-- The distances from `u` to all beginnings of `b`. -/
def rowOf (u b : List Char) : List Nat := distance u [] :: rowFrom u [] b

theorem rowTail_rowFrom (x : Char) (u v b : List Char) :
    rowTail x (distance (x :: u) v) (distance u v) (rowFrom u v b) b = rowFrom (x :: u) v b := by
  induction b generalizing v with
  | nil => rfl
  | cons y b ih =>
    have hcell : distance (x :: u) (y :: v) = min (min (distance u v + if x = y then 0 else 1)
        (distance u (y :: v) + 1)) (distance (x :: u) v + 1) := by rw [distance]
    rw [rowFrom, rowTail, ← hcell, ih]
    rfl

/-- One character more in front of `u` makes the next row. -/
theorem nextRow_rowOf (b u : List Char) (x : Char) :
    nextRow b (rowOf u b) x = rowOf (x :: u) b := by
  have hfirst : distance u [] + 1 = distance (x :: u) [] := by
    rw [distance_nil, distance_nil, List.length_cons]
  rw [rowOf, nextRow, hfirst, rowTail_rowFrom]
  rfl

theorem foldl_nextRow (a b u : List Char) :
    a.foldl (nextRow b) (rowOf u b) = rowOf (a.reverse ++ u) b := by
  induction a generalizing u with
  | nil => rfl
  | cons x a ih =>
    rw [List.foldl_cons, nextRow_rowOf, ih, List.reverse_cons, List.append_assoc]
    rfl

theorem rowFrom_nil (v b : List Char) : rowFrom [] v b = List.range' (v.length + 1) b.length := by
  induction b generalizing v with
  | nil => rfl
  | cons y b ih =>
    rw [rowFrom, ih, distance]
    rfl

theorem firstRow_eq (b : List Char) : firstRow b = rowOf [] b := by
  rw [firstRow, rowOf, rowFrom_nil, distance_nil, List.range_eq_range', List.range'_succ]
  rfl

/-- At the end of a row is the distance to the whole text. -/
theorem getLastD_rowFrom (u v b : List Char) :
    (rowFrom u v b).getLastD (distance u v) = distance u (b.reverse ++ v) := by
  induction b generalizing v with
  | nil => rfl
  | cons y b ih =>
    rw [rowFrom, List.getLastD_cons, ih, List.reverse_cons, List.append_assoc]
    rfl

theorem editDistance_eq_distance (a b : List Char) : editDistance a b = distance a b := by
  rw [editDistance, firstRow_eq, foldl_nextRow, rowOf, List.getLastD_cons, getLastD_rowFrom,
    List.append_nil, List.append_nil, distance_reverse]

/-! ### Rows in place -/

namespace InPlace

open Matrix.InPlace (loop exists_loop)

/-- The row that is read, and the one that is written. -/
structure Rows where
  previous : Array Nat
  current : Array Nat

/-- An array with `n` in place `k`, where something has to be. -/
def put? (d : Array Nat) (k n : Nat) : Option (Array Nat) :=
  if h : k < d.size then some (d.set k n) else none

/-- The place behind `j` of the row for a text that ends with `x`. -/
def cell? (x : Char) (b : List Char) (previous current : Array Nat) (j : Nat) :
    Option (Array Nat) := do
  let y ← b[j]?
  let kept := (← previous[j]?) + if x = y then 0 else 1
  let deleted := (← previous[j + 1]?) + 1
  let inserted := (← current[j]?) + 1
  put? current (j + 1) (min (min kept deleted) inserted)

/-- The row for one character more, and then the rows change places. -/
def line? (b : List Char) (s : Rows) (p : Char × Nat) : Option Rows := do
  let current ← put? s.current 0 (p.2 + 1)
  let current ← loop 0 b.length (cell? p.1 b s.previous) current
  return ⟨current, s.previous⟩

/-- The distance of two texts. -/
def editDistance? (a b : List Char) : Option Nat := do
  let s ← a.zipIdx.foldlM (line? b) ⟨(firstRow b).toArray, Array.replicate (b.length + 1) 0⟩
  s.previous[b.length]?

/-- An array as long as a row for `b` holds the distances from `u`, as far as the first `j`
characters of `b`. -/
structure HoldsTo (u b : List Char) (j : Nat) (d : Array Nat) : Prop where
  size : d.size = b.length + 1
  read : ∀ k ≤ j, d[k]? = some (distance u (b.take k).reverse)

theorem HoldsTo.put {d : Array Nat} {j n : Nat} (h : HoldsTo u b j d) (hj : j < b.length)
    (hn : n = distance u (b.take (j + 1)).reverse) :
    ∃ d', put? d (j + 1) n = some d' ∧ HoldsTo u b (j + 1) d' := by
  have hlt : j + 1 < d.size := by
    rw [h.size]
    omega
  refine ⟨d.set (j + 1) n, dif_pos hlt, (Array.size_set hlt).trans h.size, fun k hk => ?_⟩
  rw [Array.getElem?_set]
  split
  · subst k
    rw [hn]
  · exact h.read k (by omega)

theorem put?_zero {d : Array Nat} (hd : d.size = b.length + 1) (u : List Char) :
    ∃ d', put? d 0 u.length = some d' ∧ HoldsTo u b 0 d' := by
  have hlt : 0 < d.size := by omega
  refine ⟨d.set 0 u.length, dif_pos hlt, (Array.size_set hlt).trans hd, fun k hk => ?_⟩
  obtain rfl : k = 0 := by omega
  rw [Array.getElem?_set, if_pos rfl, List.take_zero, List.reverse_nil, distance_nil]

/-- One place of the next row is computed from the row before and the place before. -/
theorem HoldsTo.cell {previous d : Array Nat} {j : Nat} (hp : HoldsTo u b b.length previous)
    (h : HoldsTo (x :: u) b j d) (hj : j < b.length) :
    ∃ d', cell? x b previous d j = some d' ∧ HoldsTo (x :: u) b (j + 1) d' := by
  rw [cell?, List.getElem?_eq_getElem hj, hp.read j (by omega), hp.read (j + 1) hj,
    h.read j (Nat.le_refl j)]
  refine h.put hj ?_
  rw [List.take_succ_eq_append_getElem hj, List.reverse_append, List.reverse_singleton,
    List.singleton_append, distance]

/-- The rows are those of `u`, whatever the one that is to be written holds. -/
structure Shows (u b : List Char) (s : Rows) : Prop where
  previous : HoldsTo u b b.length s.previous
  current : s.current.size = b.length + 1

theorem Shows.line {s : Rows} (h : Shows u b s) (x : Char) :
    ∃ s', line? b s (x, u.length) = some s' ∧ Shows (x :: u) b s' := by
  -- The row is right as far as the loop has come; behind that it holds what was there before.
  obtain ⟨d, hd, hfirst⟩ := put?_zero h.current (x :: u)
  obtain ⟨d', hd', hrow⟩ := exists_loop (cell? x b s.previous) (HoldsTo (x :: u) b)
    (Nat.zero_le b.length) hfirst fun j d _ hj hd => h.previous.cell hd hj
  refine ⟨⟨d', s.previous⟩, ?_, hrow, h.previous.size⟩
  rw [List.length_cons] at hd
  rw [line?, hd]
  change (loop 0 b.length (cell? x b s.previous) d).bind _ = _
  rw [hd']
  rfl

theorem Shows.lines {s : Rows} (h : Shows u b s) (a : List Char) :
    ∃ s', (a.zipIdx u.length).foldlM (line? b) s = some s' ∧ Shows (a.reverse ++ u) b s' := by
  induction a generalizing u s with
  | nil => exact ⟨s, rfl, h⟩
  | cons x a ih =>
    obtain ⟨s₁, hs₁, h₁⟩ := h.line x
    obtain ⟨s', hs', h'⟩ := ih h₁
    refine ⟨s', ?_, ?_⟩
    · rw [List.zipIdx_cons, List.foldlM_cons, hs₁]
      exact hs'
    · rwa [List.reverse_cons, List.append_assoc]

theorem shows_first (b : List Char) :
    Shows [] b ⟨(firstRow b).toArray, Array.replicate (b.length + 1) 0⟩ := by
  refine ⟨⟨by simp [firstRow], fun k hk => ?_⟩, Array.size_replicate⟩
  rw [List.getElem?_toArray, firstRow, List.getElem?_range (by omega), distance,
    List.length_reverse, List.length_take, Nat.min_eq_left hk]

theorem editDistance?_eq (a b : List Char) : editDistance? a b = some (editDistance a b) := by
  obtain ⟨s, hs, h⟩ := (shows_first b).lines a
  have hs : a.zipIdx.foldlM (line? b) _ = some s := hs
  rw [editDistance?, hs]
  refine (h.previous.read b.length (Nat.le_refl _)).trans ?_
  rw [List.take_length, List.append_nil, distance_reverse, editDistance_eq_distance]

end InPlace

/-- The distance that is found is the least number of edits that lead from the one text to the
other.  Found in place, with two rows that change places, it is the same, and no place is read or
written that is not there. -/
theorem editDistance_isLeast (a b : String) :
    IsLeast {n | Edits n a.toList b.toList} (editDistance a.toList b.toList) ∧
      InPlace.editDistance? a.toList b.toList = some (editDistance a.toList b.toList) := by
  rw [InPlace.editDistance?_eq, editDistance_eq_distance]
  exact ⟨isLeast_distance a.toList b.toList, rfl⟩

/-- Two letters that have changed places are two edits apart. -/
example : editDistance "total".toList "totla".toList = 2 := by decide

end NumericScript.Spelling
