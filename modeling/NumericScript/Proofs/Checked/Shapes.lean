import NumericScript.Proofs.Checked.Matrix

/-! # Shapes of matrices

What shape the operations on matrices give, and that their results hold as many entries as that
shape says.  Sums and products are there for the shapes that go together and for no others; powers
and inverses only for squares, and an inverse may be missing.

* `Matrix.Fills`: a matrix of a shape, with all its entries.
* `Matrix.zipWith_of_shape_eq`, `Matrix.multiply_of_fit`: sums and products, where there are any.
* `Matrix.power_of_square`, `Matrix.inverse_of_square`: powers and inverses. -/

namespace NumericScript.Matrix

/-- A matrix of the given shape, with as many entries as that says. -/
structure Fills (s : Shape) (m : Matrix) : Prop where
  wellFormed : m.WellFormed
  shape : m.shape = s

variable {m n r : Matrix}

theorem fills_ofFn (rows cols : Nat) (f : Nat → Nat → Double) :
    (ofFn rows cols f).Fills ⟨rows, cols⟩ := ⟨ofFn_wellFormed rows cols f, rfl⟩

theorem Squared.fills {size : Nat} (h : m.Squared size) : m.Fills ⟨size, size⟩ :=
  ⟨h.wellFormed, by rw [shape, h.rows, h.cols]⟩

theorem shape_of_square (h : m.rows = m.cols) : m.shape = ⟨m.rows, m.rows⟩ := by
  rw [shape, ← h]

/-! ### Entry by entry -/

/-- Putting an entry changes neither the shape nor the number of entries. -/
theorem WellFormed.fills_set (h : m.WellFormed) {row col : Int64} {x : Double}
    (hr : m.set row col x = .ok r) : r.Fills m.shape := by
  obtain ⟨i, -, hr⟩ := Machine.bind_eq_ok.1 hr
  obtain ⟨j, -, hr⟩ := Machine.bind_eq_ok.1 hr
  cases hr
  exact ⟨(Array.size_setIfInBounds ..).trans h, rfl⟩

theorem fills_transpose (m : Matrix) : m.transpose.Fills ⟨m.cols, m.rows⟩ := fills_ofFn _ _ _

theorem fills_map (f : Double → Double) (m : Matrix) : (m.map f).Fills m.shape := fills_ofFn _ _ _

section

variable (op : BinaryOp) (f : Double → Double → Double)

/-- Matrices of one shape can be combined, and keep it. -/
theorem zipWith_of_shape_eq (h : m.shape = n.shape) :
    ∃ r, m.zipWith op f n = .ok r ∧ r.Fills m.shape := by
  obtain ⟨hrows, hcols⟩ := Shape.mk.inj h
  exact ⟨_, if_pos ⟨hrows, hcols⟩, fills_ofFn _ _ _⟩

theorem zipWith_of_shape_ne (h : m.shape ≠ n.shape) :
    m.zipWith op f n = .error (.shapeMismatch op m.shape n.shape) :=
  if_neg fun he => h (by rw [shape, shape, he.1, he.2])

end

/-! ### Products -/

/-- The product of matrices that fit has the rows of the first and the columns of the second. -/
theorem multiply_of_fit (h : m.cols = n.rows) :
    ∃ r, m.multiply n = .ok r ∧ r.Fills ⟨m.rows, n.cols⟩ := ⟨_, if_pos h, fills_ofFn _ _ _⟩

theorem multiply_of_not_fit (h : m.cols ≠ n.rows) :
    m.multiply n = .error (.shapeMismatch .mul m.shape n.shape) := if_neg h

/-! ### Inverses and powers -/

theorem eq_singularMatrix_of_eliminateAll {left col : Nat} {f : Fault}
    (h : m.eliminateAll n left col = .error f) : f = .singularMatrix := by
  induction left generalizing m n col with
  | zero => cases h
  | succ left ih =>
    unfold eliminateAll at h
    dsimp only at h
    split at h
    · cases h
      rfl
    · exact ih h

/-- A square has an inverse of its size or is singular. -/
theorem inverse_of_square (h : m.rows = m.cols) :
    (∃ r, m.inverse = .ok r ∧ r.Fills m.shape) ∨ m.inverse = .error .singularMatrix := by
  have hsquare : m.inverse = m.eliminateAll (identity m.rows) m.rows 0 := by
    rw [inverse, requireSquare, if_pos h]
    rfl
  cases hr : m.eliminateAll (identity m.rows) m.rows 0 with
  | ok r =>
    have hr' := hsquare.trans hr
    exact .inl ⟨r, hr', shape_of_square h ▸ (squared_inverse hr').fills⟩
  | error f => exact .inr (hsquare.trans (eq_singularMatrix_of_eliminateAll hr ▸ hr))

theorem inverse_of_not_square (h : m.rows ≠ m.cols) : m.inverse = .error (.notSquare m.shape) := by
  rw [inverse, requireSquare, if_neg h]
  rfl

/-- The power of a square from a base of its size. -/
theorem fills_powerFrom {size : Nat} (h : m.Squared size) (k : Nat) :
    ((powerFrom none m k).getD (identity size)).Fills ⟨size, size⟩ := by
  cases hp : powerFrom none m k with
  | none => exact (squared_identity size).fills
  | some a => exact ((h.powerFrom?_eq k (by simp)).2 a hp).fills

/-- A square has powers of its size.  Only negative ones may be missing, if it is singular. -/
theorem power_of_square (hm : m.WellFormed) (h : m.rows = m.cols) (k : Int64) :
    (∃ r, m.power k = .ok r ∧ r.Fills m.shape) ∨
      k.toInt < 0 ∧ m.power k = .error .singularMatrix := by
  rw [shape_of_square h, power, requireSquare, if_pos h]
  change (∃ r, (if k.toInt = 0 then _ else _) = _ ∧ _) ∨ _ ∧ (if k.toInt = 0 then _ else _) = _
  split
  · exact .inl ⟨_, rfl, (squared_identity m.rows).fills⟩
  · split
    · obtain ⟨r, hr, -⟩ | hr := inverse_of_square h
      · rw [hr]
        exact .inl ⟨_, rfl, fills_powerFrom (squared_inverse hr) _⟩
      · rw [hr]
        exact .inr ⟨by assumption, rfl⟩
    · exact .inl ⟨_, rfl, fills_powerFrom ⟨hm, rfl, h.symm⟩ _⟩

theorem power_of_not_square (h : m.rows ≠ m.cols) (k : Int64) :
    m.power k = .error (.notSquare m.shape) := by
  rw [power, requireSquare, if_neg h]
  rfl

/-- Whatever is a power of a matrix has its size. -/
theorem fills_power (hm : m.WellFormed) {k : Int64} (h : m.power k = .ok r) : r.Fills m.shape := by
  by_cases hsq : m.rows = m.cols
  · obtain ⟨r', hr', hfills⟩ | ⟨-, hr'⟩ := power_of_square hm hsq k
    · cases h.symm.trans hr'
      exact hfills
    · cases h.symm.trans hr'
  · cases h.symm.trans (power_of_not_square hsq k)

end NumericScript.Matrix
