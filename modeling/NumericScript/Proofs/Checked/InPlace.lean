import NumericScript.Proofs.Checked.Shapes

/-! # Matrices in place

The entries of a matrix stand in one array, row after row, and the operations go over it in loops.
They read and write single places, the numbers of which they work out from rows and columns.  Here
the loops are written out, and what they read or write has to be there.  On matrices that hold as
many entries as their shapes say they come to their end, and leave just what the operations give.

* `Matrix.InPlace.Holds`: what an array holds, by rows and columns.
* `Matrix.InPlace.exists_loop`, `Matrix.InPlace.Holds.write`: loops, and writing to one place.
* `Matrix.InPlace.transpose?_eq`, `Matrix.InPlace.multiply?_agrees`: results that are filled.
* `Matrix.InPlace.determinant?_agrees`, `Matrix.InPlace.inverse?_agrees`: elimination in place. -/

namespace NumericScript.Matrix

namespace InPlace

/-! ### Loops -/

section

variable {σ : Type} {start stop : Nat}

/-- One step for every number from `start` up to `stop`. -/
def loop (start stop : Nat) (step : σ → Nat → Option σ) (s : σ) : Option σ :=
  (List.range' start (stop - start)).foldlM step s

/-- What holds at the beginning, and for the next number after every step, holds at the end. -/
theorem exists_loop (step : σ → Nat → Option σ) (I : Nat → σ → Prop) {s : σ} (hle : start ≤ stop)
    (hs : I start s)
    (hstep : ∀ k s, start ≤ k → k < stop → I k s → ∃ s', step s k = some s' ∧ I (k + 1) s') :
    ∃ s', loop start stop step s = some s' ∧ I stop s' := by
  obtain ⟨n, rfl⟩ := Nat.exists_eq_add_of_le hle
  clear hle
  rw [loop, Nat.add_sub_cancel_left]
  -- The number of steps that are left goes down while `start` goes up.
  induction n generalizing start s with
  | zero => exact ⟨s, rfl, hs⟩
  | succ n ih =>
    obtain ⟨s', hs', hI⟩ := hstep start s (Nat.le_refl _) (by omega) hs
    obtain ⟨t, ht, hend⟩ := ih hI fun k s hk hlt => hstep k s (by omega) (by omega)
    refine ⟨t, ?_, ?_⟩
    · rw [List.range'_succ, List.foldlM_cons, hs']
      exact ht
    · rwa [Nat.add_assoc, Nat.add_comm 1 n] at hend

/-- A step for each of two states. -/
def both (step : σ → Nat → Option σ) (p : σ × σ) (k : Nat) : Option (σ × σ) := do
  return (← step p.1 k, ← step p.2 k)

/-- Two loops side by side. -/
theorem loop_both {step : σ → Nat → Option σ} {s s' t t' : σ}
    (hs : loop start stop step s = some s') (ht : loop start stop step t = some t') :
    loop start stop (both step) (s, t) = some (s', t') := by
  unfold loop at *
  generalize List.range' start (stop - start) = ks at *
  induction ks generalizing s t with
  | nil =>
    cases hs
    cases ht
    rfl
  | cons k ks ih =>
    rw [List.foldlM_cons] at hs ht ⊢
    obtain ⟨s₁, hs₁, hs⟩ := Option.bind_eq_some_iff.1 hs
    obtain ⟨t₁, ht₁, ht⟩ := Option.bind_eq_some_iff.1 ht
    rw [both, hs₁, ht₁]
    exact ih hs ht

end

/-! ### Places -/

/-- What stands in place `k` of an array, if the array goes that far. -/
def read? (d : Array Double) (k : Nat) : Option Double := d[k]?

/-- An array with `x` in place `k`, where something has to be. -/
def write? (d : Array Double) (k : Nat) (x : Double) : Option (Array Double) :=
  if h : k < d.size then some (d.set k x) else none

/-- Place `k` of row `row` written, in an array with rows of `cols` places. -/
def writeAt? (cols row : Nat) (value : Array Double → Nat → Option Double) (d : Array Double)
    (k : Nat) : Option (Array Double) := do
  write? d (row * cols + k) (← value d k)

/-- An array holds what `f` says for all rows and columns, row after row, and no more. -/
structure Holds (rows cols : Nat) (f : Nat → Nat → Double) (d : Array Double) : Prop where
  size : d.size = rows * cols
  read : ∀ {r c}, r < rows → c < cols → read? d (r * cols + c) = some (f r c)

end InPlace

open InPlace

variable {m n : Matrix}

theorem WellFormed.holds (h : m.WellFormed) : Holds m.rows m.cols m.entry m.data :=
  ⟨h, h.entryAt?_eq⟩

namespace InPlace

variable {rows cols size : Nat} {f g : Nat → Nat → Double} {d d' : Array Double}

theorem offset_inj {r c r' c' : Nat} (hc : c < cols) (hc' : c' < cols)
    (h : r * cols + c = r' * cols + c') : r = r' ∧ c = c' := by
  have hdiv := congrArg (· / cols) h
  have hmod := congrArg (· % cols) h
  simp only [Nat.mul_comm _ cols, Nat.mul_add_div (Nat.zero_lt_of_lt hc), Nat.mul_add_mod,
    Nat.div_eq_of_lt, Nat.mod_eq_of_lt, hc, hc', Nat.add_zero] at hdiv hmod
  exact ⟨hdiv, hmod⟩

theorem holds_ofFn (rows cols : Nat) (f : Nat → Nat → Double) :
    Holds rows cols f (ofFn rows cols f).data := by
  have h := (ofFn_wellFormed rows cols f).holds
  exact ⟨h.size, fun hr hc => (h.read hr hc).trans (congrArg some (entry_ofFn f hr hc))⟩

namespace Holds

theorem congr (h : Holds rows cols f d) (hfg : ∀ r c, r < rows → c < cols → g r c = f r c) :
    Holds rows cols g d :=
  ⟨h.size, fun hr hc => (h.read hr hc).trans (congrArg some (hfg _ _ hr hc).symm)⟩

/-- An array is all that it holds. -/
theorem unique (h : Holds rows cols f d) (h' : Holds rows cols f d') : d = d' := by
  refine Array.ext_getElem? fun k => ?_
  by_cases hk : k < rows * cols
  · have hcols : 0 < cols := Nat.pos_of_ne_zero fun h0 => by simp [h0] at hk
    have hr : k / cols < rows := Nat.div_lt_of_lt_mul (Nat.mul_comm rows cols ▸ hk)
    have hread := (h.read hr (Nat.mod_lt k hcols)).trans (h'.read hr (Nat.mod_lt k hcols)).symm
    rwa [Nat.div_add_mod'] at hread
  · rw [Array.getElem?_eq_none (h.size ▸ Nat.le_of_not_lt hk),
      Array.getElem?_eq_none (h'.size ▸ Nat.le_of_not_lt hk)]

theorem eq_ofFn (h : Holds rows cols f d) : d = (ofFn rows cols f).data :=
  h.unique (holds_ofFn rows cols f)

/-- One place can be written, and all others stay as they are. -/
theorem write (h : Holds rows cols f d) {r c : Nat} (hr : r < rows) (hc : c < cols) {x : Double}
    (hx : g r c = x)
    (hg : ∀ i j, i < rows → j < cols → ¬ (i = r ∧ j = c) → g i j = f i j) :
    ∃ d', write? d (r * cols + c) x = some d' ∧ Holds rows cols g d' := by
  have hk : r * cols + c < d.size := h.size ▸ offset_lt hr hc
  refine ⟨d.set (r * cols + c) x, dif_pos hk, (Array.size_set hk).trans h.size, ?_⟩
  intro i j hi hj
  rw [read?, Array.getElem?_set]
  -- Places are equal only if their rows and columns are.
  split
  · obtain ⟨rfl, rfl⟩ := offset_inj hc hj (by assumption)
    rw [hx]
  · refine (h.read hi hj).trans (congrArg some (hg i j hi hj ?_).symm)
    rintro ⟨rfl, rfl⟩
    contradiction

/-- A row can be written with values that are there as long as it is not written any further. -/
theorem row (h : Holds rows cols f d) {r start : Nat} (hr : r < rows) (hs : start ≤ cols)
    (value : Array Double → Nat → Option Double) {v : Nat → Double}
    (hv : ∀ k d, start ≤ k → k < cols →
      Holds rows cols (fun i j => if i = r ∧ start ≤ j ∧ j < k then v j else f i j) d →
      value d k = some (v k)) :
    ∃ d', loop start cols (writeAt? cols r value) d = some d' ∧
      Holds rows cols (fun i j => if i = r ∧ start ≤ j then v j else f i j) d' := by
  obtain ⟨d', hd', hend⟩ := exists_loop (writeAt? cols r value) (fun k d =>
      Holds rows cols (fun i j => if i = r ∧ start ≤ j ∧ j < k then v j else f i j) d) hs
    (h.congr fun i j _ _ => if_neg (by omega)) fun k d hk hlt hd => by
      rw [writeAt?, hv k d hk hlt hd]
      refine hd.write hr hlt (by simp [hk]) fun i j _ _ hne => ?_
      have hiff : i = r ∧ start ≤ j ∧ j < k + 1 ↔ i = r ∧ start ≤ j ∧ j < k := by omega
      simp only [hiff]
  refine ⟨d', hd', hend.congr fun i j _ hj => ?_⟩
  have hiff : i = r ∧ start ≤ j ∧ j < cols ↔ i = r ∧ start ≤ j := by omega
  simp only [hiff]

end Holds

/-! ### Filling -/

/-- The identity matrix: ones put on the diagonal of zeros. -/
def identity? (size : Nat) : Option (Array Double) :=
  loop 0 size (fun d i => write? d (i * size + i) 1.0) (zeros size size).data

theorem identity?_eq (size : Nat) : identity? size = some (identity size).data := by
  obtain ⟨d, hd, hend⟩ := exists_loop (fun d i => write? d (i * size + i) 1.0)
    (fun k d => Holds size size (fun r c => if r = c ∧ r < k then 1.0 else 0.0) d)
    (Nat.zero_le size)
    ((holds_ofFn size size fun _ _ => 0.0).congr fun r c _ _ => if_neg (by omega))
    fun k d _ hlt hd => by
      refine hd.write hlt hlt (by simp) fun i j _ _ hne => ?_
      have hiff : i = j ∧ i < k + 1 ↔ i = j ∧ i < k := by omega
      simp only [hiff]
  have hfull : Holds size size (fun r c => if r = c then 1.0 else 0.0) d :=
    hend.congr fun r c hr _ => by simp [hr]
  rw [identity?, zeros, hd, hfull.eq_ofFn]
  rfl

/-- What stands in row `r` and column `c` of `m` put into column `r` and row `c`. -/
def turnAt? (m : Matrix) (r : Nat) (d : Array Double) (c : Nat) : Option (Array Double) := do
  write? d (c * m.rows + r) (← read? m.data (r * m.cols + c))

/-- Rows and columns exchanged: the rows are put one after the other into columns of zeros. -/
def transpose? (m : Matrix) : Option Matrix := do
  let data ← loop 0 m.rows (fun d r => loop 0 m.cols (turnAt? m r) d) (zeros m.cols m.rows).data
  return ⟨m.cols, m.rows, data⟩

/-- The next row is put into the next column. -/
theorem Holds.turn (h : m.WellFormed) {r : Nat} (hr : r < m.rows)
    (hd : Holds m.cols m.rows (fun i j => if j < r then m.entry j i else 0.0) d) :
    ∃ d', loop 0 m.cols (turnAt? m r) d = some d' ∧
      Holds m.cols m.rows (fun i j => if j < r + 1 then m.entry j i else 0.0) d' := by
  obtain ⟨d', hd', hend⟩ := exists_loop (turnAt? m r) (fun c d =>
      Holds m.cols m.rows (fun i j => if j < r ∨ j = r ∧ i < c then m.entry j i else 0.0) d)
    (Nat.zero_le m.cols) (hd.congr fun i j _ _ => by simp)
    fun c d _ hlt hd => by
      rw [turnAt?, h.holds.read hr hlt]
      refine hd.write hlt hr (by simp) fun i j _ _ hne => ?_
      have hiff : j < r ∨ j = r ∧ i < c + 1 ↔ j < r ∨ j = r ∧ i < c := by omega
      simp only [hiff]
  refine ⟨d', hd', hend.congr fun i j hi _ => ?_⟩
  have hiff : j < r ∨ j = r ∧ i < m.cols ↔ j < r + 1 := by omega
  simp only [hiff]

theorem transpose?_eq (h : m.WellFormed) : transpose? m = some m.transpose := by
  obtain ⟨d, hd, hend⟩ := exists_loop (fun d r => loop 0 m.cols (turnAt? m r) d) (fun r d =>
      Holds m.cols m.rows (fun i j => if j < r then m.entry j i else 0.0) d)
    (Nat.zero_le m.rows) ((holds_ofFn m.cols m.rows fun _ _ => 0.0).congr fun i j _ _ => by simp)
    fun r d _ hr hd => hd.turn h hr
  have hfull : Holds m.cols m.rows (fun i j => m.entry j i) d :=
    hend.congr fun i j _ hj => by simp [hj]
  rw [transpose?, zeros, hd, hfull.eq_ofFn]
  rfl

/-- An entry of a product. -/
def cell (a b : Matrix) (r c : Nat) : Double :=
  sum ((List.range a.cols).map fun k => a.entry r k * b.entry k c)

/-- An entry of a product, if the entries from which it is computed are there. -/
def cell? (a b : Matrix) (r c : Nat) : Option Double := do
  let terms ← (List.range a.cols).mapM fun k => do
    return (← read? a.data (r * a.cols + k)) * (← read? b.data (k * b.cols + c))
  return sum terms

/-- The product of matrices that fit, put row by row into zeros. -/
def product? (a b : Matrix) : Option Matrix := do
  let data ← loop 0 a.rows
    (fun d r => loop 0 b.cols (writeAt? b.cols r fun _ c => cell? a b r c) d)
    (zeros a.rows b.cols).data
  return ⟨a.rows, b.cols, data⟩

/-- The product of two matrices. -/
def multiply? (a b : Matrix) : Checked Matrix :=
  if a.cols = b.rows then product? a b else throw (.shapeMismatch .mul a.shape b.shape)

theorem cell?_eq (hm : m.WellFormed) (hn : n.WellFormed) (hfit : m.cols = n.rows) {r c : Nat}
    (hr : r < m.rows) (hc : c < n.cols) :
    cell? m n r c = some (cell m n r c) := by
  rw [cell?, mapM_eq_some_map (g := fun k => m.entry r k * n.entry k c)]
  · rfl
  · intro k hk
    have hk := List.mem_range.1 hk
    rw [hm.holds.read hr hk, hn.holds.read (hfit ▸ hk) hc]
    rfl

theorem product?_eq (hm : m.WellFormed) (hn : n.WellFormed) (hfit : m.cols = n.rows) :
    product? m n = some (m.product n) := by
  obtain ⟨d, hd, hend⟩ := exists_loop
    (fun d r => loop 0 n.cols (writeAt? n.cols r fun _ c => cell? m n r c) d)
    (fun r d => Holds m.rows n.cols (fun i j => if i < r then cell m n i j else 0.0) d)
    (Nat.zero_le m.rows) ((holds_ofFn m.rows n.cols fun _ _ => 0.0).congr fun i j _ _ => by simp)
    fun r d _ hr hd => by
      obtain ⟨d', hd', hrow⟩ := hd.row (v := cell m n r) hr (Nat.zero_le n.cols)
        (fun _ c => cell? m n r c) fun c d _ hc _ => cell?_eq hm hn hfit hr hc
      exact ⟨d', hd', hrow.congr fun i j _ _ => by grind⟩
  have hfull : Holds m.rows n.cols (cell m n) d := hend.congr fun i j hi _ => by simp [hi]
  rw [product?, zeros, hd, hfull.eq_ofFn]
  rfl

theorem multiply?_agrees (hm : m.WellFormed) (hn : n.WellFormed) :
    Agrees (multiply? m n) (m.multiply n) :=
  .ite (fun hfit => .ofSome (product?_eq hm hn hfit)) fun _ => .error _

/-! ### Elimination -/

/-- What stands in two places exchanged. -/
def swap? (d : Array Double) (i j : Nat) : Option (Array Double) := do
  let x ← read? d i
  let y ← read? d j
  write? (← write? d i y) j x

/-- Rows `a` and `b` exchanged, place by place. -/
def swapRows? (width a b : Nat) (d : Array Double) : Option (Array Double) :=
  if a = b then some d
  else loop 0 width (fun d k => swap? d (a * width + k) (b * width + k)) d

/-- What stands in place `k` of row `row`, divided by `x`. -/
def quotient? (size row : Nat) (x : Double) (d : Array Double) (k : Nat) : Option Double := do
  return (← read? d (row * size + k)) / x

/-- What stands in place `k` of row `row`, less `x` times what stands there in row `col`. -/
def difference? (size row col : Nat) (x : Double) (d : Array Double) (k : Nat) : Option Double := do
  return (← read? d (row * size + k)) - x * (← read? d (col * size + k))

section

variable {a b row col start : Nat}

theorem Holds.swap (h : Holds rows cols f d) (ha : a < rows) (hb : b < rows) (hne : a ≠ b)
    {k : Nat} (hk : k < cols) :
    ∃ d', swap? d (a * cols + k) (b * cols + k) = some d' ∧
      Holds rows cols (fun i j =>
        if j = k then f (if i = a then b else if i = b then a else i) j else f i j) d' := by
  obtain ⟨d₁, hd₁, h₁⟩ := h.write (g := fun i j => if i = a ∧ j = k then f b k else f i j) ha hk
    (if_pos ⟨rfl, rfl⟩) fun i j _ _ hij => if_neg hij
  obtain ⟨d₂, hd₂, h₂⟩ := h₁.write (x := f a k) (g := fun i j =>
      if j = k then f (if i = a then b else if i = b then a else i) j else f i j) hb hk
    (by simp [hne.symm]) fun i j _ _ hij => by grind
  refine ⟨d₂, ?_, h₂⟩
  rw [swap?, h.read ha hk, h.read hb hk]
  simp only [Option.bind_eq_bind, Option.bind_some, hd₁, hd₂]

theorem swapRows_self (h : m.WellFormed) (a : Nat) : m.swapRows a a = m := by
  have hsame : Holds m.rows m.cols
      (fun r c => m.entry (if r = a then a else if r = a then a else r) c) m.data :=
    h.holds.congr fun r c _ _ => by grind
  rw [swapRows, ofFn, Matrix.mk.injEq]
  exact ⟨rfl, rfl, hsame.eq_ofFn.symm⟩

theorem swapRows?_eq (h : m.WellFormed) (ha : a < m.rows) (hb : b < m.rows) :
    swapRows? m.cols a b m.data = some (m.swapRows a b).data := by
  unfold swapRows?
  split
  · subst b
    rw [swapRows_self h]
  · obtain ⟨d, hd, hend⟩ := exists_loop (fun d k => swap? d (a * m.cols + k) (b * m.cols + k))
      (fun k d => Holds m.rows m.cols (fun i j =>
        if j < k then m.entry (if i = a then b else if i = b then a else i) j else m.entry i j) d)
      (Nat.zero_le m.cols) (h.holds.congr fun i j _ _ => by simp) fun k d _ hk hd => by
        obtain ⟨d', hd', hswap⟩ := hd.swap ha hb (by assumption) hk
        exact ⟨d', hd', hswap.congr fun i j _ _ => by grind⟩
    have hfull : Holds m.rows m.cols
        (fun i j => m.entry (if i = a then b else if i = b then a else i) j) d :=
      hend.congr fun i j _ hj => by simp [hj]
    rw [hd, hfull.eq_ofFn]
    rfl

/-- A multiple of one row is taken from another, from a column on. -/
theorem Holds.subtract (h : Holds size size f d) (hrow : row < size) (hcol : col < size)
    (hne : row ≠ col) (hs : start ≤ size) (x : Double) :
    ∃ d', loop start size (writeAt? size row (difference? size row col x)) d = some d' ∧
      Holds size size
        (fun i j => if i = row ∧ start ≤ j then f i j - x * f col j else f i j) d' := by
  obtain ⟨d', hd', hend⟩ := h.row (v := fun k => f row k - x * f col k) hrow hs
    (difference? size row col x) fun k d _ hk hd => by
      rw [difference?, hd.read hrow hk, hd.read hcol hk, if_neg (by omega),
        if_neg fun h => hne h.1.symm]
      rfl
  exact ⟨d', hd', hend.congr fun i j _ _ => by grind⟩

theorem Holds.divide (h : Holds size size f d) (hrow : row < size) (x : Double) :
    ∃ d', loop 0 size (writeAt? size row (quotient? size row x)) d = some d' ∧
      Holds size size (fun i j => if i = row then f i j / x else f i j) d' := by
  obtain ⟨d', hd', hend⟩ := h.row (v := fun k => f row k / x) hrow (Nat.zero_le size)
    (quotient? size row x) fun k d _ hk hd => by
      rw [quotient?, hd.read hrow hk, if_neg (by omega)]
      rfl
  exact ⟨d', hd', hend.congr fun i j _ _ => by grind⟩

end

/-! ### Determinants -/

/-- Column `col` cleared in row `row`, from that column on. -/
def reduceRow? (size col : Nat) (diagonal : Double) (d : Array Double) (row : Nat) :
    Option (Array Double) := do
  let x ← read? d (row * size + col)
  loop col size (writeAt? size row (difference? size row col (x / diagonal))) d

/-- Elimination from column `col` on, for `left` columns, of what stands in `d`. -/
def eliminate? (size : Nat) (d : Array Double) (det : Double) : Nat → Nat → Option Double
  | 0, _ => some det
  | left + 1, col => do
    let p ← Matrix.pivot? ⟨size, size, d⟩ col
    if (← read? d (p * size + col)).abs < singularBound then return 0.0
    let d ← swapRows? size p col d
    let det := if p = col then det else -det
    let diagonal ← read? d (col * size + col)
    let d ← loop (col + 1) size (reduceRow? size col diagonal) d
    eliminate? size d (det * diagonal) left (col + 1)

/-- The determinant. -/
def determinant? (m : Matrix) : Checked Double := do
  m.requireSquare
  eliminate? m.rows m.data 1.0 m.rows 0

section

variable {col : Nat}

theorem squared_holds (h : m.Squared size) : Holds size size m.entry m.data := by
  obtain ⟨hm, rfl, hcols⟩ := h
  have hd := hm.holds
  rwa [hcols] at hd

theorem pivot?_eq (h : m.Squared size) (hcol : col < size) :
    Matrix.pivot? ⟨size, size, m.data⟩ col = some (m.pivot col) ∧ m.pivot col < size := by
  obtain ⟨hm, rfl, hcols⟩ := h
  have heta : (⟨m.rows, m.rows, m.data⟩ : Matrix) = ⟨m.rows, m.cols, m.data⟩ := by rw [hcols]
  rw [heta]
  exact hm.pivot?_eq hcol (hcols ▸ hcol)

theorem swapRows?_squared (h : m.Squared size) {a b : Nat} (ha : a < size) (hb : b < size) :
    swapRows? size a b m.data = some (m.swapRows a b).data :=
  h.cols ▸ swapRows?_eq h.wellFormed (h.rows ▸ ha) (h.rows ▸ hb)

/-- Nothing is exchanged if the pivot stands on the diagonal. -/
theorem raised_eq_swapRows (h : m.WellFormed) (a b : Nat) :
    (if a = b then m else m.swapRows a b) = m.swapRows a b := by
  split
  · subst b
    exact (swapRows_self h a).symm
  · rfl

/-- Whatever is given for the rows and columns of a square is a square of its size. -/
theorem squared_ofFn (h : m.Squared size) (f : Nat → Nat → Double) :
    (ofFn m.rows m.cols f).Squared size := ⟨ofFn_wellFormed _ _ _, h.rows, h.cols⟩

/-- The rows below the diagonal are cleared one after the other, and each needs only itself as it
was and the row of the pivot. -/
theorem clearBelow?_eq (h : m.Squared size) (hcol : col < size) :
    loop (col + 1) size (reduceRow? size col (m.entry col col)) m.data =
      some (m.clearBelow col).data := by
  obtain ⟨d, hd, hend⟩ := exists_loop (reduceRow? size col (m.entry col col))
    (fun row d => Holds size size (fun i j =>
      if col < i ∧ i < row ∧ col ≤ j then
        m.entry i j - m.entry i col / m.entry col col * m.entry col j
      else m.entry i j) d)
    (show col + 1 ≤ size by omega) ((squared_holds h).congr fun i j _ _ => if_neg (by omega))
    fun row d hrow hlt hd => by
      -- The row of the pivot stands above all that are cleared, and is as it was.
      obtain ⟨d', hd', hsub⟩ := hd.subtract hlt hcol (by omega) (Nat.le_of_lt hcol)
        (m.entry row col / m.entry col col)
      rw [reduceRow?, hd.read hlt hcol, if_neg (by omega)]
      exact ⟨d', hd', hsub.congr fun i j _ _ => by grind⟩
  have hfull : Holds size size (fun i j => if col < i ∧ col ≤ j then
      m.entry i j - m.entry i col / m.entry col col * m.entry col j else m.entry i j) d :=
    hend.congr fun i j hi _ => by simp [hi]
  rw [hd, hfull.eq_ofFn, clearBelow, h.rows, h.cols]

theorem eliminate?_eq (h : m.Squared size) {left : Nat} (hleft : col + left = size) (det : Double) :
    eliminate? size m.data det left col = some (m.eliminate det left col) := by
  induction left generalizing m det col with
  | zero => rfl
  | succ left ih =>
    have hr : col < size := by omega
    have hd := squared_holds h
    obtain ⟨hp, hlt⟩ := pivot?_eq h hr
    rw [eliminate?, Matrix.eliminate, hp]
    simp only [Option.bind_eq_bind, Option.bind_some, hd.read hlt hr]
    split
    · rfl
    · have hwork : (m.swapRows (m.pivot col) col).Squared size := squared_ofFn h _
      rw [swapRows?_squared h hlt hr, raised_eq_swapRows h.wellFormed]
      simp only [Option.bind_some, (squared_holds hwork).read hr hr, clearBelow?_eq hwork hr]
      have hcleared : ((m.swapRows (m.pivot col) col).clearBelow col).Squared size :=
        squared_ofFn hwork _
      exact ih hcleared (by omega) _

theorem squared_of_requireSquare (h : m.WellFormed) (hsq : m.requireSquare = .ok ()) :
    m.Squared m.rows := ⟨h, rfl, (rows_eq_cols_of_requireSquare hsq).symm⟩

theorem determinant?_agrees (h : m.WellFormed) : Agrees (determinant? m) m.determinant :=
  (Agrees.lift _).bind fun _ hsq =>
    .ofSome (eliminate?_eq (squared_of_requireSquare h hsq) (Nat.zero_add _) _)

end

/-! ### Inverses -/

/-- Column `col` cleared in row `row` of the first array, and as much taken from that row of the
second.  Row `col` itself is left alone. -/
def clearRow? (size col : Nat) (p : Array Double × Array Double) (row : Nat) :
    Option (Array Double × Array Double) := do
  if row = col then return p
  let x ← read? p.1 (row * size + col)
  loop 0 size (both (writeAt? size row (difference? size row col x))) p

/-- Row `row` of two arrays divided by `x`. -/
def divideRow? (size row : Nat) (x : Double) (p : Array Double × Array Double) :
    Option (Array Double × Array Double) :=
  loop 0 size (both (writeAt? size row (quotient? size row x))) p

/-- Column `col` of the first of two arrays cleared but for the diagonal. -/
def clearOthers? (size col : Nat) (p : Array Double × Array Double) :
    Option (Array Double × Array Double) :=
  loop 0 size (clearRow? size col) p

/-- Elimination of whole columns from `col` on, for `left` columns, of what stands in `work`, with
everything done to `inverse` as well. -/
def eliminateAll? (size : Nat) (work inverse : Array Double) : Nat → Nat → Checked (Array Double)
  | 0, _ => pure inverse
  | left + 1, col => do
    let p ← Matrix.pivot? ⟨size, size, work⟩ col
    let x ← read? work (p * size + col)
    if x.abs < singularBound then throw .singularMatrix
    let work ← swapRows? size p col work
    let inverse ← swapRows? size p col inverse
    let diagonal ← read? work (col * size + col)
    let divided ← divideRow? size col diagonal (work, inverse)
    let cleared ← clearOthers? size col divided
    eliminateAll? size cleared.1 cleared.2 left (col + 1)

/-- The inverse. -/
def inverse? (m : Matrix) : Checked Matrix := do
  m.requireSquare
  let start ← identity? m.rows
  let data ← eliminateAll? m.rows m.data start m.rows 0
  return ⟨m.rows, m.rows, data⟩

section

variable {col : Nat}

theorem divideRow?_eq (hm : m.Squared size) (hn : n.Squared size) (hcol : col < size) (x : Double) :
    divideRow? size col x (m.data, n.data) =
      some ((m.divideRow col x).data, (n.divideRow col x).data) := by
  obtain ⟨d, hd, hfull⟩ := (squared_holds hm).divide hcol x
  obtain ⟨e, he, hfull'⟩ := (squared_holds hn).divide hcol x
  rw [divideRow?, loop_both hd he, hfull.eq_ofFn, hfull'.eq_ofFn]
  simp only [divideRow, hm.rows, hm.cols, hn.rows, hn.cols]

/-- What stands in row `i` and column `j` of `a` when column `col` of `m` is cleared in all rows
before `row`, and as much is taken from those of `a`. -/
def clearedBefore (m a : Matrix) (col row i j : Nat) : Double :=
  if i ≠ col ∧ i < row then a.entry i j - m.entry i col * a.entry col j else a.entry i j

/-- Rows are cleared one after the other.  How much is taken from a row stands in that row itself
until then. -/
theorem exists_clearRow? {p : Array Double × Array Double} {row : Nat} (hcol : col < size)
    (hlt : row < size) (hm : Holds size size (clearedBefore m m col row) p.1)
    (hn : Holds size size (clearedBefore m n col row) p.2) :
    ∃ p', clearRow? size col p row = some p' ∧
      Holds size size (clearedBefore m m col (row + 1)) p'.1 ∧
      Holds size size (clearedBefore m n col (row + 1)) p'.2 := by
  unfold clearRow?
  split
  · refine ⟨p, rfl, hm.congr fun i j _ _ => ?_, hn.congr fun i j _ _ => ?_⟩ <;>
      grind [clearedBefore]
  · rename_i hne
    obtain ⟨d, hd, hsub⟩ := hm.subtract hlt hcol hne (Nat.zero_le size) (m.entry row col)
    obtain ⟨e, he, hsub'⟩ := hn.subtract hlt hcol hne (Nat.zero_le size) (m.entry row col)
    have hread : clearedBefore m m col row row col = m.entry row col := if_neg (by omega)
    rw [hm.read hlt hcol, hread]
    refine ⟨(d, e), loop_both hd he, hsub.congr fun i j _ _ => ?_,
        hsub'.congr fun i j _ _ => ?_⟩ <;>
      grind [clearedBefore]

theorem Holds.eq_clearOthers {a : Matrix} (ha : a.Squared size)
    (hd : Holds size size (clearedBefore m a col size) d) :
    d = (a.clearOthers col fun r => m.entry r col).data := by
  have hfull : Holds size size (fun i j =>
      if i = col then a.entry i j else a.entry i j - m.entry i col * a.entry col j) d :=
    hd.congr fun i j hi _ => by grind [clearedBefore]
  rw [hfull.eq_ofFn, clearOthers, ha.rows, ha.cols]

theorem clearOthers?_eq (hm : m.Squared size) (hn : n.Squared size) (hcol : col < size) :
    clearOthers? size col (m.data, n.data) =
      some ((m.clearOthers col fun r => m.entry r col).data,
        (n.clearOthers col fun r => m.entry r col).data) := by
  have hstart (a : Matrix) (ha : a.Squared size) :
      Holds size size (clearedBefore m a col 0) a.data :=
    (squared_holds ha).congr fun i j _ _ => if_neg (by omega)
  obtain ⟨⟨d, e⟩, hloop, hd, he⟩ := exists_loop (clearRow? size col) (fun row p =>
      Holds size size (clearedBefore m m col row) p.1 ∧
        Holds size size (clearedBefore m n col row) p.2)
    (s := (m.data, n.data)) (Nat.zero_le size)
    ⟨hstart m hm, hstart n hn⟩ fun row p _ hlt hp => exists_clearRow? hcol hlt hp.1 hp.2
  obtain rfl : d = _ := hd.eq_clearOthers hm
  obtain rfl : e = _ := he.eq_clearOthers hn
  exact hloop

/-- Elimination in place leaves in the second array what elimination gives. -/
theorem eliminateAll?_agrees (hm : m.Squared size) (hn : n.Squared size) {left : Nat}
    (hleft : col + left = size) :
    Agrees (eliminateAll? size m.data n.data left col)
      ((·.data) <$> m.eliminateAll n left col) := by
  induction left generalizing m n col with
  | zero => exact .ok _
  | succ left ih =>
    have hr : col < size := by omega
    obtain ⟨hp, hlt⟩ := pivot?_eq hm hr
    rw [eliminateAll?, Matrix.eliminateAll]
    refine .step hp (.step ((squared_holds hm).read hlt hr) ?_)
    dsimp only
    split
    · exact .error _
    · have hwork : (m.swapRows (m.pivot col) col).Squared size := squared_ofFn hm _
      have hinverse : (n.swapRows (m.pivot col) col).Squared size := squared_ofFn hn _
      refine .step (swapRows?_squared hm hlt hr) (.step (swapRows?_squared hn hlt hr) ?_)
      refine .step ((squared_holds hwork).read hr hr) ?_
      refine .step (divideRow?_eq hwork hinverse hr _) ?_
      have hwork' : ((m.swapRows (m.pivot col) col).divideRow col
          ((m.swapRows (m.pivot col) col).entry col col)).Squared size := squared_ofFn hwork _
      have hinverse' : ((n.swapRows (m.pivot col) col).divideRow col
          ((m.swapRows (m.pivot col) col).entry col col)).Squared size := squared_ofFn hinverse _
      refine .step (clearOthers?_eq hwork' hinverse' hr) ?_
      have hnext : col + 1 + left = size := by omega
      exact ih (squared_ofFn hwork' _) (squared_ofFn hinverse' _) hnext

theorem inverse?_agrees (h : m.WellFormed) : Agrees (inverse? m) m.inverse := by
  refine (Agrees.lift _).bind fun _ hsq => .step (identity?_eq m.rows) ?_
  have hm := squared_of_requireSquare h hsq
  have hall := eliminateAll?_agrees hm (squared_identity m.rows) (Nat.zero_add m.rows)
  have hdata : m.eliminateAll (Matrix.identity m.rows) m.rows 0 =
      ((·.data) <$> m.eliminateAll (Matrix.identity m.rows) m.rows 0) >>= fun data =>
        .ok ⟨m.rows, m.rows, data⟩ := by
    cases hr : m.eliminateAll (Matrix.identity m.rows) m.rows 0 with
    | error f => rfl
    | ok r =>
      have hinverse : m.inverse = .ok r := by
        rw [Matrix.inverse, hsq]
        exact hr
      obtain ⟨-, hrows, hcols⟩ := squared_inverse hinverse
      change Except.ok (⟨r.rows, r.cols, r.data⟩ : Matrix) = .ok ⟨m.rows, m.rows, r.data⟩
      rw [hrows, hcols]
  rw [hdata]
  exact hall.bind fun _ _ => .ok _

end

end InPlace

end NumericScript.Matrix
