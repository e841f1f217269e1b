import NumericScript.Proofs.Checked

/-! # Matrices, entry by entry

The operations on matrices with every look at an entry checked.  In matrices that hold as many
entries as their shape says, no entry is looked at that is not there, and what the operations give
are such matrices again.

* `Matrix.entryAt?`: an entry, if it is there.
* `Matrix.WellFormed.determinant?_agrees`, `Matrix.WellFormed.power?_agrees`: elimination and powers
  are defined.
* `Matrix.WellFormed.text?_eq`: and so is the text of a matrix. -/

namespace NumericScript

namespace Matrix

variable {m n : Matrix}

/-- What stands in row `r` and column `c`, if the data go that far. -/
def entryAt? (m : Matrix) (r c : Nat) : Option Double := m.data[r * m.cols + c]?

theorem WellFormed.offset_lt (h : m.WellFormed) {r c : Nat} (hr : r < m.rows) (hc : c < m.cols) :
    r * m.cols + c < m.data.size := by
  rw [show m.data.size = m.rows * m.cols from h]
  exact Matrix.offset_lt hr hc

theorem WellFormed.entryAt?_eq (h : m.WellFormed) {r c : Nat} (hr : r < m.rows)
    (hc : c < m.cols) : m.entryAt? r c = some (m.entry r c) := by
  have hlt := h.offset_lt hr hc
  rw [entryAt?, entry, Array.getElem?_eq_getElem hlt, Array.getD, dif_pos hlt]
  rfl

/-- The matrix with `f r c` in row `r` and column `c`, if all of that is defined. -/
def ofFn? (rows cols : Nat) (f : Nat → Nat → Option Double) : Option Matrix := do
  let data ← (List.range (rows * cols)).mapM fun k => f (k / cols) (k % cols)
  return ⟨rows, cols, data.toArray⟩

theorem ofFn?_eq {rows cols : Nat} {f : Nat → Nat → Option Double} {g : Nat → Nat → Double}
    (h : ∀ r c, r < rows → c < cols → f r c = some (g r c)) :
    ofFn? rows cols f = some (ofFn rows cols g) := by
  have hdata : (List.range (rows * cols)).mapM (fun k => f (k / cols) (k % cols)) =
      some ((List.range (rows * cols)).map fun k => g (k / cols) (k % cols)) := by
    refine mapM_eq_some_map fun k hk => ?_
    have hk := List.mem_range.1 hk
    have hcols : 0 < cols := Nat.pos_of_ne_zero fun h0 => by simp [h0] at hk
    exact h _ _ (Nat.div_lt_of_lt_mul (Nat.mul_comm rows cols ▸ hk)) (Nat.mod_lt _ hcols)
  rw [ofFn?, hdata]
  simp only [Option.pure_def, Option.bind_eq_bind, Option.bind_some, ofFn, Option.some.injEq,
    Matrix.mk.injEq, true_and]
  apply Array.ext <;> simp

/-! ### Elements -/

/-- The entry at two indices. -/
def get? (m : Matrix) (row col : Int64) : Checked Double := do
  let r ← checkedIndex row m.rows
  let c ← checkedIndex col m.cols
  m.entryAt? r c

/-- The matrix with `x` at two indices, where an entry has to be. -/
def set? (m : Matrix) (row col : Int64) (x : Double) : Checked Matrix := do
  let r ← checkedIndex row m.rows
  let c ← checkedIndex col m.cols
  let _ ← m.entryAt? r c
  return { m with data := m.data.setIfInBounds (r * m.cols + c) x }

theorem WellFormed.get?_agrees (h : m.WellFormed) (row col : Int64) :
    Agrees (m.get? row col) (m.get row col) :=
  (Agrees.lift _).bind fun _ hr => (Agrees.lift _).bind fun _ hc =>
    .ofSome (h.entryAt?_eq (checkedIndex_lt hr) (checkedIndex_lt hc))

theorem WellFormed.set?_agrees (h : m.WellFormed) (row col : Int64) (x : Double) :
    Agrees (m.set? row col x) (m.set row col x) :=
  (Agrees.lift _).bind fun _ hr => (Agrees.lift _).bind fun _ hc =>
    .step (h.entryAt?_eq (checkedIndex_lt hr) (checkedIndex_lt hc)) (.ok _)

/-! ### Arithmetic -/

/-- Rows and columns exchanged. -/
def transpose? (m : Matrix) : Option Matrix := ofFn? m.cols m.rows fun r c => m.entryAt? c r

/-- The product of matrices that fit. -/
def product? (a b : Matrix) : Option Matrix :=
  ofFn? a.rows b.cols fun r c => do
    let terms ← (List.range a.cols).mapM fun k => do
      return (← a.entryAt? r k) * (← b.entryAt? k c)
    return sum terms

/-- The product of two matrices. -/
def multiply? (a b : Matrix) : Checked Matrix :=
  if a.cols = b.rows then a.product? b else throw (.shapeMismatch .mul a.shape b.shape)

/-- The sum of the diagonal. -/
def trace? (m : Matrix) : Checked Double := do
  m.requireSquare
  let diagonal ← ((List.range m.rows).mapM fun i => m.entryAt? i i : Option (List Double))
  return sum diagonal

theorem WellFormed.transpose?_eq (h : m.WellFormed) : m.transpose? = some m.transpose :=
  ofFn?_eq fun _ _ hr hc => h.entryAt?_eq hc hr

theorem WellFormed.product?_eq (hm : m.WellFormed) (hn : n.WellFormed) (hfit : m.cols = n.rows) :
    m.product? n = some (m.product n) := by
  refine ofFn?_eq fun r c hr hc => ?_
  rw [mapM_eq_some_map (g := fun k => m.entry r k * n.entry k c)]
  · rfl
  · intro k hk
    have hk := List.mem_range.1 hk
    rw [hm.entryAt?_eq hr hk, hn.entryAt?_eq (hfit ▸ hk) hc]
    rfl

theorem WellFormed.multiply?_agrees (hm : m.WellFormed) (hn : n.WellFormed) :
    Agrees (m.multiply? n) (m.multiply n) :=
  .ite (fun hfit => .ofSome (hm.product?_eq hn hfit)) fun _ => .error _

theorem rows_eq_cols_of_requireSquare (h : m.requireSquare = .ok ()) : m.rows = m.cols := by
  unfold requireSquare at h
  split at h
  · assumption
  · cases h

theorem WellFormed.trace?_agrees (h : m.WellFormed) : Agrees m.trace? m.trace := by
  refine (Agrees.lift _).bind fun _ hsq => .step (mapM_eq_some_map fun i hi => ?_) (.ok _)
  have hi := List.mem_range.1 hi
  exact h.entryAt?_eq hi (rows_eq_cols_of_requireSquare hsq ▸ hi)

/-! ### Elimination -/

/-- The row, from `col` on, whose entry in column `col` is largest in size. -/
def pivot? (m : Matrix) (col : Nat) : Option Nat :=
  (List.range' col (m.rows - col)).foldlM
    (fun best r => do
      return if (← m.entryAt? r col).abs.orderKey < (← m.entryAt? best col).abs.orderKey then best
        else r)
    col

/-- Rows `a` and `b` exchanged. -/
def swapRows? (m : Matrix) (a b : Nat) : Option Matrix :=
  ofFn? m.rows m.cols fun r c => m.entryAt? (if r = a then b else if r = b then a else r) c

/-- Rows `p` and `col` exchanged unless they are one. -/
def raiseRow? (m : Matrix) (p col : Nat) : Option Matrix :=
  if p = col then some m else m.swapRows? p col

/-- Column `col` cleared below the diagonal. -/
def clearBelow? (m : Matrix) (col : Nat) : Option Matrix :=
  ofFn? m.rows m.cols fun r c =>
    if col < r ∧ col ≤ c then do
      return (← m.entryAt? r c) -
        (← m.entryAt? r col) / (← m.entryAt? col col) * (← m.entryAt? col c)
    else m.entryAt? r c

/-- Elimination from column `col` on, for `left` columns. -/
def eliminate? (m : Matrix) (det : Double) : Nat → Nat → Option Double
  | 0, _ => some det
  | left + 1, col => do
    let p ← m.pivot? col
    if (← m.entryAt? p col).abs < singularBound then return 0.0
    let work ← m.raiseRow? p col
    let det := if p = col then det else -det
    eliminate? (← work.clearBelow? col) (det * (← work.entryAt? col col)) left (col + 1)

/-- The determinant. -/
def determinant? (m : Matrix) : Checked Double := do
  m.requireSquare
  m.eliminate? 1.0 m.rows 0

/-- Row `row` divided by `x`. -/
def divideRow? (m : Matrix) (row : Nat) (x : Double) : Option Matrix :=
  ofFn? m.rows m.cols fun r c => do
    let y ← m.entryAt? r c
    return if r = row then y / x else y

/-- From every other row the multiple of row `row` taken that `factor` gives. -/
def clearOthers? (m : Matrix) (row : Nat) (factor : Nat → Option Double) : Option Matrix :=
  ofFn? m.rows m.cols fun r c =>
    if r = row then m.entryAt? r c
    else do return (← m.entryAt? r c) - (← factor r) * (← m.entryAt? row c)

/-- Elimination of whole columns from `col` on, for `left` columns. -/
def eliminateAll? (m inverse : Matrix) : Nat → Nat → Checked Matrix
  | 0, _ => pure inverse
  | left + 1, col => do
    let p ← m.pivot? col
    let x ← m.entryAt? p col
    if x.abs < singularBound then throw .singularMatrix
    let work ← m.swapRows? p col
    let inverse ← inverse.swapRows? p col
    let diagonal ← work.entryAt? col col
    let work ← work.divideRow? col diagonal
    let inverse ← inverse.divideRow? col diagonal
    let cleared ← work.clearOthers? col fun r => work.entryAt? r col
    let inverse ← inverse.clearOthers? col fun r => work.entryAt? r col
    eliminateAll? cleared inverse left (col + 1)

/-- The inverse. -/
def inverse? (m : Matrix) : Checked Matrix := do
  m.requireSquare
  m.eliminateAll? (identity m.rows) m.rows 0

theorem WellFormed.pivot?_eq (h : m.WellFormed) {col : Nat} (hr : col < m.rows)
    (hc : col < m.cols) : m.pivot? col = some (m.pivot col) ∧ m.pivot col < m.rows := by
  refine foldlM_eq_some_foldl (· < m.rows) hr fun best hbest r hrange => ?_
  have hrow : r < m.rows := by
    have := List.mem_range'_1.1 hrange
    omega
  rw [h.entryAt?_eq hrow hc, h.entryAt?_eq hbest hc]
  refine ⟨rfl, ?_⟩
  split
  · exact hbest
  · exact hrow

theorem WellFormed.swapRows?_eq (h : m.WellFormed) {a b : Nat} (ha : a < m.rows)
    (hb : b < m.rows) : m.swapRows? a b = some (m.swapRows a b) := by
  refine ofFn?_eq fun r c hr hc => h.entryAt?_eq ?_ hc
  split
  · exact hb
  · split
    · exact ha
    · exact hr

theorem WellFormed.exists_raiseRow? (h : m.WellFormed) {p col : Nat} (hp : p < m.rows)
    (hc : col < m.rows) : ∃ work, m.raiseRow? p col = some work ∧
      (if p = col then m else m.swapRows p col) = work ∧ work.WellFormed ∧
      work.rows = m.rows ∧ work.cols = m.cols := by
  unfold raiseRow?
  split
  · exact ⟨m, rfl, rfl, h, rfl, rfl⟩
  · exact ⟨_, h.swapRows?_eq hp hc, rfl, ofFn_wellFormed _ _ _, rfl, rfl⟩

theorem WellFormed.clearBelow?_eq (h : m.WellFormed) {col : Nat} (hr : col < m.rows)
    (hc : col < m.cols) : m.clearBelow? col = some (m.clearBelow col) := by
  refine ofFn?_eq fun r c hr' hc' => ?_
  rw [h.entryAt?_eq hr' hc', h.entryAt?_eq hr' hc, h.entryAt?_eq hr hc, h.entryAt?_eq hr hc']
  split
  · rfl
  · rfl

theorem WellFormed.divideRow?_eq (h : m.WellFormed) (row : Nat) (x : Double) :
    m.divideRow? row x = some (m.divideRow row x) := by
  refine ofFn?_eq fun r c hr hc => ?_
  rw [h.entryAt?_eq hr hc]
  split
  · rfl
  · rfl

theorem WellFormed.clearOthers?_eq (h : m.WellFormed) {row : Nat} (hrow : row < m.rows)
    {f : Nat → Option Double} {g : Nat → Double} (hf : ∀ r < m.rows, f r = some (g r)) :
    m.clearOthers? row f = some (m.clearOthers row g) := by
  refine ofFn?_eq fun r c hr hc => ?_
  rw [h.entryAt?_eq hr hc, h.entryAt?_eq hrow hc, hf r hr]
  split
  · rfl
  · rfl

/-- The entries at which elimination looks are there. -/
theorem WellFormed.eliminate?_eq (h : m.WellFormed) (hsq : m.rows = m.cols) {left col : Nat}
    (hleft : col + left = m.rows) (det : Double) :
    m.eliminate? det left col = some (m.eliminate det left col) := by
  induction left generalizing m det col with
  | zero => rfl
  | succ left ih =>
    have hr : col < m.rows := by omega
    have hc : col < m.cols := hsq ▸ hr
    obtain ⟨hp, hlt⟩ := h.pivot?_eq hr hc
    rw [eliminate?, eliminate, hp]
    simp only [Option.bind_eq_bind, Option.bind_some, h.entryAt?_eq hlt hc]
    split
    · rfl
    · obtain ⟨work, hwork, hwork', hwf, hrows, hcols⟩ := h.exists_raiseRow? hlt hr
      rw [hwork, hwork']
      simp only [Option.bind_some, hwf.clearBelow?_eq (hrows ▸ hr) (hcols ▸ hc),
        hwf.entryAt?_eq (hrows ▸ hr) (hcols ▸ hc)]
      refine ih (ofFn_wellFormed _ _ _) ?_ ?_ _
      · change work.rows = work.cols
        rw [hrows, hcols, hsq]
      · change col + 1 + left = work.rows
        omega

theorem WellFormed.determinant?_agrees (h : m.WellFormed) :
    Agrees m.determinant? m.determinant :=
  (Agrees.lift _).bind fun _ hsq =>
    .ofSome (h.eliminate?_eq (rows_eq_cols_of_requireSquare hsq) (Nat.zero_add _) _)

/-- The entries at which elimination of whole columns looks are there. -/
theorem WellFormed.eliminateAll?_agrees (h : m.WellFormed) (hn : n.WellFormed)
    (hsq : m.rows = m.cols) (hrows : n.rows = m.rows) {left col : Nat}
    (hleft : col + left = m.rows) :
    Agrees (m.eliminateAll? n left col) (m.eliminateAll n left col) := by
  induction left generalizing m n col with
  | zero => exact .ok n
  | succ left ih =>
    have hr : col < m.rows := by omega
    have hc : col < m.cols := hsq ▸ hr
    obtain ⟨hp, hlt⟩ := h.pivot?_eq hr hc
    rw [eliminateAll?, eliminateAll]
    refine .step hp (.step (h.entryAt?_eq hlt hc) ?_)
    dsimp only
    split
    · exact .error _
    · have hwork : (m.swapRows (m.pivot col) col).WellFormed := ofFn_wellFormed _ _ _
      have hinv : (n.swapRows (m.pivot col) col).WellFormed := ofFn_wellFormed _ _ _
      refine .step (h.swapRows?_eq hlt hr) (.step (hn.swapRows?_eq (hrows ▸ hlt) (hrows ▸ hr)) ?_)
      refine .step (hwork.entryAt?_eq hr hc) (.step (hwork.divideRow?_eq _ _) ?_)
      refine .step (hinv.divideRow?_eq _ _) ?_
      have hdiv : ((m.swapRows (m.pivot col) col).divideRow col
          ((m.swapRows (m.pivot col) col).entry col col)).WellFormed := ofFn_wellFormed _ _ _
      have hdivi : ((n.swapRows (m.pivot col) col).divideRow col
          ((m.swapRows (m.pivot col) col).entry col col)).WellFormed := ofFn_wellFormed _ _ _
      refine .step (hdiv.clearOthers?_eq hr fun r hr' => hdiv.entryAt?_eq hr' hc)
        (.step (hdivi.clearOthers?_eq (hrows ▸ hr) fun r hr' =>
          hdiv.entryAt?_eq (hrows ▸ hr') hc) ?_)
      refine ih (ofFn_wellFormed _ _ _) (ofFn_wellFormed _ _ _) hsq hrows ?_
      change col + 1 + left = m.rows
      omega

theorem WellFormed.inverse?_agrees (h : m.WellFormed) : Agrees m.inverse? m.inverse :=
  (Agrees.lift _).bind fun _ hsq => h.eliminateAll?_agrees (ofFn_wellFormed _ _ _)
    (rows_eq_cols_of_requireSquare hsq) rfl (Nat.zero_add _)

/-! ### Powers -/

/-- The product so far, with `base` as one factor more if `n` is odd. -/
def accumulate (acc : Option Matrix) (base : Matrix) (n : Nat) : Option Matrix :=
  if n % 2 = 1 then
    match acc with
    | some a => some (a.product base)
    | none => some base
  else acc

theorem powerFrom_eq (acc : Option Matrix) (base : Matrix) (n : Nat) :
    powerFrom acc base n =
      if n / 2 = 0 then accumulate acc base n
      else powerFrom (accumulate acc base n) (base.product base) (n / 2) := by
  rw [powerFrom.eq_def]
  rfl

/-- The product so far, with `base` as one factor more if `n` is odd. -/
def accumulate? (acc : Option Matrix) (base : Matrix) (n : Nat) : Option (Option Matrix) :=
  if n % 2 = 1 then
    match acc with
    | some a => some <$> a.product? base
    | none => some (some base)
  else some acc

/-- The product of `acc` and `base ^ n` by repeated squaring. -/
def powerFrom? (acc : Option Matrix) (base : Matrix) (n : Nat) : Option (Option Matrix) := do
  let acc ← accumulate? acc base n
  if _h : n / 2 = 0 then return acc
  let base ← base.product? base
  powerFrom? acc base (n / 2)
termination_by n
decreasing_by omega

/-- An integer power. -/
def power? (m : Matrix) (exponent : Int64) : Checked Matrix := do
  m.requireSquare
  if exponent.toInt = 0 then return identity m.rows
  else
    let base ← if exponent.toInt < 0 then m.inverse? else pure m
    let power ← powerFrom? none base exponent.toInt.natAbs
    return power.getD (identity m.rows)

/-- A matrix that holds as many entries as a square of a given size. -/
structure Squared (size : Nat) (m : Matrix) : Prop where
  wellFormed : m.WellFormed
  rows : m.rows = size
  cols : m.cols = size

variable {size : Nat}

theorem Squared.product (hm : m.Squared size) (hn : n.Squared size) :
    (m.product n).Squared size :=
  ⟨ofFn_wellFormed _ _ _, hm.rows, hn.cols⟩

theorem Squared.product?_eq (hm : m.Squared size) (hn : n.Squared size) :
    m.product? n = some (m.product n) :=
  hm.wellFormed.product?_eq hn.wellFormed (hm.cols.trans hn.rows.symm)

theorem squared_identity (size : Nat) : (identity size).Squared size :=
  ⟨ofFn_wellFormed _ _ _, rfl, rfl⟩

theorem Squared.accumulate?_eq (hm : m.Squared size) (k : Nat) {acc : Option Matrix}
    (hacc : ∀ a, acc = some a → a.Squared size) :
    accumulate? acc m k = some (accumulate acc m k) ∧
      ∀ a, accumulate acc m k = some a → a.Squared size := by
  unfold accumulate? accumulate
  split
  · cases acc with
    | some a =>
      have ha := hacc a rfl
      dsimp only
      rw [ha.product?_eq hm]
      refine ⟨rfl, ?_⟩
      rintro _ ⟨⟩
      exact ha.product hm
    | none =>
      refine ⟨rfl, ?_⟩
      rintro _ ⟨⟩
      exact hm
  · exact ⟨rfl, hacc⟩

/-- The products on the way to a power are defined, and the power is a square. -/
theorem Squared.powerFrom?_eq (hm : m.Squared size) (k : Nat) {acc : Option Matrix}
    (hacc : ∀ a, acc = some a → a.Squared size) :
    powerFrom? acc m k = some (powerFrom acc m k) ∧
      ∀ a, powerFrom acc m k = some a → a.Squared size := by
  induction k using Nat.strongRecOn generalizing m acc with
  | ind k ih =>
    obtain ⟨hstep, hacc'⟩ := hm.accumulate?_eq k hacc
    rw [powerFrom?, powerFrom_eq, hstep]
    dsimp only [bind, Option.bind]
    split
    · exact ⟨rfl, hacc'⟩
    · rw [hm.product?_eq hm]
      exact ih _ (by omega) (hm.product hm) hacc'

theorem wellFormed_eliminateAll {left col : Nat} {r : Matrix} (hn : n.WellFormed)
    (h : m.eliminateAll n left col = .ok r) : r.WellFormed := by
  induction left generalizing m n col with
  | zero =>
    cases h
    exact hn
  | succ left ih =>
    unfold eliminateAll at h
    dsimp only at h
    split at h
    · cases h
    · exact ih (ofFn_wellFormed _ _ _) h

theorem squared_inverse {r : Matrix} (h : m.inverse = .ok r) : r.Squared m.rows := by
  obtain ⟨-, -, h⟩ := Machine.bind_eq_ok.1 h
  have hext := Outcome.extents_eliminateAll h
  exact ⟨wellFormed_eliminateAll (ofFn_wellFormed _ _ _) h, congrArg Prod.fst hext,
    congrArg Prod.snd hext⟩

theorem WellFormed.power?_agrees (h : m.WellFormed) (k : Int64) :
    Agrees (m.power? k) (m.power k) := by
  have hpower : ∀ base : Matrix, base.Squared m.rows →
      Agrees (do
        let power ← powerFrom? none base k.toInt.natAbs
        return power.getD (identity m.rows))
      (.ok ((powerFrom none base k.toInt.natAbs).getD (identity m.rows))) :=
    fun base hbase => .step (hbase.powerFrom?_eq _ (by simp)).1 (.ok _)
  refine (Agrees.lift _).bind fun _ hsq => .ite (fun _ => .ok _) fun _ =>
    .ite (fun _ => ?_) fun _ => ?_
  · exact h.inverse?_agrees.bind fun base hb => hpower base (squared_inverse hb)
  · exact hpower m ⟨h, rfl, (rows_eq_cols_of_requireSquare hsq).symm⟩

/-! ### Text -/

/-- The entries from one place of the data up to another, if the data go that far. -/
def slice? (m : Matrix) (start stop : Nat) : Option (List Double) :=
  if start ≤ stop ∧ stop ≤ m.data.size then
    some ((m.data.toList.drop start).take (stop - start))
  else none

/-- One row between brackets. -/
def rowText? (m : Matrix) (r : Nat) : Option String := do
  let row ← m.slice? (r * m.cols) ((r + 1) * m.cols)
  return "[" ++ ", ".intercalate (row.map Decimal.valueText) ++ "]"

/-- A matrix as the language shows it. -/
def text? (m : Matrix) : Option String := do
  let rows ← (List.range m.rows).mapM m.rowText?
  return "[" ++ ", ".intercalate rows ++ "]"

theorem WellFormed.slice?_eq (h : m.WellFormed) {r : Nat} (hr : r < m.rows) :
    m.slice? (r * m.cols) ((r + 1) * m.cols) = some ((List.range m.cols).map (m.entry r)) := by
  have hstop : (r + 1) * m.cols ≤ m.data.size := by
    rw [show m.data.size = m.rows * m.cols from h]
    exact Nat.mul_le_mul_right _ hr
  have hlen : (r + 1) * m.cols - r * m.cols = m.cols := by
    rw [Nat.succ_mul, Nat.add_sub_cancel_left]
  rw [slice?, if_pos ⟨Nat.mul_le_mul_right _ (Nat.le_succ r), hstop⟩, hlen]
  refine congrArg some (List.ext_getElem ?_ fun c hc _ => ?_)
  · rw [Nat.succ_mul] at hstop
    simp only [List.length_take, List.length_drop, Array.length_toList, List.length_map,
      List.length_range]
    omega
  · have hc : c < m.cols := by
      have := List.length_take_le m.cols (m.data.toList.drop (r * m.cols))
      omega
    have hlt := h.offset_lt hr hc
    simp [entry, Array.getD, hlt]

theorem WellFormed.text?_eq (h : m.WellFormed) : m.text? = some m.text := by
  rw [text?, mapM_eq_some_map (g := m.rowText)]
  · rfl
  · intro r hr
    rw [rowText?, h.slice?_eq (List.mem_range.1 hr), rowText]
    simp [Function.comp_def]

end Matrix

end NumericScript
