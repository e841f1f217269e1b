import NumericScript.Proofs.Checked.Operation
import NumericScript.Proofs.Checked.InPlace

/-! # Elements

Arrays and matrices obey the laws of arrays.  What is put in a place is found there, and everywhere
else is found what was there before; a store that fails changes nothing.  In a matrix that rests on
the offsets: different rows and columns never come to the same place of the data.  Exchanging rows
and columns reads with one stride and writes with another, and done twice it is undone.

* `Matrix.entry_put`: an entry after one of them has been written.
* `Matrix.transpose_transpose`: rows and columns exchanged twice.
* `Amending.store_settles`: stores that change a container where it stands.
* `Value.StoreLaws`, `Value.element_laws`: the laws of elements. -/

namespace NumericScript

/-! ### Indices -/

/-- An index of a container of `length` elements. -/
def InRange (index : Int64) (length : Nat) : Prop := 0 ≤ index.toInt ∧ index.toInt < length

instance (index : Int64) (length : Nat) : Decidable (InRange index length) :=
  inferInstanceAs (Decidable (_ ∧ _))

section

variable {i j : Int64} {length : Nat}

/-- What follows an index is done with a position, or the index is at fault. -/
theorem checkedIndex_bind {α : Type} (k : Nat → Except Fault α) :
    checkedIndex i length >>= k =
      if InRange i length then k i.toInt.toNat else .error (.indexOutOfBounds i length) := by
  change (if InRange i length then Except.ok i.toInt.toNat else .error _) >>= k = _
  split
  · rfl
  · rfl

theorem InRange.toNat_lt (h : InRange i length) : i.toInt.toNat < length := by
  obtain ⟨hpos, hlt⟩ := h
  omega

theorem InRange.toNat_inj (hi : InRange i length) (hj : InRange j length) :
    i.toInt.toNat = j.toInt.toNat ↔ i = j := by
  obtain ⟨hi, -⟩ := hi
  obtain ⟨hj, -⟩ := hj
  rw [← Int64.toInt_inj]
  omega

end

/-! ### Entries of matrices -/

namespace Matrix

variable {m : Matrix} {row col row' col' : Int64}

/-- The matrix with `x` in row `r` and column `c`. -/
def put (m : Matrix) (r c : Nat) (x : Double) : Matrix :=
  { m with data := m.data.setIfInBounds (r * m.cols + c) x }

/-- Only the entry that is written changes, because no other stands in its place. -/
theorem entry_put (h : m.WellFormed) {r c c' : Nat} (hr : r < m.rows) (hc : c < m.cols)
    (x : Double) (r' : Nat) (hc' : c' < m.cols) :
    (m.put r c x).entry r' c' = if r' = r ∧ c' = c then x else m.entry r' c' := by
  have hlt := h.offset_lt hr hc
  have hplace : r * m.cols + c = r' * m.cols + c' ↔ r' = r ∧ c' = c := by
    constructor
    · intro he
      obtain ⟨rfl, rfl⟩ := InPlace.offset_inj hc hc' he
      exact ⟨rfl, rfl⟩
    · rintro ⟨rfl, rfl⟩
      rfl
  unfold entry put
  simp only [Array.getD_eq_getD_getElem?, Array.getElem?_setIfInBounds, hplace, hlt, if_true]
  split
  · rfl
  · rfl

/-- The fault of two indices that are not both in range.  The row is looked at first. -/
def outside (m : Matrix) (row col : Int64) : Fault :=
  if InRange row m.rows then .indexOutOfBounds col m.cols else .indexOutOfBounds row m.rows

theorem checkedIndices_bind {α : Type} (m : Matrix) (row col : Int64)
    (k : Nat → Nat → Except Fault α) :
    (do let r ← checkedIndex row m.rows; let c ← checkedIndex col m.cols; k r c) =
      if InRange row m.rows ∧ InRange col m.cols then k row.toInt.toNat col.toInt.toNat
      else .error (m.outside row col) := by
  simp only [checkedIndex_bind, outside, ite_and]
  split
  · rfl
  · rfl

theorem get_eq (m : Matrix) (row col : Int64) :
    m.get row col =
      if InRange row m.rows ∧ InRange col m.cols then
        .ok (m.entry row.toInt.toNat col.toInt.toNat)
      else .error (m.outside row col) := checkedIndices_bind m row col _

theorem get_eq_ok (hr : InRange row m.rows) (hc : InRange col m.cols) :
    m.get row col = .ok (m.entry row.toInt.toNat col.toInt.toNat) :=
  (get_eq m row col).trans (if_pos ⟨hr, hc⟩)

theorem set_eq (m : Matrix) (row col : Int64) (x : Double) :
    m.set row col x =
      if InRange row m.rows ∧ InRange col m.cols then
        .ok (m.put row.toInt.toNat col.toInt.toNat x)
      else .error (m.outside row col) := checkedIndices_bind m row col _

/-- A matrix after one entry has been written, read anywhere. -/
theorem get_put (h : m.WellFormed) (hr : InRange row m.rows) (hc : InRange col m.cols)
    (x : Double) :
    (m.put row.toInt.toNat col.toInt.toNat x).get row' col' =
      if row' = row ∧ col' = col then .ok x else m.get row' col' := by
  by_cases hrange : InRange row' m.rows ∧ InRange col' m.cols
  · obtain ⟨hr', hc'⟩ := hrange
    have hentry := entry_put h hr.toNat_lt hc.toNat_lt x row'.toInt.toNat hc'.toNat_lt
    simp only [hr'.toNat_inj hr, hc'.toNat_inj hc] at hentry
    rw [get_eq_ok hr' hc', get_eq_ok (m := m.put _ _ x) hr' hc', hentry]
    split
    · rfl
    · rfl
  · -- Both reads fail, and alike, because writing keeps the shape.
    have hne : ¬ (row' = row ∧ col' = col) := by
      rintro ⟨rfl, rfl⟩
      exact hrange ⟨hr, hc⟩
    rw [if_neg hne, get_eq, get_eq, if_neg hrange]
    exact if_neg hrange

/-! ### Rows and columns exchanged -/

/-- A matrix is all that its entries are. -/
theorem WellFormed.eq_ofFn (h : m.WellFormed) {f : Nat → Nat → Double}
    (hf : ∀ r c, r < m.rows → c < m.cols → f r c = m.entry r c) : m = ofFn m.rows m.cols f := by
  have hdata := (h.holds.congr hf).eq_ofFn
  cases m
  exact congrArg _ hdata

theorem entry_transpose {r c : Nat} (hr : r < m.rows) (hc : c < m.cols) :
    m.transpose.entry c r = m.entry r c := entry_ofFn _ hc hr

theorem transpose_transpose (h : m.WellFormed) : m.transpose.transpose = m :=
  (h.eq_ofFn fun _ _ hr hc => entry_transpose hr hc).symm

theorem get_transpose (hr : InRange row m.rows) (hc : InRange col m.cols) :
    m.transpose.get col row = m.get row col := by
  rw [get_eq_ok hr hc, get_eq_ok (m := m.transpose) hc hr, entry_transpose hr.toNat_lt hc.toNat_lt]

end Matrix

/-! ### Elements of containers -/

namespace Value

/-- What has elements: arrays, and matrices that hold as many entries as their shapes say. -/
inductive Container : Value → Prop
  | array (items : List Value) : Container (.array items)
  | matrix (m : Matrix) (h : m.WellFormed) : Container (.matrix m)

/-- The indices of the elements that there are: one for an array, and two for a matrix. -/
def HasElement : Value → Int64 → Option Int64 → Prop
  | array items, row, none => InRange row items.length
  | matrix m, row, some col => InRange row m.rows ∧ InRange col m.cols
  | _, _, _ => False

/-- Whether a value is a number. -/
def IsNumber : Value → Prop
  | int _ | float _ => True
  | _ => False

/-- What can be put in a container: anything in an array, and numbers in a matrix. -/
def Takes : Value → Value → Prop
  | matrix _, v => v.IsNumber
  | _, _ => True

/-- What an element is when `v` has been put there.  A matrix keeps doubles. -/
def kept : Value → Value → Value
  | matrix _, int n => float (.ofInt64 n)
  | _, v => v

/-- Containers of one kind, size and shape. -/
def SameExtents : Value → Value → Prop
  | array items, array items' => items'.length = items.length
  | matrix m, matrix m' => m'.shape = m.shape ∧ m'.data.size = m.data.size
  | _, _ => False

theorem loadIndex_array (items : List Value) (row : Int64) :
    (array items).loadIndex row none =
      if InRange row items.length then .ok (items.getD row.toInt.toNat .void)
      else .error (.indexOutOfBounds row items.length) := checkedIndex_bind _

theorem storeIndex_array (items : List Value) (row : Int64) (v : Value) :
    (array items).storeIndex row none v =
      if InRange row items.length then .ok (array (items.set row.toInt.toNat v))
      else .error (.indexOutOfBounds row items.length) := checkedIndex_bind _

theorem loadIndex_matrix (m : Matrix) (row col : Int64) :
    (matrix m).loadIndex row (some col) = float <$> m.get row col := rfl

theorem storeIndex_matrix (m : Matrix) (row col : Int64) (v : Value) :
    (matrix m).storeIndex row (some col) v =
      v.asDouble >>= fun x => matrix <$> m.set row col x := rfl

/-- Numbers are what can be made a double, and what a matrix keeps of them. -/
theorem asDouble_cases (m : Matrix) (v : Value) :
    (∃ x, v.asDouble = .ok x ∧ v.IsNumber ∧ (matrix m).kept v = float x) ∨
      ∃ f, v.asDouble = .error f ∧ ¬ v.IsNumber := by
  cases v
  case int n => exact .inl ⟨_, rfl, trivial, rfl⟩
  case float x => exact .inl ⟨_, rfl, trivial, rfl⟩
  all_goals exact .inr ⟨_, rfl, not_false⟩

/-- Just the elements that there are can be loaded. -/
theorem exists_loadIndex_iff {base : Value} {row : Int64} {col : Option Int64} :
    (∃ w, base.loadIndex row col = .ok w) ↔ base.HasElement row col := by
  cases base <;> cases col
  case array.none items =>
    rw [loadIndex_array]
    unfold HasElement
    split
    · exact iff_of_true ⟨_, rfl⟩ ‹_›
    · exact iff_of_false nofun ‹_›
  case matrix.some m col =>
    rw [loadIndex_matrix, Matrix.get_eq]
    unfold HasElement
    split
    · exact iff_of_true ⟨_, rfl⟩ ‹_›
    · exact iff_of_false nofun ‹_›
  all_goals exact iff_of_false nofun nofun

end Value

/-! ### Stores in place -/

/-- Work that changes something where it stands.  What was done before a fault is not undone, and a
step that is not defined gives nothing at all. -/
abbrev Amending (σ : Type) : Type → Type := ExceptT Fault (StateT σ Option)

namespace Amending

variable {σ τ α : Type} {s : σ}

/-- What comes of some work, and what stands there afterwards. -/
def outcome (x : Amending σ α) (s : σ) : Option (Except Fault α × σ) := x s

/-- Work on a part, of which `whole` makes what stands there. -/
def inside (whole : τ → σ) (part : τ) (x : Amending τ α) : Amending σ α :=
  ExceptT.mk fun _ => (x.outcome part).map fun p => (p.1, whole p.2)

/-- Puts `x` in the place of an entry, where something has to be. -/
def storeEntry (row col : Int64) (x : Double) : Amending Matrix Unit := do
  let m ← get
  let r ← checkedIndex row m.rows
  let c ← checkedIndex col m.cols
  let data ← Matrix.InPlace.write? m.data (r * m.cols + c) x
  set { m with data := data }

/-- Puts `value` in the place of an element, which has to be there. -/
def store (row : Int64) (col : Option Int64) (value : Value) : Amending Value Unit := do
  match ← get, col with
  | .array items, none =>
    let i ← checkedIndex row items.length
    let _ ← (items[i]? : Option Value)
    set (Value.array (items.set i value))
  | .matrix m, some c =>
    let x ← value.asDouble
    inside .matrix m (storeEntry row c x)
  | .matrix _, none => throw (.unexpectedValue .rowAndColumn .singleIndex)
  | v, _ => throw (v.unexpected .array)

/-- The work is done: what is to be there stands there, or a fault has left everything as it was. -/
def Settles (x : Amending σ Unit) (s : σ) : Except Fault σ → Prop
  | .ok t => x.outcome s = some (.ok (), t)
  | .error f => x.outcome s = some (.error f, s)

/-- Asking for something that may fault changes nothing. -/
theorem Settles.bind {y : Except Fault α} {k : α → Amending σ Unit} {g : α → Except Fault σ}
    (h : ∀ a, y = .ok a → Settles (k a) s (g a)) :
    Settles ((liftM y : Amending σ α) >>= k) s (y >>= g) := by
  cases y with
  | ok a => exact h a rfl
  | error f => rfl

theorem Settles.step {o : Option α} {a : α} {k : α → Amending σ Unit} {z : Except Fault σ}
    (ho : o = some a) (h : Settles (k a) s z) : Settles ((liftM o : Amending σ α) >>= k) s z := by
  subst ho
  exact h

theorem storeEntry_settles {m : Matrix} (h : m.WellFormed) (row col : Int64) (x : Double) :
    (storeEntry row col x).Settles m (m.set row col x) := by
  refine Settles.bind (s := m) fun r hr => .bind fun c hc => ?_
  have hlt := h.offset_lt (checkedIndex_lt hr) (checkedIndex_lt hc)
  refine Settles.step (dif_pos hlt) ?_
  rw [Array.setIfInBounds, dif_pos hlt]
  rfl

/-- Work on a part settles what the part is in. -/
theorem Settles.inside {whole : τ → σ} {part : τ} {x : Amending τ Unit} {y : Except Fault τ}
    (h : x.Settles part y) (hs : s = whole part) :
    (Amending.inside whole part x).Settles s (whole <$> y) := by
  subst hs
  cases y with
  | ok t => exact congrArg (Option.map _) h
  | error f => exact congrArg (Option.map _) h

theorem store_settles {base : Value} (h : base.Container) (row : Int64) (col : Option Int64)
    (v : Value) : (store row col v).Settles base (base.storeIndex row col v) := by
  cases h <;> cases col
  case array.none items =>
    refine Settles.bind (s := Value.array items) fun i hi => ?_
    exact .step (List.getElem?_eq_getElem (checkedIndex_lt hi)) rfl
  case matrix.some m hm col =>
    exact Settles.bind (s := Value.matrix m) fun x _ => (storeEntry_settles hm row col x).inside rfl
  all_goals rfl

end Amending

/-! ### The laws -/

namespace Value

/-- The laws of putting `v` in the place of an element of `base`. -/
structure StoreLaws (base : Value) (row : Int64) (col : Option Int64) (v : Value) : Prop where
  /-- Just the elements that there are can be stored, and in a matrix just numbers. -/
  exists_iff : (∃ stored, base.storeIndex row col v = .ok stored) ↔
    base.HasElement row col ∧ base.Takes v
  /-- The element is found where it was put. -/
  load_self : ∀ stored, base.storeIndex row col v = .ok stored →
    stored.loadIndex row col = .ok (base.kept v)
  /-- Anywhere else is found what was found there before. -/
  load_of_ne : ∀ stored, base.storeIndex row col v = .ok stored →
    ∀ row' col', ¬ (row' = row ∧ col' = col) →
      stored.loadIndex row' col' = base.loadIndex row' col'
  /-- Size and shape stay the same. -/
  sameExtents : ∀ stored, base.storeIndex row col v = .ok stored → base.SameExtents stored
  /-- Where the container stands, the new one stands after a store, and the old one after a store
  that fails. -/
  settles : (Amending.store row col v).Settles base (base.storeIndex row col v)

/-- Where nothing can be stored, there is not much to show. -/
theorem StoreLaws.of_error {base : Value} (h : base.Container) {row : Int64} {col : Option Int64}
    {v : Value} {f : Fault} (hf : base.storeIndex row col v = .error f)
    (hnot : ¬ (base.HasElement row col ∧ base.Takes v)) : base.StoreLaws row col v where
  exists_iff := iff_of_false (fun ⟨_, hs⟩ => nomatch hf.symm.trans hs) hnot
  load_self _ hs := nomatch hf.symm.trans hs
  load_of_ne _ hs := nomatch hf.symm.trans hs
  sameExtents _ hs := nomatch hf.symm.trans hs
  settles := Amending.store_settles h row col v

theorem StoreLaws.of_ok {base stored : Value} (h : base.Container) {row : Int64}
    {col : Option Int64} {v : Value} (hs : base.storeIndex row col v = .ok stored)
    (hhas : base.HasElement row col ∧ base.Takes v)
    (hload : ∀ row' col', stored.loadIndex row' col' =
      if row' = row ∧ col' = col then .ok (base.kept v) else base.loadIndex row' col')
    (hext : base.SameExtents stored) : base.StoreLaws row col v where
  exists_iff := iff_of_true ⟨_, hs⟩ hhas
  load_self _ hs' := by
    cases hs.symm.trans hs'
    exact (hload row col).trans (if_pos ⟨rfl, rfl⟩)
  load_of_ne _ hs' row' col' hne := by
    cases hs.symm.trans hs'
    exact (hload row' col').trans (if_neg hne)
  sameExtents _ hs' := by
    cases hs.symm.trans hs'
    exact hext
  settles := Amending.store_settles h row col v

/-- An array after an element has been put there, read anywhere. -/
theorem loadIndex_set {items : List Value} {row : Int64} (h : InRange row items.length) (v : Value)
    (row' : Int64) (col' : Option Int64) :
    (array (items.set row.toInt.toNat v)).loadIndex row' col' =
      if row' = row ∧ col' = none then .ok v else (array items).loadIndex row' col' := by
  cases col' with
  | some col' => rw [if_neg fun h => nomatch h.2]; rfl
  | none =>
    rw [loadIndex_array, loadIndex_array, List.length_set]
    by_cases h' : InRange row' items.length
    · have hlt := h.toNat_lt
      simp only [h', if_true, and_true, ← h'.toNat_inj h, List.getD_eq_getElem?_getD,
        List.getElem?_set, hlt, eq_comm (a := row.toInt.toNat)]
      split
      · rfl
      · rfl
    · rw [if_neg h', if_neg h', if_neg]
      rintro ⟨rfl, -⟩
      exact h' h

theorem storeLaws_array (items : List Value) (row : Int64) (v : Value) :
    (array items).StoreLaws row none v := by
  have hstore := storeIndex_array items row v
  by_cases h : InRange row items.length
  · rw [if_pos h] at hstore
    exact .of_ok (.array items) hstore ⟨h, trivial⟩ (loadIndex_set h v) List.length_set
  · rw [if_neg h] at hstore
    exact .of_error (.array items) hstore fun hhas => h hhas.1

/-- A matrix after an entry has been put there, read anywhere. -/
theorem loadIndex_put {m : Matrix} (hm : m.WellFormed) {row col : Int64}
    (hr : InRange row m.rows) (hc : InRange col m.cols) (x : Double) (row' : Int64)
    (col' : Option Int64) :
    (matrix (m.put row.toInt.toNat col.toInt.toNat x)).loadIndex row' col' =
      if row' = row ∧ col' = some col then .ok (float x)
      else (matrix m).loadIndex row' col' := by
  cases col' with
  | none => rw [if_neg fun h => nomatch h.2]; rfl
  | some col' =>
    simp only [loadIndex_matrix, Matrix.get_put hm hr hc, apply_ite (float <$> ·),
      Option.some.injEq]
    rfl

theorem storeLaws_matrix {m : Matrix} (hm : m.WellFormed) (row col : Int64) (v : Value) :
    (matrix m).StoreLaws row (some col) v := by
  have hstore := storeIndex_matrix m row col v
  obtain ⟨x, hx, hnumber, hkept⟩ | ⟨f, hf, hnumber⟩ := asDouble_cases m v
  · change _ = v.asDouble.bind _ at hstore
    rw [hx, Except.bind] at hstore
    rw [Matrix.set_eq] at hstore
    by_cases h : InRange row m.rows ∧ InRange col m.cols
    · rw [if_pos h] at hstore
      exact .of_ok (.matrix m hm) hstore ⟨h, hnumber⟩ (hkept ▸ loadIndex_put hm h.1 h.2 x)
        ⟨rfl, Array.size_setIfInBounds⟩
    · rw [if_neg h] at hstore
      exact .of_error (.matrix m hm) hstore fun hhas => h hhas.1
  · rw [hf] at hstore
    exact .of_error (.matrix m hm) hstore fun hhas => hnumber hhas.2

theorem Container.storeLaws {base : Value} (h : base.Container) (row : Int64)
    (col : Option Int64) (v : Value) : base.StoreLaws row col v := by
  cases h <;> cases col
  case array.none items => exact storeLaws_array items row v
  case matrix.some m hm col => exact storeLaws_matrix hm row col v
  case array.some items col => exact .of_error (.array items) rfl fun h => h.1
  case matrix.none m hm => exact .of_error (.matrix m hm) rfl fun h => h.1

/-- Arrays and matrices obey the laws of arrays, for all values and all indices.  Just the elements
that there are can be loaded; and a store has its effect on one element, or none.  In a matrix with
rows and columns exchanged, each entry is found under its indices exchanged; exchanging them again
gives the matrix back; and the loops by which that is done in place come to just that. -/
theorem element_laws :
    (∀ base : Value, base.Container → ∀ row col,
      ((∃ w, base.loadIndex row col = .ok w) ↔ base.HasElement row col) ∧
        ∀ v, base.StoreLaws row col v) ∧
    ∀ m : Matrix, m.WellFormed →
      (∀ row col, InRange row m.rows → InRange col m.cols →
        ∃ w, (matrix m.transpose).loadIndex col (some row) = .ok w ∧
          (matrix m).loadIndex row (some col) = .ok w) ∧
      m.transpose.transpose = m ∧ Matrix.InPlace.transpose? m = some m.transpose := by
  refine ⟨fun base h row col => ⟨exists_loadIndex_iff, h.storeLaws row col⟩, fun m h => ?_⟩
  refine ⟨fun row col hr hc => ⟨float (m.entry row.toInt.toNat col.toInt.toNat), ?_, ?_⟩,
    Matrix.transpose_transpose h, Matrix.InPlace.transpose?_eq h⟩
  · rw [loadIndex_matrix, Matrix.get_transpose hr hc, Matrix.get_eq_ok hr hc]
    rfl
  · rw [loadIndex_matrix, Matrix.get_eq_ok hr hc]
    rfl

/-- A whole number is put in the last entry of a matrix; in a matrix without rows, nothing can be
put; and elements of an array change their kind. -/
theorem element_laws_corner :
    (matrix (.zeros 2 3)).Container ∧ (Matrix.zeros 0 3).WellFormed ∧
    (∃ stored, (matrix (.zeros 2 3)).storeIndex 1 (some 2) (int 7) = .ok stored ∧
      stored.loadIndex 1 (some 2) = .ok (float (.ofInt64 7)) ∧
      stored.loadIndex 1 (some 1) = (matrix (.zeros 2 3)).loadIndex 1 (some 1)) ∧
    (¬ ∃ stored, (matrix (.zeros 0 3)).storeIndex 0 (some 0) (int 7) = .ok stored) ∧
    (Amending.store (-1) none (str "x")).Settles (array [bool true])
      (.error (.indexOutOfBounds (-1) 1)) ∧
    (Matrix.zeros 0 3).transpose.transpose = .zeros 0 3 := by
  obtain ⟨hbases, hmatrices⟩ := element_laws
  have hzeros : (matrix (.zeros 2 3)).Container := .matrix _ (Matrix.ofFn_wellFormed ..)
  have hempty : (Matrix.zeros 0 3).WellFormed := Matrix.ofFn_wellFormed ..
  refine ⟨hzeros, hempty, ?_, ?_, ?_, (hmatrices _ hempty).2.1⟩
  · have hlaws := (hbases _ hzeros 1 (some 2)).2 (int 7)
    obtain ⟨stored, hstored⟩ := hlaws.exists_iff.2
      ⟨(by decide : InRange 1 2 ∧ InRange 2 3), trivial⟩
    exact ⟨stored, hstored, hlaws.load_self _ hstored,
      hlaws.load_of_ne _ hstored 1 (some 1) (by decide)⟩
  · rw [((hbases _ (.matrix _ hempty) 0 (some 0)).2 (int 7)).exists_iff]
    exact fun h => absurd h.1.1.2 (by decide)
  · exact ((hbases _ (.array [bool true]) (-1) none).2 (str "x")).settles

end Value

end NumericScript
