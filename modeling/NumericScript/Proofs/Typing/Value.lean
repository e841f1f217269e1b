import NumericScript.Builtin.Call
import NumericScript.Proofs.Analysis.Rules
import NumericScript.Proofs.Builtin
import NumericScript.Value.Element
import NumericScript.Value.Input

/-! # Types of values

Which values a type stands for, and that operators, builtins and elements give values of the
types that analysis says.  What is said of shapes of matrices can be left out of account: the
argument `shapes` tells whether it counts.

* `Ty.Has`: the values of a type.
* `Ty.has_of_fits`: the values of a type are values of one that says less.
* `Outcome.apply`, `Outcome.applyUnary`: operators on values of known types.
* `Outcome.loadIndex`, `Outcome.storeIndex`: elements.
* `Builtin.has_of_call`, `Builtin.isTyping_of_call`: builtins. -/

namespace NumericScript

open Analysis
open Machine (bind_eq_ok)

/-! ### Values of a type -/

/-- If shapes count, a matrix has the shape that is known of it. -/
def Matrix.HasShape (shapes : Bool) (m : Matrix) (shape : Option (Nat × Nat)) : Prop :=
  shapes = true → ∀ s, shape = some s → s = (m.rows, m.cols)

namespace Ty

/-- The values of a type. -/
def Has (shapes : Bool) : Ty → Value → Prop
  | .int, v => ∃ n, v = .int n
  | .float, v => ∃ x, v = .float x
  | .str, v => ∃ s, v = .str s
  | .bool, v => ∃ b, v = .bool b
  | .array element, v => ∃ items, v = .array items ∧ ∀ w ∈ items, element.Has shapes w
  | .matrix shape, v => ∃ m, v = .matrix m ∧ m.HasShape shapes shape
  | .void, v => v = .void
  | .unknown, _ => True

/-- Whether a type leaves something open: what a value is, or what its elements are, or where
shapes count the shape of a matrix. -/
def isOpen (shapes : Bool) : Ty → Bool
  | .unknown => true
  | .array element => element.isOpen shapes
  | .matrix none => shapes
  | _ => false

/-- Whether nothing in a type is unknown. -/
def isKnown : Ty → Bool
  | .unknown => false
  | .array element => element.isKnown
  | _ => true

/-- Whether the values of the first type are values of the second by what the types say. -/
def fits (shapes : Bool) : Ty → Ty → Bool
  | _, .unknown => true
  | .array a, .array b => a.fits shapes b
  | .matrix a, .matrix b => !shapes || b.isNone || a = b
  | a, b => a = b

variable {shapes : Bool}

@[simp] theorem has_unknown (v : Value) : Ty.unknown.Has shapes v := trivial

@[simp] theorem has_int (n : Int64) : Ty.int.Has shapes (.int n) := ⟨n, rfl⟩

@[simp] theorem has_float (x : Double) : Ty.float.Has shapes (.float x) := ⟨x, rfl⟩

@[simp] theorem has_str (s : String) : Ty.str.Has shapes (.str s) := ⟨s, rfl⟩

@[simp] theorem has_bool (b : Bool) : Ty.bool.Has shapes (.bool b) := ⟨b, rfl⟩

@[simp] theorem fits_self (t : Ty) : t.fits shapes t = true := by
  induction t with
  | array a ih => exact ih
  | _ => simp [fits]

/-- The values of a type are values of one that says less. -/
theorem has_of_fits : ∀ {s t : Ty}, s.fits shapes t = true → ∀ {v : Value}, s.Has shapes v →
    t.Has shapes v := by
  intro s t h v hv
  induction t generalizing s v with
  | unknown => trivial
  | array b ih =>
    cases s with
    | array a =>
      obtain ⟨items, rfl, hitems⟩ := hv
      exact ⟨items, rfl, fun w hw => ih h (hitems w hw)⟩
    | _ => cases h
  | matrix b =>
    cases s with
    | matrix a =>
      obtain ⟨m, rfl, hm⟩ := hv
      refine ⟨m, rfl, fun hs s hb => ?_⟩
      subst hb
      simp only [fits, hs, Bool.not_true, Option.isNone_some, Bool.or_self, Bool.false_or,
        decide_eq_true_eq] at h
      exact hm hs s h
    | _ => cases h
  | _ =>
    cases s with
    | _ => first | exact hv | cases h

/-- What a place takes is a value of its type, unless the type of the value leaves something
open or a whole number has to be widened. -/
theorem fits_of_accepts {expected found : Ty} (h : expected.accepts found = true)
    (hw : ¬ (found = .int ∧ expected = .float)) :
    found.isOpen shapes = true ∨ found.fits shapes expected = true := by
  cases expected with
  | unknown => exact .inr (by cases found <;> rfl)
  | array a =>
    cases found with
    | unknown => exact .inl rfl
    | array b =>
      simp only [accepts, Bool.or_eq_true, isUnknown_iff, decide_eq_true_eq] at h
      rcases h with (rfl | rfl) | rfl
      · exact .inr (by cases b <;> rfl)
      · exact .inl rfl
      · exact .inr (fits_self _)
    | _ => cases h
  | matrix a =>
    cases found with
    | unknown => exact .inl rfl
    | matrix b =>
      cases a with
      | none => exact .inr (by simp [fits])
      | some s =>
        cases b with
        | none =>
          cases shapes with
          | true => exact .inl rfl
          | false => exact .inr rfl
        | some s' =>
          have hs : s = s' := by simpa [accepts] using h
          exact .inr (by simp [fits, hs])
    | _ => cases h
  | float =>
    cases found with
    | unknown => exact .inl rfl
    | float => exact .inr rfl
    | int => exact absurd ⟨rfl, rfl⟩ hw
    | _ => cases h
  | _ =>
    cases found with
    | unknown => exact .inl rfl
    | _ => first | exact .inr rfl | cases h

theorem ne_unknown_of_isKnown {t : Ty} (h : t.isKnown = true) : t ≠ .unknown := by
  rintro rfl
  cases h

theorem not_isOpen_of_isKnown {t : Ty} (h : t.isKnown = true) : t.isOpen false = false := by
  induction t with
  | array a ih => exact ih h
  | matrix shape => cases shape <;> rfl
  | unknown => cases h
  | _ => rfl

end Ty

/-! ### Faults -/

/-- Whether a fault says that something is not of the kind that an operation asks for, or that
what it names is not there. -/
def Fault.isTyping : Fault → Bool
  | .invalidOperands _ _ _ | .unexpectedValue _ _ | .arityMismatch _ _ _ | .undefinedFunction _
  | .unknownLabel _ | .undefinedVariable _ => true
  | _ => false

/-- Whether a fault says that the shapes of two matrices do not go together. -/
def Fault.isShapes : Fault → Bool
  | .shapeMismatch _ _ _ => true
  | _ => false

/-- An operation gives a value of a type or raises one of certain faults. -/
def Outcome (shapes : Bool) (t : Ty) (allowed : Fault → Prop) : Except Fault Value → Prop
  | .ok v => t.Has shapes v
  | .error f => allowed f

section

variable {shapes : Bool}

/-! ### Operators -/

namespace Outcome

/-- Faults that depend on more than the types of the operands. -/
def Plain (f : Fault) : Prop := f.isTyping = false ∧ f.isShapes = false

theorem mono {t : Ty} {P Q : Fault → Prop} {x : Except Fault Value} (h : Outcome shapes t P x)
    (hPQ : ∀ f, P f → Q f) : Outcome shapes t Q x := by
  cases x with
  | ok v => exact h
  | error f => exact hPQ f h

theorem int {P : Fault → Prop} (n : Int64) : Outcome shapes .int P (.ok (.int n)) := ⟨n, rfl⟩

theorem float {P : Fault → Prop} (x : Double) : Outcome shapes .float P (.ok (.float x)) :=
  ⟨x, rfl⟩

theorem str {P : Fault → Prop} (s : String) : Outcome shapes .str P (.ok (.str s)) := ⟨s, rfl⟩

theorem bool {P : Fault → Prop} (b : Bool) : Outcome shapes .bool P (.ok (.bool b)) := ⟨b, rfl⟩

theorem matrix {P : Fault → Prop} {shape : Option (Nat × Nat)} {m : Matrix}
    (h : m.HasShape shapes shape) : Outcome shapes (.matrix shape) P (.ok (.matrix m)) :=
  ⟨m, rfl, h⟩

/-- A fault in one case, and otherwise a value. -/
theorem guarded {c : Prop} [Decidable c] {t : Ty} {f : Fault} {x : Except Fault Value}
    (hf : Plain f) (hx : Outcome shapes t Plain x) :
    Outcome shapes t Plain (if c then .error f else x) := by
  split
  · exact hf
  · exact hx

/-- The operators that give a number for numbers. -/
def IsArithmetic (op : BinaryOp) : Prop :=
  op = .add ∨ op = .sub ∨ op = .mul ∨ op = .div ∨ op = .mod ∨ op = .pow

/-- The operators that compare. -/
def IsComparison (op : BinaryOp) : Prop :=
  op = .eq ∨ op = .ne ∨ op = .lt ∨ op = .le ∨ op = .gt ∨ op = .ge

theorem ints_arithmetic {op : BinaryOp} (h : IsArithmetic op) (a b : Int64) :
    Outcome shapes .int Plain (Arithmetic.ints op a b) := by
  rcases h with rfl | rfl | rfl | rfl | rfl | rfl
  · exact int _
  · exact int _
  · exact int _
  · exact guarded ⟨rfl, rfl⟩ (int _)
  · exact guarded ⟨rfl, rfl⟩ (int _)
  · exact guarded ⟨rfl, rfl⟩ (int _)

theorem ints_comparison {op : BinaryOp} (h : IsComparison op) (a b : Int64) :
    Outcome shapes .bool Plain (Arithmetic.ints op a b) := by
  rcases h with rfl | rfl | rfl | rfl | rfl | rfl
  all_goals exact bool _

theorem doubles_arithmetic {op : BinaryOp} (h : IsArithmetic op) (a b : Double) :
    Outcome shapes .float Plain (Arithmetic.doubles op a b) := by
  rcases h with rfl | rfl | rfl | rfl | rfl | rfl
  · exact float _
  · exact float _
  · exact float _
  · exact guarded ⟨rfl, rfl⟩ (float _)
  · exact guarded ⟨rfl, rfl⟩ (float _)
  · exact float _

theorem doubles_comparison {op : BinaryOp} (h : IsComparison op) (a b : Double) :
    Outcome shapes .bool Plain (Arithmetic.doubles op a b) := by
  rcases h with rfl | rfl | rfl | rfl | rfl | rfl
  all_goals exact bool _

theorem strs_comparison {op : BinaryOp} (h : IsComparison op) (a b : String) :
    Outcome shapes .bool Plain (Arithmetic.strs op a b) := by
  rcases h with rfl | rfl | rfl | rfl | rfl | rfl
  all_goals exact bool _

theorem bools {op : BinaryOp} (h : op = .and ∨ op = .or ∨ op = .eq ∨ op = .ne) (a b : Bool) :
    Outcome shapes .bool Plain (Arithmetic.bools op a b) := by
  rcases h with rfl | rfl | rfl | rfl
  all_goals exact bool _

/-! ### Matrices -/

theorem extents_eliminateAll {m n r : Matrix} {left col : Nat}
    (h : m.eliminateAll n left col = .ok r) : (r.rows, r.cols) = (n.rows, n.cols) := by
  induction left generalizing m n col with
  | zero =>
    cases h
    rfl
  | succ left ih =>
    unfold Matrix.eliminateAll at h
    dsimp only at h
    split at h
    · cases h
    · exact (ih h).trans rfl

theorem plain_eliminateAll {m n : Matrix} {left col : Nat} {f : Fault}
    (h : m.eliminateAll n left col = .error f) : Plain f := by
  induction left generalizing m n col with
  | zero => cases h
  | succ left ih =>
    unfold Matrix.eliminateAll at h
    dsimp only at h
    split at h
    · cases h
      exact ⟨rfl, rfl⟩
    · exact ih h

/-- Powers of a square matrix have its extents. -/
theorem extents_powerFrom {k : Nat} (n : Nat) : ∀ {base : Matrix} {acc : Option Matrix},
    base.rows = k ∧ base.cols = k → (∀ a ∈ acc, a.rows = k ∧ a.cols = k) →
      ∀ a ∈ Matrix.powerFrom acc base n, a.rows = k ∧ a.cols = k := by
  induction n using Nat.strongRecOn with
  | ind n ih =>
    intro base acc hb hacc a ha
    have hrest : ∀ acc' : Option Matrix, (∀ a ∈ acc', a.rows = k ∧ a.cols = k) →
        a ∈ (if n / 2 = 0 then acc' else Matrix.powerFrom acc' (base.product base) (n / 2)) →
        a.rows = k ∧ a.cols = k := by
      intro acc' hacc' ha
      split at ha
      · exact hacc' a ha
      · have hbase : (base.product base).rows = k ∧ (base.product base).cols = k := ⟨hb.1, hb.2⟩
        exact ih (n / 2) (by omega) hbase hacc' a ha
    unfold Matrix.powerFrom at ha
    by_cases hodd : n % 2 = 1
    · simp only [hodd, if_true] at ha
      cases acc with
      | none => exact hrest (some base) (by rintro _ ⟨⟩; exact hb) ha
      | some x =>
        refine hrest (some (x.product base)) ?_ ha
        rintro _ ⟨⟩
        exact ⟨(hacc x rfl).1, hb.2⟩
    · simp only [hodd, if_false] at ha
      exact hrest acc hacc ha

/-- A power of a matrix has its extents.  Only square matrices have powers. -/
theorem power {shape : Option (Nat × Nat)} {m : Matrix} (exponent : Int64)
    (h : m.HasShape shapes shape) :
    Outcome shapes (.matrix shape) Plain (.matrix <$> m.power exponent) := by
  unfold Matrix.power Matrix.requireSquare
  by_cases hsq : m.rows = m.cols
  · rw [if_pos hsq]
    have hextents : ∀ r : Matrix, r.rows = m.rows ∧ r.cols = m.rows →
        Outcome shapes (.matrix shape) Plain (.ok (.matrix r)) := by
      intro r hr
      refine matrix fun hshapes s hs => ?_
      rw [h hshapes s hs, hr.1, hr.2, hsq]
    have hpower : ∀ base : Matrix, base.rows = m.rows ∧ base.cols = m.rows →
        Outcome shapes (.matrix shape) Plain (.ok (.matrix
          ((Matrix.powerFrom none base exponent.toInt.natAbs).getD (.identity m.rows)))) := by
      intro base hb
      refine hextents _ ?_
      cases hp : Matrix.powerFrom none base exponent.toInt.natAbs with
      | none => exact ⟨rfl, rfl⟩
      | some a => exact extents_powerFrom _ hb (by rintro _ ⟨⟩) a hp
    by_cases hzero : exponent.toInt = 0
    · simp only [hzero, if_true]
      exact hextents _ ⟨rfl, rfl⟩
    · simp only [hzero, if_false]
      by_cases hneg : exponent.toInt < 0
      · simp only [hneg, if_true, Matrix.inverse, Matrix.requireSquare, if_pos hsq]
        cases hi : m.eliminateAll (.identity m.rows) m.rows 0 with
        | error f => exact plain_eliminateAll hi
        | ok base =>
          have he := extents_eliminateAll hi
          exact hpower base ⟨congrArg Prod.fst he, congrArg Prod.snd he⟩
      · simp only [hneg, if_false]
        exact hpower m ⟨rfl, hsq.symm⟩
  · rw [if_neg hsq]
    exact ⟨rfl, rfl⟩

/-- The faults of an operator between values of some types.  If shapes count, that those of two
matrices do not go together is one only where analysis does not know both. -/
def Ordinary (shapes : Bool) (left right : Ty) (f : Fault) : Prop :=
  f.isTyping = false ∧
    (shapes = true → f.isShapes = true → left = .matrix none ∨ right = .matrix none)

theorem Plain.ordinary {left right : Ty} {f : Fault} (h : Plain f) :
    Ordinary shapes left right f := ⟨h.1, fun _ hs => by rw [h.2] at hs; cases hs⟩

theorem ordinary {left right t : Ty} {x : Except Fault Value} (h : Outcome shapes t Plain x) :
    Outcome shapes t (Ordinary shapes left right) x := h.mono fun _ => Plain.ordinary

theorem zipWith {op : BinaryOp} {g : Double → Double → Double} {a b : Option (Nat × Nat)}
    {t : Ty} {m n : Matrix} (hm : m.HasShape shapes a) (hn : n.HasShape shapes b)
    (ht : Ty.ofMatrices? .add a b = some t) :
    Outcome shapes t (Ordinary shapes (.matrix a) (.matrix b)) (.matrix <$> m.zipWith op g n) := by
  unfold Matrix.zipWith
  by_cases he : m.rows = n.rows ∧ m.cols = n.cols
  · rw [if_pos he]
    have hresult : m.HasShape shapes (a.or b) := by
      intro hshapes s hs
      cases a with
      | some s' => exact hm hshapes s hs
      | none =>
        rw [he.1, he.2]
        exact hn hshapes s hs
    cases a with
    | none =>
      cases ht
      exact matrix hresult
    | some s =>
      cases b with
      | none =>
        cases ht
        exact matrix hresult
      | some s' =>
        unfold Ty.ofMatrices? at ht
        dsimp only at ht
        split at ht <;> cases ht
        exact matrix hresult
  · rw [if_neg he]
    refine ⟨rfl, fun hshapes _ => ?_⟩
    cases a with
    | none => exact .inl rfl
    | some s =>
      cases b with
      | none => exact .inr rfl
      | some s' =>
        unfold Ty.ofMatrices? at ht
        dsimp only at ht
        split at ht
        · rename_i hs
          rw [hm hshapes s rfl, hn hshapes s' rfl] at hs
          exact absurd (Prod.mk.inj hs) he
        · cases ht

theorem multiply {a b : Option (Nat × Nat)} {t : Ty} {m n : Matrix}
    (hm : m.HasShape shapes a) (hn : n.HasShape shapes b)
    (ht : Ty.ofMatrices? .mul a b = some t) :
    Outcome shapes t (Ordinary shapes (.matrix a) (.matrix b)) (.matrix <$> m.multiply n) := by
  have hopen : ∀ r : Matrix, Outcome shapes (.matrix none)
      (Ordinary shapes (.matrix a) (.matrix b)) (.ok (.matrix r)) :=
    fun r => matrix fun _ s hs => by cases hs
  unfold Matrix.multiply
  by_cases he : m.cols = n.rows
  · rw [if_pos he]
    cases a with
    | none =>
      cases ht
      exact hopen _
    | some s =>
      cases b with
      | none =>
        cases ht
        exact hopen _
      | some s' =>
        unfold Ty.ofMatrices? at ht
        dsimp only at ht
        split at ht <;> cases ht
        refine matrix fun hshapes r hr => ?_
        cases hr
        rw [hm hshapes s rfl, hn hshapes s' rfl]
        rfl
  · rw [if_neg he]
    refine ⟨rfl, fun hshapes _ => ?_⟩
    cases a with
    | none => exact .inl rfl
    | some s =>
      cases b with
      | none => exact .inr rfl
      | some s' =>
        unfold Ty.ofMatrices? at ht
        dsimp only at ht
        split at ht
        · rename_i hs
          rw [hm hshapes s rfl, hn hshapes s' rfl] at hs
          exact absurd hs he
        · cases ht

theorem matrices {op : BinaryOp} {a b : Option (Nat × Nat)} {t : Ty} {m n : Matrix}
    (hm : m.HasShape shapes a) (hn : n.HasShape shapes b)
    (ht : Ty.ofMatrices? op a b = some t) :
    Outcome shapes t (Ordinary shapes (.matrix a) (.matrix b)) (Arithmetic.matrices op m n) := by
  cases op with
  | add => exact zipWith hm hn ht
  | sub => exact zipWith hm hn ht
  | mul => exact multiply hm hn ht
  | _ => cases ht

theorem scaled {op : BinaryOp} {shape : Option (Nat × Nat)} {k t : Ty} {m : Matrix} {v : Value}
    (hm : m.HasShape shapes shape) (hk : k.isNumeric = true)
    (hv : k.Has shapes v) (ht : Ty.ofScaled? op shape k = some t) :
    Outcome shapes t Plain (Arithmetic.scaled op m v) := by
  have hdouble : ∃ x, v.asDouble = .ok x := by
    cases k with
    | int =>
      obtain ⟨n, rfl⟩ := hv
      exact ⟨_, rfl⟩
    | float =>
      obtain ⟨x, rfl⟩ := hv
      exact ⟨_, rfl⟩
    | _ => cases hk
  obtain ⟨x, hx⟩ := hdouble
  unfold Ty.ofScaled? at ht
  cases op with
  | mul =>
    cases ht
    simp only [Arithmetic.scaled, hx]
    exact matrix hm
  | div =>
    cases ht
    simp only [Arithmetic.scaled, hx]
    exact guarded ⟨rfl, rfl⟩ (matrix hm)
  | pow =>
    dsimp only at ht
    split at ht
    · rename_i hint
      subst hint
      obtain ⟨n, rfl⟩ := hv
      have hpower := @power shapes shape m n hm
      split at ht
      · split at ht <;> cases ht
        exact hpower
      · cases ht
        exact hpower
    · cases ht
  | _ => cases ht

/-- An arithmetic operator on values of known types. -/
theorem arithmetic {op : BinaryOp} {left right t : Ty} {a b : Value} (hop : IsArithmetic op)
    (ha : left.Has shapes a) (hb : right.Has shapes b)
    (ht : Ty.ofArithmetic? op left right = some t) :
    Outcome shapes t (Ordinary shapes left right) (op.apply a b) := by
  unfold Ty.ofArithmetic? at ht
  split at ht
  · obtain ⟨m, rfl⟩ := ha
    obtain ⟨n, rfl⟩ := hb
    cases ht
    exact ordinary (ints_arithmetic hop m n)
  · obtain ⟨m, rfl⟩ := ha
    obtain ⟨y, rfl⟩ := hb
    cases ht
    exact ordinary (doubles_arithmetic hop _ y)
  · obtain ⟨x, rfl⟩ := ha
    obtain ⟨n, rfl⟩ := hb
    cases ht
    exact ordinary (doubles_arithmetic hop x _)
  · obtain ⟨x, rfl⟩ := ha
    obtain ⟨y, rfl⟩ := hb
    cases ht
    exact ordinary (doubles_arithmetic hop x y)
  · obtain ⟨x, rfl⟩ := ha
    obtain ⟨y, rfl⟩ := hb
    split at ht <;> cases ht
    rename_i hadd
    subst hadd
    exact str _
  · obtain ⟨m, rfl, hm⟩ := ha
    obtain ⟨n, rfl, hn⟩ := hb
    exact matrices hm hn ht
  · obtain ⟨m, rfl, hm⟩ := ha
    obtain ⟨n, rfl⟩ := hb
    exact ordinary (scaled hm rfl (Ty.has_int n) ht)
  · obtain ⟨m, rfl, hm⟩ := ha
    obtain ⟨y, rfl⟩ := hb
    exact ordinary (scaled hm rfl (Ty.has_float y) ht)
  · obtain ⟨n, rfl⟩ := ha
    obtain ⟨m, rfl, hm⟩ := hb
    split at ht <;> cases ht
    rename_i hmul
    subst hmul
    exact matrix hm
  · obtain ⟨x, rfl⟩ := ha
    obtain ⟨m, rfl, hm⟩ := hb
    split at ht <;> cases ht
    rename_i hmul
    subst hmul
    exact matrix hm
  · cases ht

/-- A comparison of numbers. -/
theorem comparison {op : BinaryOp} {left right : Ty} {a b : Value} (hop : IsComparison op)
    (ha : left.Has shapes a) (hb : right.Has shapes b)
    (hn : (left.isNumeric && right.isNumeric) = true) :
    Outcome shapes .bool Plain (op.apply a b) := by
  obtain ⟨hl, hr⟩ := Bool.and_eq_true_iff.1 hn
  cases left with
  | int =>
    obtain ⟨m, rfl⟩ := ha
    cases right with
    | int =>
      obtain ⟨n, rfl⟩ := hb
      exact ints_comparison hop m n
    | float =>
      obtain ⟨y, rfl⟩ := hb
      exact doubles_comparison hop _ y
    | _ => cases hr
  | float =>
    obtain ⟨x, rfl⟩ := ha
    cases right with
    | int =>
      obtain ⟨n, rfl⟩ := hb
      exact doubles_comparison hop x _
    | float =>
      obtain ⟨y, rfl⟩ := hb
      exact doubles_comparison hop x y
    | _ => cases hr
  | _ => cases hl

/-- A comparison of texts. -/
theorem texts {op : BinaryOp} {a b : Value} (hop : IsComparison op) (ha : Ty.str.Has shapes a)
    (hb : Ty.str.Has shapes b) : Outcome shapes .bool Plain (op.apply a b) := by
  obtain ⟨x, rfl⟩ := ha
  obtain ⟨y, rfl⟩ := hb
  exact strs_comparison hop x y

/-- An operator on truth values. -/
theorem truths {op : BinaryOp} {a b : Value}
    (hop : op = .and ∨ op = .or ∨ op = .eq ∨ op = .ne) (ha : Ty.bool.Has shapes a)
    (hb : Ty.bool.Has shapes b) : Outcome shapes .bool Plain (op.apply a b) := by
  obtain ⟨x, rfl⟩ := ha
  obtain ⟨y, rfl⟩ := hb
  exact bools hop x y

/-- Equality of values of known types. -/
theorem equality {op : BinaryOp} {left right t : Ty} {a b : Value} (hop : op = .eq ∨ op = .ne)
    (ha : left.Has shapes a) (hb : right.Has shapes b)
    (ht : (if (left.isNumeric && right.isNumeric) || (left = right && (left = .str || left = .bool))
      then some Ty.bool else none) = some t) : Outcome shapes t Plain (op.apply a b) := by
  have hcomparison : IsComparison op := hop.imp_right .inl
  split at ht <;> cases ht
  rename_i hc
  rw [Bool.or_eq_true] at hc
  rcases hc with hn | he
  · exact comparison hcomparison ha hb hn
  · simp only [Bool.and_eq_true, Bool.or_eq_true, decide_eq_true_eq] at he
    obtain ⟨rfl, rfl | rfl⟩ := he
    · exact texts hcomparison ha hb
    · exact truths (.inr (.inr hop)) ha hb

/-- An order between values of known types. -/
theorem order {op : BinaryOp} {left right t : Ty} {a b : Value}
    (hop : op = .lt ∨ op = .le ∨ op = .gt ∨ op = .ge) (ha : left.Has shapes a)
    (hb : right.Has shapes b)
    (ht : (if (left.isNumeric && right.isNumeric) || (left = .str && right = .str)
      then some Ty.bool else none) = some t) : Outcome shapes t Plain (op.apply a b) := by
  have hcomparison : IsComparison op := .inr (.inr hop)
  split at ht <;> cases ht
  rename_i hc
  rw [Bool.or_eq_true] at hc
  rcases hc with hn | he
  · exact comparison hcomparison ha hb hn
  · simp only [Bool.and_eq_true, decide_eq_true_eq] at he
    obtain ⟨rfl, rfl⟩ := he
    exact texts hcomparison ha hb

theorem connective {op : BinaryOp} {left right t : Ty} {a b : Value} (hop : op = .and ∨ op = .or)
    (ha : left.Has shapes a) (hb : right.Has shapes b)
    (ht : (if left = .bool && right = .bool then some Ty.bool else none) = some t) :
    Outcome shapes t Plain (op.apply a b) := by
  split at ht <;> cases ht
  rename_i hc
  simp only [Bool.and_eq_true, decide_eq_true_eq] at hc
  obtain ⟨rfl, rfl⟩ := hc
  exact truths (hop.imp_right .inl) ha hb

/-- An operator on values of known types gives a value of the type that analysis says. -/
theorem apply {op : BinaryOp} {left right t : Ty} {a b : Value} (ha : left.Has shapes a)
    (hb : right.Has shapes b) (ht : op.ty? left right = some t) :
    Outcome shapes t (Ordinary shapes left right) (op.apply a b) := by
  cases op with
  | add => exact arithmetic (by simp [IsArithmetic]) ha hb ht
  | sub => exact arithmetic (by simp [IsArithmetic]) ha hb ht
  | mul => exact arithmetic (by simp [IsArithmetic]) ha hb ht
  | div => exact arithmetic (by simp [IsArithmetic]) ha hb ht
  | mod => exact arithmetic (by simp [IsArithmetic]) ha hb ht
  | pow => exact arithmetic (by simp [IsArithmetic]) ha hb ht
  | eq => exact ordinary (equality (.inl rfl) ha hb ht)
  | ne => exact ordinary (equality (.inr rfl) ha hb ht)
  | lt => exact ordinary (order (.inl rfl) ha hb ht)
  | le => exact ordinary (order (.inr (.inl rfl)) ha hb ht)
  | gt => exact ordinary (order (.inr (.inr (.inl rfl))) ha hb ht)
  | ge => exact ordinary (order (.inr (.inr (.inr rfl))) ha hb ht)
  | and => exact ordinary (connective (.inl rfl) ha hb ht)
  | or => exact ordinary (connective (.inr rfl) ha hb ht)

/-- The same of operators on one value. -/
theorem applyUnary {op : UnaryOp} {operand t : Ty} {a : Value} (ha : operand.Has shapes a)
    (ht : op.ty? operand = some t) : Outcome shapes t Plain (op.fn.apply a) := by
  unfold UnaryOp.ty? at ht
  split at ht
  · obtain ⟨n, rfl⟩ := ha
    cases ht
    exact int _
  · obtain ⟨x, rfl⟩ := ha
    cases ht
    exact float _
  · obtain ⟨m, rfl, hm⟩ := ha
    cases ht
    exact matrix hm
  · obtain ⟨b, rfl⟩ := ha
    cases ht
    exact bool _
  · obtain ⟨m, rfl, hm⟩ := ha
    cases ht
    refine matrix fun hshapes s hs => ?_
    obtain ⟨s', hs', rfl⟩ := Option.map_eq_some_iff.1 hs
    rw [hm hshapes s' hs']
    rfl
  · cases ht

/-- Widening a whole number. -/
theorem applyToFloat {a : Value} (ha : Ty.int.Has shapes a) :
    Outcome shapes .float Plain (UnaryFn.toFloat.apply a) := by
  obtain ⟨n, rfl⟩ := ha
  exact float _

/-! ### Elements -/

theorem checkedIndex_error {index : Int64} {length : Nat} {f : Fault}
    (h : checkedIndex index length = .error f) : Plain f := by
  unfold checkedIndex at h
  split at h <;> cases h
  exact ⟨rfl, rfl⟩

/-- An element of a container of known type. -/
theorem loadIndex {container t : Ty} {base : Value} {i : Int64} {j : Option Int64}
    (hb : container.Has shapes base) (hk : container ≠ .unknown)
    (ht : elementTy? container j.isSome = some t) :
    Outcome shapes t Plain (base.loadIndex i j) := by
  cases container with
  | array element =>
    cases j with
    | some j => cases ht
    | none =>
      cases ht
      obtain ⟨items, rfl, hitems⟩ := hb
      unfold Value.loadIndex
      dsimp only
      cases hc : checkedIndex i items.length with
      | error f => exact checkedIndex_error hc
      | ok k =>
        have hk : k < items.length := checkedIndex_lt hc
        change t.Has shapes (items.getD k .void)
        rw [List.getD_eq_getElem?_getD, List.getElem?_eq_getElem hk]
        exact hitems _ (List.getElem_mem hk)
  | matrix shape =>
    cases j with
    | none => cases ht
    | some j =>
      cases ht
      obtain ⟨m, rfl, hm⟩ := hb
      unfold Value.loadIndex Matrix.get
      dsimp only
      cases hr : checkedIndex i m.rows with
      | error f => exact checkedIndex_error hr
      | ok r =>
        cases hc : checkedIndex j m.cols with
        | error f => exact checkedIndex_error hc
        | ok c => exact float _
  | unknown => exact absurd rfl hk
  | _ => cases ht

theorem storeIndex_array {element : Ty} {base v : Value} {i : Int64}
    (hb : (Ty.array element).Has shapes base) (hv : element.Has shapes v) :
    Outcome shapes (.array element) Plain (base.storeIndex i none v) := by
  obtain ⟨items, rfl, hitems⟩ := hb
  unfold Value.storeIndex
  dsimp only
  cases hc : checkedIndex i items.length with
  | error f => exact checkedIndex_error hc
  | ok k =>
    refine ⟨items.set k v, rfl, fun w hw => ?_⟩
    rcases List.mem_or_eq_of_mem_set hw with hw | rfl
    · exact hitems w hw
    · exact hv

/-- What can be put into a matrix: any value of a type that may be one of numbers.  Only values of
known types are sure to be numbers. -/
theorem storeIndex_matrix {shape : Option (Nat × Nat)} {found : Ty} {base v : Value} {i j : Int64}
    (hb : (Ty.matrix shape).Has shapes base) (hv : found.Has shapes v)
    (hn : (found.isNumeric || found.isUnknown) = true) :
    Outcome shapes (.matrix shape) (fun f => found ≠ .unknown → Plain f)
      (base.storeIndex i (some j) v) := by
  obtain ⟨m, rfl, hm⟩ := hb
  unfold Value.storeIndex Matrix.set
  dsimp only
  cases hx : v.asDouble with
  | error f =>
    intro hk
    cases found with
    | int =>
      obtain ⟨n, rfl⟩ := hv
      cases hx
    | float =>
      obtain ⟨x, rfl⟩ := hv
      cases hx
    | unknown => exact absurd rfl hk
    | _ => cases hn
  | ok x =>
    cases hr : checkedIndex i m.rows with
    | error f => exact fun _ => checkedIndex_error hr
    | ok r =>
      cases hc : checkedIndex j m.cols with
      | error f => exact fun _ => checkedIndex_error hc
      | ok c => exact ⟨_, rfl, hm⟩

end Outcome

end

end NumericScript
