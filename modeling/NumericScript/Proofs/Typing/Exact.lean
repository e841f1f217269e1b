import NumericScript.Proofs.Checked.Shapes
import NumericScript.Typing

/-! # Operators and their types

The rules that give the type of an operation, and the operation itself, are two tables.  On values
whose types are known exactly, matrices with their shapes, the tables say the same: where the rules
give a type there is a value of just that type, or the numbers are at fault; where they give none
there is a fault, and the numbers are not to blame.

* `Ty.Exact`: the values of a type that says all there is to say.
* `Ty.Foretells`: what a type, or its absence, says of an operation.
* `Ty.foretells_of_exact`: that operators do as their types say. -/

namespace NumericScript

/-- Whether numbers are to blame for a fault, and not types or shapes. -/
def Fault.isNumerical : Fault → Bool
  | .divisionByZero | .moduloByZero | .negativeExponent _ | .singularMatrix => true
  | _ => false

namespace Ty

/-- The values of a type, of which it says all: a matrix has the shape that the type says and as
many entries as that.  Only what the elements of an array are it may say in any way. -/
inductive Exact : Ty → Value → Prop
  | int (n : Int64) : Exact .int (.int n)
  | float (x : Double) : Exact .float (.float x)
  | str (s : String) : Exact .str (.str s)
  | bool (b : Bool) : Exact .bool (.bool b)
  | array (element : Ty) (items : List Value) : Exact (.array element) (.array items)
  | matrix (m : Matrix) (h : m.WellFormed) : Exact (.matrix (some (m.rows, m.cols))) (.matrix m)
  | void : Exact .void .void

/-- An operation does as its type says.  It gives a value of just that type, or raises a fault for
which numbers are to blame; and if there is no type, it raises a fault for which they are not. -/
def Foretells (t : Option Ty) (x : Except Fault Value) : Prop :=
  match t with
  | some t => (∃ v, x = .ok v ∧ t.Exact v) ∨ ∃ f, x = .error f ∧ f.isNumerical = true
  | none => ∃ f, x = .error f ∧ f.isNumerical = false

theorem exact_of_fills {m : Matrix} {s : Shape} (h : m.Fills s) :
    Exact (.matrix (some (s.rows, s.cols))) (.matrix m) := by
  obtain ⟨hm, rfl⟩ := h
  exact .matrix m hm

namespace Foretells

variable {t : Ty} {v : Value} {f : Fault} {x : Except Fault Value}

theorem value (h : t.Exact v) : Foretells (some t) (.ok v) := .inl ⟨v, rfl, h⟩

theorem numerical (h : f.isNumerical = true) : Foretells (some t) (.error f) := .inr ⟨f, rfl, h⟩

theorem refused (h : f.isNumerical = false) : Foretells none (.error f) := ⟨f, rfl, h⟩

/-- A fault of numbers in one case, and otherwise a value. -/
theorem guarded {c : Prop} [Decidable c] (hf : f.isNumerical = true) (hv : t.Exact v) :
    Foretells (some t) (if c then .error f else .ok v) := by
  split
  · exact numerical hf
  · exact value hv

/-! ### Numbers, texts and truth values -/

theorem ints (op : BinaryOp) (a b : Int64) :
    Foretells (op.ty? .int .int) (Arithmetic.ints op a b) := by
  cases op
  case add | sub | mul => exact value (.int _)
  case div | mod | pow => exact guarded rfl (.int _)
  case and | or => exact refused rfl
  all_goals exact value (.bool _)

theorem doubles (op : BinaryOp) (a b : Double) :
    Foretells (op.ty? .float .float) (Arithmetic.doubles op a b) := by
  cases op
  case add | sub | mul | pow => exact value (.float _)
  case div | mod => exact guarded rfl (.float _)
  case and | or => exact refused rfl
  all_goals exact value (.bool _)

/-- A whole number and a double are operated on as doubles. -/
theorem ty?_mixed (op : BinaryOp) :
    op.ty? .int .float = op.ty? .float .float ∧ op.ty? .float .int = op.ty? .float .float := by
  cases op <;> exact ⟨rfl, rfl⟩

theorem strs (op : BinaryOp) (a b : String) :
    Foretells (op.ty? .str .str) (Arithmetic.strs op a b) := by
  cases op
  case add => exact value (.str _)
  case eq | ne | lt | le | gt | ge => exact value (.bool _)
  all_goals exact refused rfl

theorem bools (op : BinaryOp) (a b : Bool) :
    Foretells (op.ty? .bool .bool) (Arithmetic.bools op a b) := by
  cases op
  case and | or | eq | ne => exact value (.bool _)
  all_goals exact refused rfl

/-! ### Matrices -/

theorem zipWith {op : BinaryOp} (hop : op = .add ∨ op = .sub) (g : Double → Double → Double)
    (m n : Matrix) :
    Foretells (op.ty? (.matrix (some (m.rows, m.cols))) (.matrix (some (n.rows, n.cols))))
      (.matrix <$> m.zipWith op g n) := by
  have hty : op.ty? (.matrix (some (m.rows, m.cols))) (.matrix (some (n.rows, n.cols))) =
      if (m.rows, m.cols) = (n.rows, n.cols) then some (.matrix (some (m.rows, m.cols)))
      else none := by
    rcases hop with rfl | rfl <;> rfl
  rw [hty]
  split
  · rename_i h
    obtain ⟨hrows, hcols⟩ := Prod.mk.inj h
    obtain ⟨r, hr, hfills⟩ := Matrix.zipWith_of_shape_eq op g
      (show m.shape = n.shape by rw [Matrix.shape, hrows, hcols, Matrix.shape])
    rw [hr]
    exact value (exact_of_fills hfills)
  · rename_i h
    rw [Matrix.zipWith_of_shape_ne op g fun hs => h (by
      obtain ⟨hrows, hcols⟩ := Shape.mk.inj hs
      rw [hrows, hcols])]
    exact refused rfl

theorem multiply (m n : Matrix) :
    Foretells (BinaryOp.mul.ty? (.matrix (some (m.rows, m.cols))) (.matrix (some (n.rows, n.cols))))
      (.matrix <$> m.multiply n) := by
  change Foretells (if m.cols = n.rows then some (.matrix (some (m.rows, n.cols))) else none) _
  split
  · obtain ⟨r, hr, hfills⟩ := Matrix.multiply_of_fit (by assumption : m.cols = n.rows)
    rw [hr]
    exact value (exact_of_fills hfills)
  · rw [Matrix.multiply_of_not_fit (by assumption)]
    exact refused rfl

theorem matrices (op : BinaryOp) (m n : Matrix) :
    Foretells (op.ty? (.matrix (some (m.rows, m.cols))) (.matrix (some (n.rows, n.cols))))
      (Arithmetic.matrices op m n) := by
  cases op
  case add => exact zipWith (.inl rfl) (· + ·) m n
  case sub => exact zipWith (.inr rfl) (· - ·) m n
  case mul => exact multiply m n
  case eq | ne =>
    simp only [BinaryOp.ty?, isNumeric, reduceCtorEq, decide_false, Bool.or_false, Bool.and_false,
      Bool.false_eq_true, if_false]
    exact refused rfl
  all_goals exact refused rfl

theorem power {m : Matrix} (hm : m.WellFormed) (k : Int64) :
    Foretells (BinaryOp.pow.ty? (.matrix (some (m.rows, m.cols))) .int)
      (.matrix <$> m.power k) := by
  change Foretells (if m.rows = m.cols then some (.matrix (some (m.rows, m.cols))) else none) _
  split
  · obtain ⟨r, hr, hfills⟩ | ⟨-, hr⟩ := Matrix.power_of_square hm (by assumption) k
    · rw [hr]
      exact value (exact_of_fills hfills)
    · rw [hr]
      exact numerical rfl
  · rw [Matrix.power_of_not_square (by assumption)]
    exact refused rfl

theorem scaled_int (op : BinaryOp) {m : Matrix} (hm : m.WellFormed) (k : Int64) :
    Foretells (op.ty? (.matrix (some (m.rows, m.cols))) .int)
      (Arithmetic.scaled op m (.int k)) := by
  cases op
  case mul => exact value (exact_of_fills (Matrix.fills_map _ m))
  case div => exact guarded rfl (exact_of_fills (Matrix.fills_map _ m))
  case pow => exact power hm k
  all_goals exact refused rfl

theorem scaled_float (op : BinaryOp) (m : Matrix) (k : Double) :
    Foretells (op.ty? (.matrix (some (m.rows, m.cols))) .float)
      (Arithmetic.scaled op m (.float k)) := by
  cases op
  case mul => exact value (exact_of_fills (Matrix.fills_map _ m))
  case div => exact guarded rfl (exact_of_fills (Matrix.fills_map _ m))
  all_goals exact refused rfl

/-- A number times a matrix. -/
theorem scaling (op : BinaryOp) {s : Ty} (hs : s = .int ∨ s = .float) (g : Double → Double)
    (m : Matrix) {f : Fault} (hf : f.isNumerical = false) :
    Foretells (op.ty? s (.matrix (some (m.rows, m.cols))))
      (if op = .mul then .ok (.matrix (m.map g)) else .error f) := by
  rcases hs with rfl | rfl <;> cases op
  case inl.mul | inr.mul => exact value (exact_of_fills (Matrix.fills_map g m))
  all_goals exact refused hf

/-! ### All operators -/

/-- Values of kinds that do not go together have no type together, and are refused. -/
theorem mismatched {op : BinaryOp} {s t : Ty} {v w : Value} (ht : op.ty? s t = none)
    (hx : op.apply v w = .error (.invalidOperands op v.kind w.kind)) :
    Foretells (op.ty? s t) (op.apply v w) := by
  rw [ht, hx]
  exact refused rfl

theorem binary (op : BinaryOp) {s t : Ty} {v w : Value} (hv : s.Exact v) (hw : t.Exact w) :
    Foretells (op.ty? s t) (op.apply v w) := by
  cases hv <;> cases hw
  case int.int a b => exact ints op a b
  case int.float a b => exact (ty?_mixed op).1 ▸ doubles op _ b
  case float.int a b => exact (ty?_mixed op).2 ▸ doubles op a _
  case float.float a b => exact doubles op a b
  case str.str a b => exact strs op a b
  case bool.bool a b => exact bools op a b
  case matrix.matrix m _ n _ => exact matrices op m n
  case matrix.int m hm k => exact scaled_int op hm k
  case matrix.float m _ k => exact scaled_float op m k
  case int.matrix a m _ => exact scaling op (.inl rfl) _ m rfl
  case float.matrix a m _ => exact scaling op (.inr rfl) _ m rfl
  case array.array =>
    have ht (a b : Ty) : op.ty? (.array a) (.array b) = none := by
      cases op <;> simp [BinaryOp.ty?, ofArithmetic?, isNumeric]
    exact mismatched (ht _ _) rfl
  all_goals exact mismatched (by cases op <;> rfl) rfl

theorem unary (op : UnaryOp) {t : Ty} {v : Value} (hv : t.Exact v) :
    Foretells (op.ty? t) (op.fn.apply v) := by
  cases op <;> cases hv
  case neg.int => exact value (.int _)
  case neg.float => exact value (.float _)
  case neg.matrix m _ => exact value (exact_of_fills (Matrix.fills_map _ m))
  case not.bool => exact value (.bool _)
  case transpose.matrix m _ => exact value (exact_of_fills (Matrix.fills_transpose m))
  all_goals exact refused rfl

end Foretells

/-- Operators do as their types say, on all values and for all operators, of two operands and of
one. -/
theorem foretells_of_exact {s t : Ty} {v w : Value} (hv : s.Exact v) (hw : t.Exact w) :
    (∀ op : BinaryOp, Foretells (op.ty? s t) (op.apply v w)) ∧
      ∀ op : UnaryOp, Foretells (op.ty? s) (op.fn.apply v) :=
  ⟨fun op => .binary op hv hw, fun op => .unary op hv⟩

/-- Matrices that can be multiplied but not added. -/
theorem foretells_of_exact_product :
    (Exact (.matrix (some (2, 3))) (.matrix (.zeros 2 3)) ∧
      Exact (.matrix (some (3, 1))) (.matrix (.zeros 3 1))) ∧
    Foretells (some (.matrix (some (2, 1))))
      (BinaryOp.mul.apply (.matrix (.zeros 2 3)) (.matrix (.zeros 3 1))) ∧
    Foretells none (BinaryOp.add.apply (.matrix (.zeros 2 3)) (.matrix (.zeros 3 1))) ∧
    Foretells (some (.matrix (some (3, 2))))
      (UnaryOp.transpose.fn.apply (.matrix (.zeros 2 3))) := by
  have hv : Exact (.matrix (some (2, 3))) (.matrix (.zeros 2 3)) :=
    .matrix _ (Matrix.ofFn_wellFormed 2 3 _)
  have hw : Exact (.matrix (some (3, 1))) (.matrix (.zeros 3 1)) :=
    .matrix _ (Matrix.ofFn_wellFormed 3 1 _)
  obtain ⟨hbinary, hunary⟩ := foretells_of_exact hv hw
  exact ⟨⟨hv, hw⟩, hbinary .mul, hbinary .add, hunary .transpose⟩

end Ty

end NumericScript
