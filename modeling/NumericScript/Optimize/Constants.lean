import NumericScript.Optimize.Pass
import NumericScript.Store

/-! # Constants

Two passes that compute with constants ahead of a run.  Folding carries out operations between
constants.  Propagation replaces a place that is known to hold a constant by that constant.

* `Op.dest?_fold`, `Op.dest?_propagate`: neither pass changes what an instruction writes.
* `length_folding`, `length_propagation`: both keep every instruction in its place. -/

namespace NumericScript

/-! ### Folding -/

namespace Op

/-- The constant that an operation on values gives, if it gives one and does not fault. -/
def constantOf : Except Fault Value → Option Constant
  | .ok v => Constant.ofValue? v
  | .error _ => none

/-- The assignment that an operation between constants amounts to. -/
def fold? : Op → Option Op
  | binary d op (.const a) (.const b) =>
    (constantOf (op.apply a.toValue b.toValue)).map (assign d)
  | unary d f (.const a) => (constantOf (f.apply a.toValue)).map (assign d)
  | _ => none

/-- The operation carried out, if it is one between constants. -/
def fold (op : Op) : Op := op.fold?.getD op

theorem dest?_of_fold? {op op' : Op} (h : op.fold? = some op') : op'.dest? = op.dest? := by
  unfold fold? at h
  split at h
  · obtain ⟨c, -, rfl⟩ := Option.map_eq_some_iff.1 h
    rfl
  · obtain ⟨c, -, rfl⟩ := Option.map_eq_some_iff.1 h
    rfl
  · cases h

@[simp] theorem dest?_fold (op : Op) : op.fold.dest? = op.dest? := by
  unfold fold
  cases h : op.fold? with
  | none => rfl
  | some op' => exact dest?_of_fold? h

end Op

/-- Carries out operations between constants that do not fault. -/
def folding (code : List Instr) : Passed :=
  ⟨code.map fun i => { i with op := i.op.fold }, code.countP fun i => i.op.fold?.isSome⟩

theorem length_folding (code : List Instr) : (folding code).code.length = code.length := by
  simp [folding]

/-! ### Propagation -/

/-- Constants that places are known to hold. -/
abbrev Facts := Store Place Constant

namespace Facts

/-- The constant that an operand is known to hold. -/
def known? (facts : Facts) : Operand → Option Constant
  | .place p => facts.get? p
  | _ => none

/-- The operand, or the constant that it is known to hold. -/
def replace (facts : Facts) (o : Operand) : Operand :=
  match facts.known? o with
  | some c => .const c
  | none => o

/-- What is known after an operation.  Nothing is known at a label, where control may come
from elsewhere; and a call may change every variable. -/
def after (facts : Facts) : Op → Facts
  | .assign d c => facts.set d c
  | .store base _ _ _ => facts.erase base
  | .call _ _ => facts.restrict Place.isTemp
  | .label _ => []
  | op =>
    if op.endsBlock then []
    else
      match op.dest? with
      | some d => facts.erase d
      | none => facts

end Facts

namespace Op

/-- Whether an operation copies a constant. -/
def copiesConstant : Op → Bool
  | copy _ (.const _) => true
  | _ => false

/-- The operation, or the assignment that copying a constant amounts to. -/
def settle : Op → Op
  | copy d (.const c) => assign d c
  | op => op

/-- The operation with the places that are known replaced. -/
def propagate (facts : Facts) (op : Op) : Op := (op.mapOperands facts.replace).settle

/-- How many changes `propagate` makes to an operation. -/
def propagations (facts : Facts) (op : Op) : Nat :=
  (op.operands.countP fun o => (facts.known? o).isSome)
    + if (op.mapOperands facts.replace).copiesConstant then 1 else 0

@[simp] theorem dest?_settle (op : Op) : op.settle.dest? = op.dest? := by
  unfold settle
  split <;> rfl

@[simp] theorem dest?_propagate (facts : Facts) (op : Op) :
    (op.propagate facts).dest? = op.dest? := by
  simp [propagate]

end Op

/-- Replaces places that are known to hold constants, beginning with what is known before. -/
def propagationFrom (facts : Facts) : List Instr → Passed
  | [] => ⟨[], 0⟩
  | i :: is =>
    let op := i.op.propagate facts
    let rest := propagationFrom (facts.after op) is
    ⟨{ i with op := op } :: rest.code, i.op.propagations facts + rest.changes⟩

/-- Replaces places that are known to hold constants. -/
def propagation (code : List Instr) : Passed := propagationFrom [] code

theorem length_propagationFrom (facts : Facts) (code : List Instr) :
    (propagationFrom facts code).code.length = code.length := by
  induction code generalizing facts with
  | nil => rfl
  | cons i is ih => simp [propagationFrom, ih]

theorem length_propagation (code : List Instr) :
    (propagation code).code.length = code.length :=
  length_propagationFrom [] code

end NumericScript
