import NumericScript.Code

/-! # Passes

What a pass of the optimizer makes of code, and how often temporaries occur in it. -/

namespace NumericScript

/-- Code after a pass, and how many changes the pass made. -/
structure Passed where
  code : List Instr
  changes : Nat
deriving DecidableEq, Repr

namespace Passed

/-- Code after a pass that only takes instructions away. -/
def ofRemoval (before after : List Instr) : Passed := ⟨after, before.length - after.length⟩

/-- Another pass after those before. -/
def andThen (p : Passed) (pass : List Instr → Passed) : Passed :=
  let q := pass p.code
  ⟨q.code, p.changes + q.changes⟩

@[simp] theorem andThen_code (p : Passed) (pass : List Instr → Passed) :
    (p.andThen pass).code = (pass p.code).code := rfl

@[simp] theorem ofRemoval_code (before after : List Instr) :
    (ofRemoval before after).code = after := rfl

end Passed

namespace Op

/-- The temporary that an operand is. -/
def operandTemp? : Operand → Option Nat
  | .place (.temp t) => some t
  | _ => none

/-- The temporaries that an operation reads.  Storing an element reads the container. -/
def tempsRead (op : Op) : List Nat :=
  let base := match op with
    | store (.temp t) _ _ _ => [t]
    | _ => []
  base ++ op.operands.filterMap operandTemp?

/-- The temporary that an operation writes. -/
def tempWritten? (op : Op) : Option Nat :=
  match op.dest? with
  | some (.temp t) => some t
  | _ => none

end Op

/-- The temporaries that are read in code, as often as they are. -/
def tempsRead (code : List Instr) : List Nat := code.flatMap (·.op.tempsRead)

/-- The temporaries that are written in code, as often as they are. -/
def tempsWritten (code : List Instr) : List Nat := code.filterMap (·.op.tempWritten?)

end NumericScript
