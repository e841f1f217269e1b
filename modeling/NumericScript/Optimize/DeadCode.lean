import NumericScript.Optimize.Pass

/-! # Dead code

A pass that takes away what a run never comes to and what it computes in vain: instructions
that control cannot reach, labels that nothing jumps to, and temporaries that nothing reads.

* `deadCode_sublist`: what stays keeps its order. -/

namespace NumericScript

/-- Takes away instructions after an unconditional transfer of control, up to the next
label. -/
def dropUnreachable (reached : Bool) : List Instr → List Instr
  | [] => []
  | i :: is =>
    if i.op.label?.isSome then i :: dropUnreachable true is
    else if reached then i :: dropUnreachable (!i.op.endsBlock) is
    else dropUnreachable false is

/-- Takes away labels of loops and branches that nothing jumps to. -/
def dropUnusedLabels (code : List Instr) : List Instr :=
  let targets := code.filterMap (·.op.target?)
  code.filter fun i =>
    match i.op with
    | .label (.local l) => .local l ∈ targets
    | _ => true

/-- Whether an operator never faults on truth values or is a comparison. -/
def BinaryOp.isTest : BinaryOp → Bool
  | .eq | .ne | .lt | .le | .gt | .ge | .and | .or => true
  | _ => false

/-- Whether all that an operation does is to write its place. -/
def Op.isPure : Op → Bool
  | .assign _ _ | .copy _ _ | .unary _ _ _ | .newArray _ _ | .newMatrix _ _ _ => true
  | .binary _ op (.const a) (.const b) => (op.apply a.toValue b.toValue).toBool
  | .binary _ op _ _ => op.isTest
  | _ => false

/-- Whether an operation only writes a temporary that is not among those read. -/
def Op.isIdle (read : List Nat) (op : Op) : Bool :=
  match op.tempWritten? with
  | some t => op.isPure && t ∉ read
  | none => false

/-- Takes away operations that only write temporaries which nothing reads. -/
def dropIdle (code : List Instr) : List Instr :=
  let read := tempsRead code
  code.filter fun i => !i.op.isIdle read

/-- Takes away operations that only write temporaries which nothing reads, until there are
none. -/
def dropAllIdle (code : List Instr) : List Instr :=
  let less := dropIdle code
  if less.length < code.length then dropAllIdle less else code
termination_by code.length

/-- Takes away dead code. -/
def deadCode (code : List Instr) : Passed :=
  .ofRemoval code (dropAllIdle (dropUnusedLabels (dropUnreachable true code)))

theorem dropUnreachable_sublist (reached : Bool) (code : List Instr) :
    (dropUnreachable reached code).Sublist code := by
  induction code generalizing reached with
  | nil => exact List.Sublist.refl _
  | cons i is ih =>
    unfold dropUnreachable
    split
    · exact (ih true).cons_cons i
    · split
      · exact (ih _).cons_cons i
      · exact (ih false).cons i

theorem dropUnusedLabels_sublist (code : List Instr) : (dropUnusedLabels code).Sublist code :=
  List.filter_sublist

theorem dropIdle_sublist (code : List Instr) : (dropIdle code).Sublist code :=
  List.filter_sublist

theorem dropAllIdle_sublist (code : List Instr) : (dropAllIdle code).Sublist code := by
  fun_induction dropAllIdle code with
  | case1 code less _ ih => exact ih.trans (dropIdle_sublist code)
  | case2 code less _ => exact List.Sublist.refl _

theorem deadCode_sublist (code : List Instr) : (deadCode code).code.Sublist code :=
  ((dropAllIdle_sublist _).trans (dropUnusedLabels_sublist _)).trans
    (dropUnreachable_sublist true code)

end NumericScript
