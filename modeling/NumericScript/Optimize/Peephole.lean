import NumericScript.Optimize.Pass

/-! # Neighbouring instructions

A pass that looks at one or two instructions at a time: branches on constants, jumps to where
control goes anyway, copies of a place to itself, and values that take a detour over a
temporary on their way to a variable. -/

namespace NumericScript

/-! ### Jumps -/

/-- The instruction that a branch amounts to.  A branch on a false constant always jumps, and
one on a true constant never does and is not needed. -/
def decideBranch (i : Instr) : Option Instr :=
  match i.op with
  | .jumpIfFalse (.const (.bool true)) _ => none
  | .jumpIfFalse (.const (.bool false)) l => some { i with op := .jump l }
  | _ => some i

/-- Whether an operation is a branch on a constant. -/
def Op.isDecided : Op → Bool
  | .jumpIfFalse (.const (.bool _)) _ => true
  | _ => false

/-- Decides branches on constants. -/
def decideBranches (code : List Instr) : Passed :=
  ⟨code.filterMap decideBranch, code.countP (·.op.isDecided)⟩

/-- Whether code begins with labels among which `l` is. -/
def opensWith (l : Label) : List Instr → Bool
  | [] => false
  | i :: is =>
    match i.op.label? with
    | some l' => l' = l || opensWith l is
    | none => false

/-- Takes away jumps to a label that comes next, perhaps after other labels. -/
def dropJumpsToNext : List Instr → List Instr
  | [] => []
  | i :: is =>
    match i.op with
    | .jump l => if opensWith l is then dropJumpsToNext is else i :: dropJumpsToNext is
    | _ => i :: dropJumpsToNext is

/-! ### Copies -/

/-- Whether an operation copies a place to itself. -/
def Op.isSelfCopy : Op → Bool
  | .copy d s => s = .place d
  | _ => false

/-- Takes away copies of a place to itself. -/
def dropSelfCopies (code : List Instr) : List Instr := code.filter fun i => !i.op.isSelfCopy

/-- Two instructions in one, where the first writes a temporary that the second copies to a
variable and `single` says that it serves for nothing else. -/
def joined? (single : Nat → Bool) (i j : Instr) : Option Instr :=
  match i.op.tempWritten?, j.op with
  | some t, .copy (.var v) (.place (.temp s)) =>
    if s = t && single t then some { i with op := i.op.withDest (.var v) } else none
  | _, _ => none

/-- Joins instructions where it is possible, from front to back. -/
def joinCopies (single : Nat → Bool) : List Instr → List Instr
  | i :: j :: is =>
    match joined? single i j with
    | some k => k :: joinCopies single is
    | none => i :: joinCopies single (j :: is)
  | is => is

/-- Spares temporaries that are written once and read once, by a copy that follows. -/
def spareTemps (code : List Instr) : List Instr :=
  let read := tempsRead code
  let written := tempsWritten code
  joinCopies (fun t => written.count t = 1 && read.count t = 1) code

/-! ### The pass -/

/-- Simplifies neighbouring instructions. -/
def peephole (code : List Instr) : Passed :=
  let removing (f : List Instr → List Instr) (code : List Instr) : Passed :=
    .ofRemoval code (f code)
  (((decideBranches code).andThen (removing dropJumpsToNext)).andThen
    (removing dropSelfCopies)).andThen (removing spareTemps)

theorem dropJumpsToNext_sublist (code : List Instr) : (dropJumpsToNext code).Sublist code := by
  induction code with
  | nil => exact List.Sublist.refl _
  | cons i is ih =>
    unfold dropJumpsToNext
    split
    · split
      · exact ih.cons i
      · exact ih.cons_cons i
    · exact ih.cons_cons i

theorem dropSelfCopies_sublist (code : List Instr) : (dropSelfCopies code).Sublist code :=
  List.filter_sublist

end NumericScript
