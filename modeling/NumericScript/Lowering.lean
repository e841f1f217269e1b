import NumericScript.Code.Labels

/-! # Lowering

From annotated programs to three-address code.  The statements at top level come first and end
in `halt`; after them comes one region of code for every function.

A part of a program is lowered to a piece of code, and an expression also to the operand that
holds its value.  Pieces are put together by `++`; what they share is only the supply of
temporaries and labels and the line of the statement at hand. -/

namespace NumericScript

namespace Lowering

/-- What a call has to know of a function of the program. -/
structure Signature where
  params : List Ty
  returns : Ty
deriving DecidableEq, Repr

/-- Where `continue` and `break` jump. -/
structure LoopLabels where
  again : Label
  after : Label
deriving DecidableEq, Repr

/-- What surrounds a statement. -/
structure Context where
  signatures : Store String Signature
  /-- The type that `return` is asked for. -/
  returns : Ty
  /-- The labels of the innermost loop. -/
  loop : Option LoopLabels

/-- The supplies of temporaries and labels, and the line of the statement at hand. -/
structure State where
  temps : Nat
  labels : Nat
  line : Nat
deriving DecidableEq, Repr

end Lowering

/-- Steps of lowering. -/
abbrev Lower (α : Type) := StateT Lowering.State (Except CodeError) α

namespace Lowering

/-- A temporary not used before. -/
def freshTemp : Lower Place :=
  modifyGet fun s => (.temp s.temps, { s with temps := s.temps + 1 })

/-- A label not used before. -/
def freshLabel : Lower Label :=
  modifyGet fun s => (.local s.labels, { s with labels := s.labels + 1 })

/-- Goes to a line of the source. -/
def atLine (line : Nat) : Lower Unit := modify fun s => { s with line := line }

/-- The piece of code for one operation. -/
def one (op : Op) : Lower (List Instr) := do
  let s ← get
  pure [⟨op, s.line⟩]

/-- The operation that puts an operand into a place. -/
def put (dest : Place) : Operand → Op
  | .const c => .assign dest c
  | src => .copy dest src

/-- The variable that a name is bound to, and its type. -/
def slotOf (x : Name) : Lower (Variable × Ty) := do
  match x.binding with
  | some b => pure (⟨b.slot, b.storage⟩, b.ty)
  | none =>
    let s ← get
    throw (.unresolved x.text s.line)

/-! ### Operands -/

/-- Widens a whole number where a double is asked for. -/
def widen (value : Operand) (found expected : Ty) : Lower (List Instr × Operand) := do
  if found = .int ∧ expected = .float then
    match value with
    | .const (.int n) => pure ([], .const (.float (.ofInt64 n)))
    | value =>
      let t ← freshTemp
      let code ← one (.unary t .toFloat value)
      pure (code, .place t)
  else pure ([], value)

/-- Keeps the present value of a variable in a temporary. -/
def pin (value : Operand) : Lower (List Instr × Operand) := do
  match value with
  | .place (.var v) =>
    let t ← freshTemp
    let code ← one (.copy t (.place (.var v)))
    pure (code, .place t)
  | value => pure ([], value)

/-- Keeps the present value of a variable if something later could change it. -/
def pinIf (changes : Bool) (value : Operand) : Lower (List Instr × Operand) :=
  if changes then pin value else pure ([], value)

mutual

/-- Whether an expression contains a call. -/
def calls : Expr → Bool
  | .int _ _ | .float _ _ | .str _ _ | .bool _ _ | .name _ _ => false
  | .binary _ _ l r => calls l || calls r
  | .unary _ _ e => calls e
  | .call _ _ _ => true
  | .array _ items => callsAny items
  | .matrix _ rows => callsAnyRow rows
  | .index _ base row none => calls base || calls row
  | .index _ base row (some col) => calls base || calls row || calls col

/-- Whether one of several expressions contains a call. -/
def callsAny : List Expr → Bool
  | [] => false
  | e :: es => calls e || callsAny es

/-- Whether an expression in one of several rows contains a call. -/
def callsAnyRow : List (List Expr) → Bool
  | [] => false
  | es :: rows => callsAny es || callsAnyRow rows

end

/-- Whether an expression that may be missing contains a call. -/
def callsOptional : Option Expr → Bool
  | some e => calls e
  | none => false

/-! ### Calls -/

/-- What a call calls, the types of its parameters where they are known, and the type of what
it gives. -/
def callee (c : Context) (name : String) (line : Nat) : Lower (Callee × List Ty × Ty) :=
  match c.signatures.get? name with
  | some s => pure (.user name, s.params, s.returns)
  | none =>
    match Builtin.ofName? name with
    | some b => pure (.builtin b, [], b.returns)
    | none => throw (.unknownFunction name line)

/-- The code after a call that takes what the call gave, if a value is wanted and there is
one. -/
def takeResult (wanted : Bool) (returns : Ty) : Lower (List Instr × Option Operand) := do
  if !wanted || returns = .void then pure ([], none)
  else
    let t ← freshTemp
    let code ← one (.copy t .returned)
    pure (code, some (.place t))

/-- A whole number as an index. -/
def indexConst (i : Nat) : Operand := .const (.int (Int64.ofNat i))

/-! ### Expressions -/

mutual

/-- The code of an expression, and the operand that holds its value after it. -/
def expr (c : Context) : Expr → Lower (List Instr × Operand)
  | .int _ n => pure ([], .const (.int n))
  | .float _ x => pure ([], .const (.float x))
  | .str _ s => pure ([], .const (.str s))
  | .bool _ b => pure ([], .const (.bool b))
  | .name _ x => do
    let (v, _) ← slotOf x
    pure ([], .place (.var v))
  | .binary _ op l r => do
    let (left, a) ← expr c l
    let (keep, a) ← pinIf (calls r) a
    let (right, b) ← expr c r
    let t ← freshTemp
    let code ← one (.binary t op a b)
    pure (left ++ keep ++ right ++ code, .place t)
  | .unary _ op e => do
    let (operand, a) ← expr c e
    let t ← freshTemp
    let code ← one (.unary t op.fn a)
    pure (operand ++ code, .place t)
  | .call m f args => do
    let (target, params, returns) ← callee c f m.loc.line
    let passing ← arguments c params args
    let call ← one (.call target args.length)
    match (← takeResult true returns) with
    | (take, some result) => pure (passing ++ call ++ take, result)
    | (_, none) => throw (.voidValue f m.loc.line)
  | .array m items => do
    let element := ((m.ty.getD .unknown).element?).getD .unknown
    let t ← freshTemp
    let code ← one (.newArray t items.length)
    let fill ← elements c t element 0 items
    pure (code ++ fill, .place t)
  | .matrix _ rows => do
    let t ← freshTemp
    let code ← one (.newMatrix t rows.length (rows.headD []).length)
    let fill ← matrixRows c t 0 rows
    pure (code ++ fill, .place t)
  | .index _ base row none => do
    let (base, b) ← expr c base
    let (keep, b) ← pinIf (calls row) b
    let (row, i) ← expr c row
    let t ← freshTemp
    let code ← one (.load t b i none)
    pure (base ++ keep ++ row ++ code, .place t)
  | .index _ base row (some col) => do
    let (base, b) ← expr c base
    let (keep, b) ← pinIf (calls row || calls col) b
    let (first, i) ← expr c row
    let (keepRow, i) ← pinIf (calls col) i
    let (second, j) ← expr c col
    let t ← freshTemp
    let code ← one (.load t b i (some j))
    pure (base ++ keep ++ first ++ keepRow ++ second ++ code, .place t)

/-- The code that evaluates arguments and adds each to those of the next call. -/
def arguments (c : Context) (params : List Ty) : List Expr → Lower (List Instr)
  | [] => pure []
  | e :: es => do
    let (code, a) ← expr c e
    let (widening, a) ← widen a e.ty (params.headD .unknown)
    let pass ← one (.param a)
    let rest ← arguments c params.tail es
    pure (code ++ widening ++ pass ++ rest)

/-- The code that fills an array from `index` on. -/
def elements (c : Context) (array : Place) (element : Ty) (index : Nat) :
    List Expr → Lower (List Instr)
  | [] => pure []
  | e :: es => do
    let (code, a) ← expr c e
    let (widening, a) ← widen a e.ty element
    let store ← one (.store array (indexConst index) none a)
    let rest ← elements c array element (index + 1) es
    pure (code ++ widening ++ store ++ rest)

/-- The code that fills a row of a matrix from column `col` on. -/
def entries (c : Context) (matrix : Place) (row col : Nat) : List Expr → Lower (List Instr)
  | [] => pure []
  | e :: es => do
    let (code, a) ← expr c e
    let (widening, a) ← widen a e.ty .float
    let store ← one (.store matrix (indexConst row) (some (indexConst col)) a)
    let rest ← entries c matrix row (col + 1) es
    pure (code ++ widening ++ store ++ rest)

/-- The code that fills a matrix from row `row` on. -/
def matrixRows (c : Context) (matrix : Place) (row : Nat) :
    List (List Expr) → Lower (List Instr)
  | [] => pure []
  | es :: rows => do
    let code ← entries c matrix row 0 es
    let rest ← matrixRows c matrix (row + 1) rows
    pure (code ++ rest)

end

/-- The code of a call whose result is not wanted. -/
def callStatement (c : Context) (f : String) (args : List Expr) (line : Nat) :
    Lower (List Instr) := do
  let (target, params, _) ← callee c f line
  let passing ← arguments c params args
  let call ← one (.call target args.length)
  pure (passing ++ call)

/-! ### Statements -/

/-- The code of an expression that is widened to the type `expected`. -/
def widened (c : Context) (e : Expr) (expected : Ty) : Lower (List Instr × Operand) := do
  let (code, a) ← expr c e
  let (widening, a) ← widen a e.ty expected
  pure (code ++ widening, a)

/-- The code that gives a variable a new value. -/
def setVariable (c : Context) (x : Name) (value : Expr) : Lower (List Instr) := do
  let (v, ty) ← slotOf x
  let (code, a) ← widened c value ty
  let store ← one (put (.var v) a)
  pure (code ++ store)

/-- The code that gives an element of a container a new value. -/
def setElement (c : Context) (x : Name) (s : Subscript) (value : Expr) :
    Lower (List Instr) := do
  let (v, ty) ← slotOf x
  let (first, i) ← expr c s.row
  let (keepRow, i) ← pinIf (calls value || callsOptional s.col) i
  let (second, j) ← match s.col with
    | none => pure ([], none)
    | some col => do
      let (code, j) ← expr c col
      let (keep, j) ← pinIf (calls value) j
      pure (code ++ keep, some j)
  let (code, a) ← widened c value (ty.element?.getD .unknown)
  let store ← one (.store (.var v) i j a)
  pure (first ++ keepRow ++ second ++ code ++ store)

/-- The code that prints values, the last with a line feed after it. -/
def prints (c : Context) : List Expr → Lower (List Instr)
  | [] => pure []
  | e :: es => do
    let (code, a) ← expr c e
    let print ← one (.print a es.isEmpty)
    let rest ← prints c es
    pure (code ++ print ++ rest)

/-- The jump of `break` or `continue`. -/
def loopControl (c : Context) (keyword : Keyword) (target : LoopLabels → Label) (line : Nat) :
    Lower (List Instr) :=
  match c.loop with
  | some labels => one (.jump (target labels))
  | none => throw (.loopControlOutsideLoop keyword line)

mutual

/-- The code of a statement.  The code of a function is made apart from that of the statements
around it. -/
def stmt (c : Context) : Stmt → Lower (List Instr)
  | .decl loc x _ init => do
    atLine loc.line
    setVariable c x init
  | .assign loc x none value => do
    atLine loc.line
    setVariable c x value
  | .assign loc x (some s) value => do
    atLine loc.line
    setElement c x s value
  | .function loc _ _ _ _ => do
    atLine loc.line
    pure []
  | .cond loc e body none => do
    atLine loc.line
    let (test, a) ← expr c e
    let after ← freshLabel
    let skip ← one (.jumpIfFalse a after)
    let body ← block c body
    let done ← one (.label after)
    pure (test ++ skip ++ body ++ done)
  | .cond loc e body (some orElse) => do
    atLine loc.line
    let (test, a) ← expr c e
    let after ← freshLabel
    let otherwise ← freshLabel
    let skip ← one (.jumpIfFalse a otherwise)
    let body ← block c body
    let leave ← one (.jump after)
    let enter ← one (.label otherwise)
    let orElse ← block c orElse
    let done ← one (.label after)
    pure (test ++ skip ++ body ++ leave ++ enter ++ orElse ++ done)
  | .while loc e body => do
    atLine loc.line
    let again ← freshLabel
    let after ← freshLabel
    let start ← one (.label again)
    let (test, a) ← expr c e
    let skip ← one (.jumpIfFalse a after)
    let body ← block { c with loop := some ⟨again, after⟩ } body
    let back ← one (.jump again)
    let done ← one (.label after)
    pure (start ++ test ++ skip ++ body ++ back ++ done)
  | .repeat loc count body => do
    atLine loc.line
    let (counting, n) ← expr c count
    let limit ← freshTemp
    let setLimit ← one (put limit n)
    let counter ← freshTemp
    let setCounter ← one (put counter (indexConst 0))
    let start ← freshLabel
    let again ← freshLabel
    let after ← freshLabel
    let enter ← one (.label start)
    let more ← freshTemp
    let test ← one (.binary more .lt (.place counter) (.place limit))
    let skip ← one (.jumpIfFalse (.place more) after)
    let body ← block { c with loop := some ⟨again, after⟩ } body
    atLine loc.line
    let next ← one (.label again)
    let advance ← one (.binary counter .add (.place counter) (indexConst 1))
    let back ← one (.jump start)
    let done ← one (.label after)
    pure (counting ++ setLimit ++ setCounter ++ enter ++ test ++ skip ++ body ++ next ++ advance
      ++ back ++ done)
  | .for loc init e update body => do
    atLine loc.line
    let init ← stmt c init
    atLine loc.line
    let start ← freshLabel
    let again ← freshLabel
    let after ← freshLabel
    let enter ← one (.label start)
    let (test, a) ← expr c e
    let skip ← one (.jumpIfFalse a after)
    let body ← block { c with loop := some ⟨again, after⟩ } body
    atLine loc.line
    let next ← one (.label again)
    let update ← stmt c update
    atLine loc.line
    let back ← one (.jump start)
    let done ← one (.label after)
    pure (init ++ enter ++ test ++ skip ++ body ++ next ++ update ++ back ++ done)
  | .break loc => do
    atLine loc.line
    loopControl c .break (·.after) loc.line
  | .continue loc => do
    atLine loc.line
    loopControl c .continue (·.again) loc.line
  | .return loc none => do
    atLine loc.line
    one (.return none)
  | .return loc (some e) => do
    atLine loc.line
    let (code, a) ← widened c e c.returns
    let leave ← one (.return (some a))
    pure (code ++ leave)
  | .print loc values => do
    atLine loc.line
    prints c values
  | .input loc x => do
    atLine loc.line
    let (v, ty) ← slotOf x
    one (.input (.var v) ty)
  | .expr loc (.call m f args) => do
    atLine loc.line
    callStatement c f args m.loc.line
  | .expr loc e => do
    atLine loc.line
    let (code, _) ← expr c e
    pure code

/-- The code of statements one after the other. -/
def block (c : Context) : List Stmt → Lower (List Instr)
  | [] => pure []
  | s :: ss => do
    let code ← stmt c s
    let rest ← block c ss
    pure (code ++ rest)

end

/-! ### Programs -/

/-- The signatures of the functions of a program.  A later one replaces an earlier one of the
same name. -/
def signatures (p : Program) : Store String Signature :=
  p.foldl (fun s stmt =>
    match stmt with
    | .function _ f returns params _ => s.set f ⟨params.map (·.ty), returns⟩
    | _ => s) []

/-- The code of the statements at top level that are not functions, in the line of the last
of which the program halts. -/
def topLevel (c : Context) : Program → Lower (List Instr)
  | [] => one .halt
  | .function _ _ _ _ _ :: rest => topLevel c rest
  | s :: rest => do
    let code ← stmt c s
    let rest ← topLevel c rest
    pure (code ++ rest)

/-- The variables of the parameters of a function. -/
def parameters : List Param → Lower (List Variable)
  | [] => pure []
  | p :: ps => do
    let (v, _) ← slotOf p.name
    let vs ← parameters ps
    pure (v :: vs)

/-- The region of a function: its label, its body, and a `return` without value at the end. -/
def function (c : Context) (loc : Loc) (name : String) (returns : Ty) (params : List Param)
    (body : List Stmt) : Lower (List Instr × FunctionInfo) := do
  atLine loc.line
  let label : Label := .function name
  let enter ← one (.label label)
  let params ← parameters params
  let body ← block { c with returns := returns, loop := none } body
  atLine loc.line
  let leave ← one (.return none)
  pure (enter ++ body ++ leave, ⟨name, label, params, returns ≠ .void, loc.line⟩)

/-- The regions of the functions at top level. -/
def functions (c : Context) : Program → Lower (List Instr × List FunctionInfo)
  | [] => pure ([], [])
  | .function loc name returns params body :: rest => do
    let (code, info) ← function c loc name returns params body
    let (codes, infos) ← functions c rest
    pure (code ++ codes, info :: infos)
  | _ :: rest => functions c rest

end Lowering

/-- The code of an annotated program. -/
def Program.lower (p : Program) : Except CodeError Code := do
  let c : Lowering.Context := ⟨Lowering.signatures p, .unknown, none⟩
  let (code, _) ← (do
    let top ← Lowering.topLevel c p
    let (regions, functions) ← Lowering.functions c p
    pure (⟨top ++ regions, functions⟩ : Code)).run ⟨0, 0, 0⟩
  pure code

end NumericScript
