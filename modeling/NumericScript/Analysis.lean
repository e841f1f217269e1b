import NumericScript.Analysis.Report
import NumericScript.Scope
import NumericScript.Settings
import NumericScript.Spelling
import NumericScript.Typing

/-! # Analysis

One pass over a program binds every name of a variable to its declaration, gives every
expression a type, and reports what is wrong.  It goes on after every report.

The annotations are written into the tree.  An annotation that is there already stays, so
analysing an analysed tree changes nothing in it. -/

namespace NumericScript

/-- The function whose body is analysed. -/
structure Enclosing where
  name : String
  returns : Ty
deriving DecidableEq, Repr

namespace Analysis

/-- What analysis knows on its way through a program. -/
structure State where
  scopes : Scopes
  reports : List SemanticReport
  settings : SuggestionSettings
  enclosing : Option Enclosing
  /-- How many loops enclose the statement. -/
  loops : Nat
  /-- How many local variables have hidden another one so far. -/
  shadows : Nat

/-- The state at the beginning of a program. -/
def State.start (settings : SuggestionSettings) : State := ⟨.empty, [], settings, none, 0, 0⟩

end Analysis

/-- Steps of analysis. -/
abbrev Analyze (α : Type) := StateM Analysis.State α

namespace Analysis

/-! ### Reports and scopes -/

/-- Reports `cause` at `loc`, with names that may have been meant. -/
def reportNear (cause : SemanticError) (loc : Loc) (suggestions : List String) : Analyze Unit :=
  modify fun s => { s with reports := s.reports ++ [⟨cause, loc, suggestions⟩] }

/-- Reports `cause` at `loc`. -/
def report (cause : SemanticError) (loc : Loc) : Analyze Unit := reportNear cause loc []

/-- Reports `cause` at `loc` unless `ok`. -/
def demand (ok : Bool) (cause : SemanticError) (loc : Loc) : Analyze Unit :=
  if ok then pure () else report cause loc

/-- Changes the scopes. -/
def modifyScopes (f : Scopes → Scopes) : Analyze Unit :=
  modify fun s => { s with scopes := f s.scopes }

/-- Does `x` in a scope of its own. -/
def inScope {α : Type} (x : Analyze α) : Analyze α := do
  modifyScopes Scopes.enter
  let a ← x
  modifyScopes Scopes.exit
  pure a

/-- Does `x` inside one loop more. -/
def inLoop {α : Type} (x : Analyze α) : Analyze α := do
  modify fun s => { s with loops := s.loops + 1 }
  let a ← x
  modify fun s => { s with loops := s.loops - 1 }
  pure a

/-- Does `x` inside the body of a function, outside of all loops. -/
def inFunction {α : Type} (f : Enclosing) (x : Analyze α) : Analyze α := do
  let before ← get
  set { before with enclosing := some f, loops := 0 }
  let a ← x
  modify fun s => { s with enclosing := before.enclosing, loops := before.loops }
  pure a

/-! ### Variables -/

/-- The slot of a variable declared now: its name, or for a local variable that hides another
one its name and a number not used before. -/
def newSlot (name : String) (storage : Storage) : Analyze String := do
  let s ← get
  let hides := match s.scopes.resolve? name with
    | some (_, symbol) => symbol.storage = .local && !symbol.isFunction
    | none => false
  if storage = .local && hides then
    set { s with shadows := s.shadows + 1 }
    pure (name ++ "#" ++ toString (s.shadows + 1))
  else pure name

/-- Declares a variable or a parameter, and binds its name if it is new in its scope. -/
def declare (x : Name) (ty : Ty) (kind : SymbolKind) (loc : Loc) : Analyze Name := do
  let storage : Storage := if (← get).scopes.isGlobal then .global else .local
  let slot ← newSlot x.text storage
  let scopes := (← get).scopes
  match scopes.declare ⟨x.text, kind, ty, 0, loc, true, false, slot, storage⟩ with
  | .ok (_, scopes) =>
    modifyScopes fun _ => scopes
    pure (x.bind ⟨slot, ty, storage⟩)
  | .error existing =>
    let line := ((scopes.symbol? existing).map (·.loc.line)).getD 0
    report (.redeclaration x.text line) loc
    pure x

/-- Reports an undeclared variable, with the variables in sight that are spelled alike. -/
def reportUndeclared (name : String) (loc : Loc) : Analyze Unit := do
  let s ← get
  let candidates := s.scopes.visible fun symbol => !symbol.isFunction
  reportNear (.undeclaredVariable name) loc
    (Spelling.suggest name candidates s.settings.maxDistance s.settings.maxCandidates)

/-- Looks up a variable and binds the name to it; `read` marks it as used.  Gives the name and
the variable found. -/
def resolve (x : Name) (loc : Loc) (read : Bool) : Analyze (Name × Option (Nat × Symbol)) := do
  match (← get).scopes.resolve? x.text with
  | none =>
    reportUndeclared x.text loc
    pure (x, none)
  | some (id, symbol) =>
    if symbol.isFunction then
      report (.notAVariable x.text) loc
      pure (x, none)
    else
      if read then modifyScopes (·.update id fun s => { s with used := true })
      pure (x.bind symbol.binding, some (id, symbol))

/-! ### Calls -/

/-- Compares arguments with demands, counting from `position`. -/
def checkArguments (f : String) (loc : Loc) : Nat → List Demand → List Ty → Analyze Unit
  | position, d :: ds, t :: ts => do
    demand (d.accepts t) (.argumentType f position d t) loc
    checkArguments f loc (position + 1) ds ts
  | _, _, _ => pure ()

/-- The type of a call to a function of the program or a builtin, if there is one. -/
def callee? (s : Scopes) (f : String) : Option (Nat × List Ty × Ty) := do
  let id ← s.lookupGlobal f
  match (← s.symbol? id).kind with
  | .function params returns => some (id, params, returns)
  | _ => none

/-- Reports an undeclared function, with functions that are spelled alike. -/
def reportUndeclaredFunction (f : String) (loc : Loc) : Analyze Unit := do
  let s ← get
  let candidates := s.scopes.visible Symbol.isFunction ++ Builtin.all.map Builtin.name
  reportNear (.undeclaredFunction f) loc
    (Spelling.suggest f candidates s.settings.maxDistance s.settings.maxCandidates)

/-- The type of a call.  Functions of the program come before builtins. -/
def callTy (f : String) (args : List Ty) (loc : Loc) : Analyze Ty := do
  match callee? (← get).scopes f with
  | some (id, params, returns) =>
    modifyScopes (·.update id fun s => { s with used := true })
    if params.length = args.length then
      checkArguments f loc 1 (params.map Demand.ty) args
    else report (.argumentCount f params.length args.length) loc
    pure returns
  | none =>
    match Builtin.ofName? f with
    | some b =>
      if b.acceptsArity args.length then
        checkArguments f loc 1 (b.params.map Demand.kind) args
      else report (.argumentCount f b.params.length args.length) loc
      pure b.returns
    | none =>
      if ((← get).scopes.lookup f).isSome then report (.notAFunction f) loc
      else reportUndeclaredFunction f loc
      pure .unknown

/-! ### Operators, indices and literals -/

/-- The type of an operation between operands; nothing is refused of which nothing is
known. -/
def binaryTy (op : BinaryOp) (left right : Ty) (loc : Loc) : Analyze Ty :=
  if left.isUnknown || right.isUnknown then pure .unknown
  else
    match op.ty? left right with
    | some t => pure t
    | none => do
      report (.invalidOperands op left right) loc
      pure .unknown

/-- The type of an operation on one operand. -/
def unaryTy (op : UnaryOp) (operand : Ty) (loc : Loc) : Analyze Ty :=
  if operand.isUnknown then pure .unknown
  else
    match op.ty? operand with
    | some t => pure t
    | none => do
      report (.invalidOperand op operand) loc
      pure .unknown

/-- Whether a whole number is possible. -/
def maybeInt (t : Ty) : Bool := t = .int || t = .unknown

/-- Whether a truth value is possible. -/
def maybeBool (t : Ty) : Bool := t = .bool || t = .unknown

/-- Checks the type of an index. -/
def checkIndex (index : Expr × Ty) : Analyze Unit :=
  demand (maybeInt index.2) (.indexNotInt index.2) index.1.loc

/-- The type of an element of a container, at one index or two. -/
def elementTy (container : Ty) (two : Bool) (loc : Loc) : Analyze Ty := do
  match container, two with
  | .unknown, _ => pure .unknown
  | .array e, false => pure e
  | .matrix _, true => pure .float
  | .array _, true => report .arrayIndexArity loc; pure .unknown
  | .matrix _, false => report .matrixIndexArity loc; pure .unknown
  | t, _ => report (.notIndexable t) loc; pure .unknown

/-- The type of the elements of an array literal so far, after one more of type `found`. -/
def joinElement (element found : Ty) (loc : Loc) : Analyze Ty := do
  match element, found with
  | element, .void => report .voidValue loc; pure element
  | element, .unknown => pure element
  | .unknown, found => pure found
  | .int, .float | .float, .int => pure .float
  | element, found =>
    if element = found then pure found
    else
      report (.mixedArrayElements element found) loc
      pure element

/-- Checks the length of a row of a matrix literal.  An empty row has no place. -/
def checkRow (cols row : Nat) (items : List Expr) : Analyze Unit :=
  demand (items.length = cols) (.raggedMatrix cols row items.length)
    ((items.head?.map Expr.loc).getD ⟨0, 0⟩)

/-! ### Expressions -/

mutual

/-- Analyses an expression: the annotated expression, and its type. -/
def expr : Expr → Analyze (Expr × Ty)
  | .int m v => pure (.int (m.annotate .int) v, .int)
  | .float m v => pure (.float (m.annotate .float) v, .float)
  | .str m v => pure (.str (m.annotate .str) v, .str)
  | .bool m v => pure (.bool (m.annotate .bool) v, .bool)
  | .name m x => do
    let (x, found) ← resolve x m.loc true
    let t := match found with
      | some (_, symbol) => symbol.ty
      | none => .unknown
    pure (.name (m.annotate t) x, t)
  | .binary m op l r => do
    let (l, left) ← expr l
    let (r, right) ← expr r
    let t ← binaryTy op left right m.loc
    pure (.binary (m.annotate t) op l r, t)
  | .unary m op e => do
    let (e, operand) ← expr e
    let t ← unaryTy op operand m.loc
    pure (.unary (m.annotate t) op e, t)
  | .call m f args => do
    let args ← exprs args
    let t ← callTy f (args.map (·.2)) m.loc
    pure (.call (m.annotate t) f (args.map (·.1)), t)
  | .array m items => do
    let (items, element) ← elements .unknown items
    pure (.array (m.annotate (.array element)) items, .array element)
  | .matrix m rows => do
    let cols := (rows.headD []).length
    let t : Ty := .matrix (some (rows.length, cols))
    let rows ← matrixRows cols 1 rows
    pure (.matrix (m.annotate t) rows, t)
  | .index m base row none => do
    let (base, container) ← expr base
    let row ← expr row
    checkIndex row
    let t ← elementTy container false m.loc
    pure (.index (m.annotate t) base row.1 none, t)
  | .index m base row (some col) => do
    let (base, container) ← expr base
    let row ← expr row
    checkIndex row
    let col ← expr col
    checkIndex col
    let t ← elementTy container true m.loc
    pure (.index (m.annotate t) base row.1 (some col.1), t)

/-- Analyses expressions from left to right. -/
def exprs : List Expr → Analyze (List (Expr × Ty))
  | [] => pure []
  | e :: es => do
    let e ← expr e
    let es ← exprs es
    pure (e :: es)

/-- Analyses the elements of an array literal, given the type of those before. -/
def elements (element : Ty) : List Expr → Analyze (List Expr × Ty)
  | [] => pure ([], element)
  | e :: es => do
    let (e, found) ← expr e
    let element ← joinElement element found e.loc
    let (es, element) ← elements element es
    pure (e :: es, element)

/-- Analyses the entries of one row of a matrix literal. -/
def entries : List Expr → Analyze (List Expr)
  | [] => pure []
  | e :: es => do
    let (e, found) ← expr e
    demand (found.isNumeric || found.isUnknown) (.nonNumericMatrixElement found) e.loc
    let es ← entries es
    pure (e :: es)

/-- Analyses the rows of a matrix literal, counting from `row`. -/
def matrixRows (cols row : Nat) : List (List Expr) → Analyze (List (List Expr))
  | [] => pure []
  | es :: rows => do
    checkRow cols row es
    let es ← entries es
    let rows ← matrixRows cols (row + 1) rows
    pure (es :: rows)

end

/-- Analyses an expression that may be missing. -/
def optional : Option Expr → Analyze (Option (Expr × Ty))
  | none => pure none
  | some e => do
    let e ← expr e
    pure (some e)

/-- Analyses a condition. -/
def condition (construct : Keyword) (e : Expr) : Analyze Expr := do
  let (e, found) ← expr e
  demand (maybeBool found) (.conditionNotBoolean construct found) e.loc
  pure e

/-! ### Statements -/

/-- The type of a declared variable, after a look at its initial value. -/
def declaredTy (x : String) (declared init : Ty) (loc : Loc) : Analyze Ty := do
  if declared = .void then
    report (.voidVariable x) loc
    pure .unknown
  else if declared.accepts init then pure (declared.refine init)
  else
    report (.assignMismatch x declared init) loc
    pure declared

/-- Analyses the subscript of an assignment to a container and gives the type of the
element. -/
def subscript (container : Ty) (s : Subscript) (loc : Loc) : Analyze (Subscript × Ty) := do
  let row ← expr s.row
  checkIndex row
  let col ← optional s.col
  match col with
  | some col => checkIndex col
  | none => pure ()
  let t ← elementTy container col.isSome loc
  pure (⟨row.1, col.map (·.1)⟩, t)

/-- Analyses the subscript of an assignment to nothing known. -/
def looseSubscript : Option Subscript → Analyze (Option Subscript)
  | none => pure none
  | some s => do
    let (row, _) ← expr s.row
    let col ← optional s.col
    pure (some ⟨row, col.map (·.1)⟩)

/-- Analyses the target of an assignment to a known variable and gives its type. -/
def target (id : Nat) (symbol : Symbol) (loc : Loc) :
    Option Subscript → Analyze (Option Subscript × Ty)
  | none => pure (none, symbol.ty)
  | some s => do
    modifyScopes (·.update id fun s => { s with used := true })
    let (s, t) ← subscript symbol.ty s loc
    pure (some s, t)

/-- Analyses an assignment. -/
def assignment (loc : Loc) (x : Name) (sub : Option Subscript) (value : Expr) :
    Analyze Stmt := do
  let (value, found) ← expr value
  let (x, resolved) ← resolve x loc false
  match resolved with
  | none =>
    let sub ← looseSubscript sub
    pure (.assign loc x sub value)
  | some (id, symbol) =>
    let (sub, t) ← target id symbol loc sub
    demand (t.accepts found) (.assignMismatch x.text t found) loc
    modifyScopes (·.update id fun s => { s with initialized := true })
    pure (.assign loc x sub value)

/-- What is wrong with a `return` of a value of type `found` from `f`. -/
def returnError? (f : Enclosing) (found : Option Ty) : Option SemanticError :=
  match found with
  | none => if f.returns = .void then none else some (.missingReturnValue f.name f.returns)
  | some t =>
    if f.returns = .void then some (.unexpectedReturnValue f.name)
    else if f.returns.accepts t then none
    else some (.returnTypeMismatch f.name f.returns t)

/-- Checks a `return` of a value of type `found`. -/
def checkReturn (found : Option Ty) (loc : Loc) : Analyze Unit := do
  match (← get).enclosing with
  | none => report .returnOutsideFunction loc
  | some f =>
    match returnError? f found with
    | some cause => report cause loc
    | none => pure ()

/-- Checks that a statement stands inside a loop. -/
def checkLoop (keyword : Keyword) (loc : Loc) : Analyze Unit := do
  demand ((← get).loops ≠ 0) (.loopControlOutsideLoop keyword) loc

/-- Analyses the values that a statement prints. -/
def printed : List Expr → Analyze (List Expr)
  | [] => pure []
  | e :: es => do
    let (e, found) ← expr e
    demand (found ≠ .void) .voidValue e.loc
    let es ← printed es
    pure (e :: es)

/-- Whether input can be read into a variable of that type. -/
def readable : Ty → Bool
  | .int | .float | .str | .bool | .unknown => true
  | _ => false

/-- Analyses the target of an input statement. -/
def inputTarget (x : Name) (loc : Loc) : Analyze Name := do
  let (x, resolved) ← resolve x loc false
  match resolved with
  | none => pure x
  | some (id, symbol) =>
    demand (readable symbol.ty) (.inputTarget x.text symbol.ty) loc
    modifyScopes (·.update id fun s => { s with initialized := true })
    pure x

/-- Declares a parameter. -/
def parameter (p : Param) : Analyze Param := do
  let ty ← if p.ty = .void then do
      report (.voidVariable p.name.text) p.loc
      pure Ty.unknown
    else pure p.ty
  let x ← declare p.name ty .parameter p.loc
  pure { p with name := x }

/-- Declares parameters from left to right. -/
def parameters : List Param → Analyze (List Param)
  | [] => pure []
  | p :: ps => do
    let p ← parameter p
    let ps ← parameters ps
    pure (p :: ps)

mutual

/-- Analyses a statement; functions may stand only at top level. -/
def stmt (top : Bool) : Stmt → Analyze Stmt
  | .decl loc x declared init => do
    let (init, found) ← expr init
    let t ← declaredTy x.text declared found loc
    let x ← declare x t .variable loc
    pure (.decl loc x declared init)
  | .assign loc x sub value => assignment loc x sub value
  | .function loc f returns params body => do
    if top then
      inScope do
        let params ← parameters params
        let body ← inFunction ⟨f, returns⟩ (stmts body)
        pure (.function loc f returns params body)
    else
      report (.nestedFunction f) loc
      pure (.function loc f returns params body)
  | .cond loc c body none => do
    let c ← condition .if c
    let body ← inScope (stmts body)
    pure (.cond loc c body none)
  | .cond loc c body (some orElse) => do
    let c ← condition .if c
    let body ← inScope (stmts body)
    let orElse ← inScope (stmts orElse)
    pure (.cond loc c body (some orElse))
  | .while loc c body => do
    let c ← condition .while c
    let body ← inLoop (inScope (stmts body))
    pure (.while loc c body)
  | .repeat loc count body => do
    let (count, found) ← expr count
    demand (maybeInt found) (.repeatCountNotInt found) count.loc
    let body ← inLoop (inScope (stmts body))
    pure (.repeat loc count body)
  | .for loc init c update body => inScope do
    let init ← stmt false init
    let c ← condition .for c
    let update ← stmt false update
    let body ← inLoop (inScope (stmts body))
    pure (.for loc init c update body)
  | .break loc => do
    checkLoop .break loc
    pure (.break loc)
  | .continue loc => do
    checkLoop .continue loc
    pure (.continue loc)
  | .return loc value => do
    let value ← optional value
    checkReturn (value.map (·.2)) loc
    pure (.return loc (value.map (·.1)))
  | .print loc values => do
    let values ← printed values
    pure (.print loc values)
  | .input loc x => do
    let x ← inputTarget x loc
    pure (.input loc x)
  | .expr loc e => do
    let (e, _) ← expr e
    pure (.expr loc e)

/-- Analyses the statements of a block. -/
def stmts : List Stmt → Analyze (List Stmt)
  | [] => pure []
  | s :: ss => do
    let s ← stmt false s
    let ss ← stmts ss
    pure (s :: ss)

end

/-! ### Programs -/

/-- Declares the functions of a program, so that they can be called before their place. -/
def hoist : Program → Analyze Unit
  | [] => pure ()
  | .function loc f returns params _ :: rest => do
    let scopes := (← get).scopes
    let kind : SymbolKind := .function (params.map (·.ty)) returns
    match scopes.declare ⟨f, kind, returns, 0, loc, true, false, f, .global⟩ with
    | .ok (_, scopes) => modifyScopes fun _ => scopes
    | .error existing =>
      let line := ((scopes.symbol? existing).map (·.loc.line)).getD 0
      report (.redeclaration f line) loc
    hoist rest
  | _ :: rest => hoist rest

/-- Analyses the statements at top level. -/
def topLevel : Program → Analyze Program
  | [] => pure []
  | s :: ss => do
    let s ← stmt true s
    let ss ← topLevel ss
    pure (s :: ss)

/-- The warnings about variables that are never used. -/
def unused (symbols : List Symbol) : List SemanticReport :=
  (symbols.filter fun s => s.isVariable && !s.used).map fun s => ⟨.unusedVariable s.name, s.loc, []⟩

end Analysis

/-- The result of analysis: the annotated program, the symbols and the reports. -/
structure Analysis where
  program : Program
  symbols : List Symbol
  reports : List SemanticReport
deriving Repr

/-- Analyses a program. -/
def Program.analyze (program : Program) (settings : SuggestionSettings) : Analysis :=
  let (annotated, s) := (do
    Analysis.hoist program
    Analysis.topLevel program).run (Analysis.State.start settings)
  let symbols := s.scopes.symbols.toList
  ⟨annotated, symbols, s.reports ++ Analysis.unused symbols⟩

end NumericScript
