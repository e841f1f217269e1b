import NumericScript.Lowering
import NumericScript.Run

/-! # Programs carried out directly

What an annotated program does, said along its syntax tree, without code and without a machine.

An operand is evaluated when its turn comes and keeps the value that it had then.  Whether an
operation applies to its operands is found out when it is carried out.  So is that a variable has
no value yet, unless something that is evaluated after the variable could give it one: then it is
found out before that.

A program may run for ever.  So there is a bound on the turns of every loop and on how deep calls
go, and where it is reached nothing is given.

* `Direct.expr`, `Direct.stmt`: the parts of a program.
* `Direct.call`: calls of the functions of a program and of builtins.
* `Program.direct`: programs. -/

namespace NumericScript

namespace Direct

/-! ### The world -/

/-- What a program acts on. -/
structure World where
  globals : Store String Value
  /-- The local variables of the call at hand. -/
  locals : Store String Value
  angle : AngleMode
  output : String
  /-- The lines of input that were not read. -/
  unread : List String

/-- The value of an operand as it was when the operand was evaluated, or the fault of there being
none. -/
abbrev Captured := Except Fault Value

namespace World

/-- What a variable holds, if it holds anything. -/
def get? (w : World) (b : Binding) : Option Value :=
  match b.storage with
  | .global => w.globals.get? b.slot
  | .local => w.locals.get? b.slot

/-- The present value of a variable. -/
def value (w : World) (b : Binding) : Captured :=
  match w.get? b with
  | some v => .ok v
  | none => .error (.undefinedVariable b.slot)

/-- Gives a variable a value. -/
def set (w : World) (b : Binding) (v : Value) : World :=
  match b.storage with
  | .global => { w with globals := w.globals.set b.slot v }
  | .local => { w with locals := w.locals.set b.slot v }

/-- Prints a value, and after it a line feed or a space. -/
def print (w : World) (v : Value) (newline : Bool) : World :=
  { w with output := w.output ++ v.text ++ Machine.separator newline }

/-- The outcome of a run that comes to its end. -/
def finished (w : World) : RunOutcome := ⟨.halted .finished, w.output, [], w.unread⟩

/-- The outcome of a run that ends in a fault in a line. -/
def faulted (w : World) (line : Nat) (f : Fault) : RunOutcome :=
  if f = .overflow then ⟨.halted .aborted, w.output, [], w.unread⟩
  else ⟨.halted .fault, w.output, [.error .runtime f.message line 1], w.unread⟩

/-- The outcome of a run that asks for input in vain. -/
def cancelled (w : World) (line : Nat) : RunOutcome :=
  ⟨.halted .cancelled, w.output, [.error .runtime Fault.inputCancelled.message line 1], []⟩

end World

/-! ### Acts -/

/-- What acts on the world.  It may end the run, and it may not come to its end within bounds. -/
abbrev Act (α : Type) := StateT World (ExceptT RunOutcome Option) α

/-- An act that did not come to its end within bounds. -/
def unfinished {α : Type} : Act α := fun _ => none

/-- Ends the run. -/
def stop {α : Type} (o : RunOutcome) : Act α := fun _ => some (.error o)

/-- Ends the run with a fault in a line. -/
def fault {α : Type} (line : Nat) (f : Fault) : Act α := do
  let w ← get
  stop (w.faulted line f)

/-- The result of an operation in a line, if it applies. -/
def check {α : Type} (line : Nat) : Except Fault α → Act α
  | .ok a => pure a
  | .error f => fault line f

/-- How it goes on after a statement. -/
inductive Exit where
  | normal
  | broke
  | continued
  | returned (value : Option Value)

/-- One turn after the other, each with what the turn before it left, until one says how it goes on
after the loop.  There are fewer than `bound` turns after which the loop goes on. -/
def loop {σ : Type} (turn : σ → Act (Except Exit σ)) (bound : Nat) (s : σ) : Act Exit :=
  match bound with
  | 0 => unfinished
  | bound + 1 => do
    match ← turn s with
    | .ok s => loop turn bound s
    | .error exit => pure exit

/-- A turn of a loop: its test, its body, and what comes before the next turn. -/
def turn {σ : Type} (test : σ → Act Bool) (body : Act Exit) (next : σ → Act (Except Exit σ))
    (s : σ) : Act (Except Exit σ) := do
  if ← test s then
    match ← body with
    | .broke => return .error .normal
    | .returned v => return .error (.returned v)
    | .normal | .continued => next s
  else return .error .normal

/-! ### Surroundings -/

/-- A function at top level. -/
structure Function where
  loc : Loc
  name : String
  returns : Ty
  params : List Param
  body : List Stmt

/-- How calls are carried out: in a line, of a function by its name, with arguments. -/
abbrev Caller := Nat → String → List Value → Act (Option Value)

/-- What surrounds a statement. -/
structure Scene where
  /-- The types of the parameters of a function, where they are known. -/
  params : String → List Ty
  call : Caller
  /-- The function in which the statement is. -/
  function : Option Function
  /-- The bound on the turns of a loop. -/
  bound : Nat

/-- The type that `return` is asked for. -/
def Scene.returns (σ : Scene) : Ty :=
  match σ.function with
  | some f => f.returns
  | none => .unknown

/-! ### Operands -/

/-- Widens a whole number where a double is asked for. -/
def widen (line : Nat) (found expected : Ty) (c : Captured) : Act Captured :=
  if found = .int ∧ expected = .float then do
    let v ← check line (do UnaryFn.toFloat.apply (← c))
    return .ok v
  else pure c

/-- An index. -/
def index (c : Captured) : Except Fault Int64 := do (← c).asInt

/-- An index, if there is one. -/
def index? : Option Captured → Except Fault (Option Int64)
  | none => .ok none
  | some c => some <$> index c

/-- The element of a container. -/
def load (container row : Captured) (col : Option Captured) : Except Fault Value := do
  let i ← index row
  let j ← index? col
  (← container).loadIndex i j

/-- The container with another element. -/
def store (container row : Captured) (col : Option Captured) (value : Captured) :
    Except Fault Value := do
  let i ← index row
  let j ← index? col
  let v ← value
  (← container).storeIndex i j v

/-- The place of an element in a literal. -/
def position (k : Nat) : Captured := .ok (.int (Int64.ofNat k))

/-- Puts a value that is widened into a container. -/
def fill (line : Nat) (found expected : Ty) (container : Value) (row : Captured)
    (col : Option Captured) (c : Captured) : Act Value := do
  let c ← widen line found expected c
  check line (store (.ok container) row col c)

/-- The value that a call gave, if it gave one. -/
def result : Option Value → Except Fault Value
  | some v => .ok v
  | none => .error (.unexpectedValue .returnValue .void)

/-- What was captured, before more is evaluated for the same operation.  If functions are called in
that, they could give a variable a value that had none, so it is found out now that it had none. -/
def secure (line : Nat) (called : Bool) (c : Captured) : Act Captured :=
  if called then do
    let v ← check line c
    return .ok v
  else pure c

/-! ### Expressions -/

open Lowering (calls)

mutual

/-- The value of an expression in a statement at a line. -/
def expr (σ : Scene) (line : Nat) : Expr → Act Captured
  | .int _ n => return .ok (.int n)
  | .float _ x => return .ok (.float x)
  | .str _ s => return .ok (.str s)
  | .bool _ b => return .ok (.bool b)
  | .name _ x =>
    match x.binding with
    | some b => do
      let w ← get
      return w.value b
    | none => fault line (.undefinedVariable x.text)
  | .binary _ op l r => do
    let a ← expr σ line l >>= secure line (calls r)
    let b ← expr σ line r
    let v ← check line (do op.apply (← a) (← b))
    return .ok v
  | .unary _ op e => do
    let a ← expr σ line e
    let v ← check line (do op.fn.apply (← a))
    return .ok v
  | .call _ f args => do
    let vs ← arguments σ line (σ.params f) args
    let given ← σ.call line f vs
    let v ← check line (result given)
    return .ok v
  | .array m items => do
    let element := ((m.ty.getD .unknown).element?).getD .unknown
    let v ← elements σ line element 0 (.array (List.replicate items.length .void)) items
    return .ok v
  | .matrix _ rows => do
    let v ← matrixRows σ line 0 (.matrix (.zeros rows.length (rows.headD []).length)) rows
    return .ok v
  | .index _ base row none => do
    let b ← expr σ line base >>= secure line (calls row)
    let i ← expr σ line row
    let v ← check line (load b i none)
    return .ok v
  | .index _ base row (some col) => do
    let b ← expr σ line base >>= secure line (calls row || calls col)
    let i ← expr σ line row >>= secure line (calls col)
    let j ← expr σ line col
    let v ← check line (load b i (some j))
    return .ok v

/-- The values of arguments. -/
def arguments (σ : Scene) (line : Nat) (params : List Ty) : List Expr → Act (List Value)
  | [] => return []
  | e :: es => do
    let c ← expr σ line e
    let c ← widen line e.ty (params.headD .unknown) c
    let v ← check line c
    let vs ← arguments σ line params.tail es
    return v :: vs

/-- Fills an array from index `k` on. -/
def elements (σ : Scene) (line : Nat) (element : Ty) (k : Nat) (array : Value) :
    List Expr → Act Value
  | [] => return array
  | e :: es => do
    let c ← expr σ line e
    let array ← fill line e.ty element array (position k) none c
    elements σ line element (k + 1) array es

/-- Fills a row of a matrix from column `k` on. -/
def entries (σ : Scene) (line : Nat) (row k : Nat) (matrix : Value) : List Expr → Act Value
  | [] => return matrix
  | e :: es => do
    let c ← expr σ line e
    let matrix ← fill line e.ty .float matrix (position row) (some (position k)) c
    entries σ line row (k + 1) matrix es

/-- Fills a matrix from row `k` on. -/
def matrixRows (σ : Scene) (line : Nat) (k : Nat) (matrix : Value) :
    List (List Expr) → Act Value
  | [] => return matrix
  | es :: rows => do
    let matrix ← entries σ line k 0 matrix es
    matrixRows σ line (k + 1) matrix rows

end

/-- The value of an expression, widened to the type `expected`. -/
def widened (σ : Scene) (line : Nat) (e : Expr) (expected : Ty) : Act Captured := do
  let c ← expr σ line e
  widen line e.ty expected c

/-- Whether a condition holds. -/
def test (σ : Scene) (line : Nat) (e : Expr) : Act Bool := do
  let c ← expr σ line e
  check line (do (← c).asBool)

/-! ### Statements -/

/-- Gives a variable a new value. -/
def setVariable (σ : Scene) (line : Nat) (x : Name) (e : Expr) : Act Unit :=
  match x.binding with
  | some b => do
    let c ← widened σ line e b.ty
    let v ← check line c
    modify (·.set b v)
  | none => fault line (.undefinedVariable x.text)

/-- Replaces an element in the container that the variable then holds. -/
def replace (line : Nat) (b : Binding) (row : Captured) (col : Option Captured)
    (value : Captured) : Act Unit := do
  let w ← get
  let v ← check line (store (w.value b) row col value)
  modify (·.set b v)

/-- Gives an element of a container a new value. -/
def setElement (σ : Scene) (line : Nat) (x : Name) (s : Subscript) (e : Expr) : Act Unit :=
  match x.binding with
  | some b =>
    match s.col with
    | none => do
      let i ← expr σ line s.row >>= secure line (calls e)
      let c ← widened σ line e (b.ty.element?.getD .unknown)
      replace line b i none c
    | some col => do
      let i ← expr σ line s.row >>= secure line (calls e || calls col)
      let j ← expr σ line col >>= secure line (calls e)
      let c ← widened σ line e (b.ty.element?.getD .unknown)
      replace line b i (some j) c
  | none => fault line (.undefinedVariable x.text)

/-- Prints values, the last with a line feed after it. -/
def prints (σ : Scene) (line : Nat) : List Expr → Act Unit
  | [] => return ()
  | e :: es => do
    let c ← expr σ line e
    let v ← check line c
    modify (·.print v es.isEmpty)
    prints σ line es

/-- Reads a line into a variable. -/
def read (line : Nat) (x : Name) : Act Unit :=
  match x.binding with
  | some b => do
    let w ← get
    match w.unread with
    | [] => stop (w.cancelled line)
    | text :: rest => do
      set { w with unread := rest }
      let v ← check line (Value.ofInput text b.ty)
      modify (·.set b v)
  | none => fault line (.undefinedVariable x.text)

/-- Returns without a value. -/
def leave (line : Nat) (function : Option Function) : Act (Option Value) :=
  match function with
  | some f => if f.returns = .void then pure none else fault line (.missingReturn f.name)
  | none => pure none

/-- Whether a counter is below a limit. -/
def below (line : Nat) (limit counter : Value) : Act Bool := do
  let v ← check line (BinaryOp.lt.apply counter limit)
  check line v.asBool

/-- Counts a turn. -/
def advance (line : Nat) (counter : Value) : Act (Except Exit Value) := do
  let v ← check line (BinaryOp.add.apply counter (.int 1))
  return .ok v

mutual

/-- Carries out a statement. -/
def stmt (σ : Scene) : Stmt → Act Exit
  | .decl loc x _ init => do
    setVariable σ loc.line x init
    return .normal
  | .assign loc x none value => do
    setVariable σ loc.line x value
    return .normal
  | .assign loc x (some s) value => do
    setElement σ loc.line x s value
    return .normal
  | .function _ _ _ _ _ => return .normal
  | .cond loc e body none => do
    if ← test σ loc.line e then block σ body else return .normal
  | .cond loc e body (some orElse) => do
    if ← test σ loc.line e then block σ body else block σ orElse
  | .while loc e body =>
    loop (turn (fun _ => test σ loc.line e) (block σ body) fun _ => return .ok ()) σ.bound ()
  | .repeat loc count body => do
    let c ← expr σ loc.line count
    let limit ← check loc.line c
    loop (turn (below loc.line limit) (block σ body) (advance loc.line)) σ.bound (.int 0)
  | .for loc init e update body => do
    match ← stmt σ init with
    | .normal =>
      loop (turn (fun _ => test σ loc.line e) (block σ body) fun _ => do
        match ← stmt σ update with
        | .normal => return .ok ()
        | exit => return .error exit) σ.bound ()
    | exit => return exit
  | .break _ => return .broke
  | .continue _ => return .continued
  | .return loc none => do
    let v ← leave loc.line σ.function
    return .returned v
  | .return loc (some e) => do
    let c ← widened σ loc.line e σ.returns
    let v ← check loc.line c
    return .returned (some v)
  | .print loc values => do
    prints σ loc.line values
    return .normal
  | .input loc x => do
    read loc.line x
    return .normal
  | .expr loc (.call _ f args) => do
    let vs ← arguments σ loc.line (σ.params f) args
    let _ ← σ.call loc.line f vs
    return .normal
  | .expr loc e => do
    let _ ← expr σ loc.line e
    return .normal

/-- Carries out statements one after the other. -/
def block (σ : Scene) : List Stmt → Act Exit
  | [] => return .normal
  | s :: ss => do
    match ← stmt σ s with
    | .normal => block σ ss
    | exit => return exit

end

/-! ### Calls -/

/-- The function of a name. -/
def function? (p : Program) (f : String) : Option Function :=
  p.findSome? fun
    | .function loc g returns params body =>
      if g = f then some ⟨loc, g, returns, params, body⟩ else none
    | _ => none

/-- The types of the parameters of a function of the program. -/
def paramTypes (p : Program) (f : String) : List Ty :=
  match function? p f with
  | some fn => fn.params.map (·.ty)
  | none => []

/-- Gives a parameter its argument. -/
def pass (s : Store String Value) (p : Param) (v : Value) : Store String Value :=
  match p.name.binding with
  | some b => s.set b.slot v
  | none => s

/-- The local variables with which a function starts. -/
def Function.locals (fn : Function) (args : List Value) : Store String Value :=
  (fn.params.zip args).foldl (fun s p => pass s p.1 p.2) []

/-- What the body of a function gives.  If it does not return, the function does in its line. -/
def finish (fn : Function) (body : Act Exit) : Act (Option Value) := do
  match ← body with
  | .returned v => return v
  | _ => leave fn.loc.line (some fn)

/-- Carries out a function with local variables of its own. -/
def enter (fn : Function) (args : List Value) (body : Act Exit) : Act (Option Value) := do
  let w ← get
  set { w with locals := fn.locals args }
  let v ← finish fn body
  modify fun w' => { w' with locals := w.locals }
  return v

/-- Calls a builtin. -/
def callBuiltin (line : Nat) (f : Builtin) (args : List Value) : Act (Option Value) := do
  let w ← get
  let (v, angle) ← check line (f.call args w.angle)
  set { w with angle := angle }
  return some v

/-- Carries out a call inside `depth` others.  `body` says what the body of a function does. -/
def callWith (p : Program) (settings : MachineSettings) (depth : Nat)
    (body : Function → Act Exit) : Caller := fun line f args =>
  match function? p f with
  | some fn =>
    if fn.params.length ≠ args.length then
      fault line (.arityMismatch f fn.params.length args.length)
    else if settings.maxCallDepth ≤ depth then
      fault line (.stackDepthExceeded settings.maxCallDepth)
    else enter fn args (body fn)
  | none =>
    match Builtin.ofName? f with
    | some b => callBuiltin line b args
    | none => fault line (.undefinedFunction f)

/-- What surrounds the statements of a function or of the top level. -/
def scene (p : Program) (call : Caller) (function : Option Function) (bound : Nat) : Scene :=
  ⟨paramTypes p, call, function, bound⟩

/-- Carries out a call inside `depth` others. -/
def call (p : Program) (settings : MachineSettings) (bound depth : Nat) : Caller :=
  match bound with
  | 0 => callWith p settings depth fun _ => unfinished
  | bound + 1 => callWith p settings depth fun fn =>
      block (scene p (call p settings bound (depth + 1)) (some fn) bound) fn.body

end Direct

open Direct

/-- The world in which a program starts. -/
def MachineSettings.world (settings : MachineSettings) (lines : List String) : World :=
  ⟨[], [], settings.angleMode, "", lines⟩

/-- Carries out a program with some lines of input at hand.  Gives nothing if `bound` does not
suffice. -/
def Program.direct (p : Program) (settings : MachineSettings) (bound : Nat)
    (lines : List String) : Option RunOutcome :=
  match block (scene p (call p settings bound 0) none bound) p (settings.world lines) with
  | none => none
  | some (.error o) => some o
  | some (.ok (_, w)) => some w.finished

end NumericScript
