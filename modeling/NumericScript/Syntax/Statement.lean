import NumericScript.Syntax.Expression

/-! # Reading statements

A statement that cannot be read is reported and given up; reading goes on at the next line or
the next word that begins a statement.  Every statement attempted passes at least one token,
so the bound on the tokens left, which the readers take as in `Syntax.Expression`, serves for
lists of statements as well. -/

namespace NumericScript.Reader

/-- Reads the name of a type. -/
def type : Reader Ty := fun c =>
  let found (t : Ty) : EStateM.Result SyntaxReport Cursor Ty := .ok t c.advance
  match c.kind with
  | .keyword .int | .keyword .long => found .int
  | .keyword .float => found .float
  | .keyword .string => found .str
  | .keyword .boolean => found .bool
  | .keyword .array => found (.array .unknown)
  | .keyword .matrix => found (.matrix none)
  | .keyword .void => found .void
  | _ => .error (c.missing .type) c

/-- Whether a token names a type. -/
def isType : TokenKind → Bool
  | .keyword k => k.isType
  | _ => false

/-- Whether a token is a name. -/
def isName : TokenKind → Bool
  | .name _ => true
  | _ => false

/-- Whether a statement may end before a token of this kind. -/
def endsStatement : TokenKind → Bool
  | .newline | .eof | .keyword .end | .keyword .else => true
  | _ => false

/-- Reads the declaration of a variable; its statement begins at `loc`. -/
def declaration (n : Nat) (loc : Loc) : Reader Stmt := do
  let declared ← type
  let (x, at_) ← name
  if (← eat (.punct .assign)) then
    let init ← expr n
    pure (.decl loc (.unbound x) declared init)
  else throw ⟨.missingInitializer x, at_⟩

/-- Reads the subscript of an assignment, if a bracket opens. -/
def targetSubscript (n : Nat) : Reader (Option Subscript) := do
  if (← eat (.punct .leftBracket)) then
    let row ← closedIndex (expr n)
    let col ← column (expr n)
    pure (some ⟨row, col⟩)
  else pure none

/-- Reads an assignment or a call, both of which begin with a name. -/
def simple (n : Nat) (loc : Loc) : Reader Stmt := do
  if (← kindAfter) = .punct .leftParen then
    let e ← postfixed n (expr n)
    pure (.expr loc e)
  else
    let (x, _) ← name
    let subscript ← targetSubscript n
    punct .assign
    let value ← expr n
    pure (.assign loc (.unbound x) subscript value)

/-- Reads parameters separated by commas. -/
def params : Nat → Reader (List Param)
  | 0 => pure []
  | n + 1 => do
    let loc ← loc
    let ty ← type
    let (x, _) ← name
    if (← eat (.punct .comma)) then
      let ps ← params n
      pure (⟨.unbound x, ty, loc⟩ :: ps)
    else pure [⟨.unbound x, ty, loc⟩]

/-- What may end a list of statements. -/
inductive Ending where
  /-- Only the end of the input. -/
  | program
  /-- The word `end`, or the end of the input. -/
  | body
  /-- The words `end` and `else`, or the end of the input. -/
  | branch
deriving DecidableEq, Repr

/-- Whether a list of statements ends before a token of this kind. -/
def Ending.stops : Ending → TokenKind → Bool
  | _, .eof => true
  | .body, .keyword .end => true
  | .branch, .keyword .end => true
  | .branch, .keyword .else => true
  | _, _ => false

/-- Readers of lists of statements, for every ending. -/
abbrev Block := Ending → Reader (List Stmt)

/-- Reads a colon, statements and `end`. -/
def body (block : Block) : Reader (List Stmt) := do
  punct .colon
  let statements ← block .body
  keyword .end
  pure statements

/-- Reads the `else` of a conditional, if there is one. -/
def alternative (block : Block) : Reader (Option (List Stmt)) := do
  if (← eat (.keyword .else)) then
    punct .colon
    let statements ← block .body
    pure (some statements)
  else pure none

/-- Reads a conditional. -/
def conditional (n : Nat) (block : Block) (loc : Loc) : Reader Stmt := do
  keyword .if
  let condition ← expr n
  punct .colon
  let statements ← block .branch
  let orElse ← alternative block
  keyword .end
  pure (.cond loc condition statements orElse)

/-- Reads the first part of a counting loop. -/
def loopInit (n : Nat) : Reader Stmt := do
  let loc ← loc
  let next ← kind
  if isType next then declaration n loc
  else if isName next then simple n loc
  else missing .loopInit

/-- Reads the last part of a counting loop. -/
def loopUpdate (n : Nat) : Reader Stmt := do
  let loc ← loc
  if isName (← kind) then simple n loc else missing .loopUpdate

/-- Reads a counting loop. -/
def counting (n : Nat) (block : Block) (loc : Loc) : Reader Stmt := do
  keyword .for
  let init ← loopInit n
  punct .semicolon
  let condition ← expr n
  punct .semicolon
  let update ← loopUpdate n
  let statements ← body block
  pure (.for loc init condition update statements)

/-- Reads the declaration of a function. -/
def function (n : Nat) (block : Block) (loc : Loc) : Reader Stmt := do
  keyword .function
  let returns ← type
  let (f, _) ← name
  punct .leftParen
  let ps ← if (← kind) = .punct .rightParen then pure [] else params n
  punct .rightParen
  let statements ← body block
  pure (.function loc f returns ps statements)

/-- Reads the value of a `return`, if there is one. -/
def returned (n : Nat) : Reader (Option Expr) := do
  if endsStatement (← kind) then pure none
  else
    let e ← expr n
    pure (some e)

/-- Reads a statement up to its end. -/
def unended (n : Nat) (block : Block) : Reader Stmt := do
  let loc ← loc
  match (← kind) with
  | .keyword .function => function n block loc
  | .keyword .if => conditional n block loc
  | .keyword .while =>
    let _ ← advance
    let condition ← expr n
    let statements ← body block
    pure (.while loc condition statements)
  | .keyword .repeat =>
    let _ ← advance
    let count ← expr n
    keyword .times
    let statements ← body block
    pure (.repeat loc count statements)
  | .keyword .for => counting n block loc
  | .keyword .break =>
    let _ ← advance
    pure (.break loc)
  | .keyword .continue =>
    let _ ← advance
    pure (.continue loc)
  | .keyword .return =>
    let _ ← advance
    let value ← returned n
    pure (.return loc value)
  | .keyword .print =>
    let _ ← advance
    let values ← separated (expr n) n
    pure (.print loc values)
  | .keyword .input =>
    let _ ← advance
    let (x, _) ← name
    pure (.input loc (.unbound x))
  | .name _ => simple n loc
  | k => if isType k then declaration n loc else missing .statement

/-- Passes the end of a line, unless the statement may end without one. -/
def statementEnd : Reader Unit := fun c =>
  if c.kind = .newline then .ok () c.advance
  else if endsStatement c.kind then .ok () c
  else .error (c.missing .endOfLine) c

/-- Reads a statement and its end. -/
def statement (n : Nat) (block : Block) : Reader Stmt := do
  let s ← unended n block
  statementEnd
  pure s

/-- Skips to where a statement may begin again: past the end of a line, or before a word
that ends a block or begins a statement. -/
def resume : List Token → List Token
  | [] => []
  | t :: ts =>
    match t.kind with
    | .eof | .keyword .end | .keyword .else => t :: ts
    | .newline => ts
    | k => if k.startsStatement then t :: ts else resume ts

/-- Where reading goes on after a failure at `c` of a statement that begins at `start`.  A
failure at the first token skips that token. -/
def recover (start c : Cursor) (report : SyntaxReport) : Cursor :=
  let rest := if c.rest.length = start.rest.length then c.rest.tail else c.rest
  { c with rest := resume rest, reports := c.reports ++ [report] }

/-- Reads a statement, or reports it and skips to the next one. -/
def attempt (statement : Reader Stmt) : Reader (Option Stmt) := fun c =>
  match statement c with
  | .ok s c' => .ok (some s) c'
  | .error report c' => .ok none (recover c c' report)

/-- Reads statements from fewer than `n` tokens. -/
def block : Nat → Block
  | 0, _ => pure []
  | n + 1, ending => do
    skipNewlines
    if ending.stops (← kind) then pure []
    else
      let s ← attempt (statement (n + 1) (block n))
      let rest ← block n ending
      pure (s.toList ++ rest)

end NumericScript.Reader

namespace NumericScript

/-- What reading a list of tokens gives: the statements read, and the errors. -/
structure Parse where
  program : Program
  reports : List SyntaxReport
deriving Repr

/-- The cursor at the beginning of a list of tokens. -/
def Cursor.start (tokens : List Token) : Cursor :=
  ⟨tokens, (tokens.getLast?.map (·.span)).getD .none, []⟩

/-- Reads a program. -/
def Program.parse (tokens : List Token) : Parse :=
  match Reader.block (tokens.length + 1) .program (.start tokens) with
  | .ok program c => ⟨program, c.reports⟩
  | .error report c => ⟨[], c.reports ++ [report]⟩

end NumericScript
