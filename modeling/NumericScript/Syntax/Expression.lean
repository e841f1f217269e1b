import NumericScript.Syntax.Cursor
import NumericScript.Text.Escape

/-! # Reading expressions

The operators bind, from the loosest to the tightest: `or`, `and`, equality, order, sums,
products, powers, signs and `not`, subscripts.  All but powers associate to the left; `m ^ t`
with a bare `t` is the transpose.

The readers take a bound `n` on the number of tokens left.  Every round of a loop and every
nesting passes at least one token, so a bound above that number is never reached. -/

namespace NumericScript.Reader

/-- The mark of an expression at `loc` that has no type yet. -/
def markAt (loc : Loc) : Mark := ⟨loc, none⟩

/-- The operators of each level, from the loosest to the tightest. -/
def orOp? : TokenKind → Option BinaryOp
  | .keyword .or => some .or
  | _ => none

@[inherit_doc orOp?] def andOp? : TokenKind → Option BinaryOp
  | .keyword .and => some .and
  | _ => none

@[inherit_doc orOp?] def equalityOp? : TokenKind → Option BinaryOp
  | .punct .equal => some .eq
  | .punct .notEqual => some .ne
  | _ => none

@[inherit_doc orOp?] def orderOp? : TokenKind → Option BinaryOp
  | .punct .less => some .lt
  | .punct .lessEqual => some .le
  | .punct .greater => some .gt
  | .punct .greaterEqual => some .ge
  | _ => none

@[inherit_doc orOp?] def sumOp? : TokenKind → Option BinaryOp
  | .punct .plus => some .add
  | .punct .minus => some .sub
  | _ => none

@[inherit_doc orOp?] def productOp? : TokenKind → Option BinaryOp
  | .punct .star => some .mul
  | .punct .slash => some .div
  | .punct .percent => some .mod
  | _ => none

/-- The levels of operators that associate to the left, the loosest first. -/
def levels : List (TokenKind → Option BinaryOp) :=
  [orOp?, andOp?, equalityOp?, orderOp?, sumOp?, productOp?]

/-- Continues `left` with operators of one level and their right operands. -/
def chain (ops : TokenKind → Option BinaryOp) (operand : Reader Expr) :
    Nat → Expr → Reader Expr
  | 0, left => pure left
  | n + 1, left => do
    match ops (← kind) with
    | none => pure left
    | some op =>
      let loc ← advance
      let right ← operand
      chain ops operand n (.binary (markAt loc) op left right)

/-- Reads an expression of the given levels over `operand`. -/
def climb (n : Nat) (operand : Reader Expr) : List (TokenKind → Option BinaryOp) → Reader Expr
  | [] => operand
  | ops :: tighter => do
    let left ← climb n operand tighter
    chain ops (climb n operand tighter) n left

/-- Whether a `t` that marks the transpose comes next, and no call or element of `t`. -/
def atTranspose : Reader Bool := do
  let next ← kind
  let after ← kindAfter
  pure (next = .name "t" && after ≠ .punct .leftParen && after ≠ .punct .leftBracket)

/-- Continues `base` with transposes and an exponent. -/
def powers (operand : Reader Expr) : Nat → Expr → Reader Expr
  | 0, base => pure base
  | n + 1, base => do
    if (← kind) = .punct .caret then
      let loc ← advance
      if (← atTranspose) then
        let _ ← advance
        powers operand n (.unary (markAt loc) .transpose base)
      else
        let next ← operand
        let exponent ← powers operand n next
        pure (.binary (markAt loc) .pow base exponent)
    else pure base

/-- Reads a power over `operand`. -/
def power (n : Nat) (operand : Reader Expr) : Reader Expr := do
  let base ← operand
  powers operand n base

/-- The operator that stands in front of its operand. -/
def signOp? : TokenKind → Option UnaryOp
  | .punct .minus => some .neg
  | .keyword .not => some .not
  | _ => none

/-- Reads `operand` with signs in front of it. -/
def signed (operand : Reader Expr) : Nat → Reader Expr
  | 0 => operand
  | n + 1 => do
    match signOp? (← kind) with
    | none => operand
    | some op =>
      let loc ← advance
      let e ← signed operand n
      pure (.unary (markAt loc) op e)

/-- Reads an index and its closing bracket. -/
def closedIndex (expr : Reader Expr) : Reader Expr := do
  let e ← expr
  punct .rightBracket
  pure e

/-- Reads a second index, if a bracket opens. -/
def column (expr : Reader Expr) : Reader (Option Expr) := do
  if (← eat (.punct .leftBracket)) then
    let e ← closedIndex expr
    pure (some e)
  else pure none

/-- Continues `base` with subscripts. -/
def subscripts (expr : Reader Expr) : Nat → Expr → Reader Expr
  | 0, base => pure base
  | n + 1, base => do
    if (← kind) = .punct .leftBracket then
      let loc ← advance
      let row ← closedIndex expr
      let col ← column expr
      subscripts expr n (.index (markAt loc) base row col)
    else pure base

/-- Reads expressions separated by commas. -/
def separated (expr : Reader Expr) : Nat → Reader (List Expr)
  | 0 => pure []
  | n + 1 => do
    let e ← expr
    if (← eat (.punct .comma)) then
      let es ← separated expr n
      pure (e :: es)
    else pure [e]

/-- Reads the arguments of a call after its opening parenthesis. -/
def arguments (n : Nat) (expr : Reader Expr) : Reader (List Expr) := do
  let args ← if (← kind) = .punct .rightParen then pure [] else separated expr n
  punct .rightParen
  pure args

/-- Reads the elements of a literal, separated by commas, over several lines. -/
def elements (expr : Reader Expr) : Nat → Reader (List Expr)
  | 0 => pure []
  | n + 1 => do
    let e ← expr
    skipNewlines
    if (← eat (.punct .comma)) then
      skipNewlines
      let es ← elements expr n
      pure (e :: es)
    else pure [e]

/-- The elements of an array literal. -/
def items? : Expr → Option (List Expr)
  | .array _ items => some items
  | _ => none

/-- The literal with the given elements: a matrix if there are elements and all of them are
array literals. -/
def literal (loc : Loc) (es : List Expr) : Expr :=
  if es.isEmpty then .array (markAt loc) es
  else
    match es.mapM items? with
    | some rows => .matrix (markAt loc) rows
    | none => .array (markAt loc) es

/-- Reads an array or matrix literal after its opening bracket. -/
def bracketed (n : Nat) (expr : Reader Expr) (loc : Loc) : Reader Expr := do
  skipNewlines
  let es ← if (← kind) = .punct .rightBracket then pure [] else elements expr n
  punct .rightBracket
  pure (literal loc es)

/-- The text literal at `loc` with the given characters between its quotes. -/
def textLiteral (loc : Loc) (raw : String) : Reader Expr := fun c =>
  match Text.unescape raw.toList with
  | .ok cs => .ok (.str (markAt loc) (String.ofList cs)) c
  | .error ch => .error ⟨.invalidEscape ch, loc⟩ c

/-- Reads a literal, a name, a call or an expression in parentheses. -/
def primary (n : Nat) (expr : Reader Expr) : Reader Expr := do
  match (← kind) with
  | .int value => return .int (markAt (← advance)) value
  | .float value => return .float (markAt (← advance)) value
  | .str raw =>
    let loc ← advance
    textLiteral loc raw
  | .keyword .true => return .bool (markAt (← advance)) true
  | .keyword .false => return .bool (markAt (← advance)) false
  | .name x =>
    let loc ← advance
    if (← eat (.punct .leftParen)) then
      let args ← arguments n expr
      pure (.call (markAt loc) x args)
    else pure (.name (markAt loc) (.unbound x))
  | .punct .leftParen =>
    let _ ← advance
    let e ← expr
    punct .rightParen
    pure e
  | .punct .leftBracket =>
    let loc ← advance
    bracketed n expr loc
  | _ => missing .expression

/-- Reads a primary expression and its subscripts. -/
def postfixed (n : Nat) (expr : Reader Expr) : Reader Expr := do
  let base ← primary n expr
  subscripts expr n base

/-- Reads an expression from fewer than `n` tokens. -/
def expr : Nat → Reader Expr
  | 0 => missing .expression
  | n + 1 => climb n (power n (signed (postfixed n (expr n)) n)) levels

end NumericScript.Reader
