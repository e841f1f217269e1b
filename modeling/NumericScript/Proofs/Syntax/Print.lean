import NumericScript.Proofs.Syntax.Source
import NumericScript.Text.Escape

/-! # Printing trees

The tokens that a tree is written with.  Every statement ends its line, and an operand stands in
parentheses where its operator binds less tightly than its position requires.

The operators bind, from the loosest to the tightest: `or`, `and`, equality, order, sums,
products, powers, signs and `not`, subscripts.  All but powers associate to the left.  A
transpose stands where a power may stand, and left of a `^` as well, since it is applied first;
so it has a level of its own above powers.

* `Expr.tokens`, `Stmt.tokens`, `Program.tokens`: the tokens of a tree.
* `Expr.unplaced`, `Stmt.unplaced`: a tree without its places. -/

namespace NumericScript

/-! ### Levels -/

/-- How tightly an operator binds, beginning with zero. -/
def BinaryOp.level : BinaryOp → Nat
  | .or => 0
  | .and => 1
  | .eq | .ne => 2
  | .lt | .le | .gt | .ge => 3
  | .add | .sub => 4
  | .mul | .div | .mod => 5
  | .pow => 6

/-- The level that an operator requires of what stands left of it. -/
def BinaryOp.leftLevel (op : BinaryOp) : Nat := if op = .pow then op.level + 1 else op.level

/-- The level that an operator requires of what stands right of it. -/
def BinaryOp.rightLevel (op : BinaryOp) : Nat := if op = .pow then op.level else op.level + 1

/-- How tightly an operator on one operand binds. -/
def UnaryOp.level : UnaryOp → Nat
  | .transpose => 7
  | .neg | .not => 8

/-- The level of subscripts, and of what can take them. -/
def subscriptLevel : Nat := 9

theorem BinaryOp.level_lt (op : BinaryOp) : op.level < subscriptLevel := by
  cases op <;> decide

theorem UnaryOp.level_lt (op : UnaryOp) : op.level < subscriptLevel := by
  cases op <;> decide

/-! ### Expressions -/

/-- The token of an operator. -/
def BinaryOp.token : BinaryOp → TokenKind
  | .add => .punct .plus
  | .sub => .punct .minus
  | .mul => .punct .star
  | .div => .punct .slash
  | .mod => .punct .percent
  | .pow => .punct .caret
  | .eq => .punct .equal
  | .ne => .punct .notEqual
  | .lt => .punct .less
  | .le => .punct .lessEqual
  | .gt => .punct .greater
  | .ge => .punct .greaterEqual
  | .and => .keyword .and
  | .or => .keyword .or

/-- The token of a sign. -/
def UnaryOp.token : UnaryOp → TokenKind
  | .neg => .punct .minus
  | .not => .keyword .not
  | .transpose => .punct .caret

/-- Puts tokens in parentheses under a condition. -/
def enclosed (b : Bool) (ks : List TokenKind) : List TokenKind :=
  if b then .punct .leftParen :: (ks ++ [.punct .rightParen]) else ks

@[simp] theorem enclosed_true (ks : List TokenKind) :
    enclosed true ks = .punct .leftParen :: (ks ++ [.punct .rightParen]) := rfl

@[simp] theorem enclosed_false (ks : List TokenKind) : enclosed false ks = ks := rfl

/-- Puts tokens in brackets. -/
def bracketedTokens (ks : List TokenKind) : List TokenKind :=
  .punct .leftBracket :: (ks ++ [.punct .rightBracket])

mutual

/-- The tokens of an expression in a position that requires the level `need`.  After a `^` a bare
`t` stands in parentheses, as it would be the mark of the transpose. -/
def Expr.tokens (need : Nat) (caret : Bool) : Expr → List TokenKind
  | .int _ v => [.int v]
  | .float _ v => [.float v]
  | .str _ s => [.str (String.ofList (Text.escape s.toList))]
  | .bool _ true => [.keyword .true]
  | .bool _ false => [.keyword .false]
  | .name _ x => enclosed (caret && x.text = "t") [.name x.text]
  | .binary _ op l r =>
    let loose : Bool := op.level < need
    enclosed loose (l.tokens op.leftLevel (caret && !loose) ++
      op.token :: r.tokens op.rightLevel (op = .pow))
  | .unary _ .transpose e =>
    let loose : Bool := UnaryOp.transpose.level < need
    enclosed loose (e.tokens UnaryOp.transpose.level (caret && !loose) ++
      [.punct .caret, .name "t"])
  | .unary _ op e => enclosed (op.level < need) (op.token :: e.tokens op.level false)
  | .call _ f args =>
    .name f :: .punct .leftParen :: (Expr.allTokens args ++ [.punct .rightParen])
  | .array _ items => bracketedTokens (Expr.allTokens items)
  | .matrix _ rows => bracketedTokens (Expr.rowTokens rows)
  | .index _ base row none =>
    enclosed base.isSingle (base.tokens subscriptLevel false) ++
      bracketedTokens (row.tokens 0 false)
  | .index _ base row (some col) =>
    enclosed base.isSingle (base.tokens subscriptLevel false) ++
      (bracketedTokens (row.tokens 0 false) ++ bracketedTokens (col.tokens 0 false))

/-- The tokens of expressions with commas between them. -/
def Expr.allTokens : List Expr → List TokenKind
  | [] => []
  | [e] => e.tokens 0 false
  | e :: es => e.tokens 0 false ++ .punct .comma :: Expr.allTokens es

/-- The tokens of the rows of a matrix with commas between them. -/
def Expr.rowTokens : List (List Expr) → List TokenKind
  | [] => []
  | [es] => bracketedTokens (Expr.allTokens es)
  | es :: rows => bracketedTokens (Expr.allTokens es) ++ .punct .comma :: Expr.rowTokens rows

end

/-! ### Statements -/

/-- The token of a type that can be written. -/
def Ty.token : Ty → TokenKind
  | .int => .keyword .int
  | .float => .keyword .float
  | .str => .keyword .string
  | .bool => .keyword .boolean
  | .array _ => .keyword .array
  | .matrix _ => .keyword .matrix
  | .void | .unknown => .keyword .void

/-- The tokens of a subscript. -/
def Subscript.tokens (s : Subscript) : List TokenKind :=
  bracketedTokens (s.row.tokens 0 false) ++
    match s.col with
    | none => []
    | some col => bracketedTokens (col.tokens 0 false)

/-- The tokens of parameters with commas between them. -/
def Param.allTokens : List Param → List TokenKind
  | [] => []
  | [p] => [p.ty.token, .name p.name.text]
  | p :: ps => p.ty.token :: .name p.name.text :: .punct .comma :: Param.allTokens ps

mutual

/-- The tokens of a statement up to the end of its line. -/
def Stmt.tokens : Stmt → List TokenKind
  | .decl _ x t init => t.token :: .name x.text :: .punct .assign :: init.tokens 0 false
  | .assign _ x none value => .name x.text :: .punct .assign :: value.tokens 0 false
  | .assign _ x (some s) value =>
    .name x.text :: (s.tokens ++ .punct .assign :: value.tokens 0 false)
  | .function _ f returns params body =>
    .keyword .function :: returns.token :: .name f :: .punct .leftParen ::
      (Param.allTokens params ++ .punct .rightParen :: .punct .colon :: .newline ::
        (Stmt.allTokens body ++ [.keyword .end]))
  | .cond _ e body none =>
    .keyword .if :: (e.tokens 0 false ++ .punct .colon :: .newline ::
      (Stmt.allTokens body ++ [.keyword .end]))
  | .cond _ e body (some orElse) =>
    .keyword .if :: (e.tokens 0 false ++ .punct .colon :: .newline ::
      (Stmt.allTokens body ++ .keyword .else :: .punct .colon :: .newline ::
        (Stmt.allTokens orElse ++ [.keyword .end])))
  | .while _ e body =>
    .keyword .while :: (e.tokens 0 false ++ .punct .colon :: .newline ::
      (Stmt.allTokens body ++ [.keyword .end]))
  | .repeat _ count body =>
    .keyword .repeat :: (count.tokens 0 false ++ .keyword .times :: .punct .colon :: .newline ::
      (Stmt.allTokens body ++ [.keyword .end]))
  | .for _ init e update body =>
    .keyword .for :: (init.tokens ++ .punct .semicolon :: (e.tokens 0 false ++
      .punct .semicolon :: (update.tokens ++ .punct .colon :: .newline ::
        (Stmt.allTokens body ++ [.keyword .end]))))
  | .break _ => [.keyword .break]
  | .continue _ => [.keyword .continue]
  | .return _ none => [.keyword .return]
  | .return _ (some e) => .keyword .return :: e.tokens 0 false
  | .print _ values => .keyword .print :: Expr.allTokens values
  | .input _ x => [.keyword .input, .name x.text]
  | .expr _ e => e.tokens 0 false

/-- The tokens of statements, each on a line of its own. -/
def Stmt.allTokens : List Stmt → List TokenKind
  | [] => []
  | s :: ss => s.tokens ++ .newline :: Stmt.allTokens ss

end

/-- The tokens of a program. -/
def Program.tokens (p : Program) : List TokenKind := Stmt.allTokens p ++ [.eof]

/-! ### Trees without places -/

/-- A mark without its place. -/
def Mark.unplaced (m : Mark) : Mark := { m with loc := default }

mutual

/-- An expression without places. -/
def Expr.unplaced : Expr → Expr
  | .int m v => .int m.unplaced v
  | .float m v => .float m.unplaced v
  | .str m s => .str m.unplaced s
  | .bool m b => .bool m.unplaced b
  | .name m x => .name m.unplaced x
  | .binary m op l r => .binary m.unplaced op l.unplaced r.unplaced
  | .unary m op e => .unary m.unplaced op e.unplaced
  | .call m f args => .call m.unplaced f (Expr.allUnplaced args)
  | .array m items => .array m.unplaced (Expr.allUnplaced items)
  | .matrix m rows => .matrix m.unplaced (Expr.rowsUnplaced rows)
  | .index m base row none => .index m.unplaced base.unplaced row.unplaced none
  | .index m base row (some col) =>
    .index m.unplaced base.unplaced row.unplaced (some col.unplaced)

/-- Expressions without places. -/
def Expr.allUnplaced : List Expr → List Expr
  | [] => []
  | e :: es => e.unplaced :: Expr.allUnplaced es

/-- Rows of expressions without places. -/
def Expr.rowsUnplaced : List (List Expr) → List (List Expr)
  | [] => []
  | es :: rows => Expr.allUnplaced es :: Expr.rowsUnplaced rows

end

/-- A subscript without places. -/
def Subscript.unplaced (s : Subscript) : Subscript := ⟨s.row.unplaced, s.col.map Expr.unplaced⟩

/-- A parameter without its place. -/
def Param.unplaced (p : Param) : Param := { p with loc := default }

mutual

/-- A statement without places. -/
def Stmt.unplaced : Stmt → Stmt
  | .decl _ x t init => .decl default x t init.unplaced
  | .assign _ x s value => .assign default x (s.map Subscript.unplaced) value.unplaced
  | .function _ f returns params body =>
    .function default f returns (params.map Param.unplaced) (Stmt.allUnplaced body)
  | .cond _ e body none => .cond default e.unplaced (Stmt.allUnplaced body) none
  | .cond _ e body (some orElse) =>
    .cond default e.unplaced (Stmt.allUnplaced body) (some (Stmt.allUnplaced orElse))
  | .while _ e body => .while default e.unplaced (Stmt.allUnplaced body)
  | .repeat _ count body => .repeat default count.unplaced (Stmt.allUnplaced body)
  | .for _ init e update body =>
    .for default init.unplaced e.unplaced update.unplaced (Stmt.allUnplaced body)
  | .break _ => .break default
  | .continue _ => .continue default
  | .return _ value => .return default (value.map Expr.unplaced)
  | .print _ values => .print default (Expr.allUnplaced values)
  | .input _ x => .input default x
  | .expr _ e => .expr default e.unplaced

/-- Statements without places. -/
def Stmt.allUnplaced : List Stmt → List Stmt
  | [] => []
  | s :: ss => s.unplaced :: Stmt.allUnplaced ss

end

/-- A program without places. -/
abbrev Program.unplaced (p : Program) : Program := Stmt.allUnplaced p

end NumericScript
