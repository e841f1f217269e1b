import NumericScript.Syntax
import NumericScript.Token

/-! # Reading tokens

A `Cursor` is what is left of a list of tokens, with the syntax errors reported so far.
`Reader` is the monad of functions that move a cursor or fail with an error; a failure leaves
the cursor where it occurred. -/

namespace NumericScript

/-- What a syntax error finds missing. -/
inductive Expected where
  | keyword (k : Keyword)
  | punct (p : Punct)
  | name
  | type
  | expression
  | statement
  | loopInit
  | loopUpdate
  | endOfLine
deriving DecidableEq, Repr

/-- The missing thing as messages name it. -/
def Expected.text : Expected → String
  | .keyword k => "'" ++ k.word ++ "'"
  | .punct p => "'" ++ p.text ++ "'"
  | .name => "identifier"
  | .type => "type"
  | .expression => "expression"
  | .statement => "statement"
  | .loopInit => "loop initializer"
  | .loopUpdate => "loop update"
  | .endOfLine => "end of line"

/-- Why tokens do not form a statement. -/
inductive SyntaxError where
  | unexpected (expected : Expected) (found : TokenKind)
  | missingInitializer (name : String)
  | invalidEscape (c : Char)
deriving DecidableEq, Repr

/-- The wording of a syntax error. -/
def SyntaxError.message : SyntaxError → String
  | .unexpected expected found => "Expected " ++ expected.text ++ ", found " ++ found.text
  | .missingInitializer name => "Variable '" ++ name ++ "' must be initialized when declared"
  | .invalidEscape c => "Invalid escape sequence '\\" ++ c.toString ++ "' in string literal"

/-- A syntax error and its place. -/
structure SyntaxReport where
  cause : SyntaxError
  loc : Loc
deriving DecidableEq, Repr

/-- A reading position in a list of tokens. -/
structure Cursor where
  /-- The tokens not read yet. -/
  rest : List Token
  /-- The stretch of the last token of the list, which is the place of an error at its end. -/
  last : Span
  /-- The errors of the statements given up so far. -/
  reports : List SyntaxReport

namespace Cursor

/-- The kind of the next token; past the last one, the end of the input. -/
def kind (c : Cursor) : TokenKind :=
  match c.rest with
  | t :: _ => t.kind
  | [] => .eof

/-- The kind of the token after the next one. -/
def kindAfter (c : Cursor) : TokenKind :=
  match c.rest with
  | _ :: t :: _ => t.kind
  | _ => .eof

/-- The place of the next token. -/
def loc (c : Cursor) : Loc :=
  match c.rest with
  | t :: _ => ⟨t.span.line, t.span.column⟩
  | [] => ⟨c.last.line, c.last.column⟩

/-- The cursor after the next token. -/
def advance (c : Cursor) : Cursor := { c with rest := c.rest.tail }

/-- The error that `expected` is missing at the cursor. -/
def missing (c : Cursor) (expected : Expected) : SyntaxReport :=
  ⟨.unexpected expected c.kind, c.loc⟩

end Cursor

/-- Functions that move a cursor or fail. -/
abbrev Reader (α : Type) := EStateM SyntaxReport Cursor α

namespace Reader

/-- The kind of the next token. -/
def kind : Reader TokenKind := fun c => .ok c.kind c

/-- The kind of the token after the next one. -/
def kindAfter : Reader TokenKind := fun c => .ok c.kindAfter c

/-- The place of the next token. -/
def loc : Reader Loc := fun c => .ok c.loc c

/-- Passes the next token and gives its place. -/
def advance : Reader Loc := fun c => .ok c.loc c.advance

/-- Fails because `expected` is missing here. -/
def missing {α : Type} (expected : Expected) : Reader α := fun c => .error (c.missing expected) c

/-- Passes the next token if it is of kind `k`, and tells whether it was. -/
def eat (k : TokenKind) : Reader Bool := fun c =>
  if c.kind = k then .ok true c.advance else .ok false c

/-- Passes the punctuation mark `p`. -/
def punct (p : Punct) : Reader Unit := fun c =>
  if c.kind = .punct p then .ok () c.advance else .error (c.missing (.punct p)) c

/-- Passes the reserved word `k`. -/
def keyword (k : Keyword) : Reader Unit := fun c =>
  if c.kind = .keyword k then .ok () c.advance else .error (c.missing (.keyword k)) c

/-- Passes a name and gives it with its place. -/
def name : Reader (String × Loc) := fun c =>
  match c.kind with
  | .name x => .ok (x, c.loc) c.advance
  | _ => .error (c.missing .name) c

/-- Passes ends of lines. -/
def skipNewlines : Reader Unit := fun c =>
  .ok () { c with rest := c.rest.dropWhile (·.kind = .newline) }

end Reader

end NumericScript
