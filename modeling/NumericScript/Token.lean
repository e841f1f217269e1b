import NumericScript.Decimal.Text

/-! # Tokens

The words of the language: reserved words, punctuation, names and literals, with the stretch
of source text that each one covers.

* `Keyword.ofWord?_word`: every reserved word is recognised by its spelling. -/

namespace NumericScript

/-- A place in a source text: byte offset, line and column.  Lines and columns count from
one, columns in characters. -/
structure Position where
  offset : Nat
  line : Nat
  column : Nat
deriving DecidableEq, Repr, Inhabited

namespace Position

/-- The beginning of a text. -/
def start : Position := ⟨0, 1, 1⟩

/-- The place after the character `c` at `p`. -/
def advance (p : Position) (c : Char) : Position :=
  if c = '\n' then ⟨p.offset + c.utf8Size, p.line + 1, 1⟩
  else ⟨p.offset + c.utf8Size, p.line, p.column + 1⟩

/-- The place after the characters `cs` at `p`. -/
def advanceAll (p : Position) (cs : List Char) : Position := cs.foldl advance p

@[simp] theorem advanceAll_nil (p : Position) : p.advanceAll [] = p := rfl

@[simp] theorem advanceAll_cons (p : Position) (c : Char) (cs : List Char) :
    p.advanceAll (c :: cs) = (p.advance c).advanceAll cs := rfl

theorem advanceAll_append (p : Position) (as bs : List Char) :
    p.advanceAll (as ++ bs) = (p.advanceAll as).advanceAll bs := by
  simp [advanceAll]

end Position

/-- The stretch of a token: byte offsets of its ends, line and column of its beginning. -/
structure Span where
  start : Nat
  stop : Nat
  line : Nat
  column : Nat
deriving DecidableEq, Repr, Inhabited

/-- The stretch from `p` to `q`. -/
def Span.between (p q : Position) : Span := ⟨p.offset, q.offset, p.line, p.column⟩

/-- The stretch of a text without tokens. -/
def Span.none : Span := ⟨0, 0, 0, 0⟩

/-- The reserved words. -/
inductive Keyword where
  | int | long | float | string | boolean | array | matrix | void
  | if | else | while | for | repeat | times | function | return | end
  | print | input | break | continue
  | and | or | not | true | false
deriving DecidableEq, Repr

namespace Keyword

/-- The spelling of a reserved word. -/
def word : Keyword → String
  | .int => "int" | .long => "long" | .float => "float" | .string => "string"
  | .boolean => "boolean" | .array => "array" | .matrix => "matrix" | .void => "void"
  | .if => "if" | .else => "else" | .while => "while" | .for => "for"
  | .repeat => "repeat" | .times => "times" | .function => "function"
  | .return => "return" | .end => "end" | .print => "print" | .input => "input"
  | .break => "break" | .continue => "continue" | .and => "and" | .or => "or"
  | .not => "not" | .true => "true" | .false => "false"

/-- All reserved words. -/
def all : List Keyword :=
  [.int, .long, .float, .string, .boolean, .array, .matrix, .void, .if, .else, .while, .for,
   .repeat, .times, .function, .return, .end, .print, .input, .break, .continue, .and, .or,
   .not, .true, .false]

/-- The reserved word spelled `text`, if there is one. -/
def ofWord? (text : String) : Option Keyword := all.find? (·.word = text)

theorem ofWord?_word (k : Keyword) : ofWord? k.word = some k := by
  cases k <;> decide

theorem word_of_ofWord? {text : String} {k : Keyword} (h : ofWord? text = some k) :
    k.word = text := by
  simpa using List.find?_some h

/-- Whether the word names a type. -/
def isType : Keyword → Bool
  | .int | .long | .float | .string | .boolean | .array | .matrix | .void => .true
  | _ => .false

/-- Whether the word begins a statement. -/
def startsStatement : Keyword → Bool
  | .if | .while | .for | .repeat | .function | .return | .print | .input | .break
  | .continue => .true
  | k => k.isType

end Keyword

/-- Punctuation and operators. -/
inductive Punct where
  | assign | equal | notEqual | less | lessEqual | greater | greaterEqual
  | plus | minus | star | slash | percent | caret
  | colon | semicolon | comma | leftParen | rightParen | leftBracket | rightBracket
deriving DecidableEq, Repr

/-- The spelling of a punctuation mark. -/
def Punct.text : Punct → String
  | .assign => "=" | .equal => "==" | .notEqual => "!=" | .less => "<"
  | .lessEqual => "<=" | .greater => ">" | .greaterEqual => ">=" | .plus => "+"
  | .minus => "-" | .star => "*" | .slash => "/" | .percent => "%" | .caret => "^"
  | .colon => ":" | .semicolon => ";" | .comma => "," | .leftParen => "("
  | .rightParen => ")" | .leftBracket => "[" | .rightBracket => "]"

/-- What a token is. -/
inductive TokenKind where
  | name (text : String)
  | int (value : Int64)
  | float (value : Double)
  /-- A text literal, with the characters between its quotes as they stand. -/
  | str (raw : String)
  | keyword (k : Keyword)
  | punct (p : Punct)
  | newline
  | eof
deriving DecidableEq, Repr

/-- A token as messages name it. -/
def TokenKind.text : TokenKind → String
  | .name text => "identifier '" ++ text ++ "'"
  | .int value => "integer " ++ toString value.toInt
  | .float value => "float " ++ Decimal.plainText value
  | .str raw => "string \"" ++ raw ++ "\""
  | .keyword k => "'" ++ k.word ++ "'"
  | .punct p => "'" ++ p.text ++ "'"
  | .newline => "end of line"
  | .eof => "end of input"

/-- Whether a token of this kind begins a statement with a reserved word. -/
def TokenKind.startsStatement : TokenKind → Bool
  | .keyword k => k.startsStatement
  | _ => false

/-- A token and the stretch of text it covers. -/
structure Token where
  kind : TokenKind
  span : Span
deriving DecidableEq, Repr

end NumericScript
