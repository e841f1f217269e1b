import NumericScript.Token
import NumericScript.Text.Numeric
import NumericScript.Decimal.Read

/-! # Scanning

`Token.scan` cuts a source text into tokens.  Between tokens it skips blanks and comments; a
lexeme that is no token is reported and skipped as well.

* `Lexeme.text_append_rest`: a lexeme is cut off the front of the text, nothing is lost.
* `Lexeme.rest_length_lt`: every lexeme takes at least one character. -/

namespace NumericScript

/-- Why a lexeme is no token. -/
inductive LexicalError where
  | unexpectedCharacter (c : Char)
  | invalidNumber (literal : String)
  | unterminatedString
deriving DecidableEq, Repr

/-- The wording of a lexical error. -/
def LexicalError.message : LexicalError → String
  | .unexpectedCharacter c => "Unexpected character '" ++ c.toString ++ "'"
  | .invalidNumber literal => "Invalid number literal '" ++ literal ++ "'"
  | .unterminatedString => "Unterminated string literal"

/-- A lexical error and the place where its lexeme begins. -/
structure LexicalReport where
  cause : LexicalError
  line : Nat
  column : Nat
deriving DecidableEq, Repr

/-! ### Lexemes -/

/-- A lexeme cut off the front of a text: its characters, what it is, and what follows. -/
structure Lexeme where
  text : List Char
  kind : Except LexicalError TokenKind
  rest : List Char

/-- Whether `c` separates tokens on a line. -/
def isGap (c : Char) : Bool := c = ' ' || c = '\t' || c = '\r'

/-- The blanks and the comment in front of `cs`, and what follows them. -/
def splitGap (cs : List Char) : List Char × List Char :=
  match cs.dropWhile isGap with
  | '#' :: rest =>
    (cs.takeWhile isGap ++ '#' :: rest.takeWhile (· ≠ '\n'), rest.dropWhile (· ≠ '\n'))
  | rest => (cs.takeWhile isGap, rest)

theorem splitGap_append (cs : List Char) : (splitGap cs).1 ++ (splitGap cs).2 = cs := by
  unfold splitGap
  split
  · rename_i rest h
    have h₁ := List.takeWhile_append_dropWhile (p := (· ≠ '\n')) (l := rest)
    have h₂ := List.takeWhile_append_dropWhile (p := isGap) (l := cs)
    rw [h] at h₂
    simp only [List.append_assoc, List.cons_append, h₁, h₂]
  · exact List.takeWhile_append_dropWhile

/-- Punctuation of one character. -/
def punct? : Char → Option Punct
  | '+' => some .plus | '-' => some .minus | '*' => some .star | '/' => some .slash
  | '%' => some .percent | '^' => some .caret | ':' => some .colon
  | ';' => some .semicolon | ',' => some .comma | '(' => some .leftParen
  | ')' => some .rightParen | '[' => some .leftBracket | ']' => some .rightBracket
  | _ => none

/-- Whether `c` begins a mark that an equals sign may follow. -/
def isComparison (c : Char) : Bool := c = '=' || c = '<' || c = '>' || c = '!'

/-- The mark that begins with `c`, and goes on with an equals sign if `doubled`. -/
def comparison (c : Char) (doubled : Bool) : Except LexicalError TokenKind :=
  match c, doubled with
  | '=', false => .ok (.punct .assign)
  | '=', true => .ok (.punct .equal)
  | '<', false => .ok (.punct .less)
  | '<', true => .ok (.punct .lessEqual)
  | '>', false => .ok (.punct .greater)
  | '>', true => .ok (.punct .greaterEqual)
  | '!', true => .ok (.punct .notEqual)
  | c, _ => .error (.unexpectedCharacter c)

/-- Whether `c` begins a name. -/
def startsName (c : Char) : Bool := Text.isAlphabetic c || c = '_'

/-- Whether `c` goes on with a name. -/
def continuesName (c : Char) : Bool := Text.isAlphanumeric c || c = '_'

/-- The kind of a word: reserved, or a name. -/
def wordKind (word : String) : TokenKind :=
  match Keyword.ofWord? word with
  | some k => .keyword k
  | none => .name word

/-- The decimal places of a number, with the point in front of them, and what follows.  A
point belongs to the number only if a digit follows it. -/
def splitPlaces : List Char → List Char × List Char
  | '.' :: d :: rest =>
    if d.isDigit then ('.' :: d :: rest.takeWhile Char.isDigit, rest.dropWhile Char.isDigit)
    else ([], '.' :: d :: rest)
  | rest => ([], rest)

theorem splitPlaces_append (cs : List Char) : (splitPlaces cs).1 ++ (splitPlaces cs).2 = cs := by
  unfold splitPlaces
  split
  · split <;> simp
  · rfl

/-- The token written by the digits `whole` and the decimal places `places`. -/
def numberKind (whole places : List Char) : Except LexicalError TokenKind :=
  if places.isEmpty then
    match Decimal.int64? (Decimal.natOfDigits whole) with
    | some n => .ok (.int n)
    | none => .error (.invalidNumber (String.ofList whole))
  else
    .ok (.float (Decimal.nearest (Decimal.natOfDigits (whole ++ places.drop 1))
      (-(places.length - 1 : Nat))))

/-- How far a text literal reaches. -/
structure Literal where
  /-- The characters taken, without the closing quote. -/
  raw : List Char
  /-- Whether a closing quote was found. -/
  closed : Bool
  rest : List Char

/-- Reads a text literal after its opening quote.  A backslash takes the next character with
it; neither goes past the end of the line. -/
def Literal.read : List Char → Literal
  | [] => ⟨[], false, []⟩
  | '"' :: rest => ⟨[], true, rest⟩
  | '\n' :: rest => ⟨[], false, '\n' :: rest⟩
  | ['\\'] => ⟨['\\'], false, []⟩
  | '\\' :: '\n' :: rest => ⟨['\\'], false, '\n' :: rest⟩
  | '\\' :: c :: rest =>
    let l := Literal.read rest
    ⟨'\\' :: c :: l.raw, l.closed, l.rest⟩
  | c :: rest =>
    let l := Literal.read rest
    ⟨c :: l.raw, l.closed, l.rest⟩

/-- The closing quote, if there is one. -/
def Literal.quote (l : Literal) : List Char := if l.closed then ['"'] else []

theorem Literal.read_append (cs : List Char) :
    (Literal.read cs).raw ++ (Literal.read cs).quote ++ (Literal.read cs).rest = cs := by
  fun_induction Literal.read cs <;> simp_all +zetaDelta [Literal.quote]

/-- The lexeme at the front of `c :: cs`. -/
def Lexeme.next (c : Char) (cs : List Char) : Lexeme :=
  match punct? c with
  | some p => ⟨[c], .ok (.punct p), cs⟩
  | none =>
    if c = '\n' then ⟨[c], .ok .newline, cs⟩
    else if isComparison c then
      match cs with
      | '=' :: rest => ⟨[c, '='], comparison c true, rest⟩
      | rest => ⟨[c], comparison c false, rest⟩
    else if c = '"' then
      let l := Literal.read cs
      ⟨c :: (l.raw ++ l.quote),
        if l.closed then .ok (.str (String.ofList l.raw)) else .error .unterminatedString,
        l.rest⟩
    else if startsName c then
      let word := c :: cs.takeWhile continuesName
      ⟨word, .ok (wordKind (String.ofList word)), cs.dropWhile continuesName⟩
    else if c.isDigit then
      let whole := c :: cs.takeWhile Char.isDigit
      let (places, rest) := splitPlaces (cs.dropWhile Char.isDigit)
      ⟨whole ++ places, numberKind whole places, rest⟩
    else ⟨[c], .error (.unexpectedCharacter c), cs⟩

theorem Lexeme.text_append_rest (c : Char) (cs : List Char) :
    (Lexeme.next c cs).text ++ (Lexeme.next c cs).rest = c :: cs := by
  unfold Lexeme.next
  split
  · rfl
  · split
    · rfl
    · split
      · split <;> rfl
      · split
        · simpa using Literal.read_append cs
        · split
          · simp [List.takeWhile_append_dropWhile]
          · split
            · simp [splitPlaces_append, List.takeWhile_append_dropWhile]
            · rfl

theorem Lexeme.text_ne_nil (c : Char) (cs : List Char) : (Lexeme.next c cs).text ≠ [] := by
  unfold Lexeme.next
  repeat' split
  all_goals simp

theorem Lexeme.rest_length_lt (c : Char) (cs : List Char) :
    (Lexeme.next c cs).rest.length < (c :: cs).length := by
  have h := congrArg List.length (Lexeme.text_append_rest c cs)
  have h₁ := List.length_pos_iff.mpr (Lexeme.text_ne_nil c cs)
  rw [List.length_append] at h
  omega

/-! ### Texts -/

/-- The tokens of a text and the lexemes of it that are none. -/
structure Scan where
  tokens : List Token
  errors : List LexicalReport
deriving DecidableEq, Repr

/-- Puts the lexeme `l`, which begins at `p`, in front of a scan. -/
def Scan.cons (p : Position) (l : Lexeme) (s : Scan) : Scan :=
  match l.kind with
  | .ok kind => { s with tokens := ⟨kind, .between p (p.advanceAll l.text)⟩ :: s.tokens }
  | .error cause => { s with errors := ⟨cause, p.line, p.column⟩ :: s.errors }

/-- Scans the characters `cs` that stand at `p`. -/
def Scan.ofChars (p : Position) (cs : List Char) : Scan :=
  let q := p.advanceAll (splitGap cs).1
  match _h : (splitGap cs).2 with
  | [] => ⟨[⟨.eof, .between q q⟩], []⟩
  | c :: rest =>
    let l := Lexeme.next c rest
    (Scan.ofChars (q.advanceAll l.text) l.rest).cons q l
termination_by cs.length
decreasing_by
  have h₁ := congrArg List.length (splitGap_append cs)
  rw [List.length_append, _h] at h₁
  have h₂ := Lexeme.rest_length_lt c rest
  omega

/-- Scans a source text. -/
def Token.scan (source : String) : Scan := Scan.ofChars .start source.toList

end NumericScript
