import NumericScript.Yaml.Token

/-! # Scanning a document

Keys need no mark of their own: only the colon after a text tells that the text is a key.  So
the scan remembers where a key may have begun, and when it meets the colon, it puts the token
of a key there, after that of a block if one begins with this key.

A key ends on its line and has at most 1024 characters.  A block ends before a line that stands
further left than its keys. -/

namespace NumericScript.Yaml

/-- A place where a key may have begun. -/
structure PossibleKey where
  /-- How many tokens come before. -/
  before : Nat
  start : Cell
  /-- Whether nothing but a key can stand there. -/
  required : Bool
deriving DecidableEq, Repr

/-- The number of characters that a key may have. -/
def keyLimit : Nat := 1024

/-- Whether a key cannot go on to `c`. -/
def PossibleKey.isStale (c : Cell) (k : PossibleKey) : Bool :=
  k.start.line < c.line || k.start.index + keyLimit < c.index

/-- What a scan knows. -/
structure Scan where
  /-- The tokens so far, the last first. -/
  tokens : List Token := []
  /-- The column of the innermost block, or -1. -/
  indent : Int := -1
  /-- The columns of the blocks around it, the innermost first. -/
  outer : List Int := []
  /-- Where a key may have begun. -/
  key : Option PossibleKey := none
  /-- Where keys may have begun before the braces that are open, the innermost first. -/
  outerKeys : List (Option PossibleKey) := []
  /-- Whether a key may begin here. -/
  keyAllowed : Bool := true

namespace Scan

/-- Whether braces are open. -/
def flow (s : Scan) : Bool := !s.outerKeys.isEmpty

/-- Adds a token. -/
def emit (t : Token) (s : Scan) : Scan := { s with tokens := t :: s.tokens }

/-- Says whether a key may begin after this. -/
def allowKey (allowed : Bool) (s : Scan) : Scan := { s with keyAllowed := allowed }

/-- Adds tokens after the first `n`. -/
def insert (n : Nat) (ts : List Token) (s : Scan) : Scan :=
  let later := s.tokens.length - n
  { s with tokens := s.tokens.take later ++ ts.reverse ++ s.tokens.drop later }

/-! ### Blocks -/

/-- The tokens of a block that begins in `column`, if one begins there. -/
def opening (column : Nat) (s : Scan) : List Token :=
  if !s.flow && s.indent < column then [.blockMapping] else []

/-- Begins a block in `column`, if the one before stands further left. -/
def openBlock (column : Nat) (s : Scan) : Scan :=
  if !s.flow && s.indent < column then { s with indent := column, outer := s.indent :: s.outer }
  else s

/-- Ends blocks from the innermost outwards. -/
def closeFrom (column : Int) (indent : Int) (tokens : List Token) :
    List Int → List Token × Int × List Int
  | [] => (tokens, indent, [])
  | next :: outer =>
    if column < indent then closeFrom column next (.blockEnd :: tokens) outer
    else (tokens, indent, next :: outer)

/-- Ends the blocks that stand further right than `column`. -/
def closeBlocks (column : Int) (s : Scan) : Scan :=
  if s.flow then s
  else
    let (tokens, indent, outer) := closeFrom column s.indent s.tokens s.outer
    { s with tokens, indent, outer }

/-! ### Keys -/

/-- Gives up the place where a key may have begun, if that is possible. -/
def forgetKey? (s : Scan) : Option Scan :=
  if s.key.any (·.required) then none else some { s with key := none }

/-- Remembers that a key may begin at `c`, if it may. -/
def rememberKey? (c : Cell) (s : Scan) : Option Scan := do
  if s.keyAllowed then
    let s ← s.forgetKey?
    some { s with key := some ⟨s.tokens.length, c, !s.flow && s.indent = c.column⟩ }
  else some s

/-- Gives up the places of keys that cannot go on to `c`, if that is possible. -/
def dropStale? (c : Cell) (s : Scan) : Option Scan :=
  let fresh (key : Option PossibleKey) : Option PossibleKey := key.filter fun k => !k.isStale c
  if (s.key :: s.outerKeys).any fun key => key.any fun k => k.required && k.isStale c then none
  else some { s with key := fresh s.key, outerKeys := s.outerKeys.map fresh }

/-! ### Marks -/

/-- What ends before a directive, a mark between documents, or the end of the text. -/
def endDocument? (s : Scan) : Option Scan := do
  let s ← (s.closeBlocks (-1)).forgetKey?
  some (s.allowKey false)

/-- An opening brace at `c`. -/
def openBrace? (c : Cell) (s : Scan) : Option Scan := do
  let s ← s.rememberKey? c
  some ({ s with key := none, outerKeys := s.key :: s.outerKeys }.allowKey true |>.emit .openMap)

/-- A closing brace. -/
def closeBrace? (s : Scan) : Option Scan := do
  let s ← s.forgetKey?
  match s.outerKeys with
  | [] => none
  | key :: outerKeys => some ({ s with key, outerKeys }.allowKey false |>.emit .closeMap)

/-- A comma, which must stand between braces. -/
def comma? (s : Scan) : Option Scan := do
  let s ← s.forgetKey?
  if s.flow then some (s.allowKey true |>.emit .entry) else none

/-- A question mark at `c`, which begins a key of any length. -/
def question? (c : Cell) (s : Scan) : Option Scan := do
  if s.flow || s.keyAllowed then
    let s := { (s.openBlock c.column) with tokens := s.opening c.column ++ s.tokens }
    let s ← s.forgetKey?
    some (s.allowKey (!s.flow) |>.emit .key)
  else none

/-- A colon at `c`, which ends a key. -/
def colon? (c : Cell) (s : Scan) : Option Scan :=
  match s.key with
  | some k =>
    let s' := s.insert k.before (s.opening k.start.column ++ [.key]) |>.openBlock k.start.column
    some ({ s' with key := none }.allowKey false |>.emit .value)
  | none =>
    if s.flow || s.keyAllowed then
      let s := { (s.openBlock c.column) with tokens := s.opening c.column ++ s.tokens }
      some (s.allowKey (!s.flow) |>.emit .value)
    else none

/-! ### Words -/

/-- An alias, an anchor or a text at `c`, with which a key may begin. -/
def word? (c : Cell) (t : Token) (s : Scan) : Option Scan := do
  let s ← s.rememberKey? c
  some (s.allowKey false |>.emit t)

/-- A text between quotes at `c`. -/
def quoted? (c : Cell) (text : List Char) (s : Scan) : Option Scan :=
  s.word? c (.scalar .quoted (String.ofList text))

/-- A plain text at `c`; `broken` says that a line has ended after it. -/
def plain? (c : Cell) (text : List Char) (broken : Bool) (s : Scan) : Option Scan := do
  let s ← s.word? c (.scalar .plain (String.ofList text))
  some (s.allowKey broken)

/-- A block of lines, with which no key begins. -/
def block? (style : Style) (text : List Char) (s : Scan) : Option Scan := do
  let s ← s.forgetKey?
  some (s.allowKey true |>.emit (.scalar style (String.ofList text)))

end Scan

/-! ### The scan -/

/-- Passes blanks, comments and ends of lines, and tells whether a key may begin after them.
Tabs may not stand before a key. -/
def dropVoid (flow : Bool) : (keyAllowed comment : Bool) → List Cell → Bool × List Cell
  | keyAllowed, _, [] => (keyAllowed, [])
  | keyAllowed, comment, c :: cs =>
    if isBreak c.char then dropVoid flow (keyAllowed || !flow) false cs
    else if comment || c.char = '#' then dropVoid flow keyAllowed true cs
    else if c.char = ' ' || (c.char = '\t' && (flow || !keyAllowed))
        || (c.char = byteOrderMark && c.index = 0) then dropVoid flow keyAllowed false cs
    else (keyAllowed, c :: cs)

/-- Whether a plain scalar begins with `c`, before `cs`. -/
def opensPlain (flow : Bool) (c : Cell) (cs : List Cell) : Bool :=
  !isIndicator c.char || (c.char = '-' && !nextIs isBlank cs)
    || (!flow && (c.char = '?' || c.char = ':') && !wordEnds cs)

/-- One token that begins with `c`, before `cs`. -/
def scanToken? (s : Scan) (c : Cell) (cs : List Cell) : Option (Scan × List Cell) := do
  let mark (s : Option Scan) : Option (Scan × List Cell) := s.map fun s => (s, cs)
  if c.column = 0 && c.char = '%' then
    let (d, rest) ← directive? cs
    return (← s.endDocument?.map (·.emit (.directive d)), rest)
  if isMark '-' (c :: cs) then
    return (← s.endDocument?.map (·.emit .documentStart), cs.drop 2)
  if isMark '.' (c :: cs) then
    return (← s.endDocument?.map (·.emit .documentEnd), cs.drop 2)
  match c.char with
  | '\x7b' => mark (s.openBrace? c)
  | '\x7d' => mark s.closeBrace?
  | ',' => mark s.comma?
  | '*' => do
    let (name, rest) ← name? cs
    return (← s.word? c (.aliasOf name), rest)
  | '&' => do
    let (name, rest) ← name? cs
    return (← s.word? c (.anchor name), rest)
  | '!' => do
    let (tag, rest) ← tag? s.flow cs
    return (← s.word? c (.tag tag), rest)
  | '\'' => do
    let (text, rest) ← singleQuoted .none cs
    return (← s.quoted? c text, rest)
  | '"' => do
    let (text, rest) ← doubleQuoted .none cs
    return (← s.quoted? c text, rest)
  | _ =>
    if c.char = '-' && wordEnds cs then none
    else if c.char = '?' && (s.flow || wordEnds cs) then mark (s.question? c)
    else if c.char = ':' && (s.flow || wordEnds cs) then mark (s.colon? c)
    else if (c.char = '|' || c.char = '>') && !s.flow then
      let folded := c.char = '>'
      let (text, rest) ← blockScalar folded s.indent cs
      return (← s.block? (if folded then .folded else .literal) text, rest)
    else if opensPlain s.flow c cs then
      let (text, broken, rest) ← plainFrom s.flow (s.indent + 1) .none (c :: cs)
      return (← s.plain? c text broken, rest)
    else none

/-- The scan of what is left. -/
def scanFrom : Nat → Scan → List Cell → Option Scan
  | 0, _, _ => none
  | fuel + 1, s, cs =>
    match dropVoid s.flow s.keyAllowed false cs with
    | (_, []) => s.endDocument?
    | (keyAllowed, c :: cs) => do
      let s ← (s.allowKey keyAllowed).dropStale? c
      let (s, rest) ← scanToken? (s.closeBlocks c.column) c cs
      scanFrom fuel s rest

/-- The tokens of a text. -/
def tokens? (text : String) : Option (List Token) := do
  let cs ← cells? text
  let s ← scanFrom (cs.length + 1) {} cs
  return s.tokens.reverse

end NumericScript.Yaml
