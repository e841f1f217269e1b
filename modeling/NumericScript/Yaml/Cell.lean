/-! # Characters of a document and their places

A document is read as a list of characters that each know where they stand.  Every way of
ending a line is one character: a line feed, or one of the two separators of Unicode, which
are kept. -/

namespace NumericScript.Yaml

/-- A character and its place, all counted from zero. -/
structure Cell where
  char : Char
  /-- How many characters come before. -/
  index : Nat
  line : Nat
  column : Nat
deriving DecidableEq, Repr

/-- Spaces and tabs. -/
def isBlank (c : Char) : Bool := c = ' ' || c = '\t'

/-- The ends of lines. -/
def isBreak (c : Char) : Bool := c = '\n' || c = '\u2028' || c = '\u2029'

/-- The mark that may begin a text and tells the order of its bytes. -/
def byteOrderMark : Char := '\ufeff'

/-- The characters that a document may have: no controls but tabs and ends of lines. -/
def isAllowed (c : Char) : Bool :=
  let n := c.toNat
  c = '\t' || c = '\n' || c = '\r' || c = '\x85' || (32 ≤ n && n < 127)
    || (0xa0 ≤ n && n ≤ 0xfffd) || 0x10000 ≤ n

/-- Characters with their places, the first of which is given. -/
def cellsFrom (index line column : Nat) : List Char → List Cell
  | [] => []
  | '\r' :: '\n' :: cs => ⟨'\n', index, line, column⟩ :: cellsFrom (index + 2) (line + 1) 0 cs
  | c :: cs =>
    let c := if c = '\r' || c = '\x85' then '\n' else c
    ⟨c, index, line, column⟩ ::
      if isBreak c then cellsFrom (index + 1) (line + 1) 0 cs
      else cellsFrom (index + 1) line (column + 1) cs

/-- The characters of a text, if a document may have them all. -/
def cells? (text : String) : Option (List Cell) :=
  let cs := text.toList
  if cs.all isAllowed then some (cellsFrom 0 0 0 cs) else none

/-! ### What comes next -/

/-- Whether the next character satisfies `p`. -/
def nextIs (p : Char → Bool) (cs : List Cell) : Bool := (cs.head?.map fun c => p c.char).getD false

/-- Whether a line ends here. -/
def lineEnds (cs : List Cell) : Bool := cs.isEmpty || nextIs isBreak cs

/-- Whether a word ends here: there is a blank, or the line ends. -/
def wordEnds (cs : List Cell) : Bool := lineEnds cs || nextIs isBlank cs

/-- Whether a line begins with three times `c` as a word. -/
def isMark (c : Char) : List Cell → Bool
  | x :: y :: z :: cs => x.column = 0 && x.char = c && y.char = c && z.char = c && wordEnds cs
  | _ => false

/-- Whether a document begins or ends here. -/
def isDocumentMark (cs : List Cell) : Bool := isMark '-' cs || isMark '.' cs

/-- The text of the characters up to one that does not satisfy `p`, and what follows. -/
def takeText (p : Char → Bool) (cs : List Cell) : List Char × List Cell :=
  ((cs.takeWhile fun c => p c.char).map Cell.char, cs.dropWhile fun c => p c.char)

/-- What follows after blanks. -/
def dropBlanks (cs : List Cell) : List Cell := cs.dropWhile fun c => isBlank c.char

/-- What follows after blanks, a comment and the end of the line; nothing else may stand
there. -/
def restOfLine? (cs : List Cell) : Option (List Cell) :=
  let cs := dropBlanks cs
  let cs := if nextIs (· = '#') cs then cs.dropWhile fun c => !isBreak c.char else cs
  if lineEnds cs then some cs.tail else none

end NumericScript.Yaml
