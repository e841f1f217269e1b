import NumericScript.Text.Digits
import NumericScript.Yaml.Cell

/-! # Scalars

The texts in a document: plain words, texts between quotes, and blocks of lines.  Plain and
quoted texts may go over several lines, whose ends are folded: one end of a line is a space,
and of several the first is dropped. -/

namespace NumericScript.Yaml

/-- How a scalar is written. -/
inductive Style where
  | plain | quoted | literal | folded
deriving DecidableEq, Repr

/-! ### Gaps -/

/-- Blanks and ends of lines between the words of a text. -/
structure Gap where
  /-- The blanks, as long as the line has not ended. -/
  blanks : List Char
  /-- The first end of a line, if it counts. -/
  first : List Char
  /-- The ends of lines after it. -/
  more : List Char
  /-- Whether a line has ended. -/
  broken : Bool
deriving DecidableEq, Repr

namespace Gap

/-- Nothing. -/
def none : Gap := ⟨[], [], [], false⟩

/-- The end of a line that does not count. -/
def hidden : Gap := ⟨[], [], [], true⟩

/-- Whether there is something. -/
def isSome (g : Gap) : Bool := g.broken || !g.blanks.isEmpty

/-- A gap and a character of it. -/
def push (g : Gap) (c : Char) : Gap :=
  if isBreak c then
    if g.broken then { g with more := g.more ++ [c] } else ⟨[], [c], [], true⟩
  else if g.broken then g
  else { g with blanks := g.blanks ++ [c] }

/-- What a gap stands for in a text. -/
def text (g : Gap) : List Char :=
  if !g.broken then g.blanks
  else if g.first = ['\n'] then if g.more.isEmpty then [' '] else g.more
  else g.first ++ g.more

end Gap

/-! ### Plain scalars -/

/-- The characters that structure collections between brackets. -/
def isFlow (c : Char) : Bool := c ∈ [',', '[', ']', '\x7b', '\x7d']

/-- The characters with which no plain scalar begins. -/
def isIndicator (c : Char) : Bool :=
  isBlank c || isBreak c || isFlow c
    || c ∈ ['-', '?', ':', '#', '&', '*', '!', '|', '>', '\'', '"', '%', '@', '\x60']

/-- A plain scalar: its text, whether a line has ended after it, and what follows.  On a line
after the first it stands in column `indent` or further right, if it does not stand between
braces (`flow`). -/
def plainFrom (flow : Bool) (indent : Int) (gap : Gap) :
    List Cell → Option (List Char × Bool × List Cell)
  | [] => some ([], gap.broken, [])
  | c :: cs =>
    let ends := some ([], gap.broken, c :: cs)
    if isBlank c.char then
      if gap.broken && c.char = '\t' && c.column < indent then none
      else plainFrom flow indent (gap.push c.char) cs
    else if isBreak c.char then plainFrom flow indent (gap.push c.char) cs
    else if gap.broken && !flow && c.column < indent then ends
    else if isDocumentMark (c :: cs) then ends
    else if c.char = '#' && gap.isSome then ends
    else if flow && c.char = ':' && nextIs (fun d => isFlow d || d = '?') cs then none
    else if c.char = ':' && wordEnds cs then ends
    else if flow && isFlow c.char then ends
    else do
      let (text, broken, rest) ← plainFrom flow indent .none cs
      return (gap.text ++ c.char :: text, broken, rest)

/-! ### Quoted scalars -/

/-- What a backslash and a character stand for between double quotes. -/
def escaped? : Char → Option Char
  | '0' => some '\x00'
  | 'a' => some '\x07'
  | 'b' => some '\x08'
  | 't' | '\t' => some '\t'
  | 'n' => some '\n'
  | 'v' => some '\x0b'
  | 'f' => some '\x0c'
  | 'r' => some '\r'
  | 'e' => some '\x1b'
  | ' ' => some ' '
  | '"' => some '"'
  | '/' => some '/'
  | '\\' => some '\\'
  | 'N' => some '\x85'
  | '_' => some '\xa0'
  | 'L' => some '\u2028'
  | 'P' => some '\u2029'
  | _ => none

/-- How many hexadecimal digits of a code point come after a backslash and a character. -/
def codeLength? : Char → Option Nat
  | 'x' => some 2
  | 'u' => some 4
  | 'U' => some 8
  | _ => none

/-- The character with a code point in `length` hexadecimal digits. -/
def codePoint? (length : Nat) (cs : List Cell) : Option Char :=
  let digits := (cs.take length).map Cell.char
  if digits.length < length then none
  else do
    let n ← Text.natOfBase? 16 digits
    if n.isValidChar then some (Char.ofNat n) else none

/-- The character that an escape stands for, after its backslash, and how many characters the
escape has. -/
def escape? : List Cell → Option (Char × Nat)
  | [] => none
  | c :: cs =>
    match codeLength? c.char with
    | some length => (codePoint? length cs).map fun d => (d, length + 1)
    | none => (escaped? c.char).map fun d => (d, 1)

/-- A text up to a single quote, where two of them stand for one, and what follows. -/
def singleQuoted (gap : Gap) (cs : List Cell) : Option (List Char × List Cell) :=
  match cs with
  | [] => none
  | c :: cs =>
    if isBlank c.char || isBreak c.char then singleQuoted (gap.push c.char) cs
    else if isDocumentMark (c :: cs) then none
    else if c.char = '\'' then
      match cs with
      | d :: ds =>
        if d.char = '\'' then do
          let (text, rest) ← singleQuoted .none ds
          return (gap.text ++ '\'' :: text, rest)
        else some (gap.text, d :: ds)
      | [] => some (gap.text, [])
    else do
      let (text, rest) ← singleQuoted .none cs
      return (gap.text ++ c.char :: text, rest)
termination_by cs.length

/-- A text with escapes up to a double quote, and what follows. -/
def doubleQuoted (gap : Gap) (cs : List Cell) : Option (List Char × List Cell) :=
  match cs with
  | [] => none
  | c :: cs =>
    if isBlank c.char || isBreak c.char then doubleQuoted (gap.push c.char) cs
    else if isDocumentMark (c :: cs) then none
    else if c.char = '"' then some (gap.text, cs)
    else if c.char = '\\' then
      if nextIs isBreak cs then do
        let (text, rest) ← doubleQuoted .hidden cs.tail
        return (gap.text ++ text, rest)
      else do
        let (d, length) ← escape? cs
        let (text, rest) ← doubleQuoted .none (cs.drop length)
        return (gap.text ++ d :: text, rest)
    else do
      let (text, rest) ← doubleQuoted .none cs
      return (gap.text ++ c.char :: text, rest)
termination_by cs.length
decreasing_by all_goals simp +arith

/-! ### Blocks of lines -/

/-- What becomes of the ends of lines at the end of a block. -/
inductive Chomp where
  | strip | clip | keep
deriving DecidableEq, Repr

/-- A sign that tells what becomes of them. -/
def chomp? (c : Char) : Option Chomp :=
  if c = '-' then some .strip else if c = '+' then some .keep else none

/-- A digit that tells how far a block is indented. -/
def indentDigit? (c : Char) : Option Nat :=
  if c.isDigit && c ≠ '0' then some (c.toNat - '0'.toNat) else none

/-- What the first line of a block says: a sign and a digit, each of which may be missing. -/
structure BlockHeader where
  chomp : Chomp
  digit : Option Nat
deriving DecidableEq, Repr

/-- Reads the first line of a block. -/
def blockHeader? (cs : List Cell) : Option (BlockHeader × List Cell) :=
  let sign (cs : List Cell) : Option Chomp := cs.head?.bind fun c => chomp? c.char
  let digit (cs : List Cell) : Option Nat := cs.head?.bind fun c => indentDigit? c.char
  let (header, rest) : BlockHeader × List Cell :=
    match sign cs, digit cs with
    | some s, _ =>
      match digit cs.tail with
      | some d => (⟨s, some d⟩, cs.tail.tail)
      | none => (⟨s, none⟩, cs.tail)
    | none, some d =>
      match sign cs.tail with
      | some s => (⟨s, some d⟩, cs.tail.tail)
      | none => (⟨.clip, some d⟩, cs.tail)
    | none, none => (⟨.clip, none⟩, cs)
  (restOfLine? rest).map fun rest => (header, rest)

/-- The ends of lines before the next line with text, the greatest column met, and what
follows.  Only spaces indent, up to column `indent`, or without a bound if it is zero. -/
def blockBreaks (indent deepest : Nat) : List Cell → Option (List Char × Nat × List Cell)
  | [] => some ([], deepest, [])
  | c :: cs =>
    let inside := indent = 0 || c.column < indent
    if inside && c.char = ' ' then blockBreaks indent deepest cs
    else if inside && c.char = '\t' then none
    else
      let deepest := max deepest c.column
      if isBreak c.char then do
        let (breaks, deepest, rest) ← blockBreaks indent deepest cs
        return (c.char :: breaks, deepest, rest)
      else some ([], deepest, c :: cs)

/-- What stands between two lines of a block: `first` is the end of the line before, `more`
the ends of empty lines.  If the block is folded and neither line begins with a blank, the
first one is folded. -/
def joinLines (folds : Bool) (first more : List Char) : List Char :=
  if folds && first = ['\n'] then if more.isEmpty then [' '] else more else first ++ more

/-- The lines of a block that stand in column `indent`.  `first` and `more` are the ends of
lines before, and `blank` says that the line before begins with a blank. -/
def blockLines (folded : Bool) (chomp : Chomp) (indent : Nat) :
    Nat → (first more : List Char) → (blank : Bool) → List Cell → Option (List Char × List Cell)
  | 0, _, _, _, _ => none
  | fuel + 1, first, more, blank, cs =>
    if (cs.head?.map Cell.column) = some indent then do
      let blank' := nextIs isBlank cs
      let (line, rest) := takeText (fun c => !isBreak c) cs
      let (breaks, _, rest') ← blockBreaks indent 0 rest.tail
      let (text, rest') ← blockLines folded chomp indent fuel (rest.head?.map Cell.char).toList
        breaks blank' rest'
      return (joinLines (folded && !blank && !blank') first more ++ line ++ text, rest')
    else
      some ((if chomp = .strip then [] else first) ++ (if chomp = .keep then more else []), cs)

/-- A block of lines after the mark that begins it, and what follows.  The block stands further
right than column `parent`. -/
def blockScalar (folded : Bool) (parent : Int) (cs : List Cell) :
    Option (List Char × List Cell) := do
  let (header, cs) ← blockHeader? cs
  let given := (header.digit.map fun d => (max parent 0).toNat + d).getD 0
  let (breaks, deepest, cs) ← blockBreaks given 0 cs
  let indent := if given = 0 then max deepest (max (parent + 1).toNat 1) else given
  blockLines folded header.chomp indent (cs.length + 1) [] breaks false cs

end NumericScript.Yaml
