import NumericScript.Text.Digits
import NumericScript.Yaml.Cell

/-! # Anchors, tags and directives

An anchor names a node, a tag names its type.  A tag is written with a handle, which stands for
a text that a directive at the beginning of the document may give. -/

namespace NumericScript.Yaml

/-! ### Names -/

/-- The characters of names: letters, digits and two marks. -/
def isName (c : Char) : Bool := c.isAlphanum || c = '_' || c = '-'

/-- The marks that may follow a name without a space. -/
def endsName (c : Char) : Bool := c ∈ ['?', ':', ',', ']', '\x7d', '%', '@', '\x60']

/-- The name of an anchor, and what follows. -/
def name? (cs : List Cell) : Option (String × List Cell) :=
  let (name, rest) := takeText isName cs
  if name.isEmpty || !(wordEnds rest || nextIs endsName rest) then none
  else some (String.ofList name, rest)

/-! ### Octets -/

/-- A text as octets, which need not be well formed. -/
abbrev Octets := List UInt8

/-- The text that octets stand for.  Octets that are not well formed stand for a mark that no
text has a use for. -/
def Octets.text (os : Octets) : String := (String.fromUTF8? ⟨os.toArray⟩).getD "\ufffd"

/-- The octets of a text. -/
def octetsOf (s : String) : Octets := s.toUTF8.toList

/-- The characters of tags; those of lists belong to them if `wide`. -/
def isTagChar (wide : Bool) (c : Char) : Bool :=
  isName c
    || c ∈ [';', '/', '?', ':', '@', '&', '=', '+', '$', '.', '!', '~', '*', '\'', '(', ')']
    || wide && c ∈ [',', '[', ']']

/-- How many octets of a character come after the octet `n`, if `awaited` were to come with
it. -/
def awaitedAfter? (awaited n : Nat) : Option Nat :=
  if 0 < awaited then if 0x80 ≤ n && n < 0xc0 then some (awaited - 1) else none
  else if n < 0x80 then some 0
  else if 0xc0 ≤ n && n < 0xe0 then some 1
  else if 0xe0 ≤ n && n < 0xf0 then some 2
  else if 0xf0 ≤ n && n < 0xf8 then some 3
  else none

/-- The octets of a part of a tag, and what follows.  A percent sign and two hexadecimal digits
are an octet; `awaited` octets are still to come of a character. -/
def tagOctets (wide : Bool) (awaited : Nat) : List Cell → Option (Octets × List Cell)
  | c :: h :: l :: cs =>
    if c.char = '%' then do
      let n ← Text.natOfBase? 16 [h.char, l.char]
      let awaited ← awaitedAfter? awaited n
      let (os, rest) ← tagOctets wide awaited cs
      return (n.toUInt8 :: os, rest)
    else if 0 < awaited then none
    else if isTagChar wide c.char then do
      let (os, rest) ← tagOctets wide 0 (h :: l :: cs)
      return (c.char.toUInt8 :: os, rest)
    else some ([], c :: h :: l :: cs)
  | cs =>
    let (part, rest) := takeText (isTagChar wide) cs
    if 0 < awaited || nextIs (· = '%') rest then none
    else some (part.map Char.toUInt8, rest)

/-- The octets before the first that is zero. -/
def beforeZero (os : Octets) : Octets := os.takeWhile (· ≠ 0)

/-- The octets of a part of a tag that is not empty, and what follows. -/
def tagPart? (wide : Bool) (cs : List Cell) : Option (Octets × List Cell) := do
  let (os, rest) ← tagOctets wide 0 cs
  if os.isEmpty then none else some (beforeZero os, rest)

/-! ### Tags -/

/-- A tag as it is written. -/
structure Tag where
  /-- The handle, or nothing if the tag is written in full. -/
  handle : String
  suffix : Octets
deriving DecidableEq, Repr

/-- The tag that says nothing. -/
def Tag.plain : Tag := ⟨"", octetsOf "!"⟩

/-- A tag after its exclamation mark, and what follows. -/
def tagBody? (cs : List Cell) : Option (Tag × List Cell) :=
  if nextIs (· = '<') cs then do
    let (suffix, rest) ← tagPart? true cs.tail
    if nextIs (· = '>') rest then some (⟨"", suffix⟩, rest.tail) else none
  else
    let (name, rest) := takeText isName cs
    if nextIs (· = '!') rest then do
      let (suffix, rest) ← tagPart? false rest.tail
      some (⟨"!" ++ String.ofList name ++ "!", suffix⟩, rest)
    else do
      let (os, rest) ← tagOctets false 0 rest
      let suffix := name.map Char.toUInt8 ++ beforeZero os
      some (if suffix.isEmpty then .plain else ⟨"!", suffix⟩, rest)

/-- A tag after its exclamation mark, and what follows: the end of a word, or a comma between
braces. -/
def tag? (flow : Bool) (cs : List Cell) : Option (Tag × List Cell) := do
  let (tag, rest) ← tagBody? cs
  if wordEnds rest || (flow && nextIs (· = ',') rest) then some (tag, rest) else none

/-! ### Directives -/

/-- What is said before a document begins. -/
inductive Directive where
  | version (major minor : Nat)
  /-- A handle of tags and what it stands for. -/
  | handle (handle : String) (text : Octets)
deriving DecidableEq, Repr

/-- A number with at most nine digits, and what follows. -/
def versionPart? (cs : List Cell) : Option (Nat × List Cell) := do
  let (digits, rest) := takeText Char.isDigit cs
  let n ← Text.natOfBase? 10 digits
  if digits.length ≤ 9 then some (n, rest) else none

/-- A handle of tags, and what follows: one exclamation mark, or a name between two. -/
def handle? (cs : List Cell) : Option (String × List Cell) :=
  if nextIs (· = '!') cs then
    let (name, rest) := takeText isName cs.tail
    if nextIs (· = '!') rest then some ("!" ++ String.ofList name ++ "!", rest.tail)
    else if name.isEmpty then some ("!", rest)
    else none
  else none

/-- What follows the name of a directive on its line. -/
def directiveBody? (name : String) (cs : List Cell) : Option (Directive × List Cell) :=
  match name with
  | "YAML" => do
    let (major, rest) ← versionPart? cs
    if nextIs (· = '.') rest then
      let (minor, rest) ← versionPart? rest.tail
      return (.version major minor, rest)
    else none
  | "TAG" => do
    let (handle, rest) ← handle? cs
    if nextIs isBlank rest then
      let (text, rest) ← tagPart? true (dropBlanks rest)
      if wordEnds rest then return (.handle handle text, rest) else none
    else none
  | _ => none

/-- A directive after its percent sign, and the lines that follow. -/
def directive? (cs : List Cell) : Option (Directive × List Cell) := do
  let (name, rest) := takeText isName cs
  if wordEnds rest then
    let (d, rest) ← directiveBody? (String.ofList name) (dropBlanks rest)
    return (d, ← restOfLine? rest)
  else none

end NumericScript.Yaml
