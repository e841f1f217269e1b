import NumericScript.Text.Printable

/-! # Quoted text

The form in which a listing shows a text constant: between double quotes, on one line, with
nothing in it that a reader cannot see.

* A line feed, a tab, a carriage return and a NUL have escapes of two characters, and so have
  the double quote and the backslash.
* Any other character that is not printable, or that would attach itself to the one before
  it, is written by its code point in hexadecimal.
* Every other character stands for itself. -/

namespace NumericScript.Text

/-- The escape for a code point: hexadecimal digits between braces. -/
def codePointEscape (c : Char) : List Char :=
  ['\\', 'u', '\x7b'] ++ Nat.toDigits 16 c.toNat ++ ['\x7d']

/-- How one character of a quoted text is written. -/
def quotedChar (c : Char) : List Char :=
  if c = '\n' then ['\\', 'n']
  else if c = '\t' then ['\\', 't']
  else if c = '\r' then ['\\', 'r']
  else if c = '\x00' then ['\\', '0']
  else if c = '"' then ['\\', '"']
  else if c = '\\' then ['\\', '\\']
  else if isPrintable c && !extendsGrapheme c then [c]
  else codePointEscape c

/-- `text` between double quotes, with every character visible. -/
def quoted (text : String) : String :=
  String.ofList ('"' :: text.toList.flatMap quotedChar ++ ['"'])

end NumericScript.Text
