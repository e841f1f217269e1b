/-! # Escapes in text literals

Between its quotes a text literal writes a line feed, a tab, a double quote and a backslash by
two characters, a backslash and a letter or mark.

* `unescape_escape`: every text has a literal. -/

namespace NumericScript.Text

/-- How a character is written in a literal. -/
def escapeChar (c : Char) : List Char :=
  if c = '\n' then ['\\', 'n']
  else if c = '\t' then ['\\', 't']
  else if c = '"' then ['\\', '"']
  else if c = '\\' then ['\\', '\\']
  else [c]

/-- How a text is written in a literal. -/
def escape (cs : List Char) : List Char := cs.flatMap escapeChar

/-- What a backslash and `c` stand for. -/
def escaped? : Char → Option Char
  | 'n' => some '\n'
  | 't' => some '\t'
  | '"' => some '"'
  | '\\' => some '\\'
  | _ => none

/-- The text that a literal stands for, or the character after a backslash that no escape
has.  A space is reported for a backslash at the end. -/
def unescape : List Char → Except Char (List Char)
  | [] => .ok []
  | ['\\'] => .error ' '
  | '\\' :: c :: rest =>
    match escaped? c with
    | some d => (unescape rest).map (d :: ·)
    | none => .error c
  | c :: rest => (unescape rest).map (c :: ·)

theorem unescape_cons {c : Char} (h : c ≠ '\\') (rest : List Char) :
    unescape (c :: rest) = (unescape rest).map (c :: ·) := by
  rw [unescape] <;> simp [h]

theorem unescape_escapeChar_append (c : Char) (rest : List Char) :
    unescape (escapeChar c ++ rest) = (unescape rest).map (c :: ·) := by
  unfold escapeChar
  repeat' split
  all_goals simp_all [unescape, escaped?, unescape_cons]

theorem unescape_escape (cs : List Char) : unescape (escape cs) = .ok cs := by
  induction cs with
  | nil => rfl
  | cons c cs ih =>
    rw [escape, List.flatMap_cons, unescape_escapeChar_append, ← escape, ih, Except.map]

end NumericScript.Text
