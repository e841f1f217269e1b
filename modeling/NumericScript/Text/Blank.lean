import NumericScript.Text.Ranges

/-! # White space

The characters with the Unicode property `White_Space`, and text cut off at its ends. -/

namespace NumericScript.Text

/-- The white space of Unicode, as inclusive ranges of code points. -/
def blankRanges : List (Nat × Nat) :=
  [(0x9, 0xd), (0x20, 0x20), (0x85, 0x85), (0xa0, 0xa0), (0x1680, 0x1680), (0x2000, 0x200a),
   (0x2028, 0x2029), (0x202f, 0x202f), (0x205f, 0x205f), (0x3000, 0x3000)]

/-- Whether `c` is white space. -/
def isBlank (c : Char) : Bool := inRanges blankRanges c

theorem isBlank_of_isWhitespace {c : Char} (h : c.isWhitespace = true) : isBlank c = true := by
  simp only [Char.isWhitespace, Bool.or_eq_true, decide_eq_true_eq] at h
  rcases h with ((rfl | rfl) | rfl) | rfl <;> decide

/-- `cs` without the characters at its end that `p` holds of. -/
def dropEndWhile (p : Char → Bool) (cs : List Char) : List Char :=
  (cs.reverse.dropWhile p).reverse

/-- `text` without white space at its end. -/
def trimEnd (text : String) : String := String.ofList (dropEndWhile isBlank text.toList)

/-- `text` without white space at either end. -/
def trim (text : String) : String :=
  String.ofList ((dropEndWhile isBlank text.toList).dropWhile isBlank)

end NumericScript.Text
