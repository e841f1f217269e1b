/-! # Words with a meaning

The plain texts of a document that stand for truth values, for numbers and for nothing. -/

namespace NumericScript.Yaml

/-- The words for what is true. -/
def trueWords : List String := ["true", "True", "TRUE"]

/-- The words for what is false. -/
def falseWords : List String := ["false", "False", "FALSE"]

/-- The words for nothing. -/
def nullWords : List String := ["null", "Null", "NULL", "~"]

/-- The truth value that a text stands for. -/
def boolOf? (text : String) : Option Bool :=
  if text ∈ trueWords then some true
  else if text ∈ falseWords then some false
  else none

/-- Whether a text stands for nothing. -/
def isNull (text : String) : Bool := text ∈ nullWords

/-- Whether a text stands for something else than itself, numbers apart. -/
def isReserved (text : String) : Bool := (boolOf? text).isSome || isNull text

end NumericScript.Yaml
