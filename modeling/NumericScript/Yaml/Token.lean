import NumericScript.Yaml.Property
import NumericScript.Yaml.Scalar

/-! # Tokens of a document

What a document is made of.  Blocks of entries have tokens for their beginning and their end,
which are read off the columns of their lines.  Lists have no tokens, so documents with lists
cannot be read. -/

namespace NumericScript.Yaml

/-- A token of a document. -/
inductive Token where
  | directive (d : Directive)
  | documentStart
  | documentEnd
  | blockMapping
  | blockEnd
  | openMap
  | closeMap
  /-- A comma between braces. -/
  | entry
  | key
  | value
  | aliasOf (name : String)
  | anchor (name : String)
  | tag (t : Tag)
  | scalar (style : Style) (text : String)
deriving DecidableEq, Repr

end NumericScript.Yaml
