import NumericScript.Yaml.Word

/-! # Writing documents

The lines of documents: lists of mappings with an entry on each line, whose values are texts or
lists of texts.

* `name_eq_self`: a name that stands for nothing but itself is written as it is. -/

namespace NumericScript.Yaml

/-- A name as a text.  Only a word with another meaning needs quotes. -/
def name (s : String) : String := if isReserved s then "'" ++ s ++ "'" else s

theorem name_eq_self {s : String} (h : isReserved s = false) : name s = s := by
  simp [name, h]

/-- What stands for a key. -/
inductive Content where
  /-- Something on the line of the key. -/
  | inline (text : String)
  /-- A list below the key, with a tag beside it. -/
  | list (tag : String) (items : List String)

/-- A list; one without items stands on the line of the key. -/
def list (items : List String) : Content :=
  if items.isEmpty then .inline "[]" else .list "" items

/-- The lines of a key and what stands for it. -/
def field (key : String) : Content → List String
  | .inline text => [key ++ ": " ++ text]
  | .list tag items => (key ++ ":" ++ tag) :: items.map ("- " ++ ·)

/-- The lines of an item of a list. -/
def item : List String → List String
  | [] => []
  | l :: ls => ("- " ++ l) :: ls.map ("  " ++ ·)

end NumericScript.Yaml
