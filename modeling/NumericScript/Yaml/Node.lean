import NumericScript.Yaml.Scalar

/-! # Nodes

The tree of a document: texts, mappings, and aliases that stand for a node elsewhere in the
tree.  An alias stands for the last node with its number, in the order in which nodes begin. -/

namespace NumericScript.Yaml

/-- What may be said of a node before its content. -/
structure Props where
  /-- The number of its anchor. -/
  anchor : Option Nat := none
  tag : Option String := none
deriving DecidableEq, Repr

/-- A node of a document. -/
inductive Node where
  | scalar (props : Props) (style : Style) (text : String)
  | mapping (props : Props) (entries : List (Node × Node))
  | aliasOf (anchor : Nat)
deriving Repr

namespace Node

/-- What is written where nothing is. -/
def empty : Node := .scalar {} .plain ""

/-- The number of the anchor of a node. -/
def anchor? : Node → Option Nat
  | scalar props _ _ => props.anchor
  | mapping props _ => props.anchor
  | aliasOf _ => none

mutual

/-- The last node in a tree whose anchor has the number `n`. -/
def find? (n : Nat) : Node → Option Node
  | mapping props entries =>
    (findIn? n entries).or (if props.anchor = some n then some (mapping props entries) else none)
  | node => if node.anchor? = some n then some node else none

/-- The last node in a list of trees whose anchor has the number `n`. -/
def findIn? (n : Nat) : List (Node × Node) → Option Node
  | [] => none
  | (key, value) :: entries => (findIn? n entries).or ((value.find? n).or (key.find? n))

end

/-- What a node of the document `root` stands for. -/
def resolve (root : Node) : Node → Node
  | aliasOf n => (root.find? n).getD (aliasOf n)
  | node => node

end Node

end NumericScript.Yaml
