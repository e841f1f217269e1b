import NumericScript.Yaml.Node
import NumericScript.Yaml.Token.Scan

/-! # Reading nodes

The tree of the tokens of a document.  Where a key, a value or the content of a named or
tagged node is missing, there is an empty text.

An anchor is numbered by how many names there were before it, and an alias takes the number
that its name has at that moment. -/

namespace NumericScript.Yaml

/-- What is left to read, and what was said about names. -/
structure Reading where
  tokens : List Token
  /-- The numbers of anchors. -/
  anchors : List (String × Nat) := []
  /-- The handles of tags, and what they stand for. -/
  handles : List (String × Octets) := []

/-- Functions that read tokens. -/
abbrev NodeReader (α : Type) := StateT Reading Option α

namespace NodeReader

/-- The next token, if there is one. -/
def next? : NodeReader (Option Token) := do return (← get).tokens.head?

/-- Passes the next token and gives it. -/
def take? : NodeReader (Option Token) := do
  let t ← next?
  modify fun r => { r with tokens := r.tokens.tail }
  return t

/-- Passes the next token if it is `t`, and tells whether it was. -/
def eat (t : Token) : NodeReader Bool := do
  if (← next?) = some t then
    let _ ← take?
    return true
  else return false

/-! ### What is said before the content of a node -/

/-- Numbers an anchor. -/
def nameAnchor (name : String) : NodeReader Nat := do
  let anchors := (← get).anchors
  let n := anchors.length
  let others := anchors.filter fun p => p.1 ≠ name
  modify fun r => { r with anchors := (name, n) :: others }
  return n

/-- The text that a tag stands for. -/
def tagText (t : Tag) : NodeReader String := do
  if t.handle.isEmpty then return t.suffix.text
  else
    let some start := (← get).handles.lookup t.handle | failure
    return (start ++ t.suffix).text

/-- An anchor, if there is one. -/
def anchor : NodeReader (Option String) := do
  match (← next?) with
  | some (.anchor name) =>
    let _ ← take?
    return some name
  | _ => return none

/-- A tag, if there is one. -/
def tag : NodeReader (Option String) := do
  match (← next?) with
  | some (.tag t) =>
    let _ ← take?
    return some (← tagText t)
  | _ => return none

/-- The name and the tag of a node, in either order. -/
def nameAndTag : NodeReader (Option String × Option String) := do
  match (← anchor) with
  | some name => return (some name, ← tag)
  | none =>
    let t ← tag
    return (← anchor, t)

/-! ### Nodes -/

/-- The tag of a text that is there: an exclamation mark alone says nothing. -/
def scalarTag (tag : Option String) : Option String := tag.filter (· ≠ "!")

/-- What may come where a block has no content. -/
def endsBlockContent (t : Option Token) : Bool :=
  t ∈ [some .key, some .value, some .blockEnd]

/-- A node without content, which must have a name or a tag. -/
def emptyNode (name tag : Option String) (props : Option String → NodeReader Props) :
    NodeReader Node := do
  if name.isSome || tag.isSome then return .scalar (← props tag) .plain ""
  else failure

mutual

/-- Reads a node.  Blocks of entries are read if `block`. -/
def node (block : Bool) : Nat → NodeReader Node
  | 0 => failure
  | fuel + 1 => do
    if let some (.aliasOf name) := (← next?) then
      let _ ← take?
      let some n := (← get).anchors.lookup name | failure
      return .aliasOf n
    let (name, tag) ← nameAndTag
    let props (tag : Option String) : NodeReader Props := do
      match name with
      | some name => return ⟨some (← nameAnchor name), tag⟩
      | none => return ⟨none, tag⟩
    match (← next?) with
    | some (.scalar style text) =>
      let _ ← take?
      return .scalar (← props (scalarTag tag)) style text
    | some .openMap =>
      let _ ← take?
      let props ← props tag
      return .mapping props (← flowEntries fuel)
    | some .blockMapping =>
      if block then
        let _ ← take?
        let props ← props tag
        return .mapping props (← blockEntries fuel)
      else emptyNode name tag props
    | _ => emptyNode name tag props

/-- Reads the entries of a block, up to its end. -/
def blockEntries : Nat → NodeReader (List (Node × Node))
  | 0 => failure
  | fuel + 1 => do
    let content : NodeReader Node := do
      if endsBlockContent (← next?) then return .empty else node true fuel
    match (← take?) with
    | some .blockEnd => return []
    | some .key =>
      let key ← content
      let value ← if (← eat .value) then content else pure .empty
      return (key, value) :: (← blockEntries fuel)
    | _ => failure

/-- Reads the entries between braces, up to the closing one. -/
def flowEntries : Nat → NodeReader (List (Node × Node))
  | 0 => failure
  | fuel + 1 => do
    let content (ends : List Token) : NodeReader Node := do
      if (← next?).any (· ∈ ends) then return .empty else node false fuel
    if (← eat .closeMap) then return []
    let entry : Node × Node ← do
      if (← eat .key) then
        let key ← content [.value, .entry, .closeMap]
        let value ← if (← eat .value) then content [.entry, .closeMap] else pure .empty
        pure (key, value)
      else pure (← node false fuel, .empty)
    match (← take?) with
    | some .closeMap => return [entry]
    | some .entry => return entry :: (← flowEntries fuel)
    | _ => failure

end

/-! ### Documents -/

/-- Whether a version of the language is one that can be read. -/
def isKnownVersion (major minor : Nat) : Bool := major = 1 && (minor = 1 || minor = 2)

/-- Reads directives; `versioned` says that the version was given. -/
def directives (versioned : Bool) : Nat → NodeReader Unit
  | 0 => failure
  | fuel + 1 => do
    match (← next?) with
    | some (.directive (.version major minor)) =>
      if versioned || !isKnownVersion major minor then failure
      let _ ← take?
      directives true fuel
    | some (.directive (.handle handle text)) =>
      if ((← get).handles.lookup handle).isSome then failure
      modify fun r => { r with handles := (handle, text) :: r.handles }
      let _ ← take?
      directives versioned fuel
    | _ => return ()

/-- The handles that have a meaning without directives. -/
def knownHandles : List (String × Octets) :=
  [("!", octetsOf "!"), ("!!", octetsOf "tag:yaml.org,2002:")]

/-- Whether a document begins with a mark or with directives. -/
def isExplicit : Option Token → Bool
  | some .documentStart | some (.directive _) => true
  | _ => false

/-- Whether a document ends before the token. -/
def endsDocument (t : Option Token) : Bool := t.isNone || isExplicit t || t = some .documentEnd

/-- Reads the node of a document. -/
def document (fuel : Nat) : NodeReader Node := do
  let explicit := isExplicit (← next?)
  if explicit then
    directives false fuel
    if !(← eat .documentStart) then failure
  modify fun r => { r with handles := r.handles ++ knownHandles }
  if explicit && endsDocument (← next?) then return .empty
  else node true fuel

/-- The node of the one document that tokens have; no tokens are an empty text. -/
def ofTokens? (ts : List Token) : Option Node :=
  if ts.isEmpty then some .empty
  else do
    let (node, rest) ← (document (2 * ts.length + 2)).run ⟨ts, [], []⟩
    if rest.tokens.all (· = .documentEnd) then some node else none

end NodeReader

/-- The node of the document in a text. -/
def Node.ofText? (text : String) : Option Node := tokens? text >>= NodeReader.ofTokens?

end NumericScript.Yaml
