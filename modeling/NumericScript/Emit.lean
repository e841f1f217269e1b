import NumericScript.Compile
import NumericScript.Yaml.Print

/-! # Showing what a compilation gave

Tokens and code are shown as listings, symbols and counts as YAML documents. -/

namespace NumericScript

/-- What can be shown. -/
inductive Emit where
  | tokens | tree | symbols | code | optimized | stats
deriving DecidableEq, Repr

/-- What a user asks for by a name. -/
def Emit.ofName? : String → Option Emit
  | "tokens" => some .tokens
  | "ast" => some .tree
  | "symbols" => some .symbols
  | "tac" => some .code
  | "optimized" => some .optimized
  | "stats" => some .stats
  | _ => none

/-- Lines as a text in which every line has an end. -/
def unlines (lines : List String) : String := String.join (lines.map (· ++ "\n"))

/-! ### Symbols -/

/-- A type that needs no tag. -/
def Ty.plainWord? : Ty → Option String
  | int => some "int"
  | float => some "float"
  | str => some "str"
  | bool => some "bool"
  | void => some "void"
  | unknown => some "unknown"
  | array _ | matrix _ => none

/-- A type in a document.  A tag cannot have another one in it, so arrays of arrays and of
matrices have no form. -/
def Ty.content? : Ty → Option Yaml.Content
  | array e => e.plainWord?.map fun w => .inline ("!array " ++ w)
  | matrix none => some (.inline "!matrix null")
  | matrix (some (rows, cols)) => some (.list " !matrix" [toString rows, toString cols])
  | t => t.plainWord?.map .inline

/-- A type as an item of a list. -/
def Ty.item? (t : Ty) : Option String :=
  match t.content? with
  | some (.inline text) => some text
  | _ => none

namespace Symbol

/-- The lines for the kind of a symbol. -/
def kindLines? : SymbolKind → Option (List String)
  | .variable => some ["kind: variable"]
  | .parameter => some ["kind: parameter"]
  | .function params returns => do
    let params ← params.mapM Ty.item?
    let returns ← returns.content?
    return "kind: function" :: (Yaml.field "params" (Yaml.list params)
      ++ Yaml.field "returns" returns)

/-- The name of a storage in a document. -/
def storageText : Storage → String
  | .global => "global"
  | .local => "local"

/-- The lines for a symbol. -/
def lines? (s : Symbol) : Option (List String) := do
  let kind ← kindLines? s.kind
  let ty ← s.ty.content?
  return Yaml.item (["name: " ++ Yaml.name s.name] ++ kind ++ Yaml.field "type" ty ++ [
    "scope_depth: " ++ toString s.depth,
    "line: " ++ toString s.loc.line,
    "column: " ++ toString s.loc.column,
    "initialized: " ++ Value.boolText s.initialized,
    "used: " ++ Value.boolText s.used,
    "slot: " ++ Yaml.name s.slot,
    "storage: " ++ storageText s.storage])

/-- The document for symbols, if it can be written. -/
def document? (symbols : List Symbol) : Option String :=
  if symbols.isEmpty then some "[]\n"
  else (symbols.mapM lines?).map fun ls => unlines ls.flatten

end Symbol

/-- The document for counts of changes. -/
def OptimizerStats.document (s : OptimizerStats) : String :=
  unlines [
    "constant_folds: " ++ toString s.folded,
    "constant_propagations: " ++ toString s.propagated,
    "dead_code_removed: " ++ toString s.removed,
    "peephole_rewrites: " ++ toString s.simplified,
    "strength_reductions: " ++ toString s.reduced,
    "rounds: " ++ toString s.rounds]

/-! ### Compilations -/

/-- The line for a token: its place, and what it is. -/
def Token.line (t : Token) : String :=
  toString t.span.line ++ ":" ++ toString t.span.column ++ "\t" ++ t.kind.text

/-- What a compilation gave, if it can be written.  Nothing is shown of a stage that was not
reached. -/
def Compilation.emit? (c : Compilation) : Emit → Option String
  | .tokens => some (unlines (c.tokens.map Token.line))
  | .tree => some ((c.analysis.map fun a => reprStr a.program ++ "\n").getD "")
  | .symbols =>
    match c.analysis with
    | some a => Symbol.document? a.symbols
    | none => some ""
  | .code => some ((c.code.map Code.text).getD "")
  | .optimized => some ((c.optimized.map Code.text).getD "")
  | .stats => some ((c.stats.map OptimizerStats.document).getD "")

end NumericScript
