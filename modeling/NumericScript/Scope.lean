import NumericScript.Syntax

/-! # Symbols and scopes

A symbol is what a declaration introduces.  `Scopes` holds all symbols declared so far and,
for every scope still open, the names it declares.  Leaving a scope forgets its names; the
symbols stay. -/

namespace NumericScript

/-- What a symbol stands for. -/
inductive SymbolKind where
  | variable
  | parameter
  | function (params : List Ty) (returns : Ty)
deriving DecidableEq, Repr

/-- What a declaration introduces. -/
structure Symbol where
  name : String
  kind : SymbolKind
  ty : Ty
  /-- How many scopes enclose the one of the declaration. -/
  depth : Nat
  loc : Loc
  initialized : Bool
  used : Bool
  /-- The name under which a variable is stored at run time. -/
  slot : String
  storage : Storage
deriving DecidableEq, Repr

namespace Symbol

/-- Whether a symbol is a function. -/
def isFunction (s : Symbol) : Bool :=
  match s.kind with
  | .function .. => true
  | _ => false

/-- Whether a symbol is a declared variable. -/
def isVariable (s : Symbol) : Bool := s.kind = .variable

/-- The binding of a name that stands for a variable. -/
def binding (s : Symbol) : Binding := ⟨s.slot, s.ty, s.storage⟩

end Symbol

/-- The names that a scope declares, with the numbers of their symbols. -/
abbrev Scope := List (String × Nat)

/-- The number of the symbol that a scope declares under `name`. -/
def Scope.find? (s : Scope) (name : String) : Option Nat := s.lookup name

/-- All symbols, and the scopes that are open. -/
structure Scopes where
  /-- The outermost scope. -/
  root : Scope
  /-- The scopes inside it, the innermost first. -/
  inner : List Scope
  /-- All symbols in the order of their declaration. -/
  symbols : Array Symbol

namespace Scopes

/-- No symbols, and the outermost scope open. -/
def empty : Scopes := ⟨[], [], #[]⟩

/-- Opens a scope. -/
def enter (s : Scopes) : Scopes := { s with inner := [] :: s.inner }

/-- Closes the innermost scope.  The outermost one stays open and only loses its names. -/
def exit (s : Scopes) : Scopes :=
  match s.inner with
  | _ :: outer => { s with inner := outer }
  | [] => { s with root := [] }

/-- How many scopes enclose the innermost one. -/
def depth (s : Scopes) : Nat := s.inner.length

/-- Whether no scope is open but the outermost one. -/
def isGlobal (s : Scopes) : Bool := s.inner.isEmpty

/-- The scopes that are open, the innermost first. -/
def chain (s : Scopes) : List Scope := s.inner ++ [s.root]

/-- The innermost scope. -/
def current (s : Scopes) : Scope := s.inner.headD s.root

/-- The number of the innermost symbol of that name. -/
def lookup (s : Scopes) (name : String) : Option Nat := s.chain.findSome? (·.find? name)

/-- The number of the symbol of that name in the outermost scope. -/
def lookupGlobal (s : Scopes) (name : String) : Option Nat := s.root.find? name

/-- The symbol of that number. -/
def symbol? (s : Scopes) (id : Nat) : Option Symbol := s.symbols[id]?

/-- The innermost symbol of that name, with its number. -/
def resolve? (s : Scopes) (name : String) : Option (Nat × Symbol) := do
  let id ← s.lookup name
  let symbol ← s.symbol? id
  return (id, symbol)

/-- Changes the symbol of that number. -/
def update (s : Scopes) (id : Nat) (f : Symbol → Symbol) : Scopes :=
  { s with symbols := s.symbols.modify id f }

/-- Adds a name to the innermost scope. -/
def addName (s : Scopes) (name : String) (id : Nat) : Scopes :=
  match s.inner with
  | scope :: outer => { s with inner := ((name, id) :: scope) :: outer }
  | [] => { s with root := (name, id) :: s.root }

/-- Declares a symbol in the innermost scope and gives its number; or gives the number of the
symbol that has its name there already. -/
def declare (s : Scopes) (symbol : Symbol) : Except Nat (Nat × Scopes) :=
  match s.current.find? symbol.name with
  | some existing => .error existing
  | none =>
    let id := s.symbols.size
    let s' := s.addName symbol.name id
    .ok (id, { s' with symbols := s.symbols.push { symbol with depth := s.depth } })

/-- The names of symbols with the property `p` in the open scopes, in order and once each. -/
def visible (s : Scopes) (p : Symbol → Bool) : List String :=
  let ids := s.chain.flatten.map (·.2)
  let names := (ids.filterMap s.symbol?).filter p |>.map (·.name)
  (names.mergeSort fun a b => ¬ b < a).eraseReps

theorem depth_enter (s : Scopes) : s.enter.depth = s.depth + 1 := rfl

theorem exit_enter (s : Scopes) : s.enter.exit = s := rfl

end Scopes

end NumericScript
