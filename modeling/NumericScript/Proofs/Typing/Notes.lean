import NumericScript.Proofs.Lowering.Rules
import NumericScript.Proofs.Typing.Flow

/-! # Notes of a program

The notes of the code to which an annotated program is lowered: for every instruction the static
types of what it takes in, as they are written at the expressions, variables and functions, and
the type of what it gives or of the place to which it moves a value.  They are read off the tree in
the order in which lowering emits the instructions.

* `Expr.notes`, `Stmt.notes`: the notes of the parts of a program.
* `Program.notes`: the notes of a program. -/

namespace NumericScript

open Lowering (Context Signature calls callee? itemTy)

/-! ### Forms of expressions -/

namespace Expr

/-- Whether an expression is a whole number. -/
def isInt : Expr → Bool
  | .int _ _ => true
  | _ => false

/-- Whether an expression is a number, a text or a truth value. -/
def isLiteral : Expr → Bool
  | .int _ _ | .float _ _ | .str _ _ | .bool _ _ => true
  | _ => false

/-- Whether an expression is a variable. -/
def isName : Expr → Bool
  | .name _ _ => true
  | _ => false

end Expr

/-- The type that a name is bound to. -/
def Name.ty (x : Name) : Ty := (x.binding.map (·.ty)).getD .unknown

namespace Note

/-- The note of an instruction that takes in and gives nothing. -/
def plain : Note := ⟨[], none⟩

/-- The note of a condition. -/
def test (t : Ty) : Note := ⟨[t], none⟩

/-- The notes of keeping the value of a variable that something later could change. -/
def pin (changes : Bool) (e : Expr) : List Note :=
  if changes && e.isName then [⟨[e.ty], some e.ty⟩] else []

/-- The type of a value after it was widened to a type if need be. -/
def widenedTy (found expected : Ty) : Ty :=
  if found = .int ∧ expected = .float then .float else found

/-- The notes of widening a value to a type.  A literal needs no instruction. -/
def widen (e : Expr) (expected : Ty) : List Note :=
  if e.ty = .int ∧ expected = .float ∧ e.isInt = false then [⟨[.int], some .float⟩] else []

/-- The note of putting a value into a variable of a type. -/
def put (e : Expr) (t : Ty) : Note :=
  if e.isLiteral then ⟨[], some t⟩ else ⟨[widenedTy e.ty t], some t⟩

/-- The note of replacing an element of a variable of some type. -/
def store (container : Ty) (index : List Ty) (e : Expr) : Note :=
  let element := container.element?.getD .unknown
  ⟨container :: index ++ [widenedTy e.ty element],
    if container.isMatrix then none else some element⟩

/-- The note of adding an argument for a parameter, of which the type may not be known. -/
def param (expected : Option Ty) (e : Expr) : Note :=
  ⟨[widenedTy e.ty (expected.getD .unknown)], some (expected.getD e.ty)⟩

/-- The types of the arguments that a call finds. -/
def passed : List Ty → List Expr → List Ty
  | _, [] => []
  | params, e :: es => params.head?.getD e.ty :: passed params.tail es

end Note

/-! ### Expressions -/

mutual

/-- The notes of the code of an expression. -/
def Expr.notes (sigs : Store String Signature) : Expr → List Note
  | .int _ _ | .float _ _ | .str _ _ | .bool _ _ | .name _ _ => []
  | .binary m _ l r =>
    l.notes sigs ++ Note.pin (calls r) l ++ r.notes sigs ++ [⟨[l.ty, r.ty], m.ty⟩]
  | .unary m _ e => e.notes sigs ++ [⟨[e.ty], m.ty⟩]
  | .call _ f args =>
    match callee? ⟨sigs, .unknown, none⟩ f with
    | none => []
    | some (_, params, returns) =>
      Expr.argumentNotes sigs params args ++ [⟨Note.passed params args, some returns⟩] ++
        [⟨[returns], some returns⟩]
  | .array m items => [Note.plain] ++ Expr.elementNotes sigs (itemTy m) items
  | .matrix m rows => [⟨[], m.ty⟩] ++ Expr.rowNotes sigs rows
  | .index m base row none =>
    base.notes sigs ++ Note.pin (calls row) base ++ row.notes sigs ++ [⟨[base.ty, row.ty], m.ty⟩]
  | .index m base row (some col) =>
    base.notes sigs ++ Note.pin (calls row || calls col) base ++ row.notes sigs ++
      Note.pin (calls col) row ++ col.notes sigs ++ [⟨[base.ty, row.ty, col.ty], m.ty⟩]

/-- The notes of the code that passes arguments. -/
def Expr.argumentNotes (sigs : Store String Signature) (params : List Ty) : List Expr → List Note
  | [] => []
  | e :: es =>
    (e.notes sigs ++ Note.widen e (params.headD .unknown)) ++ [Note.param params.head? e] ++
      Expr.argumentNotes sigs params.tail es

/-- The notes of the code that fills an array. -/
def Expr.elementNotes (sigs : Store String Signature) (element : Ty) : List Expr → List Note
  | [] => []
  | e :: es =>
    (e.notes sigs ++ Note.widen e element) ++
      [⟨[.int, Note.widenedTy e.ty element], some element⟩] ++ Expr.elementNotes sigs element es

/-- The notes of the code that fills a row of a matrix. -/
def Expr.entryNotes (sigs : Store String Signature) : List Expr → List Note
  | [] => []
  | e :: es =>
    (e.notes sigs ++ Note.widen e .float) ++ [⟨[.int, .int, Note.widenedTy e.ty .float], none⟩] ++
      Expr.entryNotes sigs es

/-- The notes of the code that fills a matrix. -/
def Expr.rowNotes (sigs : Store String Signature) : List (List Expr) → List Note
  | [] => []
  | es :: rows => Expr.entryNotes sigs es ++ Expr.rowNotes sigs rows

end

namespace Expr

/-- The notes of the code of an expression that is widened to a type. -/
def widenedNotes (sigs : Store String Signature) (e : Expr) (expected : Ty) : List Note :=
  e.notes sigs ++ Note.widen e expected

/-- The notes of the code that prints values. -/
def printNotes (sigs : Store String Signature) : List Expr → List Note
  | [] => []
  | e :: es => e.notes sigs ++ [Note.test e.ty] ++ printNotes sigs es

end Expr

/-! ### Statements -/

/-- The notes of the code that gives a variable a new value. -/
def Name.setNotes (sigs : Store String Signature) (x : Name) (e : Expr) : List Note :=
  e.widenedNotes sigs x.ty ++ [Note.put e x.ty]

/-- The notes of the code that gives an element of a container a new value. -/
def Name.storeNotes (sigs : Store String Signature) (x : Name) (s : Subscript) (e : Expr) :
    List Note :=
  let element := x.ty.element?.getD .unknown
  match s with
  | ⟨row, none⟩ =>
    row.notes sigs ++ Note.pin (calls e) row ++ e.widenedNotes sigs element ++
      [Note.store x.ty [row.ty] e]
  | ⟨row, some col⟩ =>
    row.notes sigs ++ Note.pin (calls e || calls col) row ++
      (col.notes sigs ++ Note.pin (calls e) col) ++ e.widenedNotes sigs element ++
      [Note.store x.ty [row.ty, col.ty] e]

/-- The type of the comparison of the counter of a `repeat` with the number of rounds. -/
def Ty.more (count : Ty) : Ty := if count = .unknown then .unknown else .bool

mutual

/-- The notes of the code of a statement. -/
def Stmt.notes (sigs : Store String Signature) (returns : Ty) : Stmt → List Note
  | .decl _ x _ init => x.setNotes sigs init
  | .assign _ x none value => x.setNotes sigs value
  | .assign _ x (some s) value => x.storeNotes sigs s value
  | .function _ _ _ _ _ => []
  | .cond _ e body none =>
    e.notes sigs ++ [Note.test e.ty] ++ Stmt.blockNotes sigs returns body ++ [Note.plain]
  | .cond _ e body (some orElse) =>
    e.notes sigs ++ [Note.test e.ty] ++ Stmt.blockNotes sigs returns body ++ [Note.plain] ++
      [Note.plain] ++ Stmt.blockNotes sigs returns orElse ++ [Note.plain]
  | .while _ e body =>
    [Note.plain] ++ e.notes sigs ++ [Note.test e.ty] ++ Stmt.blockNotes sigs returns body ++
      [Note.plain] ++ [Note.plain]
  | .repeat _ count body =>
    count.notes sigs ++ [Note.put count count.ty] ++ [⟨[], some .int⟩] ++ [Note.plain] ++
      [⟨[.int, count.ty], some (Ty.more count.ty)⟩] ++ [Note.test (Ty.more count.ty)] ++
      Stmt.blockNotes sigs returns body ++ [Note.plain] ++ [⟨[.int, .int], some .int⟩] ++
      [Note.plain] ++ [Note.plain]
  | .for _ init e update body =>
    init.notes sigs returns ++ [Note.plain] ++ e.notes sigs ++ [Note.test e.ty] ++
      Stmt.blockNotes sigs returns body ++ [Note.plain] ++ update.notes sigs returns ++
      [Note.plain] ++ [Note.plain]
  | .break _ | .continue _ | .return _ none => [Note.plain]
  | .return _ (some e) =>
    e.widenedNotes sigs returns ++ [⟨[Note.widenedTy e.ty returns], some returns⟩]
  | .print _ values => Expr.printNotes sigs values
  | .input _ x => [⟨[], some x.ty⟩]
  | .expr _ (.call _ f args) =>
    match callee? ⟨sigs, .unknown, none⟩ f with
    | none => []
    | some (_, params, t) =>
      Expr.argumentNotes sigs params args ++ [⟨Note.passed params args, some t⟩]
  | .expr _ e => e.notes sigs

/-- The notes of the code of statements one after the other. -/
def Stmt.blockNotes (sigs : Store String Signature) (returns : Ty) : List Stmt → List Note
  | [] => []
  | s :: ss => s.notes sigs returns ++ Stmt.blockNotes sigs returns ss

end

/-! ### Programs -/

namespace Program

/-- The notes of the code of the statements at top level. -/
def topNotes (sigs : Store String Signature) : Program → List Note
  | [] => [Note.plain]
  | .function _ _ _ _ _ :: rest => topNotes sigs rest
  | s :: rest => s.notes sigs .unknown ++ topNotes sigs rest

/-- The notes of the regions of the functions. -/
def regionNotes (sigs : Store String Signature) : Program → List Note
  | [] => []
  | .function _ _ returns _ body :: rest =>
    [Note.plain] ++ Stmt.blockNotes sigs returns body ++ [Note.plain] ++
      regionNotes sigs rest
  | _ :: rest => regionNotes sigs rest

/-- The notes of the code to which an annotated program is lowered. -/
def notes (p : Program) : List Note :=
  topNotes (Lowering.signatures p) p ++ regionNotes (Lowering.signatures p) p

end Program

end NumericScript
