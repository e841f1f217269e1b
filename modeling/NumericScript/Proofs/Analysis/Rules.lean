import NumericScript.Analysis
import NumericScript.Proofs.Syntax.Source

/-! # Rules of analysis

Analysis as a relation: which annotated programs come out of an analysis that reports nothing.
There is one rule for every form of syntax.  The rules are about annotated trees only; what
they say of a type is what is written at the expression.

* `Env`: what the names in sight stand for.
* `ExprTyped`, `StmtTyped`, `BlockTyped`: the parts of a program.
* `ProgramTyped`: programs. -/

namespace NumericScript

namespace Analysis

/-! ### Names in sight -/

/-- What a name stands for. -/
inductive Entry where
  | var (b : Binding)
  | function (params : List Ty) (returns : Ty)
deriving DecidableEq, Repr

/-- Whether a name stands for a local variable. -/
def Entry.isLocal : Entry → Bool
  | .var b => b.storage = .local
  | .function _ _ => false

/-- The names that a scope declares, the last first. -/
abbrev Names := List (String × Entry)

/-- The names that the open scopes declare. -/
structure Env where
  /-- The scopes inside the outermost one, the innermost first. -/
  inner : List Names
  root : Names
deriving DecidableEq, Repr

namespace Env

/-- The scopes that are open, the innermost first. -/
def chain (Γ : Env) : List Names := Γ.inner ++ [Γ.root]

/-- What the innermost declaration of a name says. -/
def find? (Γ : Env) (x : String) : Option Entry := Γ.chain.findSome? (·.lookup x)

/-- The innermost scope. -/
def current (Γ : Env) : Names := Γ.inner.headD Γ.root

/-- Whether no scope is open but the outermost one. -/
def isGlobal (Γ : Env) : Bool := Γ.inner.isEmpty

/-- Opens a scope. -/
def enter (Γ : Env) : Env := { Γ with inner := [] :: Γ.inner }

/-- Adds a name to the innermost scope. -/
def add (Γ : Env) (x : String) (e : Entry) : Env :=
  match Γ.inner with
  | names :: outer => { Γ with inner := ((x, e) :: names) :: outer }
  | [] => { Γ with root := (x, e) :: Γ.root }

/-- The types of the parameters and of the result of a function of the program. -/
def callee? (Γ : Env) (f : String) : Option (List Ty × Ty) :=
  match Γ.root.lookup f with
  | some (.function params returns) => some (params, returns)
  | _ => none

/-- Where a variable declared now lives. -/
def storage (Γ : Env) : Storage := if Γ.isGlobal then .global else .local

/-- Whether a local variable declared now hides another one. -/
def hides (Γ : Env) (x : String) : Bool := !Γ.isGlobal && (Γ.find? x).any Entry.isLocal

/-- The slot of a variable declared now, when `k` variables have hidden another one so far. -/
def slot (Γ : Env) (k : Nat) (x : String) : String :=
  if Γ.hides x then x ++ "#" ++ toString (k + 1) else x

/-- How many variables have hidden another one when this one is declared. -/
def shadows (Γ : Env) (k : Nat) (x : String) : Nat := if Γ.hides x then k + 1 else k

end Env

/-- A variable of type `t` is declared: its name is new in its scope, and bound to it. -/
structure Declares (Γ : Env) (k : Nat) (x : Name) (t : Ty) (Γ' : Env) (k' : Nat) : Prop where
  plain : x.IsPlain
  fresh : Γ.current.lookup x.text = none
  binding : x.binding = some ⟨Γ.slot k x.text, t, Γ.storage⟩
  env : Γ' = Γ.add x.text (.var ⟨Γ.slot k x.text, t, Γ.storage⟩)
  shadows : k' = Γ.shadows k x.text

/-- A name is bound to the variable that it stands for. -/
structure Bound (Γ : Env) (x : Name) (b : Binding) : Prop where
  found : Γ.find? x.text = some (.var b)
  binding : x.binding = some b

/-! ### Types -/

/-- The type of an operation between operands, if it is one. -/
def binaryTy? (op : BinaryOp) (left right : Ty) : Option Ty :=
  if left.isUnknown || right.isUnknown then some .unknown else op.ty? left right

/-- The type of an operation on one operand, if it is one. -/
def unaryTy? (op : UnaryOp) (operand : Ty) : Option Ty :=
  if operand.isUnknown then some .unknown else op.ty? operand

/-- The type of an element of a container at one index or two, if it has any. -/
def elementTy? : Ty → Bool → Option Ty
  | .unknown, _ => some .unknown
  | .array e, false => some e
  | .matrix _, true => some .float
  | _, _ => none

/-- The type of the elements of an array literal, after one more of type `found`. -/
def joinElement? : Ty → Ty → Option Ty
  | _, .void => none
  | element, .unknown => some element
  | .unknown, found => some found
  | .int, .float | .float, .int => some .float
  | element, found => if element = found then some found else none

/-- The type of a call of `f`, if it accepts arguments of those types. -/
def Env.callTy? (Γ : Env) (f : String) (args : List Ty) : Option Ty :=
  match Γ.callee? f with
  | some (params, returns) =>
    if params.length = args.length ∧ (params.zip args).all fun p => p.1.accepts p.2 then
      some returns
    else none
  | none =>
    match Builtin.ofName? f with
    | some b =>
      if b.acceptsArity args.length ∧ (b.params.zip args).all fun p => p.1.accepts p.2 then
        some b.returns
      else none
    | none => none

/-- The type of a variable that is declared with one type and initialized with another. -/
def declaredTy? (declared init : Ty) : Option Ty :=
  if declared ≠ .void ∧ declared.accepts init then some (declared.refine init) else none

/-! ### Expressions -/

mutual

/-- An annotated expression of some type. -/
inductive ExprTyped (Γ : Env) : Expr → Ty → Prop where
  | int {m : Mark} {n : Int64} (hm : m.ty = some .int) : ExprTyped Γ (.int m n) .int
  | float {m : Mark} {x : Double} (hm : m.ty = some .float) : ExprTyped Γ (.float m x) .float
  | str {m : Mark} {t : String} (hm : m.ty = some .str) : ExprTyped Γ (.str m t) .str
  | bool {m : Mark} {b : Bool} (hm : m.ty = some .bool) : ExprTyped Γ (.bool m b) .bool
  | name {m : Mark} {x : Name} {b : Binding} (hm : m.ty = some b.ty) (hx : Bound Γ x b) :
      ExprTyped Γ (.name m x) b.ty
  | binary {m : Mark} {op : BinaryOp} {l r : Expr} {left right t : Ty} (hm : m.ty = some t)
      (hl : ExprTyped Γ l left) (hr : ExprTyped Γ r right) (ht : binaryTy? op left right = some t) :
      ExprTyped Γ (.binary m op l r) t
  | unary {m : Mark} {op : UnaryOp} {e : Expr} {operand t : Ty} (hm : m.ty = some t)
      (he : ExprTyped Γ e operand) (ht : unaryTy? op operand = some t) :
      ExprTyped Γ (.unary m op e) t
  | call {m : Mark} {f : String} {args : List Expr} {ts : List Ty} {t : Ty} (hm : m.ty = some t)
      (ha : ExprsTyped Γ args ts) (ht : Γ.callTy? f ts = some t) :
      ExprTyped Γ (.call m f args) t
  | array {m : Mark} {items : List Expr} {element : Ty} (hm : m.ty = some (.array element))
      (hi : ElementsTyped Γ .unknown items element) :
      ExprTyped Γ (.array m items) (.array element)
  | matrix {m : Mark} {rows : List (List Expr)} {shape : Nat × Nat}
      (hm : m.ty = some (.matrix (some shape))) (hs : shape = (rows.length, (rows.headD []).length))
      (hr : RowsTyped Γ shape.2 rows) : ExprTyped Γ (.matrix m rows) (.matrix (some shape))
  | element {m : Mark} {base row : Expr} {container index t : Ty} (hm : m.ty = some t)
      (hb : ExprTyped Γ base container) (hr : ExprTyped Γ row index)
      (hi : maybeInt index = true) (ht : elementTy? container false = some t) :
      ExprTyped Γ (.index m base row none) t
  | entry {m : Mark} {base row col : Expr} {container index index' t : Ty} (hm : m.ty = some t)
      (hb : ExprTyped Γ base container) (hr : ExprTyped Γ row index)
      (hi : maybeInt index = true) (hc : ExprTyped Γ col index') (hj : maybeInt index' = true)
      (ht : elementTy? container true = some t) : ExprTyped Γ (.index m base row (some col)) t

/-- Annotated expressions of some types. -/
inductive ExprsTyped (Γ : Env) : List Expr → List Ty → Prop where
  | nil : ExprsTyped Γ [] []
  | cons {e : Expr} {es : List Expr} {t : Ty} {ts : List Ty} (he : ExprTyped Γ e t)
      (hes : ExprsTyped Γ es ts) : ExprsTyped Γ (e :: es) (t :: ts)

/-- The elements of an array literal, after others of type `element`. -/
inductive ElementsTyped (Γ : Env) : Ty → List Expr → Ty → Prop where
  | nil {element : Ty} : ElementsTyped Γ element [] element
  | cons {e : Expr} {es : List Expr} {element found joined result : Ty}
      (he : ExprTyped Γ e found) (hj : joinElement? element found = some joined)
      (hes : ElementsTyped Γ joined es result) : ElementsTyped Γ element (e :: es) result

/-- The entries of a row of a matrix literal. -/
inductive EntriesTyped (Γ : Env) : List Expr → Prop where
  | nil : EntriesTyped Γ []
  | cons {e : Expr} {es : List Expr} {t : Ty} (he : ExprTyped Γ e t)
      (ht : (t.isNumeric || t.isUnknown) = true) (hes : EntriesTyped Γ es) :
      EntriesTyped Γ (e :: es)

/-- The rows of a matrix literal. -/
inductive RowsTyped (Γ : Env) : Nat → List (List Expr) → Prop where
  | nil {cols : Nat} : RowsTyped Γ cols []
  | cons {cols : Nat} {es : List Expr} {rows : List (List Expr)} (hc : es.length = cols)
      (he : EntriesTyped Γ es) (hes : RowsTyped Γ cols rows) : RowsTyped Γ cols (es :: rows)

end

/-! ### Statements -/

/-- What surrounds a statement. -/
structure Scene where
  /-- The type that the function at hand returns. -/
  returns : Option Ty
  /-- Whether there is a loop around the statement. -/
  loop : Bool
deriving DecidableEq, Repr

/-- What surrounds the body of a loop. -/
def Scene.inLoop (σ : Scene) : Scene := { σ with loop := true }

/-- Whether a truth value or something unknown decides a condition. -/
structure ConditionTyped (Γ : Env) (e : Expr) (t : Ty) : Prop where
  typed : ExprTyped Γ e t
  bool : maybeBool t = true

/-- What is printed has a value. -/
inductive PrintedTyped (Γ : Env) : List Expr → Prop where
  | nil : PrintedTyped Γ []
  | cons {e : Expr} {es : List Expr} {t : Ty} (he : ExprTyped Γ e t) (ht : t ≠ .void)
      (hes : PrintedTyped Γ es) : PrintedTyped Γ (e :: es)

/-- The subscript of an assignment to an element of type `t`. -/
inductive SubscriptTyped (Γ : Env) (container : Ty) : Subscript → Ty → Prop where
  | element {row : Expr} {index t : Ty} (hr : ExprTyped Γ row index) (hi : maybeInt index = true)
      (ht : elementTy? container false = some t) : SubscriptTyped Γ container ⟨row, none⟩ t
  | entry {row col : Expr} {index index' t : Ty} (hr : ExprTyped Γ row index)
      (hi : maybeInt index = true) (hc : ExprTyped Γ col index') (hj : maybeInt index' = true)
      (ht : elementTy? container true = some t) :
      SubscriptTyped Γ container ⟨row, some col⟩ t

mutual

/-- An annotated statement that is no function.  `Γ'` is what is in sight after it, and `k'`
how many variables have hidden another one. -/
inductive StmtTyped : Scene → Env → Nat → Stmt → Env → Nat → Prop where
  | decl {σ : Scene} {Γ Γ' : Env} {k k' : Nat} {loc : Loc} {x : Name} {declared found t : Ty}
      {init : Expr} (hw : declared.isWritten = true) (hi : ExprTyped Γ init found)
      (ht : declaredTy? declared found = some t) (hx : Declares Γ k x t Γ' k') :
      StmtTyped σ Γ k (.decl loc x declared init) Γ' k'
  | assign {σ : Scene} {Γ : Env} {k : Nat} {loc : Loc} {x : Name} {b : Binding} {value : Expr}
      {found : Ty} (hx : Bound Γ x b) (hv : ExprTyped Γ value found)
      (ht : b.ty.accepts found = true) : StmtTyped σ Γ k (.assign loc x none value) Γ k
  | store {σ : Scene} {Γ : Env} {k : Nat} {loc : Loc} {x : Name} {b : Binding} {sub : Subscript}
      {value : Expr} {found t : Ty} (hx : Bound Γ x b) (hv : ExprTyped Γ value found)
      (hs : SubscriptTyped Γ b.ty sub t) (ht : t.accepts found = true) :
      StmtTyped σ Γ k (.assign loc x (some sub) value) Γ k
  | cond {σ : Scene} {Γ Γ' : Env} {k k' : Nat} {loc : Loc} {e : Expr} {t : Ty}
      {body : List Stmt} (he : ConditionTyped Γ e t) (hb : BlockTyped σ Γ.enter k body Γ' k') :
      StmtTyped σ Γ k (.cond loc e body none) Γ k'
  | branch {σ : Scene} {Γ Γ₁ Γ₂ : Env} {k k₁ k₂ : Nat} {loc : Loc} {e : Expr} {t : Ty}
      {body orElse : List Stmt} (he : ConditionTyped Γ e t)
      (hb : BlockTyped σ Γ.enter k body Γ₁ k₁) (ho : BlockTyped σ Γ.enter k₁ orElse Γ₂ k₂) :
      StmtTyped σ Γ k (.cond loc e body (some orElse)) Γ k₂
  | while {σ : Scene} {Γ Γ' : Env} {k k' : Nat} {loc : Loc} {e : Expr} {t : Ty}
      {body : List Stmt} (he : ConditionTyped Γ e t)
      (hb : BlockTyped σ.inLoop Γ.enter k body Γ' k') :
      StmtTyped σ Γ k (.while loc e body) Γ k'
  | repeat {σ : Scene} {Γ Γ' : Env} {k k' : Nat} {loc : Loc} {count : Expr} {t : Ty}
      {body : List Stmt} (he : ExprTyped Γ count t) (ht : maybeInt t = true)
      (hb : BlockTyped σ.inLoop Γ.enter k body Γ' k') :
      StmtTyped σ Γ k (.repeat loc count body) Γ k'
  | for {σ : Scene} {Γ Γ₁ Γ₂ : Env} {k k₁ k₂ k₃ : Nat} {loc : Loc} {init update : Stmt}
      {e : Expr} {t : Ty} {body : List Stmt} (hs : init.isSimple = true)
      (hi : StmtTyped σ Γ.enter k init Γ₁ k₁) (he : ConditionTyped Γ₁ e t)
      (hsu : update.isSimple = true) (hnd : update.declares = false)
      (hu : StmtTyped σ Γ₁ k₁ update Γ₁ k₂) (hb : BlockTyped σ.inLoop Γ₁.enter k₂ body Γ₂ k₃) :
      StmtTyped σ Γ k (.for loc init e update body) Γ k₃
  | break {σ : Scene} {Γ : Env} {k : Nat} {loc : Loc} (hl : σ.loop = true) :
      StmtTyped σ Γ k (.break loc) Γ k
  | continue {σ : Scene} {Γ : Env} {k : Nat} {loc : Loc} (hl : σ.loop = true) :
      StmtTyped σ Γ k (.continue loc) Γ k
  | leave {σ : Scene} {Γ : Env} {k : Nat} {loc : Loc} (hf : σ.returns = some .void) :
      StmtTyped σ Γ k (.return loc none) Γ k
  | return {σ : Scene} {Γ : Env} {k : Nat} {loc : Loc} {e : Expr} {returns t : Ty}
      (hf : σ.returns = some returns) (hv : returns ≠ .void) (he : ExprTyped Γ e t)
      (ht : returns.accepts t = true) : StmtTyped σ Γ k (.return loc (some e)) Γ k
  | print {σ : Scene} {Γ : Env} {k : Nat} {loc : Loc} {values : List Expr}
      (hv : PrintedTyped Γ values) : StmtTyped σ Γ k (.print loc values) Γ k
  | input {σ : Scene} {Γ : Env} {k : Nat} {loc : Loc} {x : Name} {b : Binding}
      (hx : Bound Γ x b) (hr : readable b.ty = true) : StmtTyped σ Γ k (.input loc x) Γ k
  | expr {σ : Scene} {Γ : Env} {k : Nat} {loc : Loc} {e : Expr} {t : Ty}
      (hs : e.standsAlone = true) (he : ExprTyped Γ e t) : StmtTyped σ Γ k (.expr loc e) Γ k

/-- Annotated statements one after the other. -/
inductive BlockTyped : Scene → Env → Nat → List Stmt → Env → Nat → Prop where
  | nil {σ : Scene} {Γ : Env} {k : Nat} : BlockTyped σ Γ k [] Γ k
  | cons {σ : Scene} {Γ Γ₁ Γ₂ : Env} {k k₁ k₂ : Nat} {st : Stmt} {ss : List Stmt}
      (hs : StmtTyped σ Γ k st Γ₁ k₁) (hss : BlockTyped σ Γ₁ k₁ ss Γ₂ k₂) :
      BlockTyped σ Γ k (st :: ss) Γ₂ k₂

end

/-! ### Programs -/

/-- The parameters of a function. -/
inductive ParamsTyped : Env → Nat → List Param → Env → Nat → Prop where
  | nil {Γ : Env} {k : Nat} : ParamsTyped Γ k [] Γ k
  | cons {Γ Γ₁ Γ₂ : Env} {k k₁ k₂ : Nat} {p : Param} {ps : List Param} (hp : p.ty ≠ .void)
      (hw : p.ty.isWritten = true) (hx : Declares Γ k p.name p.ty Γ₁ k₁)
      (hps : ParamsTyped Γ₁ k₁ ps Γ₂ k₂) :
      ParamsTyped Γ k (p :: ps) Γ₂ k₂

/-- The statements at top level. -/
inductive TopTyped : Env → Nat → Program → Env → Nat → Prop where
  | nil {Γ : Env} {k : Nat} : TopTyped Γ k [] Γ k
  | function {Γ Γ₁ Γ₂ Γ' : Env} {k k₁ k₂ k' : Nat} {loc : Loc} {f : String} {returns : Ty}
      {params : List Param} {body : List Stmt} {rest : Program} (hw : returns.isWritten = true)
      (hp : ParamsTyped Γ.enter k params Γ₁ k₁)
      (hb : BlockTyped ⟨some returns, false⟩ Γ₁ k₁ body Γ₂ k₂) (h : TopTyped Γ k₂ rest Γ' k') :
      TopTyped Γ k (.function loc f returns params body :: rest) Γ' k'
  | cons {Γ Γ₁ Γ' : Env} {k k₁ k' : Nat} {st : Stmt} {rest : Program}
      (hs : StmtTyped ⟨none, false⟩ Γ k st Γ₁ k₁) (h : TopTyped Γ₁ k₁ rest Γ' k') :
      TopTyped Γ k (st :: rest) Γ' k'

/-- The names of the functions of a program, the last first. -/
def functionEntries (p : Program) : Names :=
  (p.filterMap fun
    | .function _ f returns params _ => some (f, .function (params.map (·.ty)) returns)
    | _ => none).reverse

theorem functionEntries_cons (st : Stmt) (p : Program) :
    functionEntries (st :: p) = functionEntries p ++ functionEntries [st] := by
  unfold functionEntries
  cases st <;> simp

theorem functionEntries_of_isFunction {st : Stmt} (h : st.isFunction = false) :
    functionEntries [st] = [] := by
  cases st <;> first | rfl | cases h

theorem isFunction_of_stmtTyped {σ : Scene} {Γ Γ' : Env} {k k' : Nat} {st : Stmt}
    (h : StmtTyped σ Γ k st Γ' k') : st.isFunction = false := by
  cases h <;> rfl

end Analysis

/-- An annotated program. -/
structure ProgramTyped (p : Program) : Prop where
  distinct : ((Analysis.functionEntries p).map (·.1)).Nodup
  top : ∃ Γ k, Analysis.TopTyped ⟨[], Analysis.functionEntries p⟩ 0 p Γ k

end NumericScript
