import Mathlib.Data.List.Forall2
import NumericScript.Lowering
import NumericScript.Proofs.Syntax.Source

/-! # Rules of lowering

Lowering as a relation: what an expression or a statement is lowered to, given the supplies of
temporaries and labels before it and after it.  There is one rule for every form of syntax, so
that what holds of code follows by going through the rules.

* `ExprCode`, `StmtCode`, `BlockCode`: what parts of a program are lowered to.
* `TopCode`, `RegionsCode`: what a program is lowered to. -/

namespace NumericScript

/-- The variable that a name stands for. -/
def Binding.variable (b : Binding) : Variable := ⟨b.slot, b.storage⟩

namespace Lowering

/-! ### Supplies -/

namespace State

/-- The temporary that is supplied next. -/
def temp (s : State) : Place := .temp s.temps

/-- The label that is supplied next. -/
def label (s : State) : Label := .local s.labels

/-- The supplies without the next temporary. -/
def nextTemp (s : State) : State := { s with temps := s.temps + 1 }

/-- The supplies without the next label. -/
def nextLabel (s : State) : State := { s with labels := s.labels + 1 }

/-- The supplies in a line of the source. -/
def inLine (s : State) (line : Nat) : State := { s with line := line }

/-- An operation in the line at hand. -/
def instr (s : State) (op : Op) : Instr := ⟨op, s.line⟩

@[simp] theorem instr_nextTemp (s : State) (op : Op) : s.nextTemp.instr op = s.instr op := rfl

@[simp] theorem instr_nextLabel (s : State) (op : Op) : s.nextLabel.instr op = s.instr op := rfl

@[simp] theorem temp_nextLabel (s : State) : s.nextLabel.temp = s.temp := rfl

@[simp] theorem label_nextTemp (s : State) : s.nextTemp.label = s.label := rfl

end State

/-! ### Operands -/

/-- An operand is kept in a temporary if it is a variable that something later could change. -/
inductive Pins (changes : Bool) (s : State) : Operand → List Instr → Operand → State → Prop where
  | keep {a : Operand} (h : changes = true → ∀ v, a ≠ .place (.var v)) : Pins changes s a [] a s
  | pin {v : Variable} (h : changes = true) :
      Pins changes s (.place (.var v)) [s.instr (.copy s.temp (.place (.var v)))]
        (.place s.temp) s.nextTemp

/-- An operand is widened if a double is asked for and there is a whole number. -/
inductive Widens (s : State) : Ty → Ty → Operand → List Instr → Operand → State → Prop where
  | same {found expected : Ty} {a : Operand} (h : ¬ (found = .int ∧ expected = .float)) :
      Widens s found expected a [] a s
  | const {n : Int64} :
      Widens s .int .float (.const (.int n)) [] (.const (.float (.ofInt64 n))) s
  | widen {a : Operand} (h : ∀ n, a ≠ .const (.int n)) :
      Widens s .int .float a [s.instr (.unary s.temp .toFloat a)] (.place s.temp) s.nextTemp

/-- What a name calls: the callee, the types of its parameters where they are known, and the
type of what it gives. -/
def callee? (c : Context) (f : String) : Option (Callee × List Ty × Ty) :=
  match c.signatures.get? f with
  | some s => some (.user f, s.params, s.returns)
  | none => (Builtin.ofName? f).map fun b => (.builtin b, [], b.returns)

/-- The type of the elements of an array literal. -/
def itemTy (m : Mark) : Ty := ((m.ty.getD .unknown).element?).getD .unknown

/-! ### Expressions -/

mutual

/-- The code of an expression and the operand that holds its value. -/
inductive ExprCode (c : Context) : State → Expr → List Instr → Operand → State → Prop where
  | int {s : State} {m : Mark} {n : Int64} : ExprCode c s (.int m n) [] (.const (.int n)) s
  | float {s : State} {m : Mark} {x : Double} :
      ExprCode c s (.float m x) [] (.const (.float x)) s
  | str {s : State} {m : Mark} {t : String} : ExprCode c s (.str m t) [] (.const (.str t)) s
  | bool {s : State} {m : Mark} {b : Bool} : ExprCode c s (.bool m b) [] (.const (.bool b)) s
  | name {s : State} {m : Mark} {x : Name} {b : Binding} (hb : x.binding = some b) :
      ExprCode c s (.name m x) [] (.place (.var b.variable)) s
  | binary {s s₁ s₂ s₃ : State} {m : Mark} {op : BinaryOp} {l r : Expr}
      {left keep right : List Instr} {a a' b : Operand} (hl : ExprCode c s l left a s₁)
      (hk : Pins (calls r) s₁ a keep a' s₂) (hr : ExprCode c s₂ r right b s₃) :
      ExprCode c s (.binary m op l r)
        (left ++ keep ++ right ++ [s₃.instr (.binary s₃.temp op a' b)])
        (.place s₃.temp) s₃.nextTemp
  | unary {s s₁ : State} {m : Mark} {op : UnaryOp} {e : Expr} {code : List Instr} {a : Operand}
      (he : ExprCode c s e code a s₁) :
      ExprCode c s (.unary m op e) (code ++ [s₁.instr (.unary s₁.temp op.fn a)])
        (.place s₁.temp) s₁.nextTemp
  | call {s s₁ : State} {m : Mark} {f : String} {args : List Expr} {target : Callee}
      {params : List Ty} {returns : Ty} {passing : List Instr}
      (hf : callee? c f = some (target, params, returns))
      (ha : ArgumentsCode c s params args passing s₁) (hv : returns ≠ .void) :
      ExprCode c s (.call m f args)
        (passing ++ [s₁.instr (.call target args.length)] ++ [s₁.instr (.copy s₁.temp .returned)])
        (.place s₁.temp) s₁.nextTemp
  | array {s s₁ : State} {m : Mark} {items : List Expr} {fill : List Instr}
      (hi : ElementsCode c s.temp (itemTy m) s.nextTemp 0 items fill s₁) :
      ExprCode c s (.array m items) ([s.instr (.newArray s.temp items.length)] ++ fill)
        (.place s.temp) s₁
  | matrix {s s₁ : State} {m : Mark} {rows : List (List Expr)} {fill : List Instr}
      (hi : RowsCode c s.temp s.nextTemp 0 rows fill s₁) :
      ExprCode c s (.matrix m rows)
        ([s.instr (.newMatrix s.temp rows.length (rows.headD []).length)] ++ fill)
        (.place s.temp) s₁
  | element {s s₁ s₂ s₃ : State} {m : Mark} {base row : Expr} {first keep second : List Instr}
      {b b' i : Operand} (hb : ExprCode c s base first b s₁)
      (hk : Pins (calls row) s₁ b keep b' s₂) (hr : ExprCode c s₂ row second i s₃) :
      ExprCode c s (.index m base row none)
        (first ++ keep ++ second ++ [s₃.instr (.load s₃.temp b' i none)])
        (.place s₃.temp) s₃.nextTemp
  | entry {s s₁ s₂ s₃ s₄ s₅ : State} {m : Mark} {base row col : Expr}
      {first keep second keepRow third : List Instr} {b b' i i' j : Operand}
      (hb : ExprCode c s base first b s₁) (hk : Pins (calls row || calls col) s₁ b keep b' s₂)
      (hr : ExprCode c s₂ row second i s₃) (hkr : Pins (calls col) s₃ i keepRow i' s₄)
      (hc : ExprCode c s₄ col third j s₅) :
      ExprCode c s (.index m base row (some col))
        (first ++ keep ++ second ++ keepRow ++ third ++
          [s₅.instr (.load s₅.temp b' i' (some j))])
        (.place s₅.temp) s₅.nextTemp

/-- The code of an expression that is widened to a type. -/
inductive WidenedCode (c : Context) :
    State → Expr → Ty → List Instr → Operand → State → Prop where
  | mk {s s₁ s₂ : State} {e : Expr} {expected : Ty} {code widening : List Instr} {a a' : Operand}
      (he : ExprCode c s e code a s₁) (hw : Widens s₁ e.ty expected a widening a' s₂) :
      WidenedCode c s e expected (code ++ widening) a' s₂

/-- The code that passes arguments. -/
inductive ArgumentsCode (c : Context) :
    State → List Ty → List Expr → List Instr → State → Prop where
  | nil {s : State} {params : List Ty} : ArgumentsCode c s params [] [] s
  | cons {s s₁ s₂ : State} {params : List Ty} {e : Expr} {es : List Expr} {code rest : List Instr}
      {a : Operand} (he : WidenedCode c s e (params.headD .unknown) code a s₁)
      (hes : ArgumentsCode c s₁ params.tail es rest s₂) :
      ArgumentsCode c s params (e :: es) (code ++ [s₁.instr (.param a)] ++ rest) s₂

/-- The code that fills an array. -/
inductive ElementsCode (c : Context) :
    Place → Ty → State → Nat → List Expr → List Instr → State → Prop where
  | nil {array : Place} {element : Ty} {s : State} {k : Nat} :
      ElementsCode c array element s k [] [] s
  | cons {array : Place} {element : Ty} {s s₁ s₂ : State} {k : Nat} {e : Expr} {es : List Expr}
      {code rest : List Instr} {a : Operand} (he : WidenedCode c s e element code a s₁)
      (hes : ElementsCode c array element s₁ (k + 1) es rest s₂) :
      ElementsCode c array element s k (e :: es)
        (code ++ [s₁.instr (.store array (indexConst k) none a)] ++ rest) s₂

/-- The code that fills a row of a matrix. -/
inductive EntriesCode (c : Context) :
    Place → Nat → State → Nat → List Expr → List Instr → State → Prop where
  | nil {matrix : Place} {row : Nat} {s : State} {k : Nat} : EntriesCode c matrix row s k [] [] s
  | cons {matrix : Place} {row : Nat} {s s₁ s₂ : State} {k : Nat} {e : Expr} {es : List Expr}
      {code rest : List Instr} {a : Operand} (he : WidenedCode c s e .float code a s₁)
      (hes : EntriesCode c matrix row s₁ (k + 1) es rest s₂) :
      EntriesCode c matrix row s k (e :: es)
        (code ++ [s₁.instr (.store matrix (indexConst row) (some (indexConst k)) a)] ++ rest) s₂

/-- The code that fills a matrix. -/
inductive RowsCode (c : Context) :
    Place → State → Nat → List (List Expr) → List Instr → State → Prop where
  | nil {matrix : Place} {s : State} {k : Nat} : RowsCode c matrix s k [] [] s
  | cons {matrix : Place} {s s₁ s₂ : State} {k : Nat} {es : List Expr} {rows : List (List Expr)}
      {code rest : List Instr} (he : EntriesCode c matrix k s 0 es code s₁)
      (hes : RowsCode c matrix s₁ (k + 1) rows rest s₂) :
      RowsCode c matrix s k (es :: rows) (code ++ rest) s₂

end

/-- The code that prints values. -/
inductive PrintsCode (c : Context) : State → List Expr → List Instr → State → Prop where
  | nil {s : State} : PrintsCode c s [] [] s
  | cons {s s₁ s₂ : State} {e : Expr} {es : List Expr} {code rest : List Instr} {a : Operand}
      (he : ExprCode c s e code a s₁) (hes : PrintsCode c s₁ es rest s₂) :
      PrintsCode c s (e :: es) (code ++ [s₁.instr (.print a es.isEmpty)] ++ rest) s₂

/-! ### Statements -/

/-- The code that gives a variable a new value. -/
inductive VariableCode (c : Context) : State → Name → Expr → List Instr → State → Prop where
  | mk {s s₁ : State} {x : Name} {b : Binding} {e : Expr} {code : List Instr} {a : Operand}
      (hb : x.binding = some b) (he : WidenedCode c s e b.ty code a s₁) :
      VariableCode c s x e (code ++ [s₁.instr (put (.var b.variable) a)]) s₁

/-- The code that gives an element of a container a new value. -/
inductive ElementCode (c : Context) :
    State → Name → Subscript → Expr → List Instr → State → Prop where
  | element {s s₁ s₂ s₃ : State} {x : Name} {b : Binding} {row e : Expr}
      {first keep code : List Instr} {i i' a : Operand} (hb : x.binding = some b)
      (hr : ExprCode c s row first i s₁) (hk : Pins (calls e) s₁ i keep i' s₂)
      (he : WidenedCode c s₂ e (b.ty.element?.getD .unknown) code a s₃) :
      ElementCode c s x ⟨row, none⟩ e
        (first ++ keep ++ code ++ [s₃.instr (.store (.var b.variable) i' none a)]) s₃
  | entry {s s₁ s₂ s₃ s₄ s₅ : State} {x : Name} {b : Binding} {row col e : Expr}
      {first keep second keepCol code : List Instr} {i i' j j' a : Operand}
      (hb : x.binding = some b) (hr : ExprCode c s row first i s₁)
      (hk : Pins (calls e || calls col) s₁ i keep i' s₂) (hc : ExprCode c s₂ col second j s₃)
      (hkc : Pins (calls e) s₃ j keepCol j' s₄)
      (he : WidenedCode c s₄ e (b.ty.element?.getD .unknown) code a s₅) :
      ElementCode c s x ⟨row, some col⟩ e
        (first ++ keep ++ (second ++ keepCol) ++ code ++
          [s₅.instr (.store (.var b.variable) i' (some j') a)]) s₅

/-- What surrounds the body of a loop. -/
def Context.inLoop (c : Context) (again after : Label) : Context :=
  { c with loop := some ⟨again, after⟩ }

mutual

/-- The code of a statement. -/
inductive StmtCode : Context → State → Stmt → List Instr → State → Prop where
  | decl {c : Context} {s s₁ : State} {loc : Loc} {x : Name} {ty : Ty} {init : Expr}
      {code : List Instr} (h : VariableCode c (s.inLine loc.line) x init code s₁) :
      StmtCode c s (.decl loc x ty init) code s₁
  | assign {c : Context} {s s₁ : State} {loc : Loc} {x : Name} {value : Expr}
      {code : List Instr} (h : VariableCode c (s.inLine loc.line) x value code s₁) :
      StmtCode c s (.assign loc x none value) code s₁
  | store {c : Context} {s s₁ : State} {loc : Loc} {x : Name} {sub : Subscript} {value : Expr}
      {code : List Instr} (h : ElementCode c (s.inLine loc.line) x sub value code s₁) :
      StmtCode c s (.assign loc x (some sub) value) code s₁
  | function {c : Context} {s : State} {loc : Loc} {f : String} {returns : Ty}
      {params : List Param} {body : List Stmt} :
      StmtCode c s (.function loc f returns params body) [] (s.inLine loc.line)
  | cond {c : Context} {s s₁ s₂ : State} {loc : Loc} {e : Expr} {body : List Stmt}
      {test code : List Instr} {a : Operand} (he : ExprCode c (s.inLine loc.line) e test a s₁)
      (hb : BlockCode c s₁.nextLabel body code s₂) :
      StmtCode c s (.cond loc e body none)
        (test ++ [s₁.instr (.jumpIfFalse a s₁.label)] ++ code ++ [s₂.instr (.label s₁.label)]) s₂
  | branch {c : Context} {s s₁ s₂ s₃ : State} {loc : Loc} {e : Expr} {body orElse : List Stmt}
      {test code codeElse : List Instr} {a : Operand}
      (he : ExprCode c (s.inLine loc.line) e test a s₁)
      (hb : BlockCode c s₁.nextLabel.nextLabel body code s₂)
      (ho : BlockCode c s₂ orElse codeElse s₃) :
      StmtCode c s (.cond loc e body (some orElse))
        (test ++ [s₁.instr (.jumpIfFalse a s₁.nextLabel.label)] ++ code ++
          [s₂.instr (.jump s₁.label)] ++ [s₂.instr (.label s₁.nextLabel.label)] ++ codeElse ++
          [s₃.instr (.label s₁.label)]) s₃
  | while {c : Context} {s s₀ s₁ s₂ : State} {loc : Loc} {e : Expr} {body : List Stmt}
      {test code : List Instr} {a : Operand} (h₀ : s₀ = s.inLine loc.line)
      (he : ExprCode c s₀.nextLabel.nextLabel e test a s₁)
      (hb : BlockCode (c.inLoop s₀.label s₀.nextLabel.label) s₁ body code s₂) :
      StmtCode c s (.while loc e body)
        ([s₀.instr (.label s₀.label)] ++ test ++ [s₁.instr (.jumpIfFalse a s₀.nextLabel.label)] ++
          code ++ [s₂.instr (.jump s₀.label)] ++ [s₂.instr (.label s₀.nextLabel.label)]) s₂
  | repeat {c : Context} {s s₁ s₂ s₃ : State} {loc : Loc} {count : Expr} {body : List Stmt}
      {counting code : List Instr} {n : Operand}
      (he : ExprCode c (s.inLine loc.line) count counting n s₁)
      (hb : BlockCode (c.inLoop s₁.nextLabel.label s₁.nextLabel.nextLabel.label)
        s₁.nextTemp.nextTemp.nextLabel.nextLabel.nextLabel.nextTemp body code s₂)
      (h₃ : s₃ = s₂.inLine loc.line) :
      StmtCode c s (.repeat loc count body)
        (counting ++ [s₁.instr (put s₁.temp n)] ++
          [s₁.instr (put s₁.nextTemp.temp (indexConst 0))] ++ [s₁.instr (.label s₁.label)] ++
          [s₁.instr (.binary s₁.nextTemp.nextTemp.temp .lt (.place s₁.nextTemp.temp)
            (.place s₁.temp))] ++
          [s₁.instr (.jumpIfFalse (.place s₁.nextTemp.nextTemp.temp)
            s₁.nextLabel.nextLabel.label)] ++ code ++
          [s₃.instr (.label s₁.nextLabel.label)] ++
          [s₃.instr (.binary s₁.nextTemp.temp .add (.place s₁.nextTemp.temp) (indexConst 1))] ++
          [s₃.instr (.jump s₁.label)] ++ [s₃.instr (.label s₁.nextLabel.nextLabel.label)]) s₃
  | for {c : Context} {s s₁ s₂ s₃ s₄ s₅ s₆ : State} {loc : Loc} {init update : Stmt} {e : Expr}
      {body : List Stmt} {first test code last : List Instr} {a : Operand}
      (hi : StmtCode c (s.inLine loc.line) init first s₁) (h₂ : s₂ = s₁.inLine loc.line)
      (he : ExprCode c s₂.nextLabel.nextLabel.nextLabel e test a s₃)
      (hb : BlockCode (c.inLoop s₂.nextLabel.label s₂.nextLabel.nextLabel.label) s₃ body code s₄)
      (h₅ : s₅ = s₄.inLine loc.line) (hu : StmtCode c s₅ update last s₆) :
      StmtCode c s (.for loc init e update body)
        (first ++ [s₂.instr (.label s₂.label)] ++ test ++
          [s₃.instr (.jumpIfFalse a s₂.nextLabel.nextLabel.label)] ++ code ++
          [s₅.instr (.label s₂.nextLabel.label)] ++ last ++
          [(s₆.inLine loc.line).instr (.jump s₂.label)] ++
          [(s₆.inLine loc.line).instr (.label s₂.nextLabel.nextLabel.label)])
        (s₆.inLine loc.line)
  | break {c : Context} {s : State} {loc : Loc} {labels : LoopLabels}
      (hl : c.loop = some labels) :
      StmtCode c s (.break loc) [(s.inLine loc.line).instr (.jump labels.after)]
        (s.inLine loc.line)
  | continue {c : Context} {s : State} {loc : Loc} {labels : LoopLabels}
      (hl : c.loop = some labels) :
      StmtCode c s (.continue loc) [(s.inLine loc.line).instr (.jump labels.again)]
        (s.inLine loc.line)
  | leave {c : Context} {s : State} {loc : Loc} :
      StmtCode c s (.return loc none) [(s.inLine loc.line).instr (.return none)]
        (s.inLine loc.line)
  | return {c : Context} {s s₁ : State} {loc : Loc} {e : Expr} {code : List Instr} {a : Operand}
      (he : WidenedCode c (s.inLine loc.line) e c.returns code a s₁) :
      StmtCode c s (.return loc (some e)) (code ++ [s₁.instr (.return (some a))]) s₁
  | print {c : Context} {s s₁ : State} {loc : Loc} {values : List Expr} {code : List Instr}
      (h : PrintsCode c (s.inLine loc.line) values code s₁) :
      StmtCode c s (.print loc values) code s₁
  | input {c : Context} {s : State} {loc : Loc} {x : Name} {b : Binding}
      (hb : x.binding = some b) :
      StmtCode c s (.input loc x) [(s.inLine loc.line).instr (.input (.var b.variable) b.ty)]
        (s.inLine loc.line)
  | call {c : Context} {s s₁ : State} {loc : Loc} {m : Mark} {f : String} {args : List Expr}
      {target : Callee} {params : List Ty} {returns : Ty} {passing : List Instr}
      (hf : callee? c f = some (target, params, returns))
      (ha : ArgumentsCode c (s.inLine loc.line) params args passing s₁) :
      StmtCode c s (.expr loc (.call m f args))
        (passing ++ [s₁.instr (.call target args.length)]) s₁
  | expr {c : Context} {s s₁ : State} {loc : Loc} {e : Expr} {code : List Instr} {a : Operand}
      (hc : ∀ m f args, e ≠ .call m f args) (he : ExprCode c (s.inLine loc.line) e code a s₁) :
      StmtCode c s (.expr loc e) code s₁

/-- The code of statements one after the other. -/
inductive BlockCode : Context → State → List Stmt → List Instr → State → Prop where
  | nil {c : Context} {s : State} : BlockCode c s [] [] s
  | cons {c : Context} {s s₁ s₂ : State} {st : Stmt} {ss : List Stmt} {code rest : List Instr}
      (hs : StmtCode c s st code s₁) (hss : BlockCode c s₁ ss rest s₂) :
      BlockCode c s (st :: ss) (code ++ rest) s₂

end

/-! ### Programs -/

/-- The code of the statements at top level. -/
inductive TopCode (c : Context) : State → Program → List Instr → State → Prop where
  | nil {s : State} : TopCode c s [] [s.instr .halt] s
  | function {s s₁ : State} {st : Stmt} {rest : Program} {code : List Instr}
      (hf : st.isFunction = true) (h : TopCode c s rest code s₁) :
      TopCode c s (st :: rest) code s₁
  | cons {s s₁ s₂ : State} {st : Stmt} {rest : Program} {code codes : List Instr}
      (hf : st.isFunction = false) (hs : StmtCode c s st code s₁)
      (h : TopCode c s₁ rest codes s₂) : TopCode c s (st :: rest) (code ++ codes) s₂

/-- The variable of a parameter. -/
def IsSlot (p : Param) (v : Variable) : Prop :=
  ∃ b, p.name.binding = some b ∧ v = b.variable

/-- What surrounds the body of a function. -/
def Context.inFunction (c : Context) (returns : Ty) : Context :=
  { c with returns := returns, loop := none }

/-- The regions of the functions at top level. -/
inductive RegionsCode (c : Context) :
    State → Program → List Instr → List FunctionInfo → State → Prop where
  | nil {s : State} : RegionsCode c s [] [] [] s
  | function {s s₁ s₂ : State} {loc : Loc} {f : String} {returns : Ty} {params : List Param}
      {vars : List Variable} {body : List Stmt} {rest : Program} {code codes : List Instr}
      {infos : List FunctionInfo} (hp : List.Forall₂ IsSlot params vars)
      (hb : BlockCode (c.inFunction returns) (s.inLine loc.line) body code s₁)
      (h : RegionsCode c (s₁.inLine loc.line) rest codes infos s₂) :
      RegionsCode c s (.function loc f returns params body :: rest)
        ([(s.inLine loc.line).instr (.label (.function f))] ++ code ++
          [(s₁.inLine loc.line).instr (.return none)] ++ codes)
        (⟨f, .function f, vars, returns ≠ .void, loc.line⟩ :: infos) s₂
  | other {s s₁ : State} {st : Stmt} {rest : Program} {codes : List Instr}
      {infos : List FunctionInfo} (hf : st.isFunction = false)
      (h : RegionsCode c s rest codes infos s₁) : RegionsCode c s (st :: rest) codes infos s₁

end Lowering

/-- What surrounds the statements of a program at top level. -/
def Program.context (p : Program) : Lowering.Context := ⟨Lowering.signatures p, .unknown, none⟩

end NumericScript
