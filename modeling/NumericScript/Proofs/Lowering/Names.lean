import NumericScript.Proofs.Analysis.Names
import NumericScript.Proofs.Lowering.Follow
import NumericScript.Proofs.Lowering.Supply

/-! # Variables that code gives values

The code of a program writes the variables that its names stand for and no others.  The code of
expressions writes none.

* `ExprCode.computes`: the code of an expression.
* `Assigns`: code that gives values to no other variables than those of some names.
* `StmtCode.assigns`: the code of a statement.
* `ProgramTyped.assigns`: the code of a program, and the parameters of its functions. -/

namespace NumericScript

/-- The variable that an operation writes. -/
def Op.varWritten? (op : Op) : Option Variable :=
  match op.dest? with
  | some (.var v) => some v
  | _ => none

namespace Lowering

/-- A variable is that of a name among `N`. -/
def Named (N : List Name) (v : Variable) : Prop :=
  ∃ x ∈ N, ∃ b, x.binding = some b ∧ b.variable = v

/-- Code gives values to no other variables than those of names among `N`. -/
def Assigns (N : List Name) (code : List Instr) : Prop :=
  ∀ i ∈ code, ∀ v, i.op.varWritten? = some v → Named N v

variable {N : List Name} {c : Context} {s s' : State} {a a' : Operand} {code code' : List Instr}
  {op : Op}

theorem Assigns.nil : Assigns N [] := fun i hi => by cases hi

theorem Assigns.append (h : Assigns N code) (h' : Assigns N code') : Assigns N (code ++ code') :=
  List.forall_mem_append.2 ⟨h, h'⟩

theorem Assigns.one (h : ∀ v, op.varWritten? = some v → Named N v) : Assigns N [s.instr op] := by
  intro i hi
  obtain rfl := List.mem_singleton.1 hi
  exact h

/-- Code before an operation that writes no variable. -/
theorem Assigns.then (h : Assigns N code) (hop : op.varWritten? = none) :
    Assigns N (code ++ [s.instr op]) :=
  h.append (.one fun v hv => by rw [hop] at hv; cases hv)

/-! ### Expressions -/

/-- Code that computes: it runs straight through, prints nothing and writes no variable. -/
def Computes (code : List Instr) : Prop :=
  ∀ i ∈ code, i.op.isInline = true ∧ i.op.varWritten? = none

theorem Computes.nil : Computes [] := fun i hi => by cases hi

theorem Computes.append (h : Computes code) (h' : Computes code') : Computes (code ++ code') :=
  List.forall_mem_append.2 ⟨h, h'⟩

theorem Computes.then (h : Computes code) (hop : op.isInline = true) (hv : op.varWritten? = none) :
    Computes (code ++ [s.instr op]) := by
  refine h.append fun i hi => ?_
  obtain rfl := List.mem_singleton.1 hi
  exact ⟨hop, hv⟩

theorem Computes.assigns (h : Computes code) : Assigns N code := fun i hi v hv => by
  rw [(h i hi).2] at hv
  cases hv

theorem Pins.computes {changes : Bool} (h : Pins changes s a code a' s') : Computes code := by
  cases h with
  | keep => exact .nil
  | pin => exact Computes.nil.then rfl rfl

theorem Widens.computes {found expected : Ty} (h : Widens s found expected a code a' s') :
    Computes code := by
  cases h with
  | same | const => exact .nil
  | widen => exact Computes.nil.then rfl rfl

mutual

theorem ExprCode.computes {e : Expr} {s s' : State} {code : List Instr} {a : Operand}
    (h : ExprCode c s e code a s') : Computes code := by
  cases h with
  | int | float | str | bool | name => exact .nil
  | binary hl hk hr => exact ((hl.computes.append hk.computes).append hr.computes).then rfl rfl
  | unary he => exact he.computes.then rfl rfl
  | call hf ha hv => exact (ha.computes.then rfl rfl).then rfl rfl
  | array hi => exact (Computes.nil.then rfl rfl).append hi.computes
  | matrix hi => exact (Computes.nil.then rfl rfl).append hi.computes
  | element hb hk hr => exact ((hb.computes.append hk.computes).append hr.computes).then rfl rfl
  | entry hb hk hr hkr hc =>
    exact ((((hb.computes.append hk.computes).append hr.computes).append hkr.computes).append
      hc.computes).then rfl rfl

theorem ArgumentsCode.computes {es : List Expr} {params : List Ty} {s s' : State}
    {code : List Instr} (h : ArgumentsCode c s params es code s') : Computes code := by
  cases h with
  | nil => exact .nil
  | cons he hes =>
    cases he with
    | mk he hw => exact ((he.computes.append hw.computes).then rfl rfl).append hes.computes

theorem ElementsCode.computes {es : List Expr} {array : Place} {element : Ty} {k : Nat}
    {s s' : State} {code : List Instr} (h : ElementsCode c array element s k es code s') :
    Computes code := by
  cases h with
  | nil => exact .nil
  | cons he hes =>
    cases he with
    | mk he hw => exact ((he.computes.append hw.computes).then rfl rfl).append hes.computes

theorem EntriesCode.computes {es : List Expr} {matrix : Place} {row k : Nat} {s s' : State}
    {code : List Instr} (h : EntriesCode c matrix row s k es code s') : Computes code := by
  cases h with
  | nil => exact .nil
  | cons he hes =>
    cases he with
    | mk he hw => exact ((he.computes.append hw.computes).then rfl rfl).append hes.computes

theorem RowsCode.computes {rows : List (List Expr)} {matrix : Place} {k : Nat} {s s' : State}
    {code : List Instr} (h : RowsCode c matrix s k rows code s') : Computes code := by
  cases h with
  | nil => exact .nil
  | cons he hes => exact he.computes.append hes.computes

end

theorem WidenedCode.computes {e : Expr} {expected : Ty} (h : WidenedCode c s e expected code a s') :
    Computes code := by
  cases h with
  | mk he hw => exact he.computes.append hw.computes

theorem ExprCode.assigns {e : Expr} (h : ExprCode c s e code a s') : Assigns N code :=
  h.computes.assigns

theorem WidenedCode.assigns {e : Expr} {expected : Ty} (h : WidenedCode c s e expected code a s') :
    Assigns N code :=
  h.computes.assigns

theorem PrintsCode.assigns {es : List Expr} (h : PrintsCode c s es code s') : Assigns N code := by
  induction h with
  | nil => exact .nil
  | cons he _ ih => exact (he.assigns.then rfl).append ih

/-! ### Statements -/

theorem assigns_put {x : Name} {b : Binding} (hx : x ∈ N) (hb : x.binding = some b) :
    Assigns N [s.instr (put (.var b.variable) a)] := by
  have hv : ∀ v, some b.variable = some v → Named N v := by
    rintro v ⟨⟩
    exact ⟨x, hx, b, hb, rfl⟩
  cases a <;> exact .one hv

theorem varWritten?_put_temp (t : Nat) : (put (.temp t) a).varWritten? = none := by
  cases a <;> rfl

theorem VariableCode.assigns {x : Name} {e : Expr} (h : VariableCode c s x e code s')
    (hx : x ∈ N) : Assigns N code := by
  cases h with
  | mk hb he => exact he.assigns.append (assigns_put hx hb)

theorem ElementCode.assigns {x : Name} {sub : Subscript} {e : Expr}
    (h : ElementCode c s x sub e code s') : Assigns N code := by
  cases h with
  | element hb hr hk he =>
    exact ((hr.assigns.append hk.computes.assigns).append he.assigns).then rfl
  | entry hb hr hk hc hkc he =>
    have hrow := hr.computes.append hk.computes
    have hcol := hc.computes.append hkc.computes
    exact ((hrow.append hcol).assigns.append he.assigns).then rfl

mutual

theorem StmtCode.assigns (st : Stmt) : ∀ {c : Context} {s s' : State} {code : List Instr},
    StmtCode c s st code s' → (∀ x ∈ st.names, x ∈ N) → Assigns N code := by
  intro c s s' code h hN
  cases h with
  | decl h => exact h.assigns (hN _ List.mem_cons_self)
  | assign h => exact h.assigns (hN _ List.mem_cons_self)
  | store h => exact h.assigns
  | function => exact .nil
  | cond he hb =>
    obtain ⟨-, hbody⟩ := List.forall_mem_append.1 hN
    exact ((he.assigns.then rfl).append (BlockCode.assigns _ hb hbody)).then rfl
  | branch he hb ho =>
    obtain ⟨hfirst, helse⟩ := List.forall_mem_append.1 hN
    obtain ⟨-, hbody⟩ := List.forall_mem_append.1 hfirst
    exact (((((he.assigns.then rfl).append (BlockCode.assigns _ hb hbody)).then rfl).then
      rfl).append (BlockCode.assigns _ ho helse)).then rfl
  | «while» h₀ he hb =>
    obtain ⟨-, hbody⟩ := List.forall_mem_append.1 hN
    exact (((((Assigns.nil.then rfl).append he.assigns).then rfl).append
      (BlockCode.assigns _ hb hbody)).then rfl).then rfl
  | «repeat» he hb h₃ =>
    obtain ⟨-, hbody⟩ := List.forall_mem_append.1 hN
    exact ((((((((((he.assigns.then (varWritten?_put_temp _)).then (varWritten?_put_temp _)).then
      rfl).then rfl).then rfl).append (BlockCode.assigns _ hb hbody)).then rfl).then rfl).then
        rfl).then rfl)
  | «for» hi h₂ he hb h₅ hu =>
    obtain ⟨hfirst, hbody⟩ := List.forall_mem_append.1 hN
    obtain ⟨hfirst, hupdate⟩ := List.forall_mem_append.1 hfirst
    obtain ⟨hinit, -⟩ := List.forall_mem_append.1 hfirst
    exact ((((((((StmtCode.assigns _ hi hinit).then rfl).append he.assigns).then rfl).append
      (BlockCode.assigns _ hb hbody)).then rfl).append (StmtCode.assigns _ hu hupdate)).then
        rfl).then rfl
  | «break» | «continue» | leave => exact Assigns.nil.then rfl
  | «return» he => exact he.assigns.then rfl
  | print h => exact h.assigns
  | @input _ _ _ x b hb =>
    refine .one fun v hv => ?_
    cases hv
    exact ⟨x, hN x List.mem_cons_self, b, hb, rfl⟩
  | call hf ha => exact ha.computes.assigns.then rfl
  | expr hc he => exact he.assigns
termination_by structural st

theorem BlockCode.assigns (ss : List Stmt) : ∀ {c : Context} {s s' : State} {code : List Instr},
    BlockCode c s ss code s' → (∀ x ∈ Stmt.allNames ss, x ∈ N) → Assigns N code := by
  intro c s s' code h hN
  cases h with
  | nil => exact .nil
  | cons hs hss =>
    obtain ⟨hfirst, hrest⟩ := List.forall_mem_append.1 hN
    exact (StmtCode.assigns _ hs hfirst).append (BlockCode.assigns _ hss hrest)
termination_by structural ss

end

/-! ### Programs -/

theorem TopCode.assigns {p : Program} (h : TopCode c s p code s') (hN : ∀ x ∈ p.names, x ∈ N) :
    Assigns N code := by
  induction h with
  | nil => exact Assigns.nil.then rfl
  | function _ _ ih => exact ih (List.forall_mem_append.1 hN).2
  | cons _ hs _ ih =>
    obtain ⟨hfirst, hrest⟩ := List.forall_mem_append.1 hN
    exact (hs.assigns _ hfirst).append (ih hrest)

theorem exists_of_isSlot {params : List Param} {vars : List Variable}
    (h : List.Forall₂ IsSlot params vars) {v : Variable} (hv : v ∈ vars) :
    ∃ q ∈ params, IsSlot q v := by
  obtain ⟨k, hk, rfl⟩ := List.mem_iff_getElem.1 hv
  have hlt : k < params.length := by rw [h.length_eq]; exact hk
  exact ⟨params[k], List.getElem_mem hlt, h.get hlt hk⟩

theorem RegionsCode.assigns {p : Program} {infos : List FunctionInfo}
    (h : RegionsCode c s p code infos s') (hN : ∀ x ∈ p.names, x ∈ N) : Assigns N code := by
  induction h with
  | nil => exact .nil
  | function _ hb _ ih =>
    obtain ⟨hfirst, hrest⟩ := List.forall_mem_append.1 hN
    obtain ⟨-, hbody⟩ := List.forall_mem_append.1 hfirst
    exact (((Assigns.nil.then rfl).append (hb.assigns _ hbody)).then rfl).append (ih hrest)
  | other _ _ ih => exact ih (List.forall_mem_append.1 hN).2

theorem RegionsCode.exists_param {p : Program} {infos : List FunctionInfo}
    (h : RegionsCode c s p code infos s') :
    ∀ f ∈ infos, ∀ v ∈ f.params, ∃ q ∈ p.params, IsSlot q v := by
  induction h with
  | nil => exact nofun
  | function hp _ _ ih =>
    refine List.forall_mem_cons.2 ⟨fun v hv => ?_, fun f hf v hv => ?_⟩
    · obtain ⟨q, hq, hslot⟩ := exists_of_isSlot hp hv
      exact ⟨q, List.mem_append_left _ hq, hslot⟩
    · obtain ⟨q, hq, hslot⟩ := ih f hf v hv
      exact ⟨q, List.mem_append_right _ hq, hslot⟩
  | other hst _ ih =>
    rw [Program.params_cons hst]
    exact ih

end Lowering

open Lowering

/-- The code of a program writes variables that its names stand for and no others, and so do calls
of its functions. -/
theorem ProgramTyped.assigns {p : Program} {code : Code} (hp : ProgramTyped p)
    (h : p.lower = .ok code) :
    Assigns p.names code.instrs ∧
      ∀ f ∈ code.functions, ∀ v ∈ f.params, Named p.names ⟨v.slot, .local⟩ := by
  obtain ⟨top, regions, s₁, s₂, ht, hr, hcode⟩ := Program.exists_of_lower h
  rw [hcode]
  refine ⟨(ht.assigns fun _ => id).append (hr.assigns fun _ => id), fun f hf v hv => ?_⟩
  obtain ⟨q, hq, b, hb, rfl⟩ := hr.exists_param f hf v hv
  obtain ⟨b', hb', hlocal⟩ := hp.storage_param hq
  obtain rfl : b = b' := Option.some.inj (hb.symm.trans hb')
  refine ⟨q.name, Program.name_mem_names hq, b, hb, ?_⟩
  rw [Binding.variable, hlocal]

end NumericScript
