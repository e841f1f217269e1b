import Mathlib.Order.Interval.Set.LinearOrder
import NumericScript.Proofs.Lowering.Definite
import NumericScript.Proofs.Lowering.Follow
import NumericScript.Proofs.Lowering.Supply

/-! # Temporaries of expressions

The code of an expression writes each temporary that is supplied for it once, and reads none before
it has written it.

* `Brings`: code that does so.
* `ExprCode.brings`: the code of an expression. -/

namespace NumericScript

/-- An operation that stores an element reads the container, too. -/
theorem mem_of_tempsRead_store {D : Set Nat} {base : Place} {row v : Operand} {col : Option Operand}
    (hb : ∀ t, base = .temp t → t ∈ D) (hr : row.Within D) (hc : ∀ o ∈ col, o.Within D)
    (hv : v.Within D) : ∀ t ∈ (Op.store base row col v).tempsRead, t ∈ D := by
  have hoperands : ∀ o ∈ (Op.store base row col v).operands, o.Within D :=
    List.forall_mem_cons.2 ⟨hr, List.forall_mem_append.2
      ⟨fun o ho => hc o (Option.mem_toList.1 ho), List.forall_mem_singleton.2 hv⟩⟩
  intro t ht
  rcases List.mem_append.1 ht with ht | ht
  · cases base with
    | temp t' =>
      obtain rfl := List.mem_singleton.1 ht
      exact hb t rfl
    | var x => cases ht
  · exact mem_of_operandTemp hoperands t ht

theorem within_temp {D : Set Nat} {t : Nat} (ht : t ∈ D) : (Operand.place (.temp t)).Within D := by
  rintro t' ⟨⟩
  exact ht

theorem within_const {D : Set Nat} (v : Constant) : (Operand.const v).Within D := nofun

@[simp] theorem tempsWritten_append (code code' : List Instr) :
    tempsWritten (code ++ code') = tempsWritten code ++ tempsWritten code' :=
  List.filterMap_append

namespace Lowering

variable {c : Context} {s s' s₁ s₂ : State} {D E : Set Nat} {code code' : List Instr}
  {a a' : Operand} {op : Op}

@[simp] theorem tempsWritten_instr (s : State) (op : Op) :
    tempsWritten [s.instr op] = op.tempWritten?.toList := by
  cases h : op.tempWritten? <;> simp [tempsWritten, State.instr, h]

/-! ### Expressions -/

/-- Code that runs straight through, reads temporaries of `D` and those that it has written, and
writes each of those supplied for it once. -/
structure Brings (D : Set Nat) (s : State) (code : List Instr) (s' : State) : Prop where
  temps : s.temps ≤ s'.temps
  covered : ∀ L, Covered L D code
  after : ∀ L, givenAfter L D code = D ∪ Set.Ico s.temps s'.temps
  once : ∀ t, (tempsWritten code).count t = if s.temps ≤ t ∧ t < s'.temps then 1 else 0

namespace Brings

theorem nil (D : Set Nat) (s : State) : Brings D s [] s where
  temps := Nat.le_refl _
  covered _ := trivial
  after L := by simp [givenAfter]
  once t := by
    rw [if_neg (by omega)]
    rfl

theorem append (h : Brings D s code s₁)
    (h' : Brings (D ∪ Set.Ico s.temps s₁.temps) s₁ code' s₂) : Brings D s (code ++ code') s₂ where
  temps := Nat.le_trans h.temps h'.temps
  covered L := covered_append.2 ⟨h.covered L, by rw [h.after]; exact h'.covered L⟩
  after L := by
    rw [givenAfter_append, h.after, h'.after, Set.union_assoc,
      Set.Ico_union_Ico_eq_Ico h.temps h'.temps]
  once t := by
    have hle := h.temps
    have hle' := h'.temps
    rw [tempsWritten_append, List.count_append, h.once, h'.once]
    split_ifs <;> omega

/-- An operation that writes no temporary. -/
theorem one (hl : op.label? = none) (ht : op.target? = none) (hw : op.tempWritten? = none)
    (hr : ∀ t ∈ op.tempsRead, t ∈ D) : Brings D s [s.instr op] s where
  temps := Nat.le_refl _
  covered L := covered_singleton.2
    (.of_no_label hl hr fun l h => by rw [State.instr, ht] at h; cases h)
  after L := by simp [given, State.instr, hl, hw]
  once t := by
    rw [tempsWritten_instr, hw, if_neg (by omega)]
    rfl

/-- An operation that writes the temporary that is supplied next. -/
theorem fresh (hl : op.label? = none) (ht : op.target? = none)
    (hw : op.tempWritten? = some s.temps) (hr : ∀ t ∈ op.tempsRead, t ∈ D) :
    Brings D s [s.instr op] s.nextTemp where
  temps := Nat.le_succ _
  covered L := covered_singleton.2
    (.of_no_label hl hr fun l h => by rw [State.instr, ht] at h; cases h)
  after L := by
    ext t
    simp only [givenAfter_singleton, given, State.instr, hl, hw, Option.some.injEq, Set.mem_union,
      Set.mem_ofPred_eq, Set.mem_Ico, State.nextTemp]
    refine or_congr_right ?_
    omega
  once t := by
    rw [tempsWritten_instr, hw, Option.toList_some, List.count_singleton]
    simp only [State.nextTemp, beq_iff_eq]
    exact if_congr (by omega) rfl rfl

theorem yields (h : Brings D s code s') (L : Label → Set Nat) :
    Yields L D code (D ∪ Set.Ico s.temps s'.temps) :=
  ⟨h.covered L, (h.after L).ge⟩

/-- Code that is followed by a branch on its value. -/
theorem yields_test {L : Label → Set Nat} {l : Label} (h : Brings D s code s')
    (ha : a.Within (Set.Ico s.temps s'.temps)) (hl : L l ⊆ D) :
    Yields L D (code ++ [s'.instr (.jumpIfFalse a l)]) D := by
  refine ((h.yields L).append (.test rfl ?_ ?_)).less Set.subset_union_left
  · exact ha.mono Set.subset_union_right
  · exact hl.trans Set.subset_union_left

section

variable {b : Operand} {f : BinaryOp} {fn : UnaryFn} {n : Bool} {argc : Nat} {target : Callee}
  {base : Place} {col : Option Operand}

theorem unary (h : Brings D s code s₁) (ha : a.Within (D ∪ Set.Ico s.temps s₁.temps)) :
    Brings D s (code ++ [s₁.instr (.unary s₁.temp fn a)]) s₁.nextTemp :=
  h.append (.fresh rfl rfl rfl (mem_of_tempsRead (List.forall_mem_singleton.2 ha) rfl))

theorem binary (h : Brings D s code s₁) (ha : a.Within (D ∪ Set.Ico s.temps s₁.temps))
    (hb : b.Within (D ∪ Set.Ico s.temps s₁.temps)) :
    Brings D s (code ++ [s₁.instr (.binary s₁.temp f a b)]) s₁.nextTemp :=
  h.append (.fresh rfl rfl rfl (mem_of_tempsRead
    (List.forall_mem_cons.2 ⟨ha, List.forall_mem_singleton.2 hb⟩) rfl))

theorem call (h : Brings D s code s₁) : Brings D s (code ++ [s₁.instr (.call target argc)]) s₁ :=
  h.append (.one rfl rfl rfl fun t ht => by cases ht)

theorem take (h : Brings D s code s₁) :
    Brings D s (code ++ [s₁.instr (.copy s₁.temp .returned)]) s₁.nextTemp :=
  h.append (.fresh rfl rfl rfl fun t ht => by cases ht)

theorem param (h : Brings D s code s₁) (ha : a.Within (D ∪ Set.Ico s.temps s₁.temps)) :
    Brings D s (code ++ [s₁.instr (.param a)]) s₁ :=
  h.append (.one rfl rfl rfl (mem_of_tempsRead (List.forall_mem_singleton.2 ha) rfl))

theorem print (h : Brings D s code s₁) (ha : a.Within (D ∪ Set.Ico s.temps s₁.temps)) :
    Brings D s (code ++ [s₁.instr (.print a n)]) s₁ :=
  h.append (.one rfl rfl rfl (mem_of_tempsRead (List.forall_mem_singleton.2 ha) rfl))

theorem load (h : Brings D s code s₁) (ha : a.Within (D ∪ Set.Ico s.temps s₁.temps))
    (hb : b.Within (D ∪ Set.Ico s.temps s₁.temps))
    (hc : ∀ o ∈ col, o.Within (D ∪ Set.Ico s.temps s₁.temps)) :
    Brings D s (code ++ [s₁.instr (.load s₁.temp a b col)]) s₁.nextTemp :=
  h.append (.fresh rfl rfl rfl (mem_of_tempsRead (List.forall_mem_cons.2 ⟨ha,
    List.forall_mem_cons.2 ⟨hb, fun o ho => hc o (Option.mem_toList.1 ho)⟩⟩) rfl))

theorem store (h : Brings D s code s₁)
    (hbase : ∀ t, base = .temp t → t ∈ D ∪ Set.Ico s.temps s₁.temps)
    (ha : a.Within (D ∪ Set.Ico s.temps s₁.temps))
    (hc : ∀ o ∈ col, o.Within (D ∪ Set.Ico s.temps s₁.temps))
    (hb : b.Within (D ∪ Set.Ico s.temps s₁.temps)) :
    Brings D s (code ++ [s₁.instr (.store base a col b)]) s₁ :=
  h.append (.one rfl rfl rfl (mem_of_tempsRead_store hbase ha hc hb))

end

theorem newArray (D : Set Nat) (s : State) (n : Nat) :
    Brings D s [s.instr (.newArray s.temp n)] s.nextTemp :=
  .fresh rfl rfl rfl fun t ht => by cases ht

theorem newMatrix (D : Set Nat) (s : State) (n m : Nat) :
    Brings D s [s.instr (.newMatrix s.temp n m)] s.nextTemp :=
  .fresh rfl rfl rfl fun t ht => by cases ht

end Brings

theorem Pins.brings {changes : Bool} (h : Pins changes s a code a' s') (D : Set Nat) :
    Brings D s code s' := by
  cases h with
  | keep => exact .nil D s
  | pin => exact .fresh rfl rfl rfl nofun

theorem Widens.brings {found expected : Ty} (h : Widens s found expected a code a' s')
    (ha : a.Within D) : Brings D s code s' := by
  cases h with
  | same | const => exact .nil D s
  | widen => exact .fresh rfl rfl rfl (mem_of_tempsRead (List.forall_mem_singleton.2 ha) rfl)

/-- An operand that was supplied among others. -/
theorem within_union {lo lo' hi hi' : Nat} (h : a.Within (Set.Ico lo hi)) (hlo : lo' ≤ lo)
    (hhi : hi ≤ hi') : a.Within (D ∪ Set.Ico lo' hi') := fun t ht =>
  .inr (Set.Ico_subset_Ico hlo hhi (h t ht))

theorem Pins.within {changes : Bool} {lo : Nat} (h : Pins changes s a code a' s')
    (hlo : lo ≤ s.temps) (ha : a.Within (Set.Ico lo s.temps)) :
    a'.Within (Set.Ico lo s'.temps) := by
  cases h with
  | keep => exact ha
  | pin =>
    rintro t ⟨⟩
    exact ⟨hlo, Nat.lt_succ_self _⟩

theorem Widens.within {found expected : Ty} {lo : Nat} (h : Widens s found expected a code a' s')
    (hlo : lo ≤ s.temps) (ha : a.Within (Set.Ico lo s.temps)) :
    a'.Within (Set.Ico lo s'.temps) := by
  cases h with
  | same => exact ha
  | const => exact fun t ht => by cases ht
  | widen =>
    rintro t ⟨⟩
    exact ⟨hlo, Nat.lt_succ_self _⟩

/-- The operand that holds the value of an expression was supplied for it. -/
theorem ExprCode.within {e : Expr} (h : ExprCode c s e code a s') :
    a.Within (Set.Ico s.temps s'.temps) := by
  have htemps := h.supplied.temps
  cases h with
  | int | float | str | bool | name => exact fun t ht => by cases ht
  | binary hl hk hr =>
    rintro t ⟨⟩
    exact ⟨Nat.le_trans hl.supplied.temps (Nat.le_trans hk.supplied.temps hr.supplied.temps),
      Nat.lt_succ_self _⟩
  | unary he =>
    rintro t ⟨⟩
    exact ⟨he.supplied.temps, Nat.lt_succ_self _⟩
  | call hf ha hv =>
    rintro t ⟨⟩
    exact ⟨ha.supplied.temps, Nat.lt_succ_self _⟩
  | element hb hk hr =>
    rintro t ⟨⟩
    exact ⟨Nat.le_trans hb.supplied.temps (Nat.le_trans hk.supplied.temps hr.supplied.temps),
      Nat.lt_succ_self _⟩
  | entry hb hk hr hkr hc =>
    rintro t ⟨⟩
    exact ⟨Nat.le_trans hb.supplied.temps (Nat.le_trans hk.supplied.temps
      (Nat.le_trans hr.supplied.temps (Nat.le_trans hkr.supplied.temps hc.supplied.temps))),
      Nat.lt_succ_self _⟩
  | array hi =>
    rintro t ⟨⟩
    exact ⟨Nat.le_refl _, hi.supplied.temps⟩
  | matrix hi =>
    rintro t ⟨⟩
    exact ⟨Nat.le_refl _, hi.supplied.temps⟩

/-- A value that is widened. -/
theorem Widens.appended {found expected : Ty} {widening : List Instr}
    (h : Widens s₁ found expected a widening a' s₂) (hcode : Brings D s code s₁)
    (ha : a.Within (Set.Ico s.temps s₁.temps)) :
    Brings D s (code ++ widening) s₂ ∧ a'.Within (D ∪ Set.Ico s.temps s₂.temps) := by
  refine ⟨hcode.append (h.brings (within_union ha (Nat.le_refl _) (Nat.le_refl _))), ?_⟩
  exact within_union (h.within hcode.temps ha) (Nat.le_refl _) (Nat.le_refl _)

theorem WidenedCode.within {e : Expr} {expected : Ty} (h : WidenedCode c s e expected code a s') :
    a.Within (Set.Ico s.temps s'.temps) := by
  cases h with
  | mk he hw => exact hw.within he.supplied.temps he.within

mutual

theorem ExprCode.brings {c : Context} (e : Expr) : ∀ {s s' : State} {code : List Instr}
    {a : Operand}, ExprCode c s e code a s' → ∀ D, Brings D s code s' := by
  intro s s' code a h D
  cases h with
  | int | float | str | bool | name => exact .nil D s
  | binary hl hk hr =>
    have hleft := (ExprCode.brings _ hl D).append (hk.brings _)
    have hoperand := hk.within hl.supplied.temps hl.within
    exact (hleft.append (ExprCode.brings _ hr _)).binary
      (within_union hoperand (Nat.le_refl _) hr.supplied.temps)
      (within_union hr.within hleft.temps (Nat.le_refl _))
  | unary he =>
    exact (ExprCode.brings _ he D).unary (within_union he.within (Nat.le_refl _) (Nat.le_refl _))
  | call hf ha hv => exact (ArgumentsCode.brings _ ha D).call.take
  | array hi =>
    refine (Brings.newArray D s _).append (ElementsCode.brings _ hi fun t ht => .inr ?_)
    cases ht
    exact ⟨Nat.le_refl _, Nat.lt_succ_self _⟩
  | matrix hi =>
    refine (Brings.newMatrix D s _ _).append (RowsCode.brings _ hi fun t ht => .inr ?_)
    cases ht
    exact ⟨Nat.le_refl _, Nat.lt_succ_self _⟩
  | element hb hk hr =>
    have hbase := (ExprCode.brings _ hb D).append (hk.brings _)
    have hoperand := hk.within hb.supplied.temps hb.within
    exact (hbase.append (ExprCode.brings _ hr _)).load
      (within_union hoperand (Nat.le_refl _) hr.supplied.temps)
      (within_union hr.within hbase.temps (Nat.le_refl _)) nofun
  | entry hb hk hr hkr hc =>
    have hbase := (ExprCode.brings _ hb D).append (hk.brings _)
    have hrow := Nat.le_trans hr.supplied.temps hkr.supplied.temps
    have hoperand := hk.within hb.supplied.temps hb.within
    have hindex := hkr.within hr.supplied.temps hr.within
    refine (((hbase.append (ExprCode.brings _ hr _)).append (hkr.brings _)).append
      (ExprCode.brings _ hc _)).load
      (within_union hoperand (Nat.le_refl _) (Nat.le_trans hrow hc.supplied.temps))
      (within_union hindex hbase.temps hc.supplied.temps) fun o ho => ?_
    cases ho
    exact within_union hc.within (Nat.le_trans hbase.temps hrow) (Nat.le_refl _)
termination_by structural e

theorem ArgumentsCode.brings {c : Context} (es : List Expr) : ∀ {params : List Ty}
    {s s' : State} {code : List Instr}, ArgumentsCode c s params es code s' →
    ∀ D, Brings D s code s' := by
  intro params s s' code h D
  cases h with
  | nil => exact .nil D s
  | cons he hes =>
    cases he with
    | mk he hw =>
      have hvalue := hw.appended (ExprCode.brings _ he D) he.within
      exact hvalue.1.param hvalue.2 |>.append (ArgumentsCode.brings _ hes _)
termination_by structural es

theorem ElementsCode.brings {c : Context} (es : List Expr) : ∀ {array : Place} {element : Ty}
    {k : Nat} {s s' : State} {code : List Instr}, ElementsCode c array element s k es code s' →
    ∀ {D : Set Nat}, (∀ t, array = .temp t → t ∈ D) → Brings D s code s' := by
  intro array element k s s' code h D hD
  cases h with
  | nil => exact .nil D s
  | cons he hes =>
    cases he with
    | mk he hw =>
      have hvalue := hw.appended (ExprCode.brings _ he D) he.within
      exact .append (.store hvalue.1 (fun t ht => .inl (hD t ht)) (within_const _) nofun hvalue.2)
        (ElementsCode.brings _ hes fun t ht => .inl (hD t ht))
termination_by structural es

theorem EntriesCode.brings {c : Context} (es : List Expr) : ∀ {matrix : Place} {row k : Nat}
    {s s' : State} {code : List Instr}, EntriesCode c matrix row s k es code s' →
    ∀ {D : Set Nat}, (∀ t, matrix = .temp t → t ∈ D) → Brings D s code s' := by
  intro matrix row k s s' code h D hD
  cases h with
  | nil => exact .nil D s
  | cons he hes =>
    cases he with
    | mk he hw =>
      have hvalue := hw.appended (ExprCode.brings _ he D) he.within
      exact .append (.store hvalue.1 (fun t ht => .inl (hD t ht)) (within_const _)
        (fun o ho => by cases ho; exact within_const _) hvalue.2)
        (EntriesCode.brings _ hes fun t ht => .inl (hD t ht))
termination_by structural es

theorem RowsCode.brings {c : Context} (rows : List (List Expr)) : ∀ {matrix : Place} {k : Nat}
    {s s' : State} {code : List Instr}, RowsCode c matrix s k rows code s' →
    ∀ {D : Set Nat}, (∀ t, matrix = .temp t → t ∈ D) → Brings D s code s' := by
  intro matrix k s s' code h D hD
  cases h with
  | nil => exact .nil D s
  | cons he hes =>
    exact (EntriesCode.brings _ he hD).append (RowsCode.brings _ hes fun t ht => .inl (hD t ht))
termination_by structural rows

end

theorem WidenedCode.brings {e : Expr} {expected : Ty} (h : WidenedCode c s e expected code a s')
    (D : Set Nat) : Brings D s code s' := by
  cases h with
  | mk he hw => exact (hw.appended (he.brings _ D) he.within).1

theorem PrintsCode.brings {es : List Expr} (h : PrintsCode c s es code s') (D : Set Nat) :
    Brings D s code s' := by
  induction h generalizing D with
  | nil => exact .nil D _
  | cons he _ ih =>
    exact ((he.brings _ D).print (within_union he.within (Nat.le_refl _) (Nat.le_refl _))).append
      (ih _)

/-- The operation that puts an operand into a place reads that operand. -/
theorem mem_of_tempsRead_put {p : Place} (ha : a.Within D) : ∀ t ∈ (put p a).tempsRead, t ∈ D := by
  cases a with
  | const v => exact fun t ht => by cases ht
  | _ => exact mem_of_tempsRead (List.forall_mem_singleton.2 ha) rfl

theorem VariableCode.brings {x : Name} {e : Expr} (h : VariableCode c s x e code s')
    (D : Set Nat) : Brings D s code s' := by
  cases h with
  | @mk _ _ b _ code a hb he =>
    have hput : (put (.var b.variable) a).label? = none ∧
        (put (.var b.variable) a).target? = none ∧
        (put (.var b.variable) a).tempWritten? = none := by
      cases a <;> exact ⟨rfl, rfl, rfl⟩
    exact (he.brings D).append (.one hput.1 hput.2.1 hput.2.2
      (mem_of_tempsRead_put (within_union he.within (Nat.le_refl _) (Nat.le_refl _))))

theorem ElementCode.brings {x : Name} {sub : Subscript} {e : Expr}
    (h : ElementCode c s x sub e code s') (D : Set Nat) : Brings D s code s' := by
  cases h with
  | element hb hr hk he =>
    have hrow := (hr.brings _ D).append (hk.brings _)
    have hindex := hk.within hr.supplied.temps hr.within
    exact (hrow.append (he.brings _)).store nofun
      (within_union hindex (Nat.le_refl _) he.supplied.temps) nofun
      (within_union he.within hrow.temps (Nat.le_refl _))
  | entry hb hr hk hc hkc he =>
    have hrow := (hr.brings _ D).append (hk.brings _)
    have hcol := Nat.le_trans hc.supplied.temps hkc.supplied.temps
    have hindex := hk.within hr.supplied.temps hr.within
    have hindexCol := hkc.within hc.supplied.temps hc.within
    refine ((hrow.append ((hc.brings _ _).append (hkc.brings _))).append (he.brings _)).store nofun
      (within_union hindex (Nat.le_refl _) (Nat.le_trans hcol he.supplied.temps))
      (fun o ho => ?_)
      (within_union he.within (Nat.le_trans hrow.temps hcol) (Nat.le_refl _))
    cases ho
    exact within_union hindexCol hrow.temps he.supplied.temps

end Lowering

end NumericScript
