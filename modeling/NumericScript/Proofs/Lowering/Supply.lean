import NumericScript.Proofs.Lowering.Rules
import NumericScript.Proofs.Optimize.Preserve

/-! # Supplies of temporaries and labels

The code of an expression runs straight through and writes the temporaries that were supplied
for it.

* `ExprCode.supplied`: the code of an expression.
* `Reserving`: the code of a statement up to some place in it.
* `StmtCode.labelled`: the labels in the code of a statement, and where it jumps. -/

namespace NumericScript

/-- Whether a label is that of a loop or a branch. -/
def Label.isLocal : Label → Bool
  | .local _ => true
  | .function _ => false

/-- The names of the functions that a program declares at top level. -/
def Program.functionNames (p : Program) : List String := p.filterMap fun
  | .function _ f _ _ _ => some f
  | _ => none

namespace Lowering

/-! ### Expressions -/

/-- The temporaries that code writes are in a range. -/
def Writes (lo hi : Nat) (code : List Instr) : Prop :=
  ∀ i ∈ code, ∀ t, i.op.tempWritten? = some t → lo ≤ t ∧ t < hi

theorem Writes.mono {lo lo' hi hi' : Nat} {code : List Instr} (h : Writes lo hi code)
    (hlo : lo' ≤ lo) (hhi : hi ≤ hi') : Writes lo' hi' code := fun i hi t ht =>
  ⟨Nat.le_trans hlo (h i hi t ht).1, Nat.lt_of_lt_of_le (h i hi t ht).2 hhi⟩

@[simp] theorem writes_append {lo hi : Nat} {code code' : List Instr} :
    Writes lo hi (code ++ code') ↔ Writes lo hi code ∧ Writes lo hi code' :=
  List.forall_mem_append

@[simp] theorem writes_singleton {lo hi : Nat} {s : State} {op : Op} :
    Writes lo hi [s.instr op] ↔ ∀ t, op.tempWritten? = some t → lo ≤ t ∧ t < hi := by
  simp [Writes, State.instr]

theorem writes_of_none {lo hi : Nat} {s : State} {op : Op} (h : op.tempWritten? = none) :
    Writes lo hi [s.instr op] := writes_singleton.2 (by simp [h])

theorem writes_of_some {lo hi t : Nat} {s : State} {op : Op} (h : op.tempWritten? = some t)
    (hlo : lo ≤ t) (hhi : t < hi) : Writes lo hi [s.instr op] := by
  rw [writes_singleton, h]
  rintro u ⟨⟩
  exact ⟨hlo, hhi⟩

/-- Code runs straight through, and the temporaries that it writes were supplied for it. -/
structure Supplied (s : State) (code : List Instr) (s' : State) : Prop where
  temps : s.temps ≤ s'.temps
  labels : s'.labels = s.labels
  line : s'.line = s.line
  straight : ∀ i ∈ code, i.op.isStraight = true ∧ i.op.label? = none
  writes : Writes s.temps s'.temps code

namespace Supplied

variable {s s₁ s₂ s₃ : State} {code code' : List Instr} {op : Op}

theorem nil (s : State) : Supplied s [] s where
  temps := Nat.le_refl _
  labels := rfl
  line := rfl
  straight := fun i hi => by cases hi
  writes := fun i hi => by cases hi

theorem append (h : Supplied s code s₁) (h' : Supplied s₁ code' s₂) :
    Supplied s (code ++ code') s₂ where
  temps := Nat.le_trans h.temps h'.temps
  labels := h'.labels.trans h.labels
  line := h'.line.trans h.line
  straight := by
    intro i hi
    rcases List.mem_append.1 hi with hi | hi
    · exact h.straight i hi
    · exact h'.straight i hi
  writes := by
    rw [writes_append]
    exact ⟨h.writes.mono (Nat.le_refl _) h'.temps, h'.writes.mono h.temps (Nat.le_refl _)⟩

/-- An operation that writes no temporary. -/
theorem one (hs : op.isStraight = true) (hl : op.label? = none) (hw : op.tempWritten? = none) :
    Supplied s [s.instr op] s where
  temps := Nat.le_refl _
  labels := rfl
  line := rfl
  straight := by
    intro i hi
    obtain rfl := List.mem_singleton.1 hi
    exact ⟨hs, hl⟩
  writes := writes_of_none hw

/-- An operation that writes the temporary that is supplied next. -/
theorem fresh (hs : op.isStraight = true) (hl : op.label? = none)
    (hw : op.tempWritten? = some s.temps) : Supplied s [s.instr op] s.nextTemp where
  temps := Nat.le_succ _
  labels := rfl
  line := rfl
  straight := by
    intro i hi
    obtain rfl := List.mem_singleton.1 hi
    exact ⟨hs, hl⟩
  writes := writes_of_some hw (Nat.le_refl _) (Nat.lt_succ_self _)

end Supplied

theorem Pins.supplied {changes : Bool} {s s' : State} {a a' : Operand} {code : List Instr}
    (h : Pins changes s a code a' s') : Supplied s code s' := by
  cases h with
  | keep => exact .nil s
  | pin => exact .fresh rfl rfl rfl

theorem Widens.supplied {found expected : Ty} {s s' : State} {a a' : Operand}
    {code : List Instr} (h : Widens s found expected a code a' s') : Supplied s code s' := by
  cases h with
  | same => exact .nil s
  | const => exact .nil s
  | widen => exact .fresh rfl rfl rfl

mutual

theorem ExprCode.supplied {c : Context} {e : Expr} {s s' : State} {code : List Instr}
    {a : Operand} (h : ExprCode c s e code a s') : Supplied s code s' := by
  cases h with
  | int | float | str | bool | name => exact .nil s
  | binary hl hk hr =>
    exact ((hl.supplied.append hk.supplied).append hr.supplied).append (.fresh rfl rfl rfl)
  | unary he => exact he.supplied.append (.fresh rfl rfl rfl)
  | call hf ha hv =>
    exact (ha.supplied.append (.one rfl rfl rfl)).append (.fresh rfl rfl rfl)
  | array hi => exact .append (.fresh rfl rfl rfl) hi.supplied
  | matrix hi => exact .append (.fresh rfl rfl rfl) hi.supplied
  | element hb hk hr =>
    exact ((hb.supplied.append hk.supplied).append hr.supplied).append (.fresh rfl rfl rfl)
  | entry hb hk hr hkr hc =>
    exact ((((hb.supplied.append hk.supplied).append hr.supplied).append hkr.supplied).append
      hc.supplied).append (.fresh rfl rfl rfl)

theorem ArgumentsCode.supplied {c : Context} {es : List Expr} {params : List Ty} {s s' : State}
    {code : List Instr} (h : ArgumentsCode c s params es code s') : Supplied s code s' := by
  cases h with
  | nil => exact .nil s
  | cons he hes =>
    cases he with
    | mk he hw =>
      exact ((he.supplied.append hw.supplied).append (.one rfl rfl rfl)).append hes.supplied

theorem ElementsCode.supplied {c : Context} {es : List Expr} {array : Place} {element : Ty}
    {k : Nat} {s s' : State} {code : List Instr}
    (h : ElementsCode c array element s k es code s') : Supplied s code s' := by
  cases h with
  | nil => exact .nil s
  | cons he hes =>
    cases he with
    | mk he hw =>
      exact ((he.supplied.append hw.supplied).append (.one rfl rfl rfl)).append hes.supplied

theorem EntriesCode.supplied {c : Context} {es : List Expr} {matrix : Place} {row k : Nat}
    {s s' : State} {code : List Instr} (h : EntriesCode c matrix row s k es code s') :
    Supplied s code s' := by
  cases h with
  | nil => exact .nil s
  | cons he hes =>
    cases he with
    | mk he hw =>
      exact ((he.supplied.append hw.supplied).append (.one rfl rfl rfl)).append hes.supplied

theorem RowsCode.supplied {c : Context} {rows : List (List Expr)} {matrix : Place} {k : Nat}
    {s s' : State} {code : List Instr} (h : RowsCode c matrix s k rows code s') :
    Supplied s code s' := by
  cases h with
  | nil => exact .nil s
  | cons he hes => exact he.supplied.append hes.supplied

end

theorem WidenedCode.supplied {c : Context} {e : Expr} {expected : Ty} {s s' : State}
    {code : List Instr} {a : Operand} (h : WidenedCode c s e expected code a s') :
    Supplied s code s' := by
  cases h with
  | mk he hw => exact he.supplied.append hw.supplied

theorem PrintsCode.supplied {c : Context} {es : List Expr} {s s' : State} {code : List Instr}
    (h : PrintsCode c s es code s') : Supplied s code s' := by
  induction h with
  | nil => exact .nil _
  | cons he _ ih => exact (he.supplied.append (.one rfl rfl rfl)).append ih

/-- The operation that puts an operand into a variable writes no temporary. -/
theorem supplied_put (s : State) (v : Variable) (a : Operand) :
    Supplied s [s.instr (put (.var v) a)] s := by
  cases a <;> exact .one rfl rfl rfl

theorem supplied_put_temp (s : State) (a : Operand) :
    Supplied s [s.instr (put s.temp a)] s.nextTemp := by
  cases a <;> exact .fresh rfl rfl rfl

theorem VariableCode.supplied {c : Context} {x : Name} {e : Expr} {s s' : State}
    {code : List Instr} (h : VariableCode c s x e code s') : Supplied s code s' := by
  cases h with
  | mk hb he => exact he.supplied.append (supplied_put _ _ _)

theorem ElementCode.supplied {c : Context} {x : Name} {sub : Subscript} {e : Expr}
    {s s' : State} {code : List Instr} (h : ElementCode c s x sub e code s') :
    Supplied s code s' := by
  cases h with
  | element hb hr hk he =>
    exact ((hr.supplied.append hk.supplied).append he.supplied).append (.one rfl rfl rfl)
  | entry hb hr hk hc hkc he =>
    exact (((hr.supplied.append hk.supplied).append (hc.supplied.append hkc.supplied)).append
      he.supplied).append (.one rfl rfl rfl)

/-! ### Statements -/

/-- Where `break` and `continue` jump. -/
def Context.exits (c : Context) : List Label :=
  match c.loop with
  | some labels => [labels.again, labels.after]
  | none => []

/-- All jumps in code go to labels among those given. -/
def Targets (labels : List Label) (code : List Instr) : Prop :=
  ∀ i ∈ code, ∀ l, i.op.target? = some l → l ∈ labels

theorem Targets.mono {labels labels' : List Label} {code : List Instr} (h : Targets labels code)
    (hl : ∀ l ∈ labels, l ∈ labels') : Targets labels' code :=
  fun i hi l ht => hl l (h i hi l ht)

@[simp] theorem targets_append {labels : List Label} {code code' : List Instr} :
    Targets labels (code ++ code') ↔ Targets labels code ∧ Targets labels code' :=
  List.forall_mem_append

@[simp] theorem targets_singleton {labels : List Label} {s : State} {op : Op} :
    Targets labels [s.instr op] ↔ ∀ l, op.target? = some l → l ∈ labels := by
  simp [Targets, State.instr]

@[simp] theorem labelsIn_append (code code' : List Instr) :
    labelsIn (code ++ code') = labelsIn code ++ labelsIn code' := List.filterMap_append

@[simp] theorem labelsIn_singleton (s : State) (op : Op) :
    labelsIn [s.instr op] = op.label?.toList := by
  cases op <;> rfl

theorem Supplied.labelsIn_eq {s s' : State} {code : List Instr} (h : Supplied s code s') :
    labelsIn code = [] :=
  List.filterMap_eq_nil_iff.2 fun i hi => (h.straight i hi).2

theorem Supplied.targets {s s' : State} {code : List Instr} (h : Supplied s code s')
    (labels : List Label) : Targets labels code := by
  intro i hi l hl
  have := (h.straight i hi).1
  rw [Op.isStraight, hl] at this
  cases this

/-- How often the label of a number is in code. -/
def labelCount (code : List Instr) (k : Nat) : Nat := (labelsIn code).count (.local k)

@[simp] theorem labelCount_append (code code' : List Instr) (k : Nat) :
    labelCount (code ++ code') k = labelCount code k + labelCount code' k := by
  rw [labelCount, labelsIn_append, List.count_append]
  rfl

@[simp] theorem labelCount_singleton (s : State) (op : Op) (k : Nat) :
    labelCount [s.instr op] k = if op.label? = some (.local k) then 1 else 0 := by
  rw [labelCount, labelsIn_singleton]
  cases op.label? with
  | none => rfl
  | some l => simp [List.count_singleton]

theorem Supplied.labelCount_eq {s s' : State} {code : List Instr} (h : Supplied s code s')
    (k : Nat) : labelCount code k = 0 := by
  rw [labelCount, h.labelsIn_eq]
  rfl

/-- The temporaries that code writes and the labels in it were supplied for it; the labels are
there once, and jumps go to them and to `exits`. -/
structure Labelled (exits : List Label) (s : State) (code : List Instr) (s' : State) :
    Prop where
  temps : s.temps ≤ s'.temps
  writes : Writes s.temps s'.temps code
  labels : s.labels ≤ s'.labels
  counts : ∀ k, labelCount code k = 0 ∨
    s.labels ≤ k ∧ k < s'.labels ∧ labelCount code k = 1
  locals : (labelsIn code).all Label.isLocal = true
  targets : Targets (labelsIn code ++ exits) code

theorem Supplied.labelled {s s' : State} {code : List Instr} (h : Supplied s code s')
    (exits : List Label) : Labelled exits s code s' where
  temps := h.temps
  writes := h.writes
  labels := Nat.le_of_eq h.labels.symm
  counts := fun k => .inl (h.labelCount_eq k)
  locals := by rw [h.labelsIn_eq]; rfl
  targets := h.targets _

theorem Supplied.labelled_inLine {s s' : State} {line : Nat} {code : List Instr}
    (h : Supplied (s.inLine line) code s') (exits : List Label) : Labelled exits s code s' :=
  ⟨h.temps, h.writes, (h.labelled exits).labels, (h.labelled exits).counts,
    (h.labelled exits).locals, h.targets _⟩

/-- The code of a statement up to some place in it.  Labels that were supplied for it may be
reserved, which means that they are not there yet.  Jumps go to labels that are there and to
`goes`, and each of these is there, or reserved, or one of `exits`. -/
structure Reserving (exits goes : List Label) (reserved : List Nat) (s : State)
    (code : List Instr) (s' : State) : Prop where
  temps : s.temps ≤ s'.temps
  writes : Writes s.temps s'.temps code
  labels : s.labels ≤ s'.labels
  counts : ∀ k, labelCount code k + reserved.count k = 0 ∨
    s.labels ≤ k ∧ k < s'.labels ∧ labelCount code k + reserved.count k = 1
  locals : (labelsIn code).all Label.isLocal = true
  targets : Targets (labelsIn code ++ goes) code
  found : ∀ l ∈ goes, l ∈ labelsIn code ∨ l ∈ reserved.map .local ∨ l ∈ exits

namespace Reserving

variable {exits goes : List Label} {reserved reserved' : List Nat} {s s₁ s₂ : State}
  {code code' : List Instr}

theorem of_labelled (h : Labelled exits s code s₁) : Reserving exits exits [] s code s₁ where
  temps := h.temps
  writes := h.writes
  labels := h.labels
  counts := h.counts
  locals := h.locals
  targets := h.targets
  found := fun _ hl => .inr (.inr hl)

theorem start (exits : List Label) (s : State) : Reserving exits exits [] s [] s :=
  of_labelled ((Supplied.nil s).labelled exits)

theorem inLine (h : Reserving exits goes reserved s code s₁) (line : Nat) :
    Reserving exits goes reserved s code (s₁.inLine line) :=
  ⟨h.temps, h.writes, h.labels, h.counts, h.locals, h.targets, h.found⟩

/-- A label is supplied. -/
theorem reserve (h : Reserving exits goes reserved s code s₁) :
    Reserving exits (s₁.label :: goes) (reserved ++ [s₁.labels]) s code s₁.nextLabel where
  temps := h.temps
  writes := h.writes
  labels := Nat.le_succ_of_le h.labels
  counts := by
    intro k
    have hk := h.counts k
    have hle := h.labels
    simp only [List.count_append, List.count_singleton, beq_iff_eq, State.nextLabel]
    split_ifs <;> omega
  locals := h.locals
  targets := h.targets.mono fun l hl => by
    simp only [List.mem_append, List.mem_cons] at hl ⊢
    tauto
  found := by
    intro l hl
    rw [List.map_append, List.mem_append]
    rcases List.mem_cons.1 hl with rfl | hl
    · exact .inr (.inl (.inr (List.mem_singleton.2 rfl)))
    · have := h.found l hl
      tauto

/-- A label that was reserved is put at the end. -/
theorem place {k : Nat} (h : Reserving exits goes reserved s code s₁)
    (hr : reserved.Perm (k :: reserved')) (s₀ : State) :
    Reserving exits goes reserved' s (code ++ [s₀.instr (.label (.local k))]) s₁ where
  temps := h.temps
  writes := writes_append.2 ⟨h.writes, writes_of_none rfl⟩
  labels := h.labels
  counts := by
    intro j
    have hj := h.counts j
    rw [hr.count_eq, List.count_cons] at hj
    simp only [beq_iff_eq] at hj
    simp only [labelCount_append, labelCount_singleton, Op.label?, Option.some.injEq,
      Label.local.injEq]
    omega
  locals := by
    rw [labelsIn_append, labelsIn_singleton, List.all_append, h.locals]
    rfl
  targets := by
    rw [targets_append, targets_singleton]
    refine ⟨h.targets.mono fun l hl => ?_, nofun⟩
    simp only [labelsIn_append, List.mem_append] at hl ⊢
    tauto
  found := by
    intro l hl
    have := h.found l hl
    rw [(hr.map Label.local).mem_iff, List.map_cons, List.mem_cons] at this
    simp only [labelsIn_append, labelsIn_singleton, Op.label?, Option.toList_some,
      List.mem_append, List.mem_singleton]
    tauto

/-- An instruction that is no label follows.  If it writes a temporary, then one of the code, and
if it jumps, then where the code may jump. -/
theorem instr (h : Reserving exits goes reserved s code s₁) (s₀ : State) (op : Op)
    (hlabel : op.label? = none)
    (hw : ∀ t, op.tempWritten? = some t → s.temps ≤ t ∧ t < s₁.temps)
    (ht : ∀ l, op.target? = some l → l ∈ goes) :
    Reserving exits goes reserved s (code ++ [s₀.instr op]) s₁ where
  temps := h.temps
  writes := writes_append.2 ⟨h.writes, writes_singleton.2 hw⟩
  labels := h.labels
  counts := by
    intro k
    simpa [hlabel] using h.counts k
  locals := by
    rw [labelsIn_append, labelsIn_singleton, hlabel, List.all_append, h.locals]
    rfl
  targets := by
    rw [targets_append, targets_singleton, labelsIn_append, labelsIn_singleton, hlabel,
      Option.toList_none, List.append_nil]
    exact ⟨h.targets, fun l hl => List.mem_append_right _ (ht l hl)⟩
  found := by
    rw [labelsIn_append, labelsIn_singleton, hlabel, Option.toList_none, List.append_nil]
    exact h.found

/-- A jump follows. -/
theorem jump {l : Label} (h : Reserving exits goes reserved s code s₁) (hl : l ∈ goes)
    (s₀ : State) : Reserving exits goes reserved s (code ++ [s₀.instr (.jump l)]) s₁ :=
  h.instr s₀ _ rfl nofun (by rintro l ⟨⟩; exact hl)

theorem jumpIfFalse {l : Label} (h : Reserving exits goes reserved s code s₁) (hl : l ∈ goes)
    (s₀ : State) (a : Operand) :
    Reserving exits goes reserved s (code ++ [s₀.instr (.jumpIfFalse a l)]) s₁ :=
  h.instr s₀ _ rfl nofun (by rintro l ⟨⟩; exact hl)

/-- Code follows that jumps to labels of its own and where the code before it may jump. -/
theorem append {exits' : List Label} (h : Reserving exits goes reserved s code s₁)
    (h' : Labelled exits' s₁ code' s₂) (hl : ∀ l ∈ exits', l ∈ goes) :
    Reserving exits goes reserved s (code ++ code') s₂ where
  temps := Nat.le_trans h.temps h'.temps
  writes := by
    rw [writes_append]
    exact ⟨h.writes.mono (Nat.le_refl _) h'.temps, h'.writes.mono h.temps (Nat.le_refl _)⟩
  labels := Nat.le_trans h.labels h'.labels
  counts := by
    intro k
    have hle := h.labels
    have hle' := h'.labels
    have hk := h.counts k
    have hk' := h'.counts k
    rw [labelCount_append]
    omega
  locals := by rw [labelsIn_append, List.all_append, h.locals, h'.locals]; rfl
  targets := by
    rw [targets_append, labelsIn_append]
    constructor
    · refine h.targets.mono fun l hl => ?_
      simp only [List.mem_append] at hl ⊢
      tauto
    · refine h'.targets.mono fun l hl' => ?_
      have := hl l
      simp only [List.mem_append] at hl' ⊢
      tauto
  found := by
    intro l hl
    have := h.found l hl
    rw [labelsIn_append, List.mem_append]
    tauto

/-- The body of a loop follows. -/
theorem body {c : Context} {again after : Label} (h : Reserving exits goes reserved s code s₁)
    (h' : Labelled (c.inLoop again after).exits s₁ code' s₂) (hagain : again ∈ goes)
    (hafter : after ∈ goes) : Reserving exits goes reserved s (code ++ code') s₂ :=
  h.append h' (List.forall_mem_cons.2 ⟨hagain, List.forall_mem_singleton.2 hafter⟩)

theorem labelled (h : Reserving exits goes [] s code s₁) : Labelled exits s code s₁ where
  temps := h.temps
  writes := h.writes
  labels := h.labels
  counts := h.counts
  locals := h.locals
  targets := h.targets.mono fun l hl => by
    have := h.found l
    simp only [List.mem_append, List.map_nil, List.not_mem_nil, false_or] at this hl ⊢
    tauto

end Reserving

theorem Labelled.append {exits : List Label} {s s₁ s₂ : State} {code code' : List Instr}
    (h : Labelled exits s code s₁) (h' : Labelled exits s₁ code' s₂) :
    Labelled exits s (code ++ code') s₂ :=
  ((Reserving.of_labelled h).append h' fun _ => id).labelled

/-- Jumps in part of a piece of code go where jumps in the piece may go. -/
theorem Labelled.targets_of_subset {exits labels : List Label} {s s' : State}
    {code : List Instr} (h : Labelled exits s code s')
    (hl : ∀ l, l ∈ labelsIn code ∨ l ∈ exits → l ∈ labels) : Targets labels code :=
  h.targets.mono fun l h => hl l (List.mem_append.1 h)

mutual

theorem StmtCode.labelled (st : Stmt) : ∀ {c : Context} {s s' : State} {code : List Instr},
    StmtCode c s st code s' → Labelled c.exits s code s' := by
  intro c s s' code h
  -- Piece by piece along the code; the labels that were reserved stand in front of the exits in the
  -- list of the places to jump to, the last one first.
  cases h with
  | decl h => exact h.supplied.labelled_inLine c.exits
  | assign h => exact h.supplied.labelled_inLine c.exits
  | store h => exact h.supplied.labelled_inLine c.exits
  | function => exact ((Supplied.nil _).labelled_inLine c.exits)
  | print h => exact h.supplied.labelled_inLine c.exits
  | input =>
    exact Supplied.labelled_inLine (@Supplied.one _ (.input _ _) rfl rfl rfl) c.exits
  | call hf ha => exact (ha.supplied.append (.one rfl rfl rfl)).labelled_inLine c.exits
  | expr hc he => exact he.supplied.labelled_inLine c.exits
  | @cond _ _ s₁ _ loc e body test code a he hb =>
    have htest := (Reserving.of_labelled (he.supplied.labelled_inLine c.exits)).reserve.jumpIfFalse
      (.head _) s₁ a
    have hbody := htest.append (BlockCode.labelled body hb) fun _ => .tail _
    exact (hbody.place (.refl _) s').labelled
  | @branch _ _ s₁ s₂ _ loc e body orElse test code codeElse a he hb ho =>
    have htest := (Reserving.of_labelled (he.supplied.labelled_inLine
      c.exits)).reserve.reserve.jumpIfFalse (.head _) s₁ a
    have hbody := htest.append (BlockCode.labelled body hb) fun _ hl => .tail _ (.tail _ hl)
    have hleave := (hbody.jump (.tail _ (.head _)) s₂).place (.swap _ _ _) s₂
    have helse := hleave.append (BlockCode.labelled orElse ho) fun _ hl => .tail _ (.tail _ hl)
    exact (helse.place (.refl _) s').labelled
  | @«while» _ _ s₀ s₁ _ loc e body test code a h₀ he hb =>
    subst h₀
    have hstart := ((Reserving.start c.exits s).inLine loc.line).reserve.reserve.place (.refl _)
      (s.inLine loc.line)
    have htest := (hstart.append (he.supplied.labelled []) nofun).jumpIfFalse (.head _) s₁ a
    have hbody := htest.body (BlockCode.labelled body hb) (.tail _ (.head _)) (.head _)
    have hback := hbody.jump (.tail _ (.head _)) s'
    exact (hback.place (.refl _) s').labelled
  | @«repeat» _ _ s₁ s₂ s₃ loc count body counting code n he hb h₃ =>
    subst h₃
    have hround := BlockCode.labelled body hb
    have hcounting := he.supplied.labelled_inLine c.exits
    have hlimit := hcounting.append ((supplied_put_temp s₁ n).labelled _)
    have hcounter := hlimit.append ((supplied_put_temp s₁.nextTemp (indexConst 0)).labelled _)
    have hstart := (Reserving.of_labelled hcounter).reserve.reserve.reserve.place (.refl _) s₁
    have hmore := hstart.append ((@Supplied.fresh
      s₁.nextTemp.nextTemp.nextLabel.nextLabel.nextLabel (.binary s₁.nextTemp.nextTemp.temp .lt
      (.place s₁.nextTemp.temp) (.place s₁.temp)) rfl rfl rfl).labelled []) nofun
    have htest := hmore.jumpIfFalse (.head _) s₁ (.place s₁.nextTemp.nextTemp.temp)
    have hbody := (htest.body hround (.tail _ (.head _)) (.head _)).inLine loc.line
    have hnext := hbody.place (.refl _) (s₂.inLine loc.line)
    have hadvance := hnext.instr (s₂.inLine loc.line)
      (.binary s₁.nextTemp.temp .add (.place s₁.nextTemp.temp) (indexConst 1)) rfl
      (by
        rintro t ⟨⟩
        exact ⟨Nat.le_succ_of_le hcounting.temps, Nat.le_of_succ_le hround.temps⟩)
      nofun
    have hback := hadvance.jump (.tail _ (.tail _ (.head _))) (s₂.inLine loc.line)
    exact (hback.place (.refl _) (s₂.inLine loc.line)).labelled
  | @«for» _ _ s₁ s₂ s₃ s₄ s₅ s₆ loc init update e body first test code last a hi h₂ he hb h₅ hu =>
    subst h₂ h₅
    have hinit := (((Reserving.start c.exits s).inLine loc.line).append (StmtCode.labelled init hi)
      fun _ => id).inLine loc.line
    have hstart := hinit.reserve.reserve.reserve.place (.refl _) (s₁.inLine loc.line)
    have htest := (hstart.append (he.supplied.labelled []) nofun).jumpIfFalse (.head _) s₃ a
    have hbody := (htest.body (BlockCode.labelled body hb) (.tail _ (.head _)) (.head _)).inLine
      loc.line
    have hnext := hbody.place (.refl _) (s₄.inLine loc.line)
    have hupdate := (hnext.append (StmtCode.labelled update hu)
      fun _ hl => .tail _ (.tail _ (.tail _ hl))).inLine loc.line
    have hback := hupdate.jump (.tail _ (.tail _ (.head _))) (s₆.inLine loc.line)
    exact (hback.place (.refl _) (s₆.inLine loc.line)).labelled
  | «break» hl =>
    exact (((Reserving.start c.exits s).inLine _).jump (by simp [Context.exits, hl]) _).labelled
  | «continue» hl =>
    exact (((Reserving.start c.exits s).inLine _).jump (by simp [Context.exits, hl]) _).labelled
  | leave =>
    exact (((Reserving.start c.exits s).inLine _).instr _ (.return none) rfl nofun nofun).labelled
  | «return» he =>
    exact ((Reserving.of_labelled (he.supplied.labelled_inLine c.exits)).instr s' (.return (some _))
      rfl nofun nofun).labelled
termination_by structural st

theorem BlockCode.labelled (ss : List Stmt) : ∀ {c : Context} {s s' : State} {code : List Instr},
    BlockCode c s ss code s' → Labelled c.exits s code s' := by
  intro c s s' code h
  cases h with
  | nil => exact (Supplied.nil s).labelled _
  | cons hs hss => exact (StmtCode.labelled _ hs).append (BlockCode.labelled _ hss)
termination_by structural ss

end

/-! ### Programs -/

theorem TopCode.labelled {c : Context} {p : Program} {s s' : State} {code : List Instr}
    (h : TopCode c s p code s') : Labelled c.exits s code s' := by
  induction h with
  | nil => exact ((Reserving.start c.exits _).instr _ .halt rfl nofun nofun).labelled
  | function _ _ ih => exact ih
  | cons _ hs _ ih => exact (hs.labelled _).append ih

/-- The temporaries that the regions of functions write were supplied for them.  The labels in
them are one for every function, and those in their bodies. -/
structure RegionsLabelled (s : State) (p : Program) (codes : List Instr)
    (infos : List FunctionInfo) (s' : State) : Prop where
  temps : s.temps ≤ s'.temps
  writes : Writes s.temps s'.temps codes
  labels : s.labels ≤ s'.labels
  counts : ∀ k, labelCount codes k = 0 ∨
    s.labels ≤ k ∧ k < s'.labels ∧ labelCount codes k = 1
  entries : (labelsIn codes).filter (!·.isLocal) = infos.map (·.label)
  names : infos.map (·.label) = p.functionNames.map .function
  targets : Targets (labelsIn codes) codes

theorem RegionsCode.labelled {c : Context} {p : Program} {s s' : State} {codes : List Instr}
    {infos : List FunctionInfo} (h : RegionsCode c s p codes infos s') :
    RegionsLabelled s p codes infos s' := by
  induction h with
  | nil =>
    exact ⟨Nat.le_refl _, (fun i hi => by cases hi), Nat.le_refl _, fun k => .inl rfl, rfl, rfl,
      fun i hi => by cases hi⟩
  | @function s s₁ s₂ loc f returns params vars body rest code codes infos hp hb h ih =>
    have hb := BlockCode.labelled body hb
    have hbt := hb.temps
    have hbl := hb.labels
    have ht := ih.temps
    have hl := ih.labels
    simp only [State.inLine] at hbt hbl ht hl
    constructor
    · omega
    · simp only [writes_append, writes_singleton]
      refine ⟨⟨⟨nofun, hb.writes.mono (Nat.le_refl _) ht⟩, nofun⟩,
        ih.writes.mono hbt (Nat.le_refl _)⟩
    · omega
    · intro k
      have hk := hb.counts k
      have hk' := ih.counts k
      simp only [labelCount_append, labelCount_singleton, Op.label?, State.inLine,
        Option.some.injEq, reduceCtorEq, if_false] at hk hk' ⊢
      omega
    · have hnone : (labelsIn code).filter (!·.isLocal) = [] := by
        rw [List.filter_eq_nil_iff]
        intro l hl
        simpa using List.all_eq_true.1 hb.locals l hl
      simp only [labelsIn_append, labelsIn_singleton, List.filter_append, hnone, Op.label?,
        ih.entries]
      rfl
    · rw [List.map_cons, ih.names]
      rfl
    · simp only [targets_append, targets_singleton, labelsIn_append, labelsIn_singleton, Op.label?,
        Op.target?]
      refine ⟨⟨⟨?_, hb.targets_of_subset ?_⟩, ?_⟩, ih.targets.mono ?_⟩
      all_goals simp [Context.exits, Context.inFunction]; try grind
  | @other s s₁ st rest codes infos hf h ih =>
    refine ⟨ih.temps, ih.writes, ih.labels, ih.counts, ih.entries, ?_, ih.targets⟩
    rw [ih.names]
    cases st <;> first | rfl | cases hf

end Lowering

open Lowering

/-- The code of a program whose functions have distinct names is linked. -/
theorem Program.linked {p : Program} {infos : List FunctionInfo} {top regions : List Instr}
    {s₁ s₂ : State} (ht : TopCode p.context ⟨0, 0, 0⟩ p top s₁)
    (hr : RegionsCode p.context s₁ p regions infos s₂) (hn : p.functionNames.Nodup) :
    Linked infos (top ++ regions) := by
  have ht := ht.labelled
  have hr := hr.labelled
  refine ⟨List.nodup_iff_count.2 fun l => ?_, fun i hi l hl => ?_, fun f hf => ?_⟩
  · cases l with
    | «local» k =>
      have hk := ht.counts k
      have hk' := hr.counts k
      have hsum : (labelsIn (top ++ regions)).count (.local k) =
        labelCount top k + labelCount regions k := labelCount_append _ _ _
      omega
    | function f =>
      have htop : (labelsIn top).count (.function f) = 0 :=
        List.count_eq_zero.2 fun h => by cases List.all_eq_true.1 ht.locals _ h
      have hregions : (labelsIn regions).count (.function f) =
          (p.functionNames.map Label.function).count (.function f) := by
        rw [← hr.names, ← hr.entries, List.count_filter rfl]
      rw [labelsIn_append, List.count_append, htop, hregions, Nat.zero_add]
      refine List.nodup_iff_count.1 (List.Pairwise.map _ (fun f g hfg h => ?_) hn) _
      exact hfg (Label.function.inj h)
  · have htargets : Targets (labelsIn (top ++ regions)) (top ++ regions) := by
      rw [targets_append, labelsIn_append]
      refine ⟨ht.targets_of_subset fun l hl => ?_, hr.targets.mono fun l hl => ?_⟩
      · exact List.mem_append_left _ (hl.resolve_right (by simp [Context.exits, context]))
      · exact List.mem_append_right _ hl
    exact htargets i hi l hl
  · have hmem : f.label ∈ (labelsIn regions).filter (!·.isLocal) := by
      rw [hr.entries]
      exact List.mem_map_of_mem hf
    rw [labelsIn_append]
    exact List.mem_append_right _ (List.mem_filter.1 hmem).1

end NumericScript
