import NumericScript.Proofs.Lowering.Thrift

/-! # Lowered code is steady

A temporary that holds the value of a variable over a call is read by an operation whose other
operand contains the call, and what a call gives is never found to be constant.

* `HeldIn`, `MovingIn`: the temporaries of code that hold values over calls, and those whose
  values are never found to be constant.
* `Calms`: code that is calm where nothing else writes its temporaries.
* `ExprCode.calm`, `StmtCode.calms`: how the code of a part of a program uses temporaries.
* `Program.tidy`: the code of a program uses temporaries as the optimizer expects. -/

namespace NumericScript

/-- The temporaries into which variables are copied. -/
def HeldIn (code : List Instr) (t : Nat) : Prop :=
  ∃ i ∈ code, ∃ v, i.op = .copy (.temp t) (.place (.var v))

/-- The temporaries that are in some set of which all writers move.  This is the greatest set
of that kind. -/
def MovingIn (code : List Instr) (t : Nat) : Prop :=
  ∃ M : Nat → Prop, M t ∧ ∀ i ∈ code, ∀ u, i.op.tempWritten? = some u → M u → i.op.Moves M

theorem Op.Moves.mono {M M' : Nat → Prop} {op : Op} (h : op.Moves M) (hM : ∀ t, M t → M' t) :
    op.Moves M' := by
  cases op with
  | copy d s =>
    rcases h with h | ⟨t, hs, ht⟩
    · exact .inl h
    · exact .inr ⟨t, hs, hM t ht⟩
  | unary d f o =>
    obtain ⟨t, ho, ht⟩ := h
    exact ⟨t, ho, hM t ht⟩
  | binary d f l r =>
    obtain ⟨t, ho, ht⟩ := h
    exact ⟨t, ho, hM t ht⟩
  | assign d c => exact h
  | _ => exact trivial

theorem MovingIn.moves {code : List Instr} {t : Nat} (h : MovingIn code t) {i : Instr}
    (hi : i ∈ code) (ht : i.op.tempWritten? = some t) : i.op.Moves (MovingIn code) := by
  obtain ⟨M, hM, hclosed⟩ := h
  exact (hclosed i hi t ht hM).mono fun u hu => ⟨M, hu, hclosed⟩

/-- A temporary of which all writers move is among those that move. -/
theorem MovingIn.intro {code : List Instr} {t : Nat}
    (h : ∀ i ∈ code, i.op.tempWritten? = some t → i.op.Moves (MovingIn code)) :
    MovingIn code t := by
  refine ⟨fun u => u = t ∨ MovingIn code u, .inl rfl, fun i hi u hu hM => ?_⟩
  have hmoves : i.op.Moves (MovingIn code) := by
    rcases hM with rfl | hM
    · exact h i hi hu
    · exact hM.moves hi hu
  exact hmoves.mono fun u hu => .inr hu

/-- How an operation uses temporaries, but for where its result moves. -/
structure Op.Calm (held moving : Nat → Prop) (op : Op) : Prop where
  fresh : ∀ t, op.owes = some t → t ∉ op.tempsRead
  copied : ∀ d t, op = .copy d (.place (.temp t)) → ¬ held t
  factor : ∀ d f l r, op = .binary d f l r → f.isReducible = true →
    (∀ t, l = .place (.temp t) → held t → ∃ u, r = .place (.temp u) ∧ moving u) ∧
    ∀ t, r = .place (.temp t) → held t → ∃ u, l = .place (.temp u) ∧ moving u
  input : ∀ t ty, op ≠ .input (.temp t) ty

/-- What moves in code does so by definition. -/
theorem Op.Calm.steady {code : List Instr} {held : Nat → Prop} {i : Instr} (hi : i ∈ code)
    (h : i.op.Calm held (MovingIn code)) : i.op.Steady held (MovingIn code) :=
  ⟨h.fresh, h.copied, h.factor, fun _ ht hm => hm.moves hi ht, h.input⟩

/-- Whether an operation is calm whatever temporaries hold. -/
def Op.isPlain : Op → Bool
  | .copy _ _ | .binary _ _ _ _ | .unary _ _ _ | .input (.temp _) _ => false
  | _ => true

theorem Op.calm_of_isPlain {held moving : Nat → Prop} {op : Op} (h : op.isPlain = true) :
    op.Calm held moving where
  fresh := by cases op <;> first | (intro t ht; cases ht) | cases h
  copied := by rintro d t rfl; cases h
  factor := by rintro d f l r rfl; cases h
  input := by rintro t ty rfl; cases h

namespace Lowering

/-- Every instruction of `whole` that writes a temporary of a range is in `code`. -/
def Confined (whole : List Instr) (lo hi : Nat) (code : List Instr) : Prop :=
  ∀ i ∈ whole, ∀ t, i.op.tempWritten? = some t → lo ≤ t → t < hi → i ∈ code

variable {whole : List Instr}

/-- Code writes no temporary of a range. -/
def Avoids (lo hi : Nat) (code : List Instr) : Prop :=
  ∀ i ∈ code, ∀ t, i.op.tempWritten? = some t → t < lo ∨ hi ≤ t

@[simp] theorem avoids_singleton {lo hi : Nat} {s : State} {op : Op} :
    Avoids lo hi [s.instr op] ↔ ∀ t, op.tempWritten? = some t → t < lo ∨ hi ≤ t := by
  simp [Avoids, State.instr]

@[simp] theorem avoids_append {lo hi : Nat} {code code' : List Instr} :
    Avoids lo hi (code ++ code') ↔ Avoids lo hi code ∧ Avoids lo hi code' :=
  List.forall_mem_append

theorem Writes.avoids {lo hi lo' hi' : Nat} {code : List Instr} (h : Writes lo hi code)
    (hd : hi ≤ lo' ∨ hi' ≤ lo) : Avoids lo' hi' code := by
  intro i hi t ht
  have := h i hi t ht
  omega

theorem Confined.narrow {lo hi lo' hi' : Nat} {code : List Instr} (h : Confined whole lo hi code)
    (hlo : lo ≤ lo') (hhi : hi' ≤ hi) : Confined whole lo' hi' code :=
  fun i hi t ht h₁ h₂ => h i hi t ht (Nat.le_trans hlo h₁) (Nat.lt_of_lt_of_le h₂ hhi)

theorem Confined.left {lo hi : Nat} {code code' : List Instr}
    (h : Confined whole lo hi (code ++ code')) (hc : Avoids lo hi code') :
    Confined whole lo hi code := by
  intro i hi t ht hlo hlt
  rcases List.mem_append.1 (h i hi t ht hlo hlt) with hi' | hi'
  · exact hi'
  · have := hc i hi' t ht
    omega

theorem Confined.right {lo hi : Nat} {code code' : List Instr}
    (h : Confined whole lo hi (code ++ code')) (hc : Avoids lo hi code) :
    Confined whole lo hi code' := by
  intro i hi t ht hlo hlt
  rcases List.mem_append.1 (h i hi t ht hlo hlt) with hi' | hi'
  · have := hc i hi' t ht
    omega
  · exact hi'

/-- The only writer of a temporary. -/
theorem Confined.eq {s : State} {op : Op}
    (h : Confined whole s.temps s.nextTemp.temps [s.instr op]) {i : Instr} (hi : i ∈ whole)
    (ht : i.op.tempWritten? = some s.temps) : i = s.instr op :=
  List.mem_singleton.1 (h i hi _ ht (Nat.le_refl _) (Nat.lt_succ_self _))

theorem Confined.moving {s : State} {op : Op}
    (h : Confined whole s.temps s.nextTemp.temps [s.instr op]) (hm : op.Moves (MovingIn whole)) :
    MovingIn whole s.temps := by
  refine .intro fun i hi ht => ?_
  rw [h.eq hi ht]
  exact hm

theorem Confined.not_held {s : State} {op : Op}
    (h : Confined whole s.temps s.nextTemp.temps [s.instr op])
    (hop : ∀ v, op ≠ .copy s.temp (.place (.var v))) : ¬ HeldIn whole s.temps := by
  rintro ⟨i, hi, v, hv⟩
  have he := h.eq hi (by rw [hv]; rfl)
  rw [he] at hv
  exact hop v hv

theorem Confined.split {s s₁ s₂ : State} {code code' : List Instr}
    (h : Confined whole s.temps s₂.temps (code ++ code')) (h₁ : Supplied s code s₁)
    (h₂ : Supplied s₁ code' s₂) :
    Confined whole s.temps s₁.temps code ∧ Confined whole s₁.temps s₂.temps code' :=
  ⟨(h.narrow (Nat.le_refl _) h₂.temps).left (h₂.writes.avoids (.inr (Nat.le_refl _))),
    (h.narrow h₁.temps (Nat.le_refl _)).right (h₁.writes.avoids (.inl (Nat.le_refl _)))⟩

/-- All operations of a piece of code are calm. -/
def AreCalm (whole code : List Instr) : Prop :=
  ∀ i ∈ code, i.op.Calm (HeldIn whole) (MovingIn whole)

@[simp] theorem areCalm_append {code code' : List Instr} :
    AreCalm whole (code ++ code') ↔ AreCalm whole code ∧ AreCalm whole code' :=
  List.forall_mem_append

@[simp] theorem areCalm_singleton {s : State} {op : Op} :
    AreCalm whole [s.instr op] ↔ op.Calm (HeldIn whole) (MovingIn whole) := by
  simp [AreCalm, State.instr]

theorem areCalm_nil : AreCalm whole [] := fun i hi => by cases hi

theorem areCalm_of_isPlain {s : State} {op : Op} (h : op.isPlain = true) :
    AreCalm whole [s.instr op] := areCalm_singleton.2 (Op.calm_of_isPlain h)

/-- An operand that holds no value over a call, and that moves if `calls`. -/
structure Settled (whole : List Instr) (calls : Bool) (a : Operand) : Prop where
  free : ∀ t, a = .place (.temp t) → ¬ HeldIn whole t
  moving : calls = true → ∃ t, a = .place (.temp t) ∧ MovingIn whole t

theorem settled_of_not_temp {a : Operand} (h : ∀ t, a ≠ .place (.temp t)) :
    Settled whole false a :=
  ⟨fun t ht => absurd ht (h t), fun hc => absurd hc Bool.false_ne_true⟩

/-- The temporary that a new operation writes. -/
theorem Confined.settled {s : State} {op : Op} {calls : Bool}
    (h : Confined whole s.temps s.nextTemp.temps [s.instr op])
    (hop : ∀ v, op ≠ .copy s.temp (.place (.var v)))
    (hm : calls = true → op.Moves (MovingIn whole)) :
    Settled whole calls (.place s.temp) where
  free := by
    rintro t ⟨⟩
    exact h.not_held hop
  moving := fun hc => ⟨s.temps, rfl, h.moving (hm hc)⟩

/-- An operand that was supplied before is not the one that is written. -/
theorem Before.not_mem {s : State} {a : Operand} (h : Before s a) :
    Op.operandTemp? a ≠ some s.temps := by
  intro ha
  cases a with
  | place p =>
    cases p with
    | temp t =>
      cases ha
      exact absurd (h _ rfl) (Nat.lt_irrefl _)
    | var v => cases ha
  | _ => cases ha

theorem calm_unary {s : State} {f : UnaryFn} {a : Operand} (ha : Before s a) :
    (Op.unary s.temp f a).Calm (HeldIn whole) (MovingIn whole) where
  fresh := by
    rintro t ⟨⟩ ht
    simp only [Op.tempsRead, Op.operands, List.nil_append, List.mem_filterMap,
      List.mem_singleton] at ht
    obtain ⟨o, rfl, ho⟩ := ht
    exact ha.not_mem ho
  copied := nofun
  factor := fun _ _ _ _ h => nomatch h
  input := nofun

theorem calm_binary {s : State} {f : BinaryOp} {a b : Operand} (ha : Before s a)
    (hb : Before s b)
    (hl : ∀ t, a = .place (.temp t) → HeldIn whole t →
      ∃ u, b = .place (.temp u) ∧ MovingIn whole u)
    (hr : ∀ t, b = .place (.temp t) → ¬ HeldIn whole t) :
    (Op.binary s.temp f a b).Calm (HeldIn whole) (MovingIn whole) where
  fresh := by
    intro t ht hread
    have : t = s.temps := by
      have := Op.tempWritten?_of_owes ht
      cases this
      rfl
    subst this
    simp only [Op.tempsRead, Op.operands, List.nil_append, List.mem_filterMap,
      List.mem_cons, List.not_mem_nil, or_false] at hread
    obtain ⟨o, rfl | rfl, ho⟩ := hread
    · exact ha.not_mem ho
    · exact hb.not_mem ho
  copied := nofun
  factor := by
    rintro d f l r ⟨⟩ -
    exact ⟨hl, fun t ht h => absurd h (hr t ht)⟩
  input := nofun

/-- A copy of what is no temporary that holds a value. -/
theorem calm_copy {d : Place} {a : Operand} (hd : ∀ t, d = .temp t → Op.operandTemp? a ≠ some t)
    (ha : ∀ t, a = .place (.temp t) → ¬ HeldIn whole t) :
    (Op.copy d a).Calm (HeldIn whole) (MovingIn whole) where
  fresh := by
    intro t ht hread
    simp only [Op.tempsRead, Op.operands, List.nil_append, List.mem_filterMap,
      List.mem_singleton] at hread
    obtain ⟨o, rfl, ho⟩ := hread
    cases d with
    | temp u => cases ht; exact hd _ rfl ho
    | var v => cases ht
  copied := by
    rintro d t ⟨⟩
    exact ha t rfl
  factor := fun _ _ _ _ h => nomatch h
  input := nofun

/-- What becomes of an operand that may be kept in a temporary. -/
theorem Pins.calm {changes calls : Bool} {s s' : State} {a a' : Operand} {code : List Instr}
    (h : Pins changes s a code a' s') (ha : Settled whole calls a) :
    AreCalm whole code ∧ (∀ t, a' = .place (.temp t) → HeldIn whole t → changes = true) ∧
      (calls = true → ∃ t, a' = .place (.temp t) ∧ MovingIn whole t) := by
  cases h with
  | keep => exact ⟨areCalm_nil, fun t ht h => absurd h (ha.free t ht), ha.moving⟩
  | pin hc =>
    refine ⟨areCalm_singleton.2 (calm_copy ?_ nofun), fun _ _ _ => hc, fun h => ?_⟩
    · exact fun t _ => nofun
    · obtain ⟨t, ht, -⟩ := ha.moving h
      cases ht

theorem Widens.calm {found expected : Ty} {calls : Bool} {s s' : State} {a a' : Operand}
    {code : List Instr} (h : Widens s found expected a code a' s') (hb : Before s a)
    (ha : Settled whole calls a) (hc : Confined whole s.temps s'.temps code) :
    AreCalm whole code ∧ ∀ t, a' = .place (.temp t) → ¬ HeldIn whole t := by
  cases h with
  | same => exact ⟨areCalm_nil, ha.free⟩
  | const => exact ⟨areCalm_nil, nofun⟩
  | widen =>
    refine ⟨areCalm_singleton.2 (calm_unary hb), ?_⟩
    rintro t ⟨⟩
    exact hc.not_held nofun

theorem supplied_param (s : State) (a : Operand) : Supplied s [s.instr (.param a)] s :=
  .one rfl rfl rfl

theorem supplied_store (s : State) (p : Place) (row : Operand) (col : Option Operand)
    (a : Operand) : Supplied s [s.instr (.store p row col a)] s := .one rfl rfl rfl

mutual

theorem ExprCode.calm {c : Context} (e : Expr) : ∀ {s s' : State} {code : List Instr}
    {a : Operand}, ExprCode c s e code a s' → Confined whole s.temps s'.temps code →
    AreCalm whole code ∧ Settled whole (calls e) a := by
  intro s s' code a h hw
  cases h with
  | int | float | str | bool | name => exact ⟨areCalm_nil, settled_of_not_temp nofun⟩
  | @binary _ s₁ s₂ s₃ m op l r left keep right a a' b hl hk hr =>
    have hop : Supplied s₃ [s₃.instr (.binary s₃.temp op a' b)] s₃.nextTemp := .fresh rfl rfl rfl
    obtain ⟨hw, hwo⟩ := hw.split ((hl.supplied.append hk.supplied).append hr.supplied) hop
    obtain ⟨hw, hwr⟩ := hw.split (hl.supplied.append hk.supplied) hr.supplied
    obtain ⟨hcl, hsl⟩ := ExprCode.calm l hl (hw.split hl.supplied hk.supplied).1
    obtain ⟨hcr, hsr⟩ := ExprCode.calm r hr hwr
    obtain ⟨hck, hheld, hmoving⟩ := hk.calm hsl
    have hb := (hk.before hl.before).mono hr.supplied.temps
    simp only [areCalm_append, areCalm_singleton]
    refine ⟨⟨⟨⟨hcl, hck⟩, hcr⟩, calm_binary hb hr.before (fun t ht h => ?_) hsr.free⟩,
      hwo.settled nofun fun hcalls => ?_⟩
    · exact hsr.moving (hheld t ht h)
    · rcases Bool.or_eq_true_iff.1 hcalls with h | h
      · obtain ⟨t, ht, hm⟩ := hmoving h
        exact ⟨t, .inl ht, hm⟩
      · obtain ⟨t, ht, hm⟩ := hsr.moving h
        exact ⟨t, .inr ht, hm⟩
  | @unary _ s₁ m op e code a he =>
    have hop : Supplied s₁ [s₁.instr (.unary s₁.temp op.fn a)] s₁.nextTemp := .fresh rfl rfl rfl
    obtain ⟨hw, hwo⟩ := hw.split he.supplied hop
    obtain ⟨hce, hse⟩ := ExprCode.calm e he hw
    simp only [areCalm_append, areCalm_singleton]
    refine ⟨⟨hce, calm_unary he.before⟩, hwo.settled nofun fun hcalls => ?_⟩
    exact hse.moving hcalls
  | @call _ s₁ m f args target params returns passing hf ha hv =>
    have hcall : Supplied s₁ [s₁.instr (.call target args.length)] s₁ := .one rfl rfl rfl
    have htake : Supplied s₁ [s₁.instr (.copy s₁.temp .returned)] s₁.nextTemp :=
      .fresh rfl rfl rfl
    obtain ⟨hw, hwt⟩ := hw.split (ha.supplied.append hcall) htake
    have hca := ArgumentsCode.calm args ha (hw.split ha.supplied hcall).1
    simp only [areCalm_append]
    refine ⟨⟨⟨hca, areCalm_of_isPlain rfl⟩, areCalm_singleton.2 (calm_copy ?_ nofun)⟩,
      hwt.settled nofun fun _ => .inl rfl⟩
    exact fun t _ => nofun
  | @array _ _ m items fill hi =>
    have hop : Supplied s [s.instr (.newArray s.temp items.length)] s.nextTemp :=
      .fresh rfl rfl rfl
    obtain ⟨hwo, hw⟩ := hw.split hop hi.supplied
    simp only [areCalm_append]
    exact ⟨⟨areCalm_of_isPlain rfl, ElementsCode.calm items hi hw⟩,
      hwo.settled nofun fun _ => trivial⟩
  | @matrix _ _ m rows fill hi =>
    have hop : Supplied s [s.instr (.newMatrix s.temp rows.length (rows.headD []).length)]
      s.nextTemp := .fresh rfl rfl rfl
    obtain ⟨hwo, hw⟩ := hw.split hop hi.supplied
    simp only [areCalm_append]
    exact ⟨⟨areCalm_of_isPlain rfl, RowsCode.calm rows hi hw⟩,
      hwo.settled nofun fun _ => trivial⟩
  | @element _ s₁ s₂ s₃ m base row first keep second b b' i hb hk hr =>
    have hop : Supplied s₃ [s₃.instr (.load s₃.temp b' i none)] s₃.nextTemp := .fresh rfl rfl rfl
    obtain ⟨hw, hwo⟩ := hw.split ((hb.supplied.append hk.supplied).append hr.supplied) hop
    obtain ⟨hw, hwr⟩ := hw.split (hb.supplied.append hk.supplied) hr.supplied
    obtain ⟨hcb, hsb⟩ := ExprCode.calm base hb (hw.split hb.supplied hk.supplied).1
    obtain ⟨hcr, -⟩ := ExprCode.calm row hr hwr
    simp only [areCalm_append]
    exact ⟨⟨⟨⟨hcb, (hk.calm hsb).1⟩, hcr⟩, areCalm_of_isPlain rfl⟩,
      hwo.settled nofun fun _ => trivial⟩
  | @entry _ s₁ s₂ s₃ s₄ s₅ m base row col first keep second keepRow third b b' i i' j hb hk hr
      hkr hc =>
    have hop : Supplied s₅ [s₅.instr (.load s₅.temp b' i' (some j))] s₅.nextTemp :=
      .fresh rfl rfl rfl
    obtain ⟨hw, hwo⟩ := hw.split ((((hb.supplied.append hk.supplied).append hr.supplied).append
      hkr.supplied).append hc.supplied) hop
    obtain ⟨hw, hwc⟩ := hw.split (((hb.supplied.append hk.supplied).append hr.supplied).append
      hkr.supplied) hc.supplied
    obtain ⟨hw, -⟩ := hw.split ((hb.supplied.append hk.supplied).append hr.supplied) hkr.supplied
    obtain ⟨hw, hwr⟩ := hw.split (hb.supplied.append hk.supplied) hr.supplied
    obtain ⟨hcb, hsb⟩ := ExprCode.calm base hb (hw.split hb.supplied hk.supplied).1
    obtain ⟨hcr, hsr⟩ := ExprCode.calm row hr hwr
    obtain ⟨hcc, -⟩ := ExprCode.calm col hc hwc
    simp only [areCalm_append]
    exact ⟨⟨⟨⟨⟨⟨hcb, (hk.calm hsb).1⟩, hcr⟩, (hkr.calm hsr).1⟩, hcc⟩, areCalm_of_isPlain rfl⟩,
      hwo.settled nofun fun _ => trivial⟩
termination_by structural e

theorem ArgumentsCode.calm {c : Context} (es : List Expr) : ∀ {params : List Ty}
    {s s' : State} {code : List Instr}, ArgumentsCode c s params es code s' →
    Confined whole s.temps s'.temps code → AreCalm whole code := by
  intro params s s' code h hw
  cases h with
  | nil => exact areCalm_nil
  | @cons _ s₁ _ _ e es _ _ a he hes =>
    cases he with
    | mk he hx =>
      have hop := supplied_param s₁ a
      obtain ⟨hw, hws⟩ := hw.split ((he.supplied.append hx.supplied).append hop) hes.supplied
      obtain ⟨hw, -⟩ := hw.split (he.supplied.append hx.supplied) hop
      obtain ⟨hw, hwx⟩ := hw.split he.supplied hx.supplied
      obtain ⟨hce, hse⟩ := ExprCode.calm e he hw
      simp only [areCalm_append]
      exact ⟨⟨⟨hce, (hx.calm he.before hse hwx).1⟩, areCalm_of_isPlain rfl⟩,
        ArgumentsCode.calm es hes hws⟩
termination_by structural es

theorem ElementsCode.calm {c : Context} (es : List Expr) : ∀ {array : Place} {element : Ty}
    {k : Nat} {s s' : State} {code : List Instr}, ElementsCode c array element s k es code s' →
    Confined whole s.temps s'.temps code → AreCalm whole code := by
  intro array element k s s' code h hw
  cases h with
  | nil => exact areCalm_nil
  | @cons _ _ _ s₁ _ _ e es _ _ a he hes =>
    cases he with
    | mk he hx =>
      have hop := supplied_store s₁ array (indexConst k) none a
      obtain ⟨hw, hws⟩ := hw.split ((he.supplied.append hx.supplied).append hop) hes.supplied
      obtain ⟨hw, -⟩ := hw.split (he.supplied.append hx.supplied) hop
      obtain ⟨hw, hwx⟩ := hw.split he.supplied hx.supplied
      obtain ⟨hce, hse⟩ := ExprCode.calm e he hw
      simp only [areCalm_append]
      exact ⟨⟨⟨hce, (hx.calm he.before hse hwx).1⟩, areCalm_of_isPlain rfl⟩,
        ElementsCode.calm es hes hws⟩
termination_by structural es

theorem EntriesCode.calm {c : Context} (es : List Expr) : ∀ {matrix : Place} {row k : Nat}
    {s s' : State} {code : List Instr}, EntriesCode c matrix row s k es code s' →
    Confined whole s.temps s'.temps code → AreCalm whole code := by
  intro matrix row k s s' code h hw
  cases h with
  | nil => exact areCalm_nil
  | @cons _ _ _ s₁ _ _ e es _ _ a he hes =>
    cases he with
    | mk he hx =>
      have hop := supplied_store s₁ matrix (indexConst row) (some (indexConst k)) a
      obtain ⟨hw, hws⟩ := hw.split ((he.supplied.append hx.supplied).append hop) hes.supplied
      obtain ⟨hw, -⟩ := hw.split (he.supplied.append hx.supplied) hop
      obtain ⟨hw, hwx⟩ := hw.split he.supplied hx.supplied
      obtain ⟨hce, hse⟩ := ExprCode.calm e he hw
      simp only [areCalm_append]
      exact ⟨⟨⟨hce, (hx.calm he.before hse hwx).1⟩, areCalm_of_isPlain rfl⟩,
        EntriesCode.calm es hes hws⟩
termination_by structural es

theorem RowsCode.calm {c : Context} (rows : List (List Expr)) : ∀ {matrix : Place} {k : Nat}
    {s s' : State} {code : List Instr}, RowsCode c matrix s k rows code s' →
    Confined whole s.temps s'.temps code → AreCalm whole code := by
  intro matrix k s s' code h hw
  cases h with
  | nil => exact areCalm_nil
  | cons he hes =>
    obtain ⟨hw, hws⟩ := hw.split he.supplied hes.supplied
    exact areCalm_append.2 ⟨EntriesCode.calm _ he hw, RowsCode.calm _ hes hws⟩
termination_by structural rows

end

theorem WidenedCode.calm {c : Context} {e : Expr} {expected : Ty} {s s' : State}
    {code : List Instr} {a : Operand} (h : WidenedCode c s e expected code a s')
    (hw : Confined whole s.temps s'.temps code) :
    AreCalm whole code ∧ ∀ t, a = .place (.temp t) → ¬ HeldIn whole t := by
  cases h with
  | mk he hx =>
    obtain ⟨hw, hwx⟩ := hw.split he.supplied hx.supplied
    obtain ⟨hce, hse⟩ := he.calm _ hw
    obtain ⟨hcx, hfree⟩ := hx.calm he.before hse hwx
    exact ⟨areCalm_append.2 ⟨hce, hcx⟩, hfree⟩

theorem PrintsCode.calm {c : Context} {es : List Expr} {s s' : State} {code : List Instr}
    (h : PrintsCode c s es code s') (hw : Confined whole s.temps s'.temps code) :
    AreCalm whole code := by
  induction h with
  | nil => exact areCalm_nil
  | @cons _ s₁ _ e es code rest a he hes ih =>
    have hop : Supplied s₁ [s₁.instr (.print a es.isEmpty)] s₁ := .one rfl rfl rfl
    obtain ⟨hw, hws⟩ := hw.split (he.supplied.append hop) hes.supplied
    simp only [areCalm_append]
    exact ⟨⟨(he.calm _ (hw.split he.supplied hop).1).1, areCalm_of_isPlain rfl⟩, ih hws⟩

/-- An operand that is put into a variable. -/
theorem areCalm_put {s : State} {v : Variable} {a : Operand}
    (ha : ∀ t, a = .place (.temp t) → ¬ HeldIn whole t) :
    AreCalm whole [s.instr (put (.var v) a)] := by
  cases a with
  | const n => exact areCalm_of_isPlain rfl
  | _ => exact areCalm_singleton.2 (calm_copy nofun ha)

theorem VariableCode.calm {c : Context} {x : Name} {e : Expr} {s s' : State}
    {code : List Instr} (h : VariableCode c s x e code s')
    (hw : Confined whole s.temps s'.temps code) : AreCalm whole code := by
  cases h with
  | mk hb he =>
    obtain ⟨hce, hfree⟩ := he.calm (hw.split he.supplied (supplied_put _ _ _)).1
    exact areCalm_append.2 ⟨hce, areCalm_put hfree⟩

theorem ElementCode.calm {c : Context} {x : Name} {sub : Subscript} {e : Expr} {s s' : State}
    {code : List Instr} (h : ElementCode c s x sub e code s')
    (hw : Confined whole s.temps s'.temps code) : AreCalm whole code := by
  cases h with
  | @element _ s₁ s₂ _ b row _ first keep code i i' a hb hr hk he =>
    obtain ⟨hw, -⟩ := hw.split ((hr.supplied.append hk.supplied).append he.supplied)
      (supplied_store _ _ _ _ _)
    obtain ⟨hw, hwe⟩ := hw.split (hr.supplied.append hk.supplied) he.supplied
    obtain ⟨hcr, hsr⟩ := hr.calm _ (hw.split hr.supplied hk.supplied).1
    simp only [areCalm_append]
    exact ⟨⟨⟨hcr, (hk.calm hsr).1⟩, (he.calm hwe).1⟩, areCalm_of_isPlain rfl⟩
  | @entry _ s₁ s₂ s₃ s₄ _ b row col _ first keep second keepCol code i i' j j' a hb hr hk hc
      hkc he =>
    obtain ⟨hw, -⟩ := hw.split (((hr.supplied.append hk.supplied).append
      (hc.supplied.append hkc.supplied)).append he.supplied) (supplied_store _ _ _ _ _)
    obtain ⟨hw, hwe⟩ := hw.split ((hr.supplied.append hk.supplied).append
      (hc.supplied.append hkc.supplied)) he.supplied
    obtain ⟨hw, hwc⟩ := hw.split (hr.supplied.append hk.supplied)
      (hc.supplied.append hkc.supplied)
    obtain ⟨hcr, hsr⟩ := hr.calm _ (hw.split hr.supplied hk.supplied).1
    obtain ⟨hcc, hsc⟩ := hc.calm _ (hwc.split hc.supplied hkc.supplied).1
    simp only [areCalm_append]
    exact ⟨⟨⟨⟨hcr, (hk.calm hsr).1⟩, hcc, (hkc.calm hsc).1⟩, (he.calm hwe).1⟩,
      areCalm_of_isPlain rfl⟩

/-! ### Statements -/

/-- An operator without cheaper forms may be applied to any temporary. -/
theorem calm_binary_of_not_isReducible {d : Place} {f : BinaryOp} {a b : Operand}
    (hf : f.isReducible = false)
    (hd : ∀ t, (Op.binary d f a b).owes = some t → t ∉ (Op.binary d f a b).tempsRead) :
    (Op.binary d f a b).Calm (HeldIn whole) (MovingIn whole) where
  fresh := hd
  copied := nofun
  factor := by
    rintro _ _ _ _ ⟨⟩ h
    rw [hf] at h
    cases h
  input := nofun

/-- The operand that is put into a new temporary. -/
theorem areCalm_put_temp {s : State} {a : Operand} (hb : Before s a)
    (ha : ∀ t, a = .place (.temp t) → ¬ HeldIn whole t) :
    AreCalm whole [s.instr (put s.temp a)] := by
  cases a with
  | const n => exact areCalm_of_isPlain rfl
  | _ =>
    refine areCalm_singleton.2 (calm_copy ?_ ha)
    rintro t ⟨⟩
    exact hb.not_mem

/-- Code writes temporaries of a range, and it is calm where nothing else writes them. -/
structure Calms (whole : List Instr) (lo : Nat) (code : List Instr) (hi : Nat) : Prop where
  le : lo ≤ hi
  writes : Writes lo hi code
  calm : Confined whole lo hi code → AreCalm whole code

namespace Calms

variable {lo mid mid' hi : Nat} {code code' around around' : List Instr}

theorem of_supplied {s s' : State} (h : Supplied s code s')
    (hc : Confined whole s.temps s'.temps code → AreCalm whole code) :
    Calms whole s.temps code s'.temps :=
  ⟨h.temps, h.writes, hc⟩

theorem nil (n : Nat) : Calms whole n [] n :=
  ⟨Nat.le_refl n, fun _ hi => (nomatch hi), fun _ => areCalm_nil⟩

theorem append (h : Calms whole lo code mid) (h' : Calms whole mid code' hi) :
    Calms whole lo (code ++ code') hi where
  le := Nat.le_trans h.le h'.le
  writes := writes_append.2
    ⟨h.writes.mono (Nat.le_refl lo) h'.le, h'.writes.mono h.le (Nat.le_refl hi)⟩
  calm := fun hw => areCalm_append.2
    ⟨h.calm ((hw.narrow (Nat.le_refl lo) h'.le).left (h'.writes.avoids (.inr (Nat.le_refl mid)))),
      h'.calm ((hw.narrow h.le (Nat.le_refl hi)).right
        (h.writes.avoids (.inl (Nat.le_refl mid))))⟩

/-- Code around the second of two pieces that is calm anyway, and writes temporaries between
theirs. -/
theorem enclose (h : Calms whole lo code mid) (h' : Calms whole mid' code' hi) (hle : mid ≤ mid')
    (ha : AreCalm whole around) (hw : Writes mid mid' around) (ha' : AreCalm whole around')
    (hw' : Writes mid mid' around') :
    Calms whole lo (code ++ around ++ code' ++ around') hi where
  le := Nat.le_trans h.le (Nat.le_trans hle h'.le)
  writes := by
    simp only [writes_append]
    exact ⟨⟨⟨h.writes.mono (Nat.le_refl lo) (Nat.le_trans hle h'.le), hw.mono h.le h'.le⟩,
      h'.writes.mono (Nat.le_trans h.le hle) (Nat.le_refl hi)⟩, hw'.mono h.le h'.le⟩
  calm := by
    intro hc
    have hfirst := (((hc.narrow (Nat.le_refl lo) (Nat.le_trans hle h'.le)).left
      (hw'.avoids (.inr (Nat.le_refl mid)))).left (h'.writes.avoids (.inr hle))).left
      (hw.avoids (.inr (Nat.le_refl mid)))
    have hsecond := ((hc.narrow (Nat.le_trans h.le hle) (Nat.le_refl hi)).left
      (hw'.avoids (.inl (Nat.le_refl mid')))).right
      (avoids_append.2 ⟨h.writes.avoids (.inl hle), hw.avoids (.inl (Nat.le_refl mid'))⟩)
    simp only [areCalm_append]
    exact ⟨⟨⟨h.calm hfirst, ha⟩, h'.calm hsecond⟩, ha'⟩

/-- An operation that writes no temporary and is calm whatever temporaries hold. -/
theorem of_isPlain {n : Nat} {s : State} {op : Op} (hop : op.isPlain = true)
    (ht : op.tempWritten? = none) : Calms whole n [s.instr op] n where
  le := Nat.le_refl n
  writes := writes_of_none ht
  calm := fun _ => areCalm_of_isPlain hop

theorem plain {s : State} {op : Op} (h : Calms whole lo code hi) (hop : op.isPlain = true)
    (ht : op.tempWritten? = none) : Calms whole lo (code ++ [s.instr op]) hi :=
  h.append (of_isPlain hop ht)

end Calms

/-- The temporary of the limit of a loop is written behind the code of the number of rounds. -/
theorem calms_limit {c : Context} {count : Expr} {s s₁ : State} {counting : List Instr}
    {n : Operand} (h : ExprCode c s count counting n s₁) :
    Calms whole s.temps (counting ++ [s₁.instr (put s₁.temp n)]) (s₁.temps + 1) :=
  .of_supplied (h.supplied.append (supplied_put_temp s₁ n)) fun hw =>
    have ⟨hcode, hn⟩ := h.calm _ (hw.split h.supplied (supplied_put_temp s₁ n)).1
    areCalm_append.2 ⟨hcode, areCalm_put_temp h.before hn.free⟩

/-- What stands before the body of a loop over a number of rounds: the counter is set, and
compared with the limit. -/
theorem areCalm_before_round (s : State) (start after : Label) :
    let code := [s.instr (put s.nextTemp.temp (indexConst 0))] ++ [s.instr (.label start)] ++
      [s.instr (.binary s.nextTemp.nextTemp.temp .lt (.place s.nextTemp.temp) (.place s.temp))] ++
      [s.instr (.jumpIfFalse (.place s.nextTemp.nextTemp.temp) after)]
    AreCalm whole code ∧ Writes (s.temps + 1) (s.temps + 3) code := by
  have hask : (Op.binary s.nextTemp.nextTemp.temp .lt (.place s.nextTemp.temp)
      (.place s.temp)).Calm (HeldIn whole) (MovingIn whole) :=
    calm_binary_of_not_isReducible rfl (by
      rintro t ⟨⟩
      simp [Op.tempsRead, Op.operands, Op.operandTemp?, State.temp, State.nextTemp]
      omega)
  simp only [areCalm_append, writes_append]
  refine ⟨⟨⟨⟨areCalm_of_isPlain rfl, areCalm_of_isPlain rfl⟩, areCalm_singleton.2 hask⟩,
    areCalm_of_isPlain rfl⟩, ?_⟩
  have hcounter : s.temps + 1 < s.temps + 3 := by omega
  exact ⟨⟨⟨writes_of_some rfl (Nat.le_refl _) hcounter, writes_of_none rfl⟩,
    writes_of_some rfl (Nat.le_succ _) (Nat.lt_succ_self _)⟩, writes_of_none rfl⟩

/-- What stands behind the body: the round is counted. -/
theorem areCalm_after_round (s s₁ : State) (start again after : Label) :
    let code := [s.instr (.label again)] ++
      [s.instr (.binary s₁.nextTemp.temp .add (.place s₁.nextTemp.temp) (indexConst 1))] ++
      [s.instr (.jump start)] ++ [s.instr (.label after)]
    AreCalm whole code ∧ Writes (s₁.temps + 1) (s₁.temps + 3) code := by
  have hadd : (Op.binary s₁.nextTemp.temp .add (.place s₁.nextTemp.temp) (indexConst 1)).Calm
      (HeldIn whole) (MovingIn whole) :=
    calm_binary_of_not_isReducible rfl fun _ ht => by cases ht
  simp only [areCalm_append, writes_append]
  refine ⟨⟨⟨⟨areCalm_of_isPlain rfl, areCalm_singleton.2 hadd⟩, areCalm_of_isPlain rfl⟩,
    areCalm_of_isPlain rfl⟩, ?_⟩
  have hcounter : s₁.temps + 1 < s₁.temps + 3 := by omega
  exact ⟨⟨⟨writes_of_none rfl, writes_of_some rfl (Nat.le_refl _) hcounter⟩, writes_of_none rfl⟩,
    writes_of_none rfl⟩

theorem ExprCode.calms {c : Context} {e : Expr} {s s' : State} {code : List Instr} {a : Operand}
    (h : ExprCode c s e code a s') : Calms whole s.temps code s'.temps :=
  .of_supplied h.supplied fun hw => (h.calm e hw).1

mutual

theorem StmtCode.calms (st : Stmt) : ∀ {c : Context} {s s' : State} {code : List Instr},
    StmtCode c s st code s' → Calms whole s.temps code s'.temps := by
  intro c s s' code h
  cases h with
  | decl h => exact (Calms.of_supplied h.supplied h.calm :)
  | assign h => exact (Calms.of_supplied h.supplied h.calm :)
  | store h => exact (Calms.of_supplied h.supplied h.calm :)
  | function => exact .nil s.temps
  | cond he hb =>
    have hbody := BlockCode.calms _ hb
    exact ((he.calms.plain rfl rfl).append hbody).plain rfl rfl
  | branch he hb ho =>
    have hbody := BlockCode.calms _ hb
    have helse := BlockCode.calms _ ho
    exact (((((he.calms.plain rfl rfl).append hbody).plain rfl rfl).plain rfl rfl).append
      helse).plain rfl rfl
  | «while» h₀ he hb =>
    subst h₀
    have hbody := BlockCode.calms _ hb
    exact (((((Calms.of_isPlain rfl rfl).append he.calms).plain rfl rfl).append hbody).plain rfl
      rfl).plain rfl rfl
  | @«repeat» _ _ s₁ s₂ _ loc count body counting code n he hb h₃ =>
    subst h₃
    obtain ⟨hbefore, hwrites⟩ := @areCalm_before_round whole s₁ s₁.label
      s₁.nextLabel.nextLabel.label
    obtain ⟨hafter, hwrites'⟩ := @areCalm_after_round whole (s₂.inLine loc.line) s₁ s₁.label
      s₁.nextLabel.label s₁.nextLabel.nextLabel.label
    have hround := (calms_limit he).enclose (BlockCode.calms body hb) (Nat.le_add_right _ 2) hbefore
      hwrites hafter hwrites'
    simp only [List.append_assoc] at hround ⊢
    exact hround
  | «for» hi h₂ he hb h₅ hu =>
    subst h₂ h₅
    have hinit := StmtCode.calms _ hi
    have hbody := BlockCode.calms _ hb
    have hupdate := StmtCode.calms _ hu
    exact (((((((hinit.plain rfl rfl).append he.calms).plain rfl rfl).append hbody).plain rfl
      rfl).append hupdate).plain rfl rfl).plain rfl rfl
  | «break» hl => exact .of_isPlain rfl rfl
  | «continue» hl => exact .of_isPlain rfl rfl
  | leave => exact .of_isPlain rfl rfl
  | «return» he => exact (Calms.of_supplied he.supplied fun hw => (he.calm hw).1).plain rfl rfl
  | print h => exact (Calms.of_supplied h.supplied h.calm :)
  | input hb => exact .of_isPlain rfl rfl
  | call hf ha => exact (Calms.of_supplied ha.supplied (ha.calm _)).plain rfl rfl
  | expr hc he => exact he.calms
termination_by structural st

theorem BlockCode.calms (ss : List Stmt) : ∀ {c : Context} {s s' : State} {code : List Instr},
    BlockCode c s ss code s' → Calms whole s.temps code s'.temps := by
  intro c s s' code h
  cases h with
  | nil => exact .nil s.temps
  | cons hs hss => exact (StmtCode.calms _ hs).append (BlockCode.calms _ hss)
termination_by structural ss

end

/-! ### Programs -/

theorem TopCode.calms {c : Context} {p : Program} {s s' : State} {code : List Instr}
    (h : TopCode c s p code s') : Calms whole s.temps code s'.temps := by
  induction h with
  | nil => exact .of_isPlain rfl rfl
  | function _ _ ih => exact ih
  | cons _ hs _ ih => exact (hs.calms _).append ih

theorem RegionsCode.calms {c : Context} {p : Program} {s s' : State} {codes : List Instr}
    {infos : List FunctionInfo} (h : RegionsCode c s p codes infos s') :
    Calms whole s.temps codes s'.temps := by
  induction h with
  | nil => exact .nil _
  | function _ hb _ ih =>
    exact (((Calms.of_isPlain rfl rfl).append (hb.calms _)).plain rfl rfl).append ih
  | other _ _ ih => exact ih

end Lowering

open Lowering

/-- Lowered code uses temporaries as the optimizer expects. -/
theorem Program.tidy {p : Program} {infos : List FunctionInfo} {top regions : List Instr}
    {s₁ s₂ : State} (ht : TopCode p.context ⟨0, 0, 0⟩ p top s₁)
    (hr : RegionsCode p.context s₁ p regions infos s₂) (hp : Stmt.allCallsOnly p = true) :
    Tidy (HeldIn (top ++ regions)) (MovingIn (top ++ regions)) (top ++ regions) where
  thrifty := ht.thrifty hp (hr.thrifty hp)
  steady := by
    have hcalm := (ht.calms.append hr.calms).calm fun i hi _ _ _ _ => hi
    exact fun i hi => (hcalm i hi).steady hi

end NumericScript
