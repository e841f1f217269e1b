import NumericScript.Proofs.Knowledge
import NumericScript.Proofs.Optimize.Join

/-! # Constants computed ahead of a run

Folding replaces an operation by what it gives.  Propagation replaces a place by the constant
that it is known to hold, and what is known of places holds along every run.

* `preserves_folding`, `preserves_propagation`: both passes preserve code. -/

namespace NumericScript

variable {functions : List FunctionInfo} {settings : MachineSettings} {held moving : Nat → Prop}
  {code : List Instr}

/-- Operations that give a place the same value are executed alike. -/
theorem Machine.execute_congr {image : Image} {m : Machine} {op op' : Op}
    {p : Place × Except Fault Value} (h : m.effect op = some p) (h' : m.effect op' = some p) :
    m.execute image op = m.execute image op' := by
  rw [Machine.execute_of_effect h, Machine.execute_of_effect h']

theorem reduceOption_map_some (code : List Instr) : (code.map some).reduceOption = code := by
  simp [List.reduceOption]

/-! ### Folding -/

/-- What folding makes of an operation, if it is not the operation itself. -/
theorem exists_of_fold? {op op' : Op} (h : op.fold? = some op') :
    ∃ d c, op' = .assign d c ∧ op.dest? = some d ∧ op.tempsRead = [] ∧
      (∀ t, op.Moves t → False) ∧ op.target? = none ∧ op.endsBlock = false ∧
      op.label? = none ∧ ∀ m : Machine, m.effect op = some (d, .ok c.toValue) := by
  have hconst : ∀ {x : Except Fault Value} {c : Constant}, Op.constantOf x = some c →
      x = .ok c.toValue := by
    intro x c hx
    cases x with
    | error f => cases hx
    | ok v => rw [Constant.toValue_of_ofValue? hx]
  unfold Op.fold? at h
  split at h
  · obtain ⟨c, hc, rfl⟩ := Option.map_eq_some_iff.1 h
    refine ⟨_, c, rfl, rfl, rfl, ?_, rfl, rfl, rfl, fun m => ?_⟩
    · rintro t ⟨s, hs | hs, -⟩ <;> cases hs
    · simp only [Machine.effect, Machine.eval, bind, Except.bind, hconst hc]
  · obtain ⟨c, hc, rfl⟩ := Option.map_eq_some_iff.1 h
    refine ⟨_, c, rfl, rfl, rfl, ?_, rfl, rfl, rfl, fun m => ?_⟩
    · rintro t ⟨s, hs, -⟩
      cases hs
    · simp only [Machine.effect, Machine.eval, bind, Except.bind, hconst hc]
  · cases h

/-- An operation is folded to an assignment, or stays as it is. -/
theorem fold_cases (op : Op) :
    op.fold = op ∨ ∃ op', op.fold? = some op' ∧ op.fold = op' := by
  unfold Op.fold
  cases h : op.fold? with
  | none => exact .inl rfl
  | some op' => exact .inr ⟨op', rfl, rfl⟩

theorem steady_assign {d : Place} {c : Constant}
    (h : ∀ t, d = .temp t → ¬ moving t) : (Op.assign d c).Steady held moving where
  fresh := fun t ht => by cases ht
  copied := fun d t h => by cases h
  factor := fun d f l r h => by cases h
  moves := by
    intro t ht hm
    cases d with
    | temp s => cases ht; exact absurd hm (h _ rfl)
    | var x => cases ht
  input := fun t ty h => by cases h

/-- Folding keeps lines and labels, and makes no jump. -/
theorem keepsJumps_folding (code : List Instr) :
    List.Forall₂ KeepsJumps code ((folding code).code.map some) := by
  rw [folding, List.map_map, List.forall₂_map_right_iff, List.forall₂_same]
  intro i _
  rcases fold_cases i.op with h | ⟨op', h, h'⟩
  · exact ⟨rfl, congrArg Op.label? h, fun l hl => (congrArg Op.target? h).symm.trans hl⟩
  · obtain ⟨d, c, rfl, -, -, -, -, -, hl, -⟩ := exists_of_fold? h
    refine ⟨rfl, (congrArg Op.label? h').trans hl.symm, fun l ht => ?_⟩
    have hnone : i.op.fold.target? = none := congrArg Op.target? h'
    rw [hnone] at ht
    cases ht

/-- An operation that is carried out ahead acts as it would have. -/
theorem Machine.execute_fold (image : Image) (m : Machine) (op : Op) :
    m.execute image op.fold = m.execute image op := by
  rcases fold_cases op with h | ⟨op', h, h'⟩
  · rw [h]
  · obtain ⟨d, c, rfl, -, -, -, -, -, -, heff⟩ := exists_of_fold? h
    rw [h']
    exact (Machine.execute_congr (heff m) rfl).symm

/-- Folding preserves code. -/
theorem preserves_folding (hs : settings.maxSteps = none) (code : List Instr) :
    Preserves functions settings held moving code (folding code).code := by
  have hkept : (((folding code).code.map some).reduceOption) = (folding code).code :=
    reduceOption_map_some _
  have hat : ∀ {k : Nat} {i : Instr} {o : Option Instr}, code[k]? = some i →
      ((folding code).code.map some)[k]? = some o → o = some { i with op := i.op.fold } := by
    intro k i o hi ho
    simp only [folding, List.getElem?_map, hi] at ho
    exact (Option.some.inj ho).symm
  have hall : ∀ {R : Instr → Option Instr → Prop},
      (∀ i ∈ code, R i (some { i with op := i.op.fold })) →
      List.Forall₂ R code ((folding code).code.map some) := by
    intro R h
    rw [folding, List.map_map, List.forall₂_map_right_iff, List.forall₂_same]
    exact h
  rw [← hkept]
  refine Preserves.of_rearranged hs (fun hl => .of_keepsJumps hl (keepsJumps_folding code))
    (fun ht => tidy_of_keepsPaid ht (hall ?_))
    (fun _ => False) (fun _ => True) (fun _ _ => trivial) (fun _ _ _ _ _ _ => trivial)
    (fun _ _ _ _ => id) ?_ ?_
  · intro i _
    rcases fold_cases i.op with h | ⟨op', h, h'⟩
    · rw [h]
      exact ⟨.refl i, fun i' he hst => by cases he; exact hst⟩
    · obtain ⟨d, c, rfl, hd, hr, hmoves, ht, hb, -, -⟩ := exists_of_fold? h
      rw [h']
      have hw : i.op.tempWritten? = (Op.assign d c).tempWritten? := by
        rw [Op.tempWritten?, hd]
        rfl
      refine ⟨⟨fun t ho => (by cases ho), fun t ht => ?_, hw.symm, fun _ => rfl⟩,
        fun i' he hst => ?_⟩
      · rw [hr] at ht
        cases ht
      · cases he
        refine steady_assign fun t htd hm => hmoves moving (hst.moves t ?_ hm)
        rw [hw, htd]
        rfl
  · intro _ _ m i i' _ ht hi hi'
    have he := hat hi hi'
    cases he
    refine ⟨fun _ => (Machine.execute_fold _ _ i.op).symm, ?_⟩
    rcases fold_cases i.op with h | ⟨op', h, h'⟩
    · rw [h]
      exact ht
    · obtain ⟨d, c, rfl, -⟩ := exists_of_fold? h
      rw [h']
      exact trivial
  · intro _ _ p i _ _ hi hi'
    cases hat hi hi'

/-! ### Propagation -/

/-- What is known before the instruction at a position. -/
def factsAt (facts : Facts) (code : List Instr) (k : Nat) : Facts :=
  (code.take k).foldl (fun f i => f.after (i.op.propagate f)) facts

theorem factsAt_succ {facts : Facts} {k : Nat} {i : Instr} (hi : code[k]? = some i) :
    factsAt facts code (k + 1) =
      (factsAt facts code k).after (i.op.propagate (factsAt facts code k)) := by
  rw [factsAt, List.take_add_one, hi, List.foldl_append]
  rfl

theorem getElem?_propagationFrom (facts : Facts) (code : List Instr) (k : Nat) :
    (propagationFrom facts code).code[k]? =
      (code[k]?).map fun i => { i with op := i.op.propagate (factsAt facts code k) } := by
  induction code generalizing facts k with
  | nil => rfl
  | cons i is ih =>
    rw [propagationFrom]
    cases k with
    | zero => rfl
    | succ k => exact ih (facts.after (i.op.propagate facts)) k

/-- What propagation knows of operands. -/
def factClaims (code : List Instr) (k : Nat) : Claims := fun o =>
  if (code[k]?.bind fun i => i.op.label?).isSome then none
  else
    match o with
    | .place p => ((factsAt [] code k).get? p).map fun c v => v = c.toValue
    | _ => none

theorem factClaims_eq {k : Nat} {i : Instr} (hi : code[k]? = some i) (hl : i.op.label? = none)
    (p : Place) :
    factClaims code k (.place p) =
      ((factsAt [] code k).get? p).map fun c v => v = c.toValue := by
  rw [factClaims, hi, Option.bind_some, hl]
  rfl

theorem exists_of_factClaims {k : Nat} {o : Operand} {P : Value → Prop}
    (h : factClaims code k o = some P) :
    ∃ p c, o = .place p ∧ (factsAt [] code k).get? p = some c ∧ P = fun v => v = c.toValue := by
  unfold factClaims at h
  split at h
  · cases h
  · cases o with
    | place p =>
      obtain ⟨c, hc, hP⟩ := Option.map_eq_some_iff.1 h
      exact ⟨p, c, rfl, hc, hP.symm⟩
    | const c => cases h
    | returned => cases h

/-- What is known after an operation was known before, or the operation assigns it. -/
theorem Facts.get?_after {facts : Facts} {op : Op} {p : Place} {c : Constant}
    (h : (facts.after op).get? p = some c) (hl : op.label? = none) :
    facts.get? p = some c ∧ op.Leaves (.place p) ∨ op = .assign p c := by
  cases op with
  | assign d c' =>
    rw [Facts.after, Store.get?_set] at h
    split at h
    · cases h
      exact .inr (by subst d; rfl)
    · refine .inl ⟨h, fun d' hd' => ?_⟩
      cases hd'
      simpa using Ne.symm ‹¬ d = p›
  | store base row col o =>
    rw [Facts.after, Store.get?_erase] at h
    split at h
    · cases h
    · exact .inl ⟨h, by simpa [Op.Leaves] using Ne.symm ‹¬ base = p›⟩
  | call f argc =>
    rw [Facts.after, Store.get?_restrict] at h
    split at h
    · refine .inl ⟨h, ?_⟩
      cases p with
      | temp t => exact ⟨t, rfl⟩
      | var x => cases ‹Place.isTemp (.var x) = true›
    · cases h
  | label l => cases hl
  | jump l => cases h
  | «return» o => cases h
  | halt => cases h
  | jumpIfFalse o l => exact .inl ⟨h, fun d hd => by cases hd⟩
  | param o => exact .inl ⟨h, fun d hd => by cases hd⟩
  | print o n => exact .inl ⟨h, fun d hd => by cases hd⟩
  | _ =>
    simp only [Facts.after, Op.endsBlock, Op.dest?, Bool.false_eq_true, if_false,
      Store.get?_erase] at h
    split at h
    · cases h
    · refine .inl ⟨h, fun d' hd' => ?_⟩
      cases hd'
      simpa using Ne.symm ‹_›

/-- Operations are executed alike if their operands have the same values. -/
theorem Machine.execute_mapOperands {image : Image} {m : Machine} {g : Operand → Operand}
    (h : ∀ o, m.eval (g o) = m.eval o) (op : Op) :
    m.execute image (op.mapOperands g) = m.execute image op := by
  have hint : ∀ o, m.evalInt (g o) = m.evalInt o := fun o => by
    rw [Machine.evalInt, Machine.evalInt, h]
  have hidx : ∀ o : Option Operand, m.evalIndex (o.map g) = m.evalIndex o := fun o => by
    cases o with
    | none => rfl
    | some o => rw [Option.map_some, Machine.evalIndex, Machine.evalIndex, hint]
  cases op with
  | «return» o => cases o <;> simp only [Op.mapOperands, Option.map, Machine.execute, h]
  | _ => simp only [Op.mapOperands, Machine.execute, h, hint, hidx]

/-- Copying a constant is assigning it. -/
theorem Machine.execute_settle (image : Image) (m : Machine) (op : Op) :
    m.execute image op.settle = m.execute image op := by
  unfold Op.settle
  split
  · rfl
  · rfl

/-- An operand is replaced by a constant, or stays as it is. -/
theorem Facts.replace_cases (facts : Facts) (o : Operand) :
    facts.replace o = o ∨ ∃ p c, o = .place p ∧ facts.get? p = some c ∧
      facts.replace o = .const c := by
  unfold Facts.replace Facts.known?
  cases o with
  | place p =>
    dsimp only
    cases h : facts.get? p with
    | none => exact .inl rfl
    | some c => exact .inr ⟨p, c, rfl, h, rfl⟩
  | const c => exact .inl rfl
  | returned => exact .inl rfl

theorem Facts.replace_eq_place {facts : Facts} {o : Operand} {p : Place}
    (h : facts.replace o = .place p) : o = .place p := by
  rcases facts.replace_cases o with he | ⟨q, c, -, -, he⟩
  · rw [← he, h]
  · rw [he] at h
    cases h

theorem Facts.replace_of_get?_eq_none {facts : Facts} {p : Place} (h : facts.get? p = none) :
    facts.replace (.place p) = .place p := by
  rcases facts.replace_cases (.place p) with he | ⟨q, c, hq, hc, -⟩
  · exact he
  · cases hq
    rw [h] at hc
    cases hc

/-- Replacing what is known changes no value. -/
theorem Facts.eval_replace {facts : Facts} {m : Machine}
    (h : ∀ p c, facts.get? p = some c → m.eval (.place p) = .ok c.toValue) (o : Operand) :
    m.eval (facts.replace o) = m.eval o := by
  rcases facts.replace_cases o with he | ⟨p, c, rfl, hc, he⟩
  · rw [he]
  · rw [he, h p c hc]
    rfl

theorem Op.label?_propagate (facts : Facts) (op : Op) :
    (op.propagate facts).label? = op.label? := by
  rw [Op.propagate, ← Op.label?_mapOperands facts.replace op]
  unfold Op.settle
  split
  · rename_i hop
    rw [hop]
    rfl
  · rfl

theorem Op.leaves_propagate {facts : Facts} {op : Op} {o : Operand}
    (h : (op.propagate facts).Leaves o) : op.Leaves o := by
  have hd : ∀ d, op.dest? = some d → (op.propagate facts).dest? = some d := fun d hd => by
    rw [Op.dest?_propagate, hd]
  cases op with
  | call f argc => exact h
  | store base row col o => exact h
  | copy d s =>
    have hcopy : ∀ s' : Operand, (Op.copy d s').settle.Leaves o → o ≠ .place d := by
      intro s' h
      cases s' <;> exact h d rfl
    intro d' hd'
    cases hd'
    exact hcopy _ h
  | _ => exact fun d' hd' => h d' (hd d' hd')

/-- What is assigned after propagation is what the operation gives. -/
theorem eq_of_propagate_eq_assign {facts : Facts} {m : Machine} {op : Op} {p : Place}
    {c : Constant} {v : Value}
    (h : ∀ p c, facts.get? p = some c → m.eval (.place p) = .ok c.toValue)
    (hop : op.propagate facts = .assign p c) (he : m.effect op = some (p, .ok v)) :
    v = c.toValue := by
  cases op with
  | assign d c' =>
    cases hop
    cases he
    rfl
  | copy d s =>
    have hs : facts.replace s = .const c := by
      rw [Op.propagate, Op.mapOperands] at hop
      generalize facts.replace s = s' at hop
      cases s' <;> cases hop
      rfl
    have hv := Facts.eval_replace h s
    rw [hs] at hv
    simp only [Machine.effect, Option.some.injEq, Prod.mk.injEq, ← hv] at he
    cases he.2
    rfl
  | _ => cases hop

theorem get?_of_hold {k : Nat} {i : Instr} (hi : code[k]? = some i) (hl : i.op.label? = none)
    {m : Machine} (h : (factClaims code k).Hold m) (p : Place) (c : Constant)
    (hc : (factsAt [] code k).get? p = some c) : m.eval (.place p) = .ok c.toValue := by
  obtain ⟨v, hv, rfl⟩ := h (.place p) (fun v => v = c.toValue)
    (by rw [factClaims_eq hi hl, hc]; rfl)
  exact hv

theorem sound_factClaims (code : List Instr) : Sound code (factClaims code) where
  label := by
    intro k i hi hl o
    constructor
    · unfold factClaims
      rw [hi, Option.bind_some, if_pos hl]
    · cases h : factClaims code (k + 1) o with
      | none => rfl
      | some P =>
        obtain ⟨p, c, -, hc, -⟩ := exists_of_factClaims h
        rw [factsAt_succ hi] at hc
        cases hop : i.op <;> rw [hop] at hl hc <;> first | cases hc | cases hl
  flow := by
    intro k i o P hi hl _ h
    obtain ⟨p, c, rfl, hc, rfl⟩ := exists_of_factClaims h
    rw [factsAt_succ hi] at hc
    rcases Facts.get?_after hc ((Op.label?_propagate _ _).trans hl) with ⟨h', hleaves⟩ | hop
    · exact .inl ⟨by rw [factClaims_eq hi hl, h']; rfl, Op.leaves_propagate hleaves⟩
    · refine .inr (.effect (fun m v hm he => ?_) ?_ fun ty h => ?_)
      · exact eq_of_propagate_eq_assign (get?_of_hold hi hl hm) hop he
      · rw [← Op.dest?_propagate (factsAt [] code k), hop]
        rfl
      · rw [h] at hop
        cases hop

theorem Op.Trusty.propagate {facts : Facts} {m : Machine} {op : Op}
    (h : ∀ o, m.eval (facts.replace o) = m.eval o) (ht : op.Trusty held m) :
    (op.propagate facts).Trusty held m := by
  have hv : ∀ o, m.HasValue o → m.HasValue (facts.replace o) := fun o ho x hx =>
    ho x (Facts.replace_eq_place hx)
  cases op with
  | copy d s =>
    rw [Op.propagate, Op.mapOperands]
    rcases facts.replace_cases s with he | ⟨p, c, -, -, he⟩
    · rw [he]
      unfold Op.settle
      split
      · exact trivial
      · exact ht
    · rw [he]
      exact trivial
  | binary d f l r =>
    refine ⟨fun v w hl hr => ht.1 v w (by rwa [h] at hl) (by rwa [h] at hr), ?_, ?_⟩
    · exact fun hf hr => hv l (ht.2.left hf (by rwa [h] at hr))
    · exact fun hf hl => hv r (ht.2.right hf (by rwa [h] at hl))
  | _ => exact trivial

/-! ### Temporaries after propagation -/

theorem Op.isStraight_propagate (facts : Facts) (op : Op) :
    (op.propagate facts).isStraight = op.isStraight := by
  cases op with
  | copy d s => rw [Op.propagate, Op.mapOperands]; cases facts.replace s <;> rfl
  | _ => rfl

theorem Op.tempWritten?_propagate (facts : Facts) (op : Op) :
    (op.propagate facts).tempWritten? = op.tempWritten? := by
  rw [Op.tempWritten?, Op.dest?_propagate, Op.tempWritten?]

theorem Op.owes_propagate {facts : Facts} {op : Op} {t : Nat}
    (h : (op.propagate facts).owes = some t) : op.owes = some t := by
  cases op with
  | copy d s =>
    rw [Op.propagate, Op.mapOperands] at h
    generalize facts.replace s = s' at h
    cases d <;> cases s' <;> first | exact h | cases h
  | unary d f o => cases d <;> exact h
  | binary d f l r => cases d <;> exact h
  | _ => cases h

theorem Facts.mem_operandTemp?_replace {facts : Facts} {o : Operand} {t : Nat}
    (h : facts.get? (.temp t) = none) (ht : Op.operandTemp? o = some t) :
    Op.operandTemp? (facts.replace o) = some t := by
  cases o with
  | place p =>
    cases p with
    | temp s => cases ht; rw [Facts.replace_of_get?_eq_none h]; rfl
    | var x => cases ht
  | const c => cases ht
  | returned => cases ht

theorem Facts.operandTemp?_of_replace {facts : Facts} {o : Operand} {t : Nat}
    (ht : Op.operandTemp? (facts.replace o) = some t) : Op.operandTemp? o = some t := by
  rcases facts.replace_cases o with he | ⟨p, c, -, -, he⟩
  · rwa [he] at ht
  · rw [he] at ht
    cases ht

/-- The operands of an operation after propagation are those that were not replaced. -/
theorem Op.operands_propagate (facts : Facts) (op : Op) {t : Nat} :
    t ∈ (op.propagate facts).operands.filterMap operandTemp? ↔
      ∃ o ∈ op.operands, operandTemp? (facts.replace o) = some t := by
  have h : t ∈ (op.mapOperands facts.replace).operands.filterMap operandTemp? ↔
      ∃ o ∈ op.operands, operandTemp? (facts.replace o) = some t := by
    rw [Op.operands_mapOperands, List.filterMap_map, List.mem_filterMap]
    rfl
  rw [← h, Op.propagate]
  unfold Op.settle
  split
  · rename_i d c hop
    rw [hop]
    simp [Op.operands, Op.operandTemp?]
  · rfl

/-- A temporary of which nothing is known is still read. -/
theorem Op.mem_tempsRead_propagate {facts : Facts} {op : Op} {t : Nat}
    (h : facts.get? (.temp t) = none) (ht : t ∈ op.tempsRead) :
    t ∈ (op.propagate facts).tempsRead := by
  have hop : t ∈ op.operands.filterMap operandTemp? →
      t ∈ (op.propagate facts).operands.filterMap operandTemp? := by
    intro ht
    obtain ⟨o, ho, hot⟩ := List.mem_filterMap.1 ht
    exact (Op.operands_propagate facts op).2 ⟨o, ho, Facts.mem_operandTemp?_replace h hot⟩
  rcases List.mem_append.1 ht with ht | ht
  · cases op with
    | store base row col o => cases base <;> exact List.mem_append_left _ ht
    | _ => cases ht
  · exact List.mem_append_right _ (hop ht)

theorem Op.mem_tempsRead_of_propagate {facts : Facts} {op : Op} {t : Nat}
    (ht : t ∈ (op.propagate facts).tempsRead) : t ∈ op.tempsRead := by
  have hop : t ∈ (op.propagate facts).operands.filterMap operandTemp? →
      t ∈ op.operands.filterMap operandTemp? := by
    intro ht
    obtain ⟨o, ho, hot⟩ := (Op.operands_propagate facts op).1 ht
    exact List.mem_filterMap.2 ⟨o, ho, Facts.operandTemp?_of_replace hot⟩
  rcases List.mem_append.1 ht with ht | ht
  · cases op with
    | store base row col o => cases base <;> exact List.mem_append_left _ ht
    | copy d s =>
      rw [Op.propagate, Op.mapOperands] at ht
      generalize facts.replace s = s' at ht
      cases s' <;> cases ht
    | _ => cases ht
  · exact List.mem_append_right _ (hop ht)

/-- Nothing becomes known of a temporary that is not written. -/
theorem Facts.get?_after_eq_none {facts : Facts} {op : Op} {t : Nat}
    (h : facts.get? (.temp t) = none) (hop : ∀ c, op ≠ .assign (.temp t) c)
    (hl : op.label? = none) : (facts.after op).get? (.temp t) = none := by
  cases hc : (facts.after op).get? (.temp t) with
  | none => rfl
  | some c =>
    rcases Facts.get?_after hc hl with ⟨h', -⟩ | h'
    · rw [h] at h'
      cases h'
    · exact absurd h' (hop c)

theorem Facts.after_label {facts : Facts} {op : Op} (hl : op.label?.isSome) :
    facts.after op = [] := by
  cases op with
  | label l => rfl
  | _ => cases hl

/-- Nothing becomes known of a temporary unless it is assigned. -/
theorem Facts.get?_after_temp {facts : Facts} {op : Op} {t : Nat}
    (h : facts.get? (.temp t) = none) (hop : ∀ c, op ≠ .assign (.temp t) c) :
    (facts.after op).get? (.temp t) = none := by
  cases hl : op.label? with
  | none => exact Facts.get?_after_eq_none h hop hl
  | some l => rw [Facts.after_label (by rw [hl]; rfl)]; rfl

theorem Paid.propagationFrom {t : Nat} {facts : Facts} (h : Paid t code)
    (hf : facts.get? (.temp t) = none) :
    Paid t (NumericScript.propagationFrom facts code).code := by
  induction code generalizing facts with
  | nil => exact h
  | cons i is ih =>
    rcases h with h | ⟨hw, hs, h⟩
    · exact .inl (Op.mem_tempsRead_propagate hf h)
    · have hw' : (i.op.propagate facts).tempWritten? ≠ some t := by
        rwa [Op.tempWritten?_propagate]
      refine .inr ⟨hw', (Op.isStraight_propagate facts i.op).trans hs, ih h ?_⟩
      refine Facts.get?_after_temp hf fun c hc => hw' ?_
      rw [hc]
      rfl

theorem Thrifty.propagationFrom (h : Thrifty code) (facts : Facts) :
    Thrifty (NumericScript.propagationFrom facts code).code := by
  induction code generalizing facts with
  | nil => exact trivial
  | cons i is ih =>
    refine ⟨fun t ht => ?_, ih h.2 _⟩
    refine (h.1 t (Op.owes_propagate ht)).propagationFrom ?_
    -- What is written is not known afterwards, unless it is assigned.
    have hd := Op.tempWritten?_of_owes ht
    cases hc : (facts.after (i.op.propagate facts)).get? (.temp t) with
    | none => rfl
    | some c =>
      have hl : (i.op.propagate facts).label? = none := by
        cases hop : i.op.propagate facts <;> rw [hop] at ht <;> first | rfl | cases ht
      rcases Facts.get?_after hc hl with ⟨-, hleaves⟩ | hop
      · generalize i.op.propagate facts = op at hd ht hleaves
        cases op with
        | copy d s => cases d <;> cases hd; exact absurd rfl (hleaves _ rfl)
        | unary d f o => cases d <;> cases hd; exact absurd rfl (hleaves _ rfl)
        | binary d f l r => cases d <;> cases hd; exact absurd rfl (hleaves _ rfl)
        | _ => cases ht
      · rw [hop] at ht
        cases ht

/-- Temporaries whose values are not constant are not known. -/
theorem Op.Steady.get?_after {facts : Facts} {op : Op} (h : op.Steady held moving)
    (hf : ∀ t, moving t → facts.get? (.temp t) = none) {t : Nat} (ht : moving t) :
    (facts.after op).get? (.temp t) = none := by
  refine Facts.get?_after_temp (hf t ht) fun c hc => ?_
  have := h.moves t (by rw [hc]; rfl) ht
  rw [hc] at this
  exact this

theorem Op.Steady.propagate {facts : Facts} {op : Op} (h : op.Steady held moving)
    (hf : ∀ t, moving t → facts.get? (.temp t) = none) :
    (op.propagate facts).Steady held moving := by
  have hreplace : ∀ t, moving t → facts.replace (.place (.temp t)) = .place (.temp t) :=
    fun t ht => Facts.replace_of_get?_eq_none (hf t ht)
  refine ⟨fun t ho hr => h.fresh t (Op.owes_propagate ho) (Op.mem_tempsRead_of_propagate hr),
    ?_, ?_, ?_, ?_⟩
  · intro d t hop
    cases op with
    | copy d' s =>
      rw [Op.propagate, Op.mapOperands] at hop
      generalize hs : facts.replace s = s' at hop
      cases s' with
      | place p =>
        cases hop
        rw [Facts.replace_eq_place hs] at h
        exact h.copied d t rfl
      | const c => cases hop
      | returned => cases hop
    | _ => cases hop
  · intro d f l r hop hf'
    cases op with
    | binary d' f' l' r' =>
      cases hop
      obtain ⟨h₁, h₂⟩ := h.factor d f l' r' rfl hf'
      constructor
      · intro t hl ht
        obtain ⟨u, rfl, hu⟩ := h₁ t (Facts.replace_eq_place hl) ht
        exact ⟨u, hreplace u hu, hu⟩
      · intro t hr ht
        obtain ⟨u, rfl, hu⟩ := h₂ t (Facts.replace_eq_place hr) ht
        exact ⟨u, hreplace u hu, hu⟩
    | copy d' s =>
      rw [Op.propagate, Op.mapOperands] at hop
      generalize facts.replace s = s' at hop
      cases s' <;> cases hop
    | _ => cases hop
  · intro t hw hm
    have hmoves := h.moves t (by rwa [Op.tempWritten?_propagate] at hw) hm
    cases op with
    | assign d c => exact hmoves
    | copy d s =>
      rcases hmoves with rfl | ⟨u, rfl, hu⟩
      · exact .inl rfl
      · rw [Op.propagate, Op.mapOperands, hreplace u hu]
        exact .inr ⟨u, rfl, hu⟩
    | unary d f o =>
      obtain ⟨u, rfl, hu⟩ := hmoves
      exact ⟨u, hreplace u hu, hu⟩
    | binary d f l r =>
      obtain ⟨u, hl | hr, hu⟩ := hmoves
      · exact ⟨u, .inl (by rw [hl]; exact hreplace u hu), hu⟩
      · exact ⟨u, .inr (by rw [hr]; exact hreplace u hu), hu⟩
    | _ => exact trivial
  · intro t ty hop
    cases op with
    | input d ty' => exact h.input t ty hop
    | copy d s =>
      rw [Op.propagate, Op.mapOperands] at hop
      generalize facts.replace s = s' at hop
      cases s' <;> cases hop
    | _ => cases hop

theorem steady_propagationFrom {facts : Facts}
    (h : ∀ i ∈ code, i.op.Steady held moving)
    (hf : ∀ t, moving t → facts.get? (.temp t) = none) :
    ∀ i ∈ (propagationFrom facts code).code, i.op.Steady held moving := by
  induction code generalizing facts with
  | nil => exact h
  | cons i is ih =>
    have hi := (h i (List.mem_cons_self ..)).propagate hf
    intro j hj
    rcases List.mem_cons.1 hj with rfl | hj
    · exact hi
    · exact ih (fun i hi => h i (List.mem_cons_of_mem _ hi))
        (fun t ht => hi.get?_after hf ht) j hj

/-- Propagation changes operands, by what is known at the position. -/
theorem eq_of_getElem?_propagation {k : Nat} {i : Instr} {o : Option Instr}
    (hi : code[k]? = some i) (ho : ((propagation code).code.map some)[k]? = some o) :
    o = some { i with op := i.op.propagate (factsAt [] code k) } := by
  rw [List.getElem?_map, propagation, getElem?_propagationFrom, hi] at ho
  exact (Option.some.inj ho).symm

/-- Propagation keeps lines and labels, and makes no jump. -/
theorem keepsJumps_propagation (code : List Instr) :
    List.Forall₂ KeepsJumps code ((propagation code).code.map some) := by
  rw [List.forall₂_iff_get]
  refine ⟨by simp [length_propagation], fun k hk hk' => ?_⟩
  have he := eq_of_getElem?_propagation (List.getElem?_eq_getElem hk)
    (List.getElem?_eq_getElem hk')
  rw [List.get_eq_getElem, List.get_eq_getElem, he]
  refine ⟨rfl, Op.label?_propagate _ _, fun l hl => ?_⟩
  rw [← Op.target?_mapOperands (factsAt [] code k).replace]
  unfold Op.propagate Op.settle at hl
  dsimp only at hl
  split at hl
  · cases hl
  · exact hl

/-- An operation acts as it did after what is known is put into it. -/
theorem Machine.execute_propagate {facts : Facts} {m : Machine}
    (h : ∀ o, m.eval (facts.replace o) = m.eval o) (image : Image) (op : Op) :
    m.execute image (op.propagate facts) = m.execute image op := by
  rw [Op.propagate, Machine.execute_settle, Machine.execute_mapOperands h]

theorem factClaims_zero (code : List Instr) (o : Operand) : factClaims code 0 o = none := by
  cases h : factClaims code 0 o with
  | none => rfl
  | some P =>
    obtain ⟨p, c, -, hc, -⟩ := exists_of_factClaims h
    cases hc

/-- Propagation preserves code. -/
theorem preserves_propagation (hs : settings.maxSteps = none) (code : List Instr) :
    Preserves functions settings held moving code (propagation code).code := by
  rw [← reduceOption_map_some (propagation code).code]
  refine Preserves.of_rearranged hs
    (fun hl => .of_keepsJumps hl (keepsJumps_propagation code)) (fun ht => ?_)
    (fun _ => False) (Known (factClaims code))
    (fun line angle => known_start (factClaims_zero code) line angle) ?_
    (fun _ _ _ _ => id) ?_ ?_
  · rw [reduceOption_map_some]
    exact ⟨ht.thrifty.propagationFrom [], steady_propagationFrom ht.steady fun _ _ => rfl⟩
  · exact fun hl _ p q hp hadv => (sound_factClaims code).known_of_advance hl.distinct hp hadv
  · intro _ _ m i i' hk ht hi hi'
    have he := eq_of_getElem?_propagation hi hi'
    cases he
    cases hl : i.op.label? with
    | some l =>
      refine ⟨fun h => (by cases h), ?_⟩
      cases hop : i.op <;> rw [hop] at hl <;> first | exact trivial | cases hl
    | none =>
      have hev : ∀ n : Machine, (∀ o, n.eval o = m.eval o) → ∀ o,
          n.eval ((factsAt [] code m.pc).replace o) = n.eval o := by
        intro n hn o
        refine Facts.eval_replace (fun p c hc => ?_) o
        rw [hn]
        exact get?_of_hold hi hl hk.1 p c hc
      refine ⟨fun _ => ?_, ht.propagate (hev m fun _ => rfl)⟩
      rw [Machine.execute_propagate (hev _ fun o => Machine.eval_noted m i.line o)]
  · intro _ _ p i _ _ hi hi'
    cases eq_of_getElem?_propagation hi hi'

end NumericScript
