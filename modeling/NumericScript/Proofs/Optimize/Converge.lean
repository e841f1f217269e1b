import Mathlib.Algebra.GroupWithZero.Nat
import NumericScript.Proofs.Optimize.Stable

/-! # Rounds come to an end

Every change that a pass makes brings code nearer to code in which nothing is left to change.
The measure is a weight: an instruction counts for itself, for its operator and for its operands
that are not constants yet.  An operator weighs as much as what it can still be replaced by,
which is why a product weighs more than the sum of `x` with itself although the sum has one more
operand to replace.

* `weight_folding_le`, `weight_propagation_le`, `weight_deadCode_le`, `weight_peephole_le`,
  `weight_strength_le`: each pass takes away at least as much weight as it counts changes.
* `Code.not_transGen_alters`: passes in any order never lead back to code that they changed.
* `Code.optimize_settles`: with enough rounds the optimizer stops on its own account, and no pass
  finds anything to change in the result. -/

namespace NumericScript

/-! ### Weights -/

/-- What an operand counts for: one as long as it is not a constant. -/
def Operand.weight : Operand → Nat
  | const _ => 0
  | place _ | returned => 1

/-- What an operator counts for. -/
def BinaryOp.weight : BinaryOp → Nat
  | .pow | .div => 6
  | .mul => 4
  | _ => 2

namespace Op

/-- What an operation counts for apart from its operands. -/
def ownWeight : Op → Nat
  | copy _ _ | unary _ _ _ | jumpIfFalse _ _ => 1
  | binary _ f _ _ => f.weight
  | _ => 0

/-- What an operation counts for. -/
def weight (op : Op) : Nat := op.ownWeight + (op.operands.map Operand.weight).sum

end Op

/-- What code counts for: every instruction for itself and for its operation. -/
def weight (code : List Instr) : Nat := (code.map fun i => i.op.weight + 1).sum

theorem Operand.weight_le (o : Operand) : o.weight ≤ 1 := by
  cases o with
  | const c => exact Nat.zero_le 1
  | place p => exact Nat.le_refl 1
  | returned => exact Nat.le_refl 1

@[simp] theorem Operand.weight_const (c : Constant) : (const c).weight = 0 := rfl

namespace Op

@[simp] theorem weight_copy (d : Place) (o : Operand) : (copy d o).weight = 1 + o.weight := rfl

@[simp] theorem weight_binary (d : Place) (f : BinaryOp) (l r : Operand) :
    (binary d f l r).weight = f.weight + (l.weight + r.weight) := rfl

@[simp] theorem weight_withDest (d : Place) (op : Op) : (op.withDest d).weight = op.weight := by
  cases op <;> rfl

@[simp] theorem ownWeight_mapOperands (g : Operand → Operand) (op : Op) :
    (op.mapOperands g).ownWeight = op.ownWeight := by
  cases op <;> rfl

end Op

@[simp] theorem weight_nil : weight [] = 0 := rfl

@[simp] theorem weight_cons (i : Instr) (is : List Instr) :
    weight (i :: is) = i.op.weight + 1 + weight is := by
  simp [weight]

/-! ### A bound by the length of code -/

theorem sum_weight_le (os : List Operand) : (os.map Operand.weight).sum ≤ os.length := by
  induction os with
  | nil => exact Nat.le_refl _
  | cons o os ih =>
    have := o.weight_le
    simp only [List.map_cons, List.sum_cons, List.length_cons]
    omega

theorem BinaryOp.two_le_weight (f : BinaryOp) : 2 ≤ f.weight := by
  cases f <;> decide

theorem BinaryOp.weight_le (f : BinaryOp) : f.weight ≤ 6 := by
  cases f <;> decide

theorem Op.weight_le (op : Op) : op.weight ≤ 8 := by
  have hsum := sum_weight_le op.operands
  have hown : op.ownWeight + op.operands.length ≤ 8 := by
    cases op with
    | binary d f l r => exact Nat.add_le_add_right f.weight_le 2
    | load d b r c => cases c <;> simp [ownWeight, operands]
    | store b r c v => cases c <;> simp [ownWeight, operands]
    | «return» v => cases v <;> simp [ownWeight, operands]
    | _ => simp [ownWeight, operands]
  rw [weight]
  omega

theorem weight_le (code : List Instr) : weight code ≤ 9 * code.length := by
  induction code with
  | nil => exact Nat.le_refl _
  | cons i is ih =>
    have := i.op.weight_le
    simp only [weight_cons, List.length_cons]
    omega

/-! ### What a change takes away -/

namespace Op

theorem weight_of_fold? {op op' : Op} (h : op.fold? = some op') : op'.weight < op.weight := by
  unfold fold? at h
  split at h
  · rename_i d f a b
    obtain ⟨c, -, rfl⟩ := Option.map_eq_some_iff.1 h
    exact Nat.lt_of_lt_of_le Nat.zero_lt_two f.two_le_weight
  · obtain ⟨c, -, rfl⟩ := Option.map_eq_some_iff.1 h
    exact Nat.zero_lt_one
  · cases h

theorem weight_fold_le (op : Op) :
    op.fold.weight + (if op.fold?.isSome then 1 else 0) ≤ op.weight := by
  unfold fold
  cases h : op.fold? with
  | none => exact Nat.le_refl _
  | some op' => exact weight_of_fold? h

theorem weight_settle_le (op : Op) :
    op.settle.weight + (if op.copiesConstant then 1 else 0) ≤ op.weight := by
  unfold settle
  split
  · exact Nat.le_refl 1
  · rename_i hop
    have hcopies : op.copiesConstant = false := by
      unfold copiesConstant
      split
      · exact absurd rfl (hop _ _)
      · rfl
    simp [hcopies]

end Op

namespace Facts

theorem weight_replace (facts : Facts) (o : Operand) :
    (facts.replace o).weight + (if (facts.known? o).isSome then 1 else 0) = o.weight := by
  cases o with
  | place p =>
    unfold replace
    cases facts.known? (.place p) <;> rfl
  | const c => rfl
  | returned => rfl

/-- Replacing operands by constants takes away one for each. -/
theorem sum_weight_replace (facts : Facts) (os : List Operand) :
    ((os.map facts.replace).map Operand.weight).sum +
      os.countP (fun o => (facts.known? o).isSome) = (os.map Operand.weight).sum := by
  induction os with
  | nil => rfl
  | cons o os ih =>
    have ho := facts.weight_replace o
    simp only [List.map_cons, List.sum_cons, List.countP_cons]
    omega

end Facts

theorem Op.weight_propagate_le (facts : Facts) (op : Op) :
    (op.propagate facts).weight + op.propagations facts ≤ op.weight := by
  have hmap : (op.mapOperands facts.replace).weight +
      op.operands.countP (fun o => (facts.known? o).isSome) = op.weight := by
    have := facts.sum_weight_replace op.operands
    rw [weight, weight, ownWeight_mapOperands, operands_mapOperands]
    omega
  have hsettle := (op.mapOperands facts.replace).weight_settle_le
  rw [propagate, propagations]
  omega

/-- A cheaper operation weighs less, also where it reads a place twice. -/
theorem Op.weight_of_cheaper? {s : Scalars} {op op' : Op} (h : op.cheaper? s = some op') :
    op'.weight < op.weight := by
  obtain ⟨d, f, l, r, rfl, hc⟩ := cheaper_of_cheaper? h
  have hl := l.weight_le
  have hr := r.weight_le
  cases hc with
  | one_right hf =>
    have := f.two_le_weight
    simp only [weight_binary, weight_copy, Operand.weight_const]
    omega
  | one_left | two_right | two_left | power | square =>
    simp only [weight_binary, weight_copy, Operand.weight_const, BinaryOp.weight]
    omega

/-! ### What a pass takes away -/

theorem weight_folding_le (code : List Instr) :
    weight (folding code).code + (folding code).changes ≤ weight code := by
  induction code with
  | nil => exact Nat.le_refl _
  | cons i is ih =>
    have hi := i.op.weight_fold_le
    simp only [folding, List.map_cons, List.countP_cons, weight_cons] at ih ⊢
    omega

theorem weight_propagationFrom_le (facts : Facts) (code : List Instr) :
    weight (propagationFrom facts code).code + (propagationFrom facts code).changes ≤
      weight code := by
  induction code generalizing facts with
  | nil => exact Nat.le_refl _
  | cons i is ih =>
    have hi := i.op.weight_propagate_le facts
    have his := ih (facts.after (i.op.propagate facts))
    simp only [propagationFrom, weight_cons]
    omega

theorem weight_propagation_le (code : List Instr) :
    weight (propagation code).code + (propagation code).changes ≤ weight code :=
  weight_propagationFrom_le [] code

/-- Every instruction that is taken away counts at least for itself. -/
theorem weight_ofRemoval_le {before after : List Instr} (h : after.Sublist before) :
    weight after + (Passed.ofRemoval before after).changes ≤ weight before := by
  change weight after + (before.length - after.length) ≤ weight before
  induction h with
  | slnil => exact Nat.le_refl _
  | cons i hs ih =>
    simp only [weight_cons, List.length_cons]
    omega
  | cons_cons i hs ih =>
    simp only [weight_cons, List.length_cons]
    omega

theorem weight_deadCode_le (code : List Instr) :
    weight (deadCode code).code + (deadCode code).changes ≤ weight code :=
  weight_ofRemoval_le (deadCode_sublist code)

theorem isDecided_of_decideBranch {i : Instr} (h : decideBranch i = some i) :
    i.op.isDecided = false := by
  unfold decideBranch at h
  split at h
  · cases h
  · rename_i l hop
    rw [← Option.some.inj h] at hop
    cases hop
  · unfold Op.isDecided
    split
    · rename_i htrue hfalse _ b l hop
      cases b
      · exact absurd hop (hfalse l)
      · exact absurd hop (htrue l)
    · rfl

theorem weight_decideBranches_le (code : List Instr) :
    weight (decideBranches code).code + (decideBranches code).changes ≤ weight code := by
  induction code with
  | nil => exact Nat.le_refl _
  | cons i is ih =>
    simp only [decideBranches, List.filterMap_cons, List.countP_cons, weight_cons] at ih ⊢
    rcases decideBranch_cases i with h | ⟨l, hop, h⟩ | ⟨l, hop, h⟩
    · simp only [h, isDecided_of_decideBranch h, weight_cons, Bool.false_eq_true, reduceIte]
      omega
    · have hi : i.op.isDecided = true := by rw [hop]; rfl
      simp only [h, hi, reduceIte]
      omega
    · have hi : i.op.isDecided = true := by rw [hop]; rfl
      have hw : i.op.weight = 1 := by rw [hop]; rfl
      have hj : (Op.jump l).weight = 0 := rfl
      simp only [h, hi, hw, hj, reduceIte, weight_cons]
      omega

theorem weight_joinCopies_le (single : Nat → Bool) (code : List Instr) :
    weight (joinCopies single code) + (code.length - (joinCopies single code).length) ≤
      weight code := by
  fun_induction joinCopies single code with
  | case1 i j is k hk ih =>
    obtain ⟨t, v, hj⟩ := exists_joins hk
    simp only [hj.result, weight_cons, Op.weight_withDest, List.length_cons]
    omega
  | case2 i j is hk ih =>
    simp only [weight_cons, List.length_cons] at ih ⊢
    omega
  | case3 code hcode => simp

theorem weight_spareTemps_le (code : List Instr) :
    weight (spareTemps code) + (Passed.ofRemoval code (spareTemps code)).changes ≤ weight code :=
  weight_joinCopies_le _ code

theorem weight_peephole_le (code : List Instr) :
    weight (peephole code).code + (peephole code).changes ≤ weight code := by
  have hbranches := weight_decideBranches_le code
  have hjumps := weight_ofRemoval_le (dropJumpsToNext_sublist (decideBranches code).code)
  have hcopies := weight_ofRemoval_le
    (dropSelfCopies_sublist (dropJumpsToNext (decideBranches code).code))
  have hspare := weight_spareTemps_le (dropSelfCopies (dropJumpsToNext (decideBranches code).code))
  simp only [peephole, Passed.andThen, Passed.ofRemoval] at hjumps hcopies hspare ⊢
  omega

theorem weight_strengthFrom_le (s : Scalars) (code : List Instr) :
    weight (strengthFrom s code).code + (strengthFrom s code).changes ≤ weight code := by
  induction code generalizing s with
  | nil => exact Nat.le_refl _
  | cons i is ih =>
    have his := ih (s.after i.op)
    unfold strengthFrom
    dsimp only
    cases h : i.op.cheaper? s with
    | none =>
      simp only [weight_cons]
      omega
    | some op =>
      have hop := Op.weight_of_cheaper? h
      simp only [weight_cons]
      omega

theorem weight_strength_le (code : List Instr) :
    weight (strength code).code + (strength code).changes ≤ weight code :=
  weight_strengthFrom_le Scalars.none code

/-! ### What rounds take away -/

namespace Code

theorem weight_round_le (code : List Instr) :
    weight (round code).1 + (round code).2.total ≤ weight code := by
  have hfold := weight_folding_le code
  have hpropagate := weight_propagation_le (folding code).code
  have hdead := weight_deadCode_le (propagation (folding code).code).code
  have hpeephole := weight_peephole_le (deadCode (propagation (folding code).code).code).code
  have hstrength := weight_strength_le
    (peephole (deadCode (propagation (folding code).code).code).code).code
  simp only [round, OptimizerStats.total]
  omega

/-- Every round that counts takes something away. -/
theorem rounds_add_weight_le (stats : OptimizerStats) (code : List Instr) (n : Nat) :
    (roundsFrom stats code n).2.rounds + weight (roundsFrom stats code n).1 ≤
      stats.rounds + weight code := by
  induction n generalizing stats code with
  | zero => exact Nat.le_refl _
  | succ n ih =>
    rw [roundsFrom]
    dsimp only
    split
    · rename_i hround
      exact Nat.le_of_eq (by rw [round_eq_self hround])
    · rename_i hround
      have hweight := weight_round_le code
      have hn := ih (stats.add (round code).2) (round code).1
      have hrounds : (stats.add (round code).2).rounds = stats.rounds + 1 := rfl
      omega

/-! ### Passes in any order -/

/-- The passes. -/
def passes : List (List Instr → Passed) := [folding, propagation, deadCode, peephole, strength]

/-- One of the passes makes `after` of `before`, which is other code. -/
def Alters (before after : List Instr) : Prop :=
  before ≠ after ∧ ∃ pass ∈ passes, (pass before).code = after

theorem weight_le_of_mem_passes {pass : List Instr → Passed} (h : pass ∈ passes)
    (code : List Instr) : weight (pass code).code + (pass code).changes ≤ weight code := by
  simp only [passes, List.mem_cons, List.not_mem_nil, or_false] at h
  rcases h with rfl | rfl | rfl | rfl | rfl
  · exact weight_folding_le code
  · exact weight_propagation_le code
  · exact weight_deadCode_le code
  · exact weight_peephole_le code
  · exact weight_strength_le code

theorem eq_self_of_mem_passes {pass : List Instr → Passed} (h : pass ∈ passes)
    {code : List Instr} (hzero : (pass code).changes = 0) : (pass code).code = code := by
  simp only [passes, List.mem_cons, List.not_mem_nil, or_false] at h
  rcases h with rfl | rfl | rfl | rfl | rfl
  · exact folding_eq_self hzero
  · exact propagationFrom_eq_self hzero
  · exact deadCode_eq_self hzero
  · exact peephole_eq_self hzero
  · exact strengthFrom_eq_self hzero

theorem Alters.weight_lt {before after : List Instr} (h : Alters before after) :
    weight after < weight before := by
  obtain ⟨hne, pass, hpass, rfl⟩ := h
  have hle := weight_le_of_mem_passes hpass before
  have hchanges : (pass before).changes ≠ 0 :=
    fun hzero => hne (eq_self_of_mem_passes hpass hzero).symm
  omega

/-- Passes in any order never lead back to code that they changed. -/
theorem not_transGen_alters (code : List Instr) : ¬ Relation.TransGen Alters code code := by
  have hlt : ∀ {a b : List Instr}, Relation.TransGen Alters a b → weight b < weight a := by
    intro a b h
    induction h with
    | single h => exact h.weight_lt
    | tail _ h ih => exact Nat.lt_trans h.weight_lt ih
  exact fun h => Nat.lt_irrefl _ (hlt h)

/-! ### Enough rounds -/

/-- Where a round counts no change, no pass finds anything to change. -/
theorem passes_of_total_eq_zero {code : List Instr} (h : (round code).2.total = 0)
    {pass : List Instr → Passed} (hpass : pass ∈ passes) : pass code = ⟨code, 0⟩ := by
  suffices hzero : (pass code).changes = 0 by
    calc pass code = ⟨(pass code).code, (pass code).changes⟩ := rfl
      _ = ⟨code, 0⟩ := by rw [eq_self_of_mem_passes hpass hzero, hzero]
  obtain ⟨h, hstrength⟩ := Nat.add_eq_zero_iff.1 h
  obtain ⟨h, hpeephole⟩ := Nat.add_eq_zero_iff.1 h
  obtain ⟨h, hdead⟩ := Nat.add_eq_zero_iff.1 h
  obtain ⟨hfold, hpropagate⟩ := Nat.add_eq_zero_iff.1 h
  dsimp only [round] at hfold hpropagate hdead hpeephole hstrength
  rw [folding_eq_self hfold] at hpropagate hdead hpeephole hstrength
  have hpropagation : (propagation code).code = code := propagationFrom_eq_self hpropagate
  rw [hpropagation] at hdead hpeephole hstrength
  rw [deadCode_eq_self hdead] at hpeephole hstrength
  rw [peephole_eq_self hpeephole] at hstrength
  simp only [passes, List.mem_cons, List.not_mem_nil, or_false] at hpass
  rcases hpass with rfl | rfl | rfl | rfl | rfl <;> assumption

/-- There is a number of rounds, at most nine for every instruction, such that whenever more are
allowed, the optimizer stops on its own account after at most so many, and no pass finds
anything to change in the result.  And passes in any order never lead back to code that they
changed. -/
theorem optimize_settles (c : Code) :
    (∃ bound, bound ≤ 9 * c.instrs.length ∧ ∀ n, bound < n →
      (c.optimize ⟨n⟩).2.rounds ≤ bound ∧
      ∀ pass ∈ passes, pass (c.optimize ⟨n⟩).1.instrs = ⟨(c.optimize ⟨n⟩).1.instrs, 0⟩) ∧
    ∀ code, ¬ Relation.TransGen Alters code code := by
  refine ⟨⟨weight c.instrs, weight_le c.instrs, fun n hn => ?_⟩, not_transGen_alters⟩
  have hrounds : (c.optimize ⟨n⟩).2.rounds ≤ weight c.instrs := by
    have hle := rounds_add_weight_le {} c.instrs n
    have hzero : (({} : OptimizerStats)).rounds = 0 := rfl
    change (roundsFrom {} c.instrs n).2.rounds ≤ _
    omega
  have hround : (round (c.optimize ⟨n⟩).1.instrs).2.total = 0 :=
    total_round_roundsFrom
      (Nat.lt_of_lt_of_eq (Nat.lt_of_le_of_lt hrounds hn) (Nat.zero_add n).symm)
  exact ⟨hrounds, fun pass hpass => passes_of_total_eq_zero hround hpass⟩

/-- Doubling what was read takes a round that makes a sum of the product and joins the sum with
the copy that follows. -/
theorem optimize_settles_double :
    let c : Code := ⟨[⟨.input (.temp 0) .int, 1⟩,
      ⟨.binary (.temp 1) .mul (.place (.temp 0)) (.const (.int 2)), 1⟩,
      ⟨.copy (.var ⟨"x", .global⟩) (.place (.temp 1)), 1⟩, ⟨.halt, 2⟩], []⟩
    (c.optimize ⟨37⟩).2.rounds = 1 ∧
      ∀ pass ∈ passes, pass (c.optimize ⟨37⟩).1.instrs = ⟨(c.optimize ⟨37⟩).1.instrs, 0⟩ := by
  intro c
  obtain ⟨⟨bound, hle, h⟩, -⟩ := optimize_settles c
  have hn : bound < 37 := Nat.lt_of_le_of_lt hle (by decide)
  exact ⟨by decide +kernel, (h 37 hn).2⟩

end Code

end NumericScript
