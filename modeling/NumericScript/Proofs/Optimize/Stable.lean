import NumericScript.Proofs.Optimize.Compiled

/-! # Code that is optimized already

A pass that counts no change has made none.  So once a round counts no change, the code stays as
it is in every further round, and optimizing it again has no effect.  That a round counts no
change is certain only if the optimizer stopped on its own account: a long enough chain of
constants that depend on each other takes more rounds than are allowed.

* `Code.round_eq_self`: a round without changes.
* `Code.optimize_optimize`: optimizing twice is optimizing once with as many rounds as both.
* `optimize_compiled`: what compiles is not changed by optimizing it again, unless the number of
  rounds was exhausted. -/

namespace NumericScript

/-! ### Passes without changes -/

theorem folding_eq_self {code : List Instr} (h : (folding code).changes = 0) :
    (folding code).code = code := by
  have hfold : ∀ i ∈ code, i.op.fold?.isSome = false := by
    simpa [folding, List.countP_eq_zero] using h
  refine (List.map_congr_left fun i hi => ?_).trans (List.map_id code)
  have hnone : i.op.fold? = none := Option.not_isSome_iff_eq_none.1 (by simp [hfold i hi])
  simp [Op.fold, hnone]

theorem Op.mapOperands_eq_self {g : Operand → Operand} {op : Op} (h : ∀ o ∈ op.operands, g o = o) :
    op.mapOperands g = op := by
  cases op with
  | «return» o => cases o <;> simp_all [mapOperands, operands]
  | load d b r c => cases c <;> simp_all [mapOperands, operands]
  | store b r c v => cases c <;> simp_all [mapOperands, operands]
  | _ => simp_all [mapOperands, operands]

theorem Op.propagate_eq_self {facts : Facts} {op : Op} (h : op.propagations facts = 0) :
    op.propagate facts = op := by
  obtain ⟨hcount, hcopies⟩ := Nat.add_eq_zero_iff.1 h
  have hmap : op.mapOperands facts.replace = op := by
    refine mapOperands_eq_self fun o ho => ?_
    have hknown := List.countP_eq_zero.1 hcount o ho
    cases hk : facts.known? o with
    | none => rw [Facts.replace, hk]
    | some c => simp [hk] at hknown
  have hcopy : op.copiesConstant = false := by
    simpa [hmap] using hcopies
  rw [propagate, hmap]
  unfold settle
  split
  · cases hcopy
  · rfl

theorem propagationFrom_eq_self {facts : Facts} {code : List Instr}
    (h : (propagationFrom facts code).changes = 0) : (propagationFrom facts code).code = code := by
  induction code generalizing facts with
  | nil => rfl
  | cons i is ih =>
    obtain ⟨hop, hrest⟩ := Nat.add_eq_zero_iff.1 h
    have hop : i.op.propagate facts = i.op := Op.propagate_eq_self hop
    rw [hop] at hrest
    rw [propagationFrom, hop]
    exact congrArg (i :: ·) (ih hrest)

/-- A pass that only takes instructions away, and takes none, leaves code as it is. -/
theorem ofRemoval_eq_self {before after : List Instr} (hs : after.Sublist before)
    (h : (Passed.ofRemoval before after).changes = 0) : after = before := by
  refine hs.eq_of_length_le ?_
  have : before.length - after.length = 0 := h
  omega

theorem length_joinCopies_le (single : Nat → Bool) (code : List Instr) :
    (joinCopies single code).length ≤ code.length := by
  fun_induction joinCopies single code <;> simp <;> omega

theorem joinCopies_eq_self {single : Nat → Bool} {code : List Instr}
    (h : code.length ≤ (joinCopies single code).length) : joinCopies single code = code := by
  fun_induction joinCopies single code with
  | case1 i j is k hk ih =>
    have := length_joinCopies_le single is
    simp only [List.length_cons] at h
    omega
  | case2 i j is hk ih =>
    exact congrArg (i :: ·) (ih (by simpa using h))
  | case3 code hcode => rfl

theorem deadCode_eq_self {code : List Instr} (h : (deadCode code).changes = 0) :
    (deadCode code).code = code :=
  ofRemoval_eq_self (deadCode_sublist code) h

theorem decideBranches_eq_self {code : List Instr} (h : (decideBranches code).changes = 0) :
    (decideBranches code).code = code := by
  have hdecided : ∀ i ∈ code, i.op.isDecided = false := by
    simpa [decideBranches, List.countP_eq_zero] using h
  refine (List.filterMap_congr fun i hi => ?_).trans List.filterMap_some
  have := hdecided i hi
  unfold decideBranch
  split <;> simp_all [Op.isDecided]

theorem peephole_eq_self {code : List Instr} (h : (peephole code).changes = 0) :
    (peephole code).code = code := by
  obtain ⟨h, hspare⟩ := Nat.add_eq_zero_iff.1 h
  obtain ⟨h, hcopies⟩ := Nat.add_eq_zero_iff.1 h
  obtain ⟨hbranches, hjumps⟩ := Nat.add_eq_zero_iff.1 h
  have hbranches := decideBranches_eq_self hbranches
  have hjumps := ofRemoval_eq_self (dropJumpsToNext_sublist _) hjumps
  have hcopies := ofRemoval_eq_self (dropSelfCopies_sublist _) hcopies
  have hspare : spareTemps _ = _ := joinCopies_eq_self (Nat.le_of_sub_eq_zero hspare)
  exact hspare.trans (hcopies.trans (hjumps.trans hbranches))

theorem strengthFrom_eq_self {s : Scalars} {code : List Instr}
    (h : (strengthFrom s code).changes = 0) : (strengthFrom s code).code = code := by
  induction code generalizing s with
  | nil => rfl
  | cons i is ih =>
    rw [strengthFrom] at *
    cases hop : i.op.cheaper? s with
    | some op => simp [hop] at h
    | none =>
      simp only [hop] at h ⊢
      exact congrArg (i :: ·) (ih h)

/-! ### Rounds -/

namespace Code

/-- A round that counts no change makes none. -/
theorem round_eq_self {code : List Instr} (h : (round code).2.total = 0) :
    (round code).1 = code := by
  obtain ⟨h, hstrength⟩ := Nat.add_eq_zero_iff.1 h
  obtain ⟨h, hpeephole⟩ := Nat.add_eq_zero_iff.1 h
  obtain ⟨h, hdead⟩ := Nat.add_eq_zero_iff.1 h
  obtain ⟨hfold, hpropagate⟩ := Nat.add_eq_zero_iff.1 h
  have hfold := folding_eq_self hfold
  have hpropagate := propagationFrom_eq_self hpropagate
  have hdead := deadCode_eq_self hdead
  have hpeephole := peephole_eq_self hpeephole
  have hstrength := strengthFrom_eq_self hstrength
  exact hstrength.trans (hpeephole.trans (hdead.trans (hpropagate.trans hfold)))

/-- Rounds without changes leave code as it is. -/
theorem roundsFrom_eq_self {code : List Instr} (h : (round code).2.total = 0)
    (stats : OptimizerStats) (n : Nat) : roundsFrom stats code n = (code, stats) := by
  cases n with
  | zero => rfl
  | succ n =>
    rw [roundsFrom]
    dsimp only
    rw [if_pos h, round_eq_self h]

/-- The code after some rounds does not depend on what was counted before. -/
theorem roundsFrom_code (stats stats' : OptimizerStats) (code : List Instr) (n : Nat) :
    (roundsFrom stats code n).1 = (roundsFrom stats' code n).1 := by
  induction n generalizing stats stats' code with
  | zero => rfl
  | succ n ih =>
    simp only [roundsFrom]
    split
    · rfl
    · exact ih _ _ _

/-- If there were fewer rounds with changes than allowed, a further one makes no change. -/
theorem total_round_roundsFrom {stats : OptimizerStats} {code : List Instr} {n : Nat}
    (h : (roundsFrom stats code n).2.rounds < stats.rounds + n) :
    (round (roundsFrom stats code n).1).2.total = 0 := by
  induction n generalizing stats code with
  | zero => exact absurd h (Nat.lt_irrefl _)
  | succ n ih =>
    rw [roundsFrom] at h ⊢
    dsimp only at h ⊢
    split at h
    · rename_i hround
      rw [if_pos hround, round_eq_self hround]
      exact hround
    · rename_i hround
      rw [if_neg hround]
      have hrounds : (stats.add (round code).2).rounds = stats.rounds + 1 := rfl
      exact ih (by omega)

/-- Rounds after rounds are as many rounds as both. -/
theorem roundsFrom_roundsFrom (stats stats' : OptimizerStats) (code : List Instr) (m n : Nat) :
    (roundsFrom stats' (roundsFrom stats code m).1 n).1 = (roundsFrom stats code (m + n)).1 := by
  induction m generalizing stats code with
  | zero => rw [Nat.zero_add]; exact roundsFrom_code _ _ _ _
  | succ m ih =>
    rw [Nat.succ_add, roundsFrom, roundsFrom]
    dsimp only
    split
    · rename_i hround
      rw [round_eq_self hround, roundsFrom_eq_self hround]
    · exact ih _ _

/-- Optimizing twice is optimizing once with as many rounds as both. -/
theorem optimize_optimize (c : Code) (m n : Nat) :
    ((c.optimize ⟨m⟩).1.optimize ⟨n⟩).1 = (c.optimize ⟨m + n⟩).1 :=
  congrArg (Code.mk · c.functions) (roundsFrom_roundsFrom {} {} c.instrs m n)

/-- Optimizing again has no effect if there were fewer rounds with changes than allowed. -/
theorem optimize_eq_self {c : Code} {m : Nat} (h : (c.optimize ⟨m⟩).2.rounds < m) (n : Nat) :
    (c.optimize ⟨m⟩).1.optimize ⟨n⟩ = ((c.optimize ⟨m⟩).1, {}) := by
  have hround : (round (c.optimize ⟨m⟩).1.instrs).2.total = 0 :=
    total_round_roundsFrom (Nat.lt_of_lt_of_eq h (Nat.zero_add m).symm)
  rw [optimize, roundsFrom_eq_self hround]

end Code

/-! ### Compiled programs -/

/-- Optimizing a compiled program again has no effect if the optimizer had not used up its
rounds, and otherwise goes on where it stopped. -/
theorem optimize_compiled (source : String) (hs : (compile source {}).succeeded = true) :
    ∃ raw optimized stats, (compile source {}).code = some raw ∧
      (compile source {}).optimized = some optimized ∧ (compile source {}).stats = some stats ∧
      (stats.rounds < 16 → optimized.optimize {} = (optimized, {})) ∧
      (optimized.optimize {}).1 = (raw.optimize ⟨32⟩).1 := by
  obtain ⟨p, raw, -, -, hraw, hoptimized, hstats⟩ := exists_of_succeeded hs
  have hopt : Settings.optimized {} raw = raw.optimize ⟨16⟩ := rfl
  rw [hopt] at hoptimized hstats
  refine ⟨raw, _, _, hraw, hoptimized, hstats, fun h => ?_, ?_⟩
  · exact Code.optimize_eq_self h 16
  · exact Code.optimize_optimize raw 16 16

/-- A program that takes two rounds. -/
theorem optimize_compiled_sum : (compile "print 1 + 2 * 3" {}).succeeded = true ∧
    (compile "print 1 + 2 * 3" {}).stats.map (·.rounds) = some 2 ∧
    ∃ raw optimized stats, (compile "print 1 + 2 * 3" {}).code = some raw ∧
      (compile "print 1 + 2 * 3" {}).optimized = some optimized ∧
      (compile "print 1 + 2 * 3" {}).stats = some stats ∧
      (stats.rounds < 16 → optimized.optimize {} = (optimized, {})) ∧
      (optimized.optimize {}).1 = (raw.optimize ⟨32⟩).1 :=
  have hs : (compile "print 1 + 2 * 3" {}).succeeded = true := by decide +kernel
  ⟨hs, by decide +kernel, optimize_compiled "print 1 + 2 * 3" hs⟩

/-- Seventeen operations of which each needs the result of the one before take seventeen
rounds, so optimizing again makes changes. -/
theorem not_optimize_compiled_chain : ¬ ∀ source, (compile source {}).succeeded = true →
    ∀ optimized, (compile source {}).optimized = some optimized →
      (optimized.optimize {}).2.total = 0 ∧ (optimized.optimize {}).1 = optimized := by
  intro h
  have hs : (compile "print -----------------1" {}).succeeded = true := by decide +kernel
  have ht : (compile "print -----------------1" {}).optimized.map
      (fun c => (c.optimize {}).2.total) = some 3 := by decide +kernel
  obtain ⟨optimized, ho, ht⟩ := Option.map_eq_some_iff.1 ht
  have hzero := (h _ hs optimized ho).1
  rw [ht] at hzero
  cases hzero

end NumericScript
