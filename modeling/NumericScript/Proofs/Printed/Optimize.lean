import NumericScript.Proofs.Optimize.Rounds
import NumericScript.Proofs.Printed.Ruled

/-! # Lines in optimized code

The optimizer takes whole lines away, where control never comes, and nothing else of what is
printed; and it brings nothing between the instructions of a line that would not belong there.

* `KeepsLine`: what a pass may make of an instruction of a line.
* `Ruled.of_keepsLine`: that lines stay lines.
* `KeepsRuled`: passes that keep lines, and `keepsRuled_round`: that the optimizer does. -/

namespace NumericScript

/-- How an operation that prints ends what it prints. -/
def Op.newline? : Op → Option Bool
  | .print _ newline => some newline
  | _ => none

theorem Op.isPrint_eq (op : Op) : op.isPrint = op.newline?.isSome := by
  cases op <;> rfl

theorem Op.isPrint_of_dest? {op : Op} {d : Place} (h : op.dest? = some d) :
    op.isPrint = false := by
  cases op <;> first | rfl | cases h

theorem Op.isPrint_of_tempWritten? {op : Op} {t : Nat} (h : op.tempWritten? = some t) :
    op.isPrint = false := by
  cases op <;> first | rfl | cases h

theorem Op.isPrint_withDest (d : Place) (op : Op) : (op.withDest d).isPrint = op.isPrint := by
  cases op <;> rfl

/-- What a pass makes of an instruction: nothing if it prints nothing, or an instruction that prints
with the same end, if any, and stands in a line as well. -/
def KeepsLine (i : Instr) : Option Instr → Prop
  | none => i.op.isPrint = false
  | some i' => i'.op.newline? = i.op.newline? ∧ (i.op.isInline = true → i'.op.isInline = true)

theorem KeepsLine.refl (i : Instr) : KeepsLine i (some i) := ⟨rfl, id⟩

theorem KeepsLine.of_inline {i i' : Instr} (h : i.op.isPrint = false)
    (h' : i'.op.isInline = true) : KeepsLine i (some i') := by
  obtain ⟨-, -, hprint⟩ := Op.isInline_iff.1 h'
  rw [Op.isPrint_eq, Option.isSome_eq_false_iff, Option.isNone_iff_eq_none] at h hprint
  exact ⟨hprint.trans h.symm, fun _ => h'⟩

variable {code code' is is' : List Instr} {kept : List (Option Instr)}
  {lines lines' : List (List Phrase)} {line : List Phrase} {i : Instr}

theorem exists_of_keepsLine_append (h : List.Forall₂ KeepsLine (is ++ is') kept) :
    ∃ first last, kept = first ++ last ∧ List.Forall₂ KeepsLine is first ∧
      List.Forall₂ KeepsLine is' last := by
  induction is generalizing kept with
  | nil => exact ⟨[], kept, rfl, .nil, h⟩
  | cons i is ih =>
    cases h with
    | cons hi h =>
      obtain ⟨first, last, rfl, hfirst, hlast⟩ := ih h
      exact ⟨_ :: first, last, rfl, .cons hi hfirst, hlast⟩

/-- A phrase stays a phrase. -/
theorem exists_phrase_of_keepsLine {ph : Phrase} {newline : Bool}
    (h : List.Forall₂ KeepsLine (ph.instrs newline) kept) :
    ∃ ph' : Phrase, ph'.instrs newline = kept.reduceOption := by
  obtain ⟨first, last, rfl, hfirst, hlast⟩ := exists_of_keepsLine_append h
  have hinline : ∀ i ∈ first.reduceOption, i.op.isInline = true := by
    intro i' hi'
    obtain ⟨i, hi, hkeep⟩ := exists_of_mem_reduceOption hfirst hi'
    exact hkeep.2 (ph.inline i hi)
  cases hlast with
  | @cons _ o _ _ ho hnil =>
    cases hnil
    cases o with
    | none => cases ho
    | some i' =>
      obtain ⟨op, number⟩ := i'
      cases op <;> cases ho.1
      exact ⟨⟨_, _, _, hinline⟩, by rw [List.reduceOption_append]; rfl⟩

/-- A line stays a line with as many phrases. -/
theorem exists_line_of_keepsLine (h : List.Forall₂ KeepsLine (lineCode line) kept) :
    ∃ line', lineCode line' = kept.reduceOption ∧ line'.length = line.length := by
  induction line generalizing kept with
  | nil =>
    cases h
    exact ⟨[], rfl, rfl⟩
  | cons ph rest ih =>
    obtain ⟨first, last, rfl, hfirst, hlast⟩ := exists_of_keepsLine_append h
    obtain ⟨ph', hph'⟩ := exists_phrase_of_keepsLine hfirst
    obtain ⟨rest', hrest', hlen⟩ := ih hlast
    refine ⟨ph' :: rest', ?_, congrArg (· + 1) hlen⟩
    have hempty : rest'.isEmpty = rest.isEmpty := by
      cases rest' <;> cases rest <;> first | rfl | cases hlen
    rw [lineCode, hempty, hph', hrest', List.reduceOption_append]

/-! ### Passes -/

/-- Code in which there are lines where there were some with as many phrases, but perhaps not all of
them. -/
def KeepsRuled (code code' : List Instr) : Prop :=
  ∀ lines, Ruled code lines →
    ∃ lines', Ruled code' lines' ∧ (lines'.map List.length).Sublist (lines.map List.length)

namespace KeepsRuled

theorem refl (code : List Instr) : KeepsRuled code code := fun lines h => ⟨lines, h, .refl _⟩

theorem trans {code'' : List Instr} (h : KeepsRuled code code') (h' : KeepsRuled code' code'') :
    KeepsRuled code code'' := by
  intro lines hlines
  obtain ⟨lines', hlines', hsub⟩ := h lines hlines
  obtain ⟨lines'', hlines'', hsub'⟩ := h' lines' hlines'
  exact ⟨lines'', hlines'', hsub'.trans hsub⟩

/-- Lines stay where every instruction is kept in a line. -/
theorem of_keepsLine (hkept : List.Forall₂ KeepsLine code kept) :
    KeepsRuled code kept.reduceOption := by
  intro lines h
  induction h generalizing kept with
  | nil =>
    cases hkept
    exact ⟨[], .nil, .refl _⟩
  | other hi _ ih =>
    cases hkept with
    | @cons _ o _ kept ho hkept =>
      obtain ⟨lines', hlines', hsub⟩ := ih hkept
      refine ⟨lines', ?_, hsub⟩
      cases o with
      | none => exact hlines'
      | some i' =>
        refine hlines'.other ?_
        rw [Op.isPrint_eq] at hi ⊢
        rw [ho.1, hi]
  | line hline _ ih =>
    obtain ⟨first, last, rfl, hfirst, hlast⟩ := exists_of_keepsLine_append hkept
    obtain ⟨line', hline', hlen⟩ := exists_line_of_keepsLine hfirst
    obtain ⟨lines', hlines', hsub⟩ := ih hlast
    have hne : line' ≠ [] := by
      rintro rfl
      exact hline (List.length_eq_zero_iff.1 hlen.symm)
    refine ⟨line' :: lines', ?_, ?_⟩
    · rw [List.reduceOption_append, ← hline']
      exact hlines'.line hne
    · rw [List.map_cons, List.map_cons, hlen]
      exact hsub.cons_cons _

/-- Lines stay where every instruction is replaced by one for a line. -/
theorem of_forall₂ (h : List.Forall₂ (fun i i' => KeepsLine i (some i')) code code') :
    KeepsRuled code code' := by
  have hkept : (code'.map some).reduceOption = code' := by simp [List.reduceOption]
  rw [← hkept]
  exact of_keepsLine (List.forall₂_map_right_iff.2 h)

/-- Lines stay where only instructions go that print nothing. -/
theorem of_filter {p : Instr → Bool} (h : ∀ i ∈ code, p i = false → i.op.isPrint = false) :
    KeepsRuled code (code.filter p) := by
  rw [← reduceOption_keepIf]
  refine of_keepsLine (forall₂_keepIf fun i hi => ?_)
  split
  · exact .refl i
  · exact h i hi (by simpa using ‹¬ p i = true›)

end KeepsRuled

/-! ### Constants and cheaper operations -/

theorem keepsLine_fold (i : Instr) : KeepsLine i (some { i with op := i.op.fold }) := by
  unfold Op.fold
  cases h : i.op.fold? with
  | none => exact .refl i
  | some op =>
    obtain ⟨d, c, rfl, hd, -⟩ := exists_of_fold? h
    exact .of_inline (Op.isPrint_of_dest? hd) rfl

theorem keepsRuled_folding (code : List Instr) : KeepsRuled code (folding code).code := by
  refine .of_forall₂ ?_
  rw [folding, List.forall₂_map_right_iff, List.forall₂_same]
  exact fun i _ => keepsLine_fold i

theorem keepsLine_propagate (facts : Facts) (i : Instr) :
    KeepsLine i (some { i with op := i.op.propagate facts }) := by
  obtain ⟨op, line⟩ := i
  cases op with
  | copy d s =>
    refine .of_inline rfl ?_
    dsimp only [Op.propagate, Op.mapOperands]
    cases facts.replace s <;> rfl
  | _ => exact ⟨rfl, id⟩

theorem keepsRuled_propagation (code : List Instr) : KeepsRuled code (propagation code).code := by
  refine .of_forall₂ ?_
  unfold propagation
  generalize ([] : Facts) = facts
  induction code generalizing facts with
  | nil => exact .nil
  | cons i is ih => exact .cons (keepsLine_propagate facts i) (ih _)

theorem keepsRuled_strength (code : List Instr) : KeepsRuled code (strength code).code := by
  refine .of_forall₂ ?_
  unfold strength
  generalize Scalars.none = s
  induction code generalizing s with
  | nil => exact .nil
  | cons i is ih =>
    rw [strengthFrom]
    split
    · rename_i op h
      obtain ⟨d, f, l, r, hi, hc⟩ := cheaper_of_cheaper? h
      obtain ⟨o, c, -, -, hr⟩ := hc.exists_operand
      exact .cons (.of_inline (by rw [hi]; rfl) (by cases hr <;> rfl)) (ih _)
    · exact .cons (.refl i) (ih _)

/-! ### Dead code -/

theorem dropUnreachable_append (h : ∀ i ∈ is, i.op.isStraight = true ∧ i.op.label? = none)
    (is' : List Instr) :
    dropUnreachable true (is ++ is') = is ++ dropUnreachable true is' ∧
      dropUnreachable false (is ++ is') = dropUnreachable false is' := by
  induction is with
  | nil => exact ⟨rfl, rfl⟩
  | cons i is ih =>
    obtain ⟨⟨hstraight, hlabel⟩, his⟩ := List.forall_mem_cons.1 h
    obtain ⟨hreached, hunreached⟩ := ih his
    have hends : i.op.endsBlock = false := by
      rw [Op.isStraight, Bool.and_eq_true, Bool.not_eq_true'] at hstraight
      exact hstraight.2
    simp [dropUnreachable, hlabel, hends, hreached, hunreached]

/-- Where control never comes, it comes to no instruction of a line. -/
theorem keepsRuled_dropUnreachable (code : List Instr) :
    KeepsRuled code (dropUnreachable true code) := by
  intro lines h
  generalize true = reached
  induction h generalizing reached with
  | nil => exact ⟨[], .nil, .refl _⟩
  | other hi _ ih =>
    rw [dropUnreachable]
    split
    · obtain ⟨lines', hlines', hsub⟩ := ih true
      exact ⟨lines', hlines'.other hi, hsub⟩
    · split
      · obtain ⟨lines', hlines', hsub⟩ := ih _
        exact ⟨lines', hlines'.other hi, hsub⟩
      · exact ih false
  | @line line is lines hline _ ih =>
    obtain ⟨hreached, hunreached⟩ :=
      dropUnreachable_append (fun i hi => isStraight_of_mem_lineCode hi) is
    cases reached with
    | true =>
      obtain ⟨lines', hlines', hsub⟩ := ih true
      exact ⟨line :: lines', hreached ▸ hlines'.line hline, hsub.cons_cons _⟩
    | false =>
      obtain ⟨lines', hlines', hsub⟩ := ih false
      exact ⟨lines', hunreached ▸ hlines', hsub.cons _⟩

theorem keepsRuled_dropUnusedLabels (code : List Instr) :
    KeepsRuled code (dropUnusedLabels code) := by
  refine .of_filter fun i _ hi => ?_
  obtain ⟨l, hop, -⟩ := exists_of_isUsed_eq_false hi
  rw [hop]
  rfl

theorem keepsRuled_dropIdle (code : List Instr) : KeepsRuled code (dropIdle code) := by
  refine .of_filter fun i _ hi => ?_
  obtain ⟨t, ht, -⟩ := exists_tempWritten?_of_isIdle (Bool.not_eq_eq_eq_not.1 hi)
  exact Op.isPrint_of_tempWritten? ht

theorem keepsRuled_dropAllIdle (code : List Instr) : KeepsRuled code (dropAllIdle code) := by
  fun_induction dropAllIdle code with
  | case1 code less _ ih => exact (keepsRuled_dropIdle code).trans ih
  | case2 code less _ => exact .refl code

theorem keepsRuled_deadCode (code : List Instr) : KeepsRuled code (deadCode code).code :=
  ((keepsRuled_dropUnreachable code).trans (keepsRuled_dropUnusedLabels _)).trans
    (keepsRuled_dropAllIdle _)

/-! ### Neighbours -/

theorem keepsRuled_decideBranches (code : List Instr) :
    KeepsRuled code (decideBranches code).code := by
  rw [← reduceOption_map_decideBranch]
  refine .of_keepsLine ?_
  rw [List.forall₂_map_right_iff, List.forall₂_same]
  intro i _
  obtain h | ⟨l, hop, h⟩ | ⟨l, hop, h⟩ := decideBranch_cases i <;> rw [h]
  · exact .refl i
  · exact congrArg Op.isPrint hop
  · unfold KeepsLine
    rw [hop]
    exact ⟨rfl, nofun⟩

theorem keepsRuled_dropJumpsToNext (code : List Instr) :
    KeepsRuled code (dropJumpsToNext code) := by
  rw [← reduceOption_keepDetours]
  exact .of_keepsLine (forall₂_keepDetours .refl (fun _ _ hop => congrArg Op.isPrint hop) code)

theorem keepsRuled_dropSelfCopies (code : List Instr) : KeepsRuled code (dropSelfCopies code) := by
  refine .of_filter fun i _ hi => ?_
  obtain ⟨d, hop⟩ := exists_of_isSelfCopy (Bool.not_eq_eq_eq_not.1 hi)
  rw [hop]
  rfl

theorem keepsRuled_spareTemps (code : List Instr) : KeepsRuled code (spareTemps code) := by
  unfold spareTemps
  rw [← reduceOption_keepJoined]
  refine .of_keepsLine (forall₂_keepJoined (fun i _ => .refl i) fun t v i _ j _ i' h => ⟨?_, ?_⟩)
  · have hi := Op.isPrint_of_tempWritten? h.written
    refine .of_inline hi (Op.isInline_iff.2 ⟨h.isStraight, h.label?.2, ?_⟩)
    rw [h.result, Op.isPrint_withDest, hi]
  · exact congrArg Op.isPrint h.copied

theorem keepsRuled_peephole (code : List Instr) : KeepsRuled code (peephole code).code :=
  (((keepsRuled_decideBranches code).trans (keepsRuled_dropJumpsToNext _)).trans
    (keepsRuled_dropSelfCopies _)).trans (keepsRuled_spareTemps _)

/-! ### The optimizer -/

theorem keepsRuled_round (code : List Instr) : KeepsRuled code (Code.round code).1 :=
  ((((keepsRuled_folding code).trans (keepsRuled_propagation _)).trans
    (keepsRuled_deadCode _)).trans (keepsRuled_peephole _)).trans (keepsRuled_strength _)

theorem keepsRuled_rounds (stats : OptimizerStats) (code : List Instr) (n : Nat) :
    KeepsRuled code (Code.roundsFrom stats code n).1 := by
  induction n generalizing stats code with
  | zero => exact .refl code
  | succ n ih =>
    rw [Code.roundsFrom]
    dsimp only
    split
    · exact keepsRuled_round code
    · exact (keepsRuled_round code).trans (ih _ _)

/-- Optimized code holds lines as the code before does. -/
theorem keepsRuled_optimized (s : Settings) (c : Code) :
    KeepsRuled c.instrs (s.optimized c).1.instrs := by
  unfold Settings.optimized
  split
  · exact keepsRuled_rounds {} c.instrs s.optimizer.maxRounds
  · exact .refl _

end NumericScript
