import Mathlib.Data.List.Nodup
import NumericScript.Proofs.Optimize.Converge
import NumericScript.Proofs.Optimize.Neighbours
import NumericScript.Proofs.Optimize.Strength

/-! # Labels after the passes

Passes take instructions away, labels and jumps among them, and put others in the place of some.
What stays keeps its order, its lines and its labels, and jumps nowhere else.  And the labels that
jumps and functions need stay, each once, whatever passes there are in whatever order.

* `Instr.Revises`: what a pass may make of an instruction that stays.
* `Reduces`: what passes make of code.
* `Code.Resolves`: jumps and functions find their labels.
* `Code.resolves_after`: they find them after any passes. -/

namespace NumericScript

variable {functions : List FunctionInfo} {code code' : List Instr}

/-! ### Instructions that stay -/

/-- `i'` may stand for `i`: it has the line and the label of `i`, and does not jump but where `i`
jumps. -/
structure Instr.Revises (i' i : Instr) : Prop where
  line : i'.line = i.line
  label? : i'.op.label? = i.op.label?
  target? : ∀ l, i'.op.target? = some l → i.op.target? = some l

namespace Instr.Revises

theorem refl (i : Instr) : i.Revises i := ⟨rfl, rfl, fun _ => id⟩

theorem trans {i i' i'' : Instr} (h : i''.Revises i') (h' : i'.Revises i) : i''.Revises i :=
  ⟨h.line.trans h'.line, h.label?.trans h'.label?, fun l => h'.target? l ∘ h.target? l⟩

instance : Std.Refl Instr.Revises := ⟨refl⟩

instance : IsTrans Instr Instr.Revises := ⟨fun _ _ _ => trans⟩

end Instr.Revises

/-- Instructions in their order, each in the place of one of `code`. -/
def Reduces (code' code : List Instr) : Prop := List.SublistForall₂ Instr.Revises code' code

namespace Reduces

theorem refl (code : List Instr) : Reduces code code :=
  (List.Sublist.refl code).sublistForall₂

theorem trans {code'' : List Instr} (h : Reduces code'' code') (h' : Reduces code' code) :
    Reduces code'' code :=
  List.SublistForall₂.is_trans.trans _ _ _ h h'

theorem of_sublist (h : code'.Sublist code) : Reduces code' code := h.sublistForall₂

theorem of_keepsJumps {kept : List (Option Instr)} (h : List.Forall₂ KeepsJumps code kept) :
    Reduces kept.reduceOption code := by
  induction h with
  | nil => exact .nil
  | @cons i o code kept hi _ ih =>
    cases o with
    | none => exact .cons_right ih
    | some i' => exact .cons ⟨hi.1, hi.2.1, hi.2.2⟩ ih

end Reduces

/-! ### Passes -/

theorem keepsJumps_strengthFrom (s : Scalars) (code : List Instr) :
    List.Forall₂ KeepsJumps code ((strengthFrom s code).code.map some) := by
  induction code generalizing s with
  | nil => exact .nil
  | cons i is ih =>
    unfold strengthFrom
    split
    · exact .cons (keepsJumps_cheaper (by assumption)) (ih _)
    · exact .cons ⟨rfl, rfl, fun _ => id⟩ (ih _)

theorem reduces_peephole (code : List Instr) : Reduces (peephole code).code code := by
  have hdecide : Reduces (decideBranches code).code code := by
    rw [← reduceOption_map_decideBranch]
    exact .of_keepsJumps (keepsJumps_decideBranch code)
  have hjoin : ∀ single code, Reduces (joinCopies single code) code := by
    intro single code
    rw [← reduceOption_keepJoined]
    refine .of_keepsJumps (forall₂_keepJoined (fun i _ => ⟨rfl, rfl, fun _ => id⟩) ?_)
    intro t v i _ j _ i' h
    refine ⟨⟨h.line, h.label?.2.trans h.label?.1.symm, fun l hl => ?_⟩,
      congrArg Op.label? h.copied⟩
    rw [h.target?] at hl
    cases hl
  exact (hjoin _ _).trans ((Reduces.of_sublist (dropSelfCopies_sublist _)).trans
    ((Reduces.of_sublist (dropJumpsToNext_sublist _)).trans hdecide))

namespace Code

theorem reduces_of_mem_passes {pass : List Instr → Passed} (h : pass ∈ passes)
    (code : List Instr) : Reduces (pass code).code code := by
  have hsome : ∀ {code' : List Instr}, List.Forall₂ KeepsJumps code (code'.map some) →
      Reduces code' code := fun {code'} h => by
    have hr := Reduces.of_keepsJumps h
    rwa [reduceOption_map_some] at hr
  simp only [passes, List.mem_cons, List.not_mem_nil, or_false] at h
  rcases h with rfl | rfl | rfl | rfl | rfl
  · exact hsome (keepsJumps_folding code)
  · exact hsome (keepsJumps_propagation code)
  · exact .of_sublist (deadCode_sublist code)
  · exact reduces_peephole code
  · exact hsome (keepsJumps_strengthFrom .none code)

theorem linked_of_mem_passes {pass : List Instr → Passed} (h : pass ∈ passes)
    (hf : ∀ f ∈ functions, ∃ name, f.label = .function name) (hl : Linked functions code) :
    Linked functions (pass code).code := by
  suffices hp : Preserves functions {} (fun _ => False) (fun _ => False) code (pass code).code from
    hp.linked hl
  simp only [passes, List.mem_cons, List.not_mem_nil, or_false] at h
  rcases h with rfl | rfl | rfl | rfl | rfl
  · exact preserves_folding rfl code
  · exact preserves_propagation rfl code
  · exact preserves_deadCode rfl hf code
  · exact preserves_peephole rfl code
  · exact preserves_strength rfl code

/-! ### Passes in turn -/

/-- Code after passes, from the first to the last. -/
def after (c : Code) (turn : List (List Instr → Passed)) : Code :=
  { c with instrs := turn.foldl (fun code pass => (pass code).code) c.instrs }

/-- All labels that are needed are there, each once. -/
structure Resolves (c : Code) : Prop where
  labels : ∃ found, c.labels = .ok found
  jumps : ∀ i ∈ c.instrs, ∀ l, i.op.target? = some l → (labelsIn c.instrs).count l = 1
  entries : ∀ f ∈ c.functions, (labelsIn c.instrs).count f.label = 1

theorem exists_labels_iff {c : Code} :
    (∃ found, c.labels = .ok found) ↔ Linked c.functions c.instrs := by
  have himage := @ofCode_eq_ok_iff c {}
  unfold Image.ofCode at himage
  cases hl : c.labels with
  | error e =>
    refine ⟨nofun, fun h => ?_⟩
    have := himage.2 ⟨h, rfl⟩
    rw [hl] at this
    cases this
  | ok found =>
    rw [hl] at himage
    exact ⟨fun _ => (himage.1 rfl).1, fun _ => ⟨found, rfl⟩⟩

theorem Resolves.of_linked {c : Code} (h : Linked c.functions c.instrs) : c.Resolves where
  labels := exists_labels_iff.2 h
  jumps i hi l hl := List.count_eq_one_of_mem h.distinct (h.targets i hi l hl)
  entries f hf := List.count_eq_one_of_mem h.distinct (h.entries f hf)

/-- What one pass keeps, passes in turn keep. -/
theorem linked_after {c : Code} (hf : ∀ f ∈ c.functions, ∃ name, f.label = .function name)
    {turn : List (List Instr → Passed)} (hturn : ∀ pass ∈ turn, pass ∈ passes)
    (hl : Linked c.functions c.instrs) :
    Linked c.functions (c.after turn).instrs ∧ Reduces (c.after turn).instrs c.instrs := by
  induction turn generalizing c with
  | nil => exact ⟨hl, .refl _⟩
  | cons pass turn ih =>
    obtain ⟨hpass, hturn⟩ := List.forall_mem_cons.1 hturn
    have hnext := linked_of_mem_passes hpass hf hl
    obtain ⟨hlast, hr⟩ := ih (c := c.after [pass]) hf hturn hnext
    exact ⟨hlast, hr.trans (reduces_of_mem_passes hpass c.instrs)⟩

/-- Rounds are passes in turn. -/
theorem exists_roundsFrom (stats : OptimizerStats) (c : Code) (n : Nat) : ∃ k ≤ n,
    (roundsFrom stats c.instrs n).1 = (c.after (List.replicate k passes).flatten).instrs := by
  induction n generalizing stats c with
  | zero => exact ⟨0, Nat.le_refl 0, rfl⟩
  | succ n ih =>
    have hround : (round c.instrs).1 = (c.after passes).instrs := rfl
    rw [roundsFrom]
    dsimp only
    split
    · exact ⟨1, by omega, hround⟩
    · obtain ⟨k, hk, h⟩ := ih (stats.add (round c.instrs).2) (c.after passes)
      refine ⟨k + 1, by omega, hround ▸ h.trans ?_⟩
      simp only [after, List.replicate_succ, List.flatten_cons, List.foldl_append]

/-- Where labels resolve and functions have labels of functions, labels resolve after any passes in
any order, and so after any number of rounds.  Each jump that stays finds its label, once, and so
does every function.  No instruction is new, and those that stay keep their order, their lines and
their labels. -/
theorem resolves_after {c : Code} {found : Labels} (hl : c.labels = .ok found)
    (hf : ∀ f ∈ c.functions, ∃ name, f.label = .function name) :
    (∀ turn, (∀ pass ∈ turn, pass ∈ passes) →
      (c.after turn).Resolves ∧ Reduces (c.after turn).instrs c.instrs) ∧
    ∀ settings : OptimizerSettings,
      (∃ n ≤ settings.maxRounds,
        (c.optimize settings).1 = c.after (List.replicate n passes).flatten) ∧
      (c.optimize settings).1.Resolves ∧ Reduces (c.optimize settings).1.instrs c.instrs := by
  have hlinked := exists_labels_iff.1 ⟨found, hl⟩
  have hafter : ∀ turn, (∀ pass ∈ turn, pass ∈ passes) →
      (c.after turn).Resolves ∧ Reduces (c.after turn).instrs c.instrs := by
    intro turn hturn
    obtain ⟨hl, hr⟩ := linked_after hf hturn hlinked
    exact ⟨.of_linked hl, hr⟩
  refine ⟨hafter, fun settings => ?_⟩
  obtain ⟨n, hn, h⟩ := exists_roundsFrom {} c settings.maxRounds
  have hoptimize : (c.optimize settings).1 = c.after (List.replicate n passes).flatten :=
    congrArg (fun instrs => { c with instrs := instrs }) h
  refine ⟨⟨n, hn, hoptimize⟩, hoptimize ▸ hafter _ fun pass hpass => ?_⟩
  obtain ⟨turn, hturn, hpass⟩ := List.mem_flatten.1 hpass
  exact List.eq_of_mem_replicate hturn ▸ hpass

/-- Code with a branch that is never taken, and a function with a loop. -/
def branching : Code where
  instrs := [⟨.jumpIfFalse (.const (.bool true)) (.local 0), 1⟩, ⟨.call (.user "f") 0, 2⟩,
    ⟨.jump (.local 1), 2⟩, ⟨.label (.local 0), 1⟩, ⟨.print (.const (.int 1)) true, 3⟩,
    ⟨.label (.local 1), 1⟩, ⟨.halt, 4⟩, ⟨.label (.function "f"), 5⟩, ⟨.label (.local 2), 6⟩,
    ⟨.jumpIfFalse (.place (.var ⟨"x", .global⟩)) (.local 3), 6⟩, ⟨.jump (.local 2), 6⟩,
    ⟨.label (.local 3), 6⟩, ⟨.return none, 5⟩]
  functions := [⟨"f", .function "f", [], false, 5⟩]

/-- A pass that simplifies neighbours takes the branch away, one that takes dead code away its label
with what follows, and the former then a jump to what comes next.  The labels in the function stay
where they are needed. -/
theorem resolves_after_branching : (∃ found, branching.labels = .ok found) ∧
    (branching.after [peephole, deadCode, peephole]).Resolves ∧
    (labelsIn (branching.after [peephole, deadCode, peephole]).instrs) =
      [.local 1, .function "f", .local 2, .local 3] ∧
    (branching.optimize {}).1.Resolves := by
  obtain ⟨found, hl⟩ : ∃ found, branching.labels = .ok found := ⟨_, rfl⟩
  obtain ⟨hafter, hoptimize⟩ := resolves_after hl (by simp [branching])
  refine ⟨⟨found, hl⟩, (hafter _ ?_).1, by decide +kernel, (hoptimize {}).2.1⟩
  simp [passes]

end Code

end NumericScript
