import NumericScript.Code.Error
import NumericScript.Store

/-! # Labels and their positions

The machine jumps to positions.  `Code.labels` finds the position of every label, provided
that no label is there twice and that none is missing.

* `Code.mem_positions`: a position is that of the label found there. -/

namespace NumericScript

/-- The positions of labels. -/
abbrev Labels := Store Label Nat

namespace Code

/-- The labels among instructions of which the first is at `index`, with their positions. -/
def positions (index : Nat) : List Instr → Labels
  | [] => []
  | i :: is =>
    match i.op.label? with
    | some l => (l, index) :: positions (index + 1) is
    | none => positions (index + 1) is

/-- The labels that the code needs: the targets of jumps, and those of functions. -/
def needed (c : Code) : List Label :=
  c.instrs.filterMap (·.op.target?) ++ c.functions.map (·.label)

/-- The first label that is in `seen` or was there before. -/
def firstRepeat (seen : List Label) : List Label → Option Label
  | [] => none
  | l :: ls => if l ∈ seen then some l else firstRepeat (l :: seen) ls

/-- The positions of the labels, if every label is there once and every one that is needed is
there. -/
def labels (c : Code) : Except CodeError Labels :=
  let found := positions 0 c.instrs
  match firstRepeat [] (found.map Prod.fst) with
  | some l => .error (.duplicateLabel l)
  | none =>
    match c.needed.find? fun l => (Store.get? found l).isNone with
    | some l => .error (.undefinedLabel l)
    | none => .ok found

theorem mem_positions {l : Label} {k index : Nat} {is : List Instr}
    (h : (l, k) ∈ positions index is) :
    index ≤ k ∧ (is[k - index]?).map (·.op.label?) = some (some l) := by
  induction is generalizing index with
  | nil => simp [positions] at h
  | cons i is ih =>
    have hrest : (l, k) ∈ positions (index + 1) is →
        index ≤ k ∧ ((i :: is)[k - index]?).map (·.op.label?) = some (some l) := by
      intro h'
      obtain ⟨hle, hget⟩ := ih h'
      refine ⟨by omega, ?_⟩
      rw [show k - index = (k - (index + 1)) + 1 by omega]
      simpa using hget
    rw [positions] at h
    split at h
    · rename_i l' hl
      rcases List.mem_cons.1 h with heq | hmem
      · cases heq
        simp [hl]
      · exact hrest hmem
    · exact hrest h

theorem firstRepeat_eq_none {seen ls : List Label} :
    firstRepeat seen ls = none ↔ ls.Nodup ∧ ∀ l ∈ ls, l ∉ seen := by
  induction ls generalizing seen with
  | nil => simp [firstRepeat]
  | cons l ls ih =>
    by_cases h : l ∈ seen
    · simp [firstRepeat, h]
    · simp only [firstRepeat, h, if_false, ih, List.nodup_cons, List.mem_cons]
      grind

end Code

end NumericScript
