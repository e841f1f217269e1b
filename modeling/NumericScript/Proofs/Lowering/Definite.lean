import Mathlib.Order.Interval.Set.Basic
import NumericScript.Optimize.Pass
import NumericScript.Proofs.Link

/-! # Temporaries that have a value

Control goes through code from instruction to instruction, and to labels.  If at every label only
temporaries are counted on that have a value wherever control comes from, one pass through the code
finds temporaries that have a value before each instruction, on whatever way control has come there.

* `Walk`: the ways through code.
* `Covered`: code that reads no temporary but those that have a value.
* `Covered.givenOn_of_reads`: a temporary that is read has been written on the way. -/

namespace NumericScript

variable {code code' : List Instr} {L : Label → Set Nat} {D E : Set Nat} {i : Instr}

/-! ### Ways -/

/-- Control may go on from one position to another.  After a call it goes on with the next
instruction. -/
inductive ComesNext (code : List Instr) (k : Nat) : Nat → Prop where
  | next {i : Instr} (hi : code[k]? = some i) (hb : i.op.endsBlock = false) :
      ComesNext code k (k + 1)
  | jump {i i' : Instr} {l : Label} {k' : Nat} (hi : code[k]? = some i)
      (ht : i.op.target? = some l) (hi' : code[k']? = some i') (hl : i'.op.label? = some l) :
      ComesNext code k k'

/-- A way that control may take from position `entry` to a position.  The positions that it passes
are those of `past`, the last first. -/
inductive Walk (code : List Instr) (entry : Nat) : List Nat → Nat → Prop where
  | start : Walk code entry [] entry
  | step {past : List Nat} {k k' : Nat} (h : Walk code entry past k) (hk : ComesNext code k k') :
      Walk code entry (k :: past) k'

/-- A temporary is written at one of these positions. -/
def GivenOn (code : List Instr) (past : List Nat) (t : Nat) : Prop :=
  ∃ k ∈ past, ∃ i, code[k]? = some i ∧ i.op.tempWritten? = some t

theorem GivenOn.cons {past : List Nat} {t : Nat} (h : GivenOn code past t) (k : Nat) :
    GivenOn code (k :: past) t := by
  obtain ⟨j, hj, h⟩ := h
  exact ⟨j, List.mem_cons_of_mem _ hj, h⟩

/-! ### One pass -/

/-- The temporaries that surely have a value after an instruction. -/
def given (L : Label → Set Nat) (D : Set Nat) (i : Instr) : Set Nat :=
  match i.op.label? with
  | some l => L l
  | none => D ∪ {t | i.op.tempWritten? = some t}

/-- The temporaries that surely have a value after code. -/
def givenAfter (L : Label → Set Nat) (D : Set Nat) (code : List Instr) : Set Nat :=
  code.foldl (given L) D

/-- An instruction reads temporaries that have a value, and those that are asked for by its label
and by the label to which it jumps have one. -/
structure Fine (L : Label → Set Nat) (D : Set Nat) (i : Instr) : Prop where
  reads : ∀ t ∈ i.op.tempsRead, t ∈ D
  label : ∀ l, i.op.label? = some l → L l ⊆ D
  target : ∀ l, i.op.target? = some l → L l ⊆ D

/-- Every instruction is fine with what is given before it. -/
def Covered (L : Label → Set Nat) : Set Nat → List Instr → Prop
  | _, [] => True
  | D, i :: is => Fine L D i ∧ Covered L (given L D i) is

@[simp] theorem givenAfter_append (L : Label → Set Nat) (D : Set Nat) (code code' : List Instr) :
    givenAfter L D (code ++ code') = givenAfter L (givenAfter L D code) code' :=
  List.foldl_append

@[simp] theorem givenAfter_singleton (L : Label → Set Nat) (D : Set Nat) (i : Instr) :
    givenAfter L D [i] = given L D i := rfl

@[simp] theorem covered_append :
    Covered L D (code ++ code') ↔ Covered L D code ∧ Covered L (givenAfter L D code) code' := by
  induction code generalizing D with
  | nil => simp [Covered, givenAfter]
  | cons i is ih =>
    simp only [List.cons_append, Covered, ih, and_assoc, givenAfter, List.foldl_cons]

@[simp] theorem covered_singleton : Covered L D [i] ↔ Fine L D i := iff_of_eq (and_true _)

theorem given_mono (L : Label → Set Nat) (h : D ⊆ E) (i : Instr) : given L D i ⊆ given L E i := by
  unfold given
  split
  · exact subset_rfl
  · exact Set.union_subset_union_left _ h

theorem givenAfter_mono (L : Label → Set Nat) (h : D ⊆ E) (code : List Instr) :
    givenAfter L D code ⊆ givenAfter L E code := by
  induction code generalizing D E with
  | nil => exact h
  | cons i is ih => exact ih (given_mono L h i)

theorem Fine.mono (h : Fine L D i) (hD : D ⊆ E) : Fine L E i :=
  ⟨fun t ht => hD (h.reads t ht), fun l hl => (h.label l hl).trans hD,
    fun l hl => (h.target l hl).trans hD⟩

theorem Covered.mono (h : Covered L D code) (hD : D ⊆ E) : Covered L E code := by
  induction code generalizing D E with
  | nil => trivial
  | cons i is ih => exact ⟨h.1.mono hD, ih h.2 (given_mono L hD i)⟩

/-- Nothing is read but what has a value from the beginning, is asked for by a label, or is
written. -/
theorem Covered.reads_subset {U : Set Nat} (h : Covered L D code) (hD : D ⊆ U)
    (hL : ∀ l ∈ labelsIn code, L l ⊆ U) (hw : ∀ t ∈ tempsWritten code, t ∈ U) :
    ∀ t ∈ tempsRead code, t ∈ U := by
  induction code generalizing D with
  | nil => exact fun t ht => by cases ht
  | cons i is ih =>
    intro t ht
    rcases List.mem_append.1 ht with ht | ht
    · exact hD (h.1.reads t ht)
    · refine ih h.2 ?_ (fun l hl => hL l ?_) (fun t ht => hw t ?_) t ht
      · unfold given
        split
        · exact hL _ (List.mem_filterMap.2 ⟨i, List.mem_cons_self .., by assumption⟩)
        · exact Set.union_subset hD fun t ht =>
            hw t (List.mem_filterMap.2 ⟨i, List.mem_cons_self .., ht⟩)
      · exact ((List.sublist_cons_self i is).filterMap _).subset hl
      · exact ((List.sublist_cons_self i is).filterMap _).subset ht

theorem Fine.of_no_label (hi : i.op.label? = none) (hr : ∀ t ∈ i.op.tempsRead, t ∈ D)
    (ht : ∀ l, i.op.target? = some l → L l ⊆ D) : Fine L D i where
  reads := hr
  label l h := by
    rw [hi] at h
    cases h
  target := ht

/-! ### What code gives -/

/-- If an operand is a temporary, it is one of a set. -/
def Operand.Within (D : Set Nat) (a : Operand) : Prop := ∀ t, a = .place (.temp t) → t ∈ D

theorem Operand.Within.mono {D E : Set Nat} {a : Operand} (h : a.Within D) (hD : D ⊆ E) :
    a.Within E := fun t ht => hD (h t ht)

theorem mem_of_operandTemp {D : Set Nat} {operands : List Operand}
    (h : ∀ o ∈ operands, o.Within D) : ∀ t ∈ operands.filterMap Op.operandTemp?, t ∈ D := by
  intro t ht
  obtain ⟨o, ho, ht⟩ := List.mem_filterMap.1 ht
  refine h o ho t ?_
  unfold Op.operandTemp? at ht
  split at ht <;> cases ht
  rfl

/-- An operation that stores nothing reads the temporaries among its operands. -/
theorem mem_of_tempsRead {D : Set Nat} {op : Op} (hop : ∀ o ∈ op.operands, o.Within D)
    (hb : op.tempsRead = op.operands.filterMap Op.operandTemp?) : ∀ t ∈ op.tempsRead, t ∈ D :=
  hb ▸ mem_of_operandTemp hop

/-- Code that is covered where `D` has values, and gives `E` values. -/
structure Yields (L : Label → Set Nat) (D : Set Nat) (code : List Instr) (E : Set Nat) : Prop where
  covered : Covered L D code
  given : E ⊆ givenAfter L D code

namespace Yields

variable {F : Set Nat}

theorem nil (L : Label → Set Nat) (D : Set Nat) : Yields L D [] D := ⟨trivial, subset_rfl⟩

theorem append (h : Yields L D code E) (h' : Yields L E code' F) :
    Yields L D (code ++ code') F where
  covered := covered_append.2 ⟨h.covered, h'.covered.mono h.given⟩
  given := by
    rw [givenAfter_append]
    exact h'.given.trans (givenAfter_mono L h.given code')

/-- Less is given. -/
theorem less (h : Yields L D code E) (hF : F ⊆ E) : Yields L D code F :=
  ⟨h.covered, hF.trans h.given⟩

/-- A label that asks for what is given leaves it. -/
theorem label {l : Label} (hi : i.op = .label l) (hl : L l = D) : Yields L D [i] D where
  covered := by
    refine covered_singleton.2 ⟨fun t ht => ?_, fun l' h => ?_, fun l' h => ?_⟩
    · rw [hi] at ht
      cases ht
    · rw [hi] at h
      cases h
      exact hl.le
    · rw [hi] at h
      cases h
  given := by
    rw [givenAfter_singleton, NumericScript.given, hi]
    exact hl.ge

/-- An instruction that is no label leaves what is given. -/
theorem keep (hi : i.op.label? = none) (hr : ∀ t ∈ i.op.tempsRead, t ∈ D)
    (ht : ∀ l, i.op.target? = some l → L l ⊆ D) : Yields L D [i] D where
  covered := covered_singleton.2 (.of_no_label hi hr ht)
  given := by
    rw [givenAfter_singleton, NumericScript.given, hi]
    exact Set.subset_union_left

theorem jump {l : Label} (hi : i.op = .jump l) (hl : L l ⊆ D) : Yields L D [i] D := by
  refine keep (by rw [hi]; rfl) (fun t ht => ?_) fun l' h => ?_
  · rw [hi] at ht
    cases ht
  · rw [hi] at h
    cases h
    exact hl

/-- A test reads its operand. -/
theorem test {a : Operand} {l : Label} (hi : i.op = .jumpIfFalse a l) (ha : a.Within D)
    (hl : L l ⊆ D) : Yields L D [i] D := by
  refine keep (by rw [hi]; rfl) (fun t ht => ?_) fun l' h => ?_
  · have hoperand : ∀ o ∈ (Op.jumpIfFalse a l).operands, o.Within D :=
      List.forall_mem_singleton.2 ha
    rw [hi] at ht
    exact mem_of_tempsRead hoperand rfl t ht
  · rw [hi] at h
    cases h
    exact hl

/-- An instruction that does not jump gives what it writes. -/
theorem write {t : Nat} (hi : i.op.label? = none) (hr : ∀ t ∈ i.op.tempsRead, t ∈ D)
    (ht : i.op.target? = none) (hw : i.op.tempWritten? = some t) : Yields L D [i] (insert t D) where
  covered := covered_singleton.2 (.of_no_label hi hr fun l h => by rw [ht] at h; cases h)
  given := by
    rw [givenAfter_singleton, NumericScript.given, hi, hw]
    rintro t' (rfl | ht')
    · exact .inr rfl
    · exact .inl ht'

end Yields

/-! ### What is given on ways -/

theorem Covered.fine {k : Nat} (h : Covered L D code) (hi : code[k]? = some i) :
    Fine L (givenAfter L D (code.take k)) i := by
  induction code generalizing D k with
  | nil => cases hi
  | cons j js ih =>
    cases k with
    | zero => cases hi; exact h.1
    | succ k => exact ih h.2 hi

theorem givenAfter_take_succ {k : Nat} (hi : code[k]? = some i) :
    givenAfter L D (code.take (k + 1)) = given L (givenAfter L D (code.take k)) i := by
  rw [List.take_add_one, hi, givenAfter_append]
  rfl

/-- What has a value at a position, on whatever way control comes there: at a label what it asks
for, and else what is given before. -/
def givenAt (L : Label → Set Nat) (code : List Instr) (k : Nat) : Set Nat :=
  match code[k]?.bind (·.op.label?) with
  | some l => L l
  | none => givenAfter L ∅ (code.take k)

theorem givenAt_of_label {k : Nat} {l : Label} (hi : code[k]? = some i)
    (hl : i.op.label? = some l) : givenAt L code k = L l := by
  rw [givenAt, hi, Option.bind_some, hl]

theorem givenAt_of_no_label {k : Nat} (hi : code[k]? = some i) (hl : i.op.label? = none) :
    givenAt L code k = givenAfter L ∅ (code.take k) := by
  rw [givenAt, hi, Option.bind_some, hl]

theorem label?_of_target? {l : Label} (h : i.op.target? = some l) : i.op.label? = none := by
  cases hop : i.op <;> rw [hop] at h <;> first | rfl | cases h

/-- At no position is there more than was given before it. -/
theorem Covered.givenAt_subset (h : Covered L ∅ code) (k : Nat) :
    givenAt L code k ⊆ givenAfter L ∅ (code.take k) := by
  cases hi : code[k]? with
  | none => rw [givenAt, hi]; exact subset_rfl
  | some i =>
    cases hl : i.op.label? with
    | none => rw [givenAt_of_no_label hi hl]
    | some l =>
      rw [givenAt_of_label hi hl]
      exact (h.fine hi).label l hl

/-- Where control goes on, what has a value there had one before or has been written. -/
theorem Covered.givenAt_of_comesNext {k k' t : Nat} (h : Covered L ∅ code)
    (hk : ComesNext code k k') (ht : t ∈ givenAt L code k') :
    t ∈ givenAt L code k ∨ ∃ i, code[k]? = some i ∧ i.op.tempWritten? = some t := by
  cases hk with
  | @next i hi hb =>
    have ht := h.givenAt_subset (k + 1) ht
    rw [givenAfter_take_succ hi, given] at ht
    split at ht
    · rename_i l hl
      rw [givenAt_of_label hi hl]
      exact .inl ht
    · rename_i hl
      rw [givenAt_of_no_label hi hl]
      exact ht.imp id fun ht => ⟨i, hi, ht⟩
  | jump hi htarget hi' hl =>
    rw [givenAt_of_label hi' hl] at ht
    rw [givenAt_of_no_label hi (label?_of_target? htarget)]
    exact .inl ((h.fine hi).target _ htarget ht)

/-- What has a value at a position has been written on the way. -/
theorem Covered.givenOn_of_walk {entry k : Nat} {past : List Nat} (h : Covered L ∅ code)
    (hentry : givenAt L code entry = ∅) (hw : Walk code entry past k) :
    ∀ t ∈ givenAt L code k, GivenOn code past t := by
  induction hw with
  | start => exact fun t ht => by rw [hentry] at ht; exact absurd ht (Set.notMem_empty t)
  | @step past k k' _ hk ih =>
    intro t ht
    obtain ht | ⟨i, hi, hwritten⟩ := h.givenAt_of_comesNext hk ht
    · exact (ih t ht).cons k
    · exact ⟨k, List.mem_cons_self .., i, hi, hwritten⟩

/-- What an instruction reads has been written on the way to it. -/
theorem Covered.givenOn_of_reads {entry k t : Nat} {past : List Nat} (h : Covered L ∅ code)
    (hentry : givenAt L code entry = ∅) (hw : Walk code entry past k) (hi : code[k]? = some i)
    (ht : t ∈ i.op.tempsRead) : GivenOn code past t := by
  have hl : i.op.label? = none := by
    cases hop : i.op <;> rw [hop] at ht <;> first | rfl | cases ht
  refine h.givenOn_of_walk hentry hw t ?_
  rw [givenAt_of_no_label hi hl]
  exact (h.fine hi).reads t ht

end NumericScript
