import NumericScript.Run

/-! # Linked code

Code is linked if no label is there twice and every label that it jumps to, or that stands for
a function, is there.  Exactly linked code can be made ready to run.

* `CodeAt`: pieces of code in their places.
* `Code.ofCode_eq_ok_iff`: code can be made ready if and only if it is linked.
* `position_link`: the position of a label is the one at which it stands. -/

namespace NumericScript

/-! ### Placed code -/

/-- A piece of code is there from position `k` on. -/
def CodeAt (code : List Instr) (k : Nat) (piece : List Instr) : Prop :=
  ∀ j i, piece[j]? = some i → code[k + j]? = some i

@[simp] theorem codeAt_append {code piece piece' : List Instr} {k : Nat} :
    CodeAt code k (piece ++ piece') ↔
      CodeAt code k piece ∧ CodeAt code (k + piece.length) piece' := by
  constructor
  · refine fun h => ⟨fun j i hj => h j i ?_, fun j i hj => ?_⟩
    · obtain ⟨hlt, -⟩ := List.getElem?_eq_some_iff.1 hj
      rw [List.getElem?_append_left hlt]
      exact hj
    · rw [Nat.add_assoc]
      refine h _ i ?_
      rw [List.getElem?_append_right (Nat.le_add_right _ _), Nat.add_sub_cancel_left]
      exact hj
  · rintro ⟨h, h'⟩ j i hj
    by_cases hlt : j < piece.length
    · rw [List.getElem?_append_left hlt] at hj
      exact h j i hj
    · rw [List.getElem?_append_right (Nat.le_of_not_lt hlt)] at hj
      have hat := h' _ i hj
      rwa [Nat.add_assoc, Nat.add_sub_cancel' (Nat.le_of_not_lt hlt)] at hat

@[simp] theorem codeAt_singleton {code : List Instr} {k : Nat} {i : Instr} :
    CodeAt code k [i] ↔ code[k]? = some i := by
  constructor
  · exact fun h => h 0 i rfl
  · intro h j i' hj
    cases j with
    | zero => cases hj; exact h
    | succ j => cases hj

theorem codeAt_start (piece rest : List Instr) : CodeAt (piece ++ rest) 0 piece := by
  intro j i hj
  rw [Nat.zero_add, List.getElem?_append_left (List.getElem?_eq_some_iff.1 hj).1, hj]

/-- More code before a piece moves it. -/
theorem CodeAt.after {code piece : List Instr} {k : Nat} (h : CodeAt code k piece)
    (before : List Instr) : CodeAt (before ++ code) (before.length + k) piece := by
  intro j i hj
  rw [Nat.add_assoc, List.getElem?_append_right (Nat.le_add_right _ _), Nat.add_sub_cancel_left]
  exact h j i hj

/-! ### Labels -/

/-- The labels in code. -/
def labelsIn (code : List Instr) : List Label := code.filterMap (·.op.label?)

/-- No label is there twice, and none is missing. -/
structure Linked (functions : List FunctionInfo) (code : List Instr) : Prop where
  distinct : (labelsIn code).Nodup
  targets : ∀ i ∈ code, ∀ l, i.op.target? = some l → l ∈ labelsIn code
  entries : ∀ f ∈ functions, f.label ∈ labelsIn code

/-- The code with the positions of its labels. -/
def Code.link (c : Code) (settings : MachineSettings) : Image where
  instrs := c.instrs.toArray
  functions := c.functions.foldl (fun s f => s.set f.name f) []
  labels := Code.positions 0 c.instrs
  settings := settings

namespace Code

theorem map_fst_positions (index : Nat) (code : List Instr) :
    (positions index code).map Prod.fst = labelsIn code := by
  induction code generalizing index with
  | nil => rfl
  | cons i is ih =>
    rw [positions, labelsIn, List.filterMap_cons]
    cases i.op.label? with
    | none => exact ih (index + 1)
    | some l => exact congrArg (l :: ·) (ih (index + 1))

theorem isSome_get?_iff {α : Type} {s : Store Label α} {l : Label} :
    (s.get? l).isSome ↔ l ∈ s.map Prod.fst := by
  induction s with
  | nil => simp [Store.get?]
  | cons p s ih =>
    rcases p with ⟨k, a⟩
    by_cases h : k = l <;> simp [Store.get?, h, ih, Ne.symm]

theorem find?_needed_eq_none {c : Code} {s : Labels} :
    (c.needed.find? fun l => (s.get? l).isNone) = none ↔
      ∀ l ∈ c.needed, l ∈ s.map Prod.fst := by
  rw [List.find?_eq_none]
  refine forall₂_congr fun l _ => ?_
  rw [← isSome_get?_iff]
  cases s.get? l <;> simp

theorem mem_needed {c : Code} {l : Label} :
    l ∈ c.needed ↔
      (∃ i ∈ c.instrs, i.op.target? = some l) ∨ ∃ f ∈ c.functions, f.label = l := by
  simp [needed]

/-- Code can be made ready to run if and only if it is linked. -/
theorem ofCode_eq_ok_iff {c : Code} {settings : MachineSettings} {image : Image} :
    Image.ofCode c settings = .ok image ↔
      Linked c.functions c.instrs ∧ image = c.link settings := by
  have hrep : firstRepeat [] ((positions 0 c.instrs).map Prod.fst) = none ↔
      (labelsIn c.instrs).Nodup := by
    simp [firstRepeat_eq_none, map_fst_positions]
  have hneed := @find?_needed_eq_none c (positions 0 c.instrs)
  rw [map_fst_positions] at hneed
  unfold Image.ofCode Code.labels
  dsimp only
  cases hf : firstRepeat [] ((positions 0 c.instrs).map Prod.fst) with
  | some l =>
    have hd : ¬ (labelsIn c.instrs).Nodup := by
      rw [← hrep, hf]
      exact nofun
    exact ⟨nofun, fun h => absurd h.1.distinct hd⟩
  | none =>
    have hd := hrep.1 hf
    cases hn : c.needed.find? fun l => (Store.get? (positions 0 c.instrs) l).isNone with
    | some l =>
      refine ⟨nofun, fun h => ?_⟩
      rw [hneed.2] at hn
      · cases hn
      · intro l hl
        rcases mem_needed.1 hl with ⟨i, hi, ht⟩ | ⟨f, hf, rfl⟩
        · exact h.1.targets i hi l ht
        · exact h.1.entries f hf
    | none =>
      have ha := hneed.1 hn
      have hl : Linked c.functions c.instrs :=
        ⟨hd, fun i hi l ht => ha l (mem_needed.2 (.inl ⟨i, hi, ht⟩)),
          fun f hf => ha f.label (mem_needed.2 (.inr ⟨f, hf, rfl⟩))⟩
      constructor
      · intro h
        cases h
        exact ⟨hl, rfl⟩
      · rintro ⟨-, rfl⟩
        rfl

end Code

/-! ### Positions -/

theorem get?_positions (index : Nat) (code : List Instr) (l : Label) :
    Store.get? (Code.positions index code) l =
      (code.findIdx? (·.op.label? = some l)).map (· + index) := by
  induction code generalizing index with
  | nil => rfl
  | cons i is ih =>
    rw [Code.positions, List.findIdx?_cons]
    cases h : i.op.label? with
    | none => simp [ih, Function.comp_def, Nat.add_assoc, Nat.add_comm 1]
    | some l' =>
      by_cases hl : l' = l
      · simp [Store.get?, hl]
      · simp [Store.get?, hl, ih, Function.comp_def, Nat.add_assoc, Nat.add_comm 1]

/-- Where labels are distinct, each stands at one position. -/
theorem eq_of_label?_eq {code : List Instr} (hd : (labelsIn code).Nodup) {j k : Nat}
    {i i' : Instr} {l : Label} (hj : code[j]? = some i) (hk : code[k]? = some i')
    (hi : i.op.label? = some l) (hi' : i'.op.label? = some l) : j = k := by
  induction code generalizing j k with
  | nil => simp at hj
  | cons i₀ is ih =>
    have hmem : ∀ {n : Nat} {i : Instr}, is[n]? = some i → i.op.label? = some l →
        l ∈ labelsIn is := fun h h' =>
      List.mem_filterMap.2 ⟨_, List.mem_of_getElem? h, h'⟩
    have hrest : (labelsIn is).Nodup := by
      refine hd.sublist ?_
      exact (List.sublist_cons_self i₀ is).filterMap _
    have hhead : i₀.op.label? = some l → l ∉ labelsIn is := by
      intro h
      rw [labelsIn, List.filterMap_cons, h] at hd
      exact (List.nodup_cons.1 hd).1
    cases j with
    | zero =>
      cases hj
      cases k with
      | zero => rfl
      | succ k => exact absurd (hmem hk hi') (hhead hi)
    | succ j =>
      cases k with
      | zero => cases hk; exact absurd (hmem hj hi) (hhead hi')
      | succ k => rw [ih hrest hj hk]

/-- In code with distinct labels, the position of a label is the one at which it stands. -/
theorem position_link {c : Code} {settings : MachineSettings} {l : Label} {k : Nat}
    (hd : (labelsIn c.instrs).Nodup) :
    (c.link settings).position l = .ok k ↔
      ∃ i, c.instrs[k]? = some i ∧ i.op.label? = some l := by
  have hp : (c.link settings).position l = .ok k ↔
      c.instrs.findIdx? (·.op.label? = some l) = some k := by
    rw [Image.position, Code.link, get?_positions]
    cases c.instrs.findIdx? (·.op.label? = some l) <;> simp
  rw [hp, List.findIdx?_eq_some_iff_getElem]
  constructor
  · rintro ⟨hk, h, -⟩
    exact ⟨c.instrs[k], List.getElem?_eq_getElem hk, by simpa using h⟩
  · rintro ⟨i, hk, hi⟩
    obtain ⟨hlt, rfl⟩ := List.getElem?_eq_some_iff.1 hk
    refine ⟨hlt, by simpa using hi, fun j hj hl => ?_⟩
    have hj : j < c.instrs.length := by omega
    have hl : c.instrs[j].op.label? = some l := by simpa using hl
    have := eq_of_label?_eq hd (List.getElem?_eq_getElem hj) hk hl hi
    omega

theorem exists_position {c : Code} {settings : MachineSettings} {l : Label}
    (hd : (labelsIn c.instrs).Nodup) (hl : l ∈ labelsIn c.instrs) :
    ∃ k, (c.link settings).position l = .ok k := by
  obtain ⟨i, hi, h⟩ := List.mem_filterMap.1 hl
  obtain ⟨k, hk⟩ := List.mem_iff_getElem?.1 hi
  exact ⟨k, (position_link hd).2 ⟨i, hk, h⟩⟩

end NumericScript
