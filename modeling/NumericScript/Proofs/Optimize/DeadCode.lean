import NumericScript.Proofs.Optimize.Preserve

/-! # Dead code is not missed

Runs never come to unreachable instructions, pass labels without doing anything, and never
read a temporary that no instruction reads.

* `preserves_deadCode`: the pass preserves code. -/

namespace NumericScript

variable {functions : List FunctionInfo} {settings : MachineSettings} {held moving : Nat → Prop}
  {code : List Instr}

/-- Nothing is asked of a pass that only keeps instructions as they are. -/
theorem keep_same {image : Image} {m : Machine} {i i' : Instr} (hi : i' = i)
    (ht : i.op.Trusty held m) :
    (i.op.label? = none → (m.noted i.line).execute image i.op =
      (m.noted i.line).execute image i'.op) ∧ i'.op.Trusty held m := by
  subst hi
  exact ⟨fun _ => rfl, ht⟩

theorem tidy_of_keepsPaid {kept : List (Option Instr)} (h : Tidy held moving code)
    (hk : List.Forall₂ (fun i o => KeepsPaid i o ∧
      ∀ i', o = some i' → i.op.Steady held moving → i'.op.Steady held moving) code kept) :
    Tidy held moving kept.reduceOption where
  thrifty := h.thrifty.of_keepsPaid (hk.imp fun _ _ h => h.1)
  steady := by
    intro i' hi'
    obtain ⟨i, hi, hR⟩ := exists_of_mem_reduceOption hk hi'
    exact hR.2 i' rfl (h.steady i hi)

theorem tidy_filter {p : Instr → Bool} (h : Tidy held moving code)
    (hp : ∀ i ∈ code, p i = false → i.op.tempsRead = []) :
    Tidy held moving (code.filter p) where
  thrifty := by
    rw [← reduceOption_keepIf]
    refine h.thrifty.of_keepsPaid (forall₂_keepIf fun i hi => ?_)
    split
    · exact .refl i
    · exact hp i hi (by simpa using ‹¬ p i = true›)
  steady := fun i hi => h.steady i (List.mem_filter.1 hi).1

theorem linked_filter {p : Instr → Bool} (h : Linked functions code)
    (hp : ∀ i ∈ code, p i = false → i.op.label? = none) :
    Rearranged functions code (keepIf p code) := by
  refine .of_keepsJumps h (forall₂_keepIf fun i hi => ?_)
  split
  · exact ⟨rfl, rfl, fun _ => id⟩
  · exact hp i hi (by simpa using ‹¬ p i = true›)

/-! ### Temporaries that nothing reads -/

/-- A pure operation on a temporary that nothing needs always gives a value. -/
theorem exists_effect_of_isPure {op : Op} {t : Nat} (ht : op.tempWritten? = some t)
    (hp : op.isPure = true) (ho : op.owes = none) (m : Machine) :
    ∃ v, m.effect op = some (.temp t, .ok v) := by
  cases op with
  | assign d c => cases d <;> cases ht; exact ⟨_, rfl⟩
  | newArray d n => cases d <;> cases ht; exact ⟨_, rfl⟩
  | newMatrix d r c => cases d <;> cases ht; exact ⟨_, rfl⟩
  | copy d s => cases d <;> cases ht; cases ho
  | unary d f o => cases d <;> cases ht; cases ho
  | binary d f l r =>
    cases d <;> cases ht
    simp only [Op.owes, ite_eq_left_iff, reduceCtorEq, imp_false, not_not] at ho
    subst ho
    unfold Op.isPure at hp
    split at hp
    · cases ‹Op.binary _ _ _ _ = _›
    · cases ‹Op.binary _ _ _ _ = _›
    · cases ‹Op.binary _ _ _ _ = _›
    · cases ‹Op.binary _ _ _ _ = _›
    · cases ‹Op.binary _ _ _ _ = _›
    · rename_i a b he
      cases he
      cases hv : BinaryOp.add.apply a.toValue b.toValue with
      | error f => rw [hv] at hp; cases hp
      | ok v => exact ⟨v, by simp only [Machine.effect, Machine.eval, bind, Except.bind, hv]⟩
    · cases ‹Op.binary _ _ _ _ = _›
      cases hp
    · cases hp
  | _ => first | cases ht | cases hp

theorem tempsRead_of_isIdle {op : Op} {read : List Nat} (h : op.isIdle read = true)
    (ho : ∀ t, op.owes = some t → t ∈ read) : op.tempsRead = [] := by
  unfold Op.isIdle at h
  cases ht : op.tempWritten? with
  | none => rw [ht] at h; cases h
  | some t =>
    rw [ht] at h
    obtain ⟨hp, hr⟩ : op.isPure = true ∧ t ∉ read := by simpa using h
    cases op with
    | assign d c => rfl
    | newArray d n => rfl
    | newMatrix d r c => rfl
    | copy d s => cases d <;> cases ht; exact absurd (ho t rfl) hr
    | unary d f o => cases d <;> cases ht; exact absurd (ho t rfl) hr
    | binary d f l r =>
      cases d <;> cases ht
      by_cases hf : f = .add
      · subst hf
        cases l <;> cases r <;> first | rfl | cases hp
      · exact absurd (ho t (by simp [Op.owes, hf])) hr
    | _ => first | cases ht | cases hp

/-- An operation that gives a value to a temporary which is not read is not missed. -/
theorem exists_advance_of_effect (hs : settings.maxSteps = none) {kept : List (Option Instr)}
    {dead : Nat → Prop} {p : Point} {i : Instr} {t : Nat} {v : Value}
    (hi : code[p.machine.pc]? = some i) (ht : dead t)
    (hv : p.machine.effect i.op = some (.temp t, .ok v)) :
    ∃ m, (Code.link ⟨code, functions⟩ settings).advance p = .next ⟨m, p.unread⟩ ∧
      p.machine.pc < m.pc ∧
      (∀ j, p.machine.pc < j → j < m.pc → ∃ i', code[j]? = some i' ∧ i'.op.label?.isSome) ∧
      ∀ b, Machine.Alike (shift kept) dead p.machine b →
        Machine.Alike (shift kept) dead m b := by
  have hl : i.op.label? = none := by
    cases hop : i.op <;> first | rfl | (rw [hop] at hv; cases hv)
  rw [← Machine.effect_noted p.machine i.line] at hv
  refine ⟨((p.machine.noted i.line).write (.temp t) v).next, ?_, ?_, ?_, ?_⟩
  · rw [Image.advance_of_op (i := i) hs (by simpa [Code.link] using hi) hl,
      Machine.execute_of_effect hv]
    rfl
  · simp [Machine.next]
  · intro j h₁ h₂
    simp only [Machine.next, Machine.pc_write, Machine.pc_noted] at h₂
    omega
  · intro b hb
    exact ((hb.noted_left i.line).write_dead ht v).next_left

/-- A label that goes is not missed. -/
theorem exists_advance_of_label {kept : List (Option Instr)} {dead : Nat → Prop} {p : Point}
    {i : Instr} (hi : code[p.machine.pc]? = some i) (hl : i.op.label?.isSome) :
    ∃ m, (Code.link ⟨code, functions⟩ settings).advance p = .next ⟨m, p.unread⟩ ∧
      p.machine.pc < m.pc ∧
      (∀ j, p.machine.pc < j → j < m.pc → ∃ i', code[j]? = some i' ∧ i'.op.label?.isSome) ∧
      ∀ b, Machine.Alike (shift kept) dead p.machine b →
        Machine.Alike (shift kept) dead m b := by
  refine ⟨p.machine.next, Image.advance_of_label (by simpa [Code.link] using hi) hl,
    Nat.lt_succ_self _, fun j h₁ h₂ => ?_, fun b hb => hb.next_left⟩
  simp only [Machine.next] at h₂
  omega

theorem exists_tempWritten?_of_isIdle {op : Op} {read : List Nat} (h : op.isIdle read = true) :
    ∃ t, op.tempWritten? = some t ∧ op.isPure = true ∧ t ∉ read := by
  unfold Op.isIdle at h
  cases hw : op.tempWritten? with
  | none => rw [hw] at h; cases h
  | some t =>
    rw [hw] at h
    exact ⟨t, rfl, by simpa using h⟩

theorem label?_of_isIdle {op : Op} {read : List Nat} (h : op.isIdle read = true) :
    op.label? = none := by
  cases op <;> first | rfl | cases h

/-- Without idle operations, no temporary is read that was not read before. -/
theorem mem_tempsRead_of_dropIdle {i : Instr} (hi : i ∈ dropIdle code) {t : Nat}
    (ht : t ∈ i.op.tempsRead) : t ∈ tempsRead code :=
  List.mem_flatMap.2 ⟨i, (dropIdle_sublist code).subset hi, ht⟩

theorem reduceOption_keepBusy (code : List Instr) :
    (keepIf (fun i => !i.op.isIdle (tempsRead code)) code).reduceOption = dropIdle code :=
  reduceOption_keepIf _ code

theorem linked_keepBusy (hl : Linked functions code) :
    Rearranged functions code (keepIf (fun i => !i.op.isIdle (tempsRead code)) code) :=
  linked_filter hl fun _ _ h => label?_of_isIdle (Bool.not_eq_eq_eq_not.1 h)

theorem isIdle_of_keepBusy {k : Nat} {i : Instr} (hi : code[k]? = some i)
    (h : (keepIf (fun i => !i.op.isIdle (tempsRead code)) code)[k]? = some none) :
    i.op.isIdle (tempsRead code) = true := by
  simpa using keepIf_eq_none hi h

/-- Taking idle operations away preserves code. -/
theorem preserves_dropIdle (hs : settings.maxSteps = none) (code : List Instr) :
    Preserves functions settings held moving code (dropIdle code) := by
  have hkept := reduceOption_keepBusy code
  rw [← hkept]
  refine Preserves.of_rearranged hs linked_keepBusy (fun ht => ?_)
    (fun t => t ∉ tempsRead code) (fun _ => True) (fun _ _ => trivial)
    (fun _ _ _ _ _ _ => trivial) ?_ ?_ ?_
  · rw [hkept]
    exact tidy_filter ht fun i hi h =>
      tempsRead_of_isIdle (by simpa using h) fun t ho => ht.thrifty.mem_tempsRead hi ho
  · intro i hi t ht
    exact not_not.2 (mem_tempsRead_of_dropIdle (hkept ▸ hi) ht)
  · intro _ _ m i i' _ ht hi hi'
    exact keep_same (keepIf_eq_some hi hi').1 ht
  · intro _ ht p i _ _ hi hi'
    obtain ⟨t, hw, hp, hr⟩ := exists_tempWritten?_of_isIdle (isIdle_of_keepBusy hi hi')
    have howes : i.op.owes = none := by
      cases ho : i.op.owes with
      | none => rfl
      | some t' =>
        have hmem := ht.thrifty.mem_tempsRead (List.mem_of_getElem? hi) ho
        rw [Op.tempWritten?_of_owes ho] at hw
        cases hw
        exact absurd hmem hr
    obtain ⟨v, hv⟩ := exists_effect_of_isPure hw hp howes p.machine
    exact exists_advance_of_effect hs hi hr hv

/-- Taking idle operations away until there are none preserves code. -/
theorem preserves_dropAllIdle (hs : settings.maxSteps = none) (code : List Instr) :
    Preserves functions settings held moving code (dropAllIdle code) := by
  fun_induction dropAllIdle code with
  | case1 code less _ ih => exact (preserves_dropIdle hs code).trans ih
  | case2 code less _ => exact .refl code

/-! ### Labels that nothing jumps to -/

/-- Whether an instruction is no label of a loop or a branch, or one among `targets`. -/
def isUsed (targets : List Label) (i : Instr) : Bool :=
  match i.op with
  | .label (.local l) => .local l ∈ targets
  | _ => true

theorem exists_of_isUsed_eq_false {targets : List Label} {i : Instr}
    (h : isUsed targets i = false) : ∃ l, i.op = .label (.local l) ∧ .local l ∉ targets := by
  unfold isUsed at h
  split at h
  · rename_i l hop
    exact ⟨l, hop, by simpa using h⟩
  · cases h

theorem dropUnusedLabels_eq (code : List Instr) :
    dropUnusedLabels code = code.filter (isUsed (code.filterMap fun i => i.op.target?)) := rfl

/-- Labels of functions stay, and so do those that something jumps to. -/
theorem mem_labelsIn_dropUnusedLabels {l : Label} (hl : l ∈ labelsIn code)
    (hneed : (∃ name, l = .function name) ∨ l ∈ code.filterMap fun i => i.op.target?) :
    l ∈ labelsIn (dropUnusedLabels code) := by
  obtain ⟨i, hi, hil⟩ := List.mem_filterMap.1 hl
  rw [dropUnusedLabels_eq]
  refine List.mem_filterMap.2 ⟨i, List.mem_filter.2 ⟨hi, ?_⟩, hil⟩
  cases hu : isUsed (code.filterMap fun i => i.op.target?) i with
  | true => rfl
  | false =>
    obtain ⟨l', hop, hl'⟩ := exists_of_isUsed_eq_false hu
    rw [hop] at hil
    cases hil
    rcases hneed with ⟨name, h⟩ | h
    · cases h
    · exact absurd h hl'

/-- Code stays linked without the labels that nothing jumps to if no function needs one of them. -/
theorem rearranged_dropUnusedLabels (hl : Linked functions code)
    (hf : ∀ f ∈ functions, f.label ∈ labelsIn (dropUnusedLabels code)) :
    Rearranged functions code
      (keepIf (isUsed (code.filterMap fun i => i.op.target?)) code) := by
  refine ⟨hl, forall₂_keepIf fun i _ => ?_, ?_⟩
  · split
    · exact ⟨rfl, rfl⟩
    · exact trivial
  · rw [reduceOption_keepIf, ← dropUnusedLabels_eq]
    refine ⟨hl.distinct.sublist ((dropUnusedLabels_sublist code).filterMap _),
      fun i hi l ht => ?_, hf⟩
    have hi' := (dropUnusedLabels_sublist code).subset hi
    exact mem_labelsIn_dropUnusedLabels (hl.targets i hi' l ht)
      (.inr (List.mem_filterMap.2 ⟨i, hi', ht⟩))

theorem exists_advance_of_isUsed_eq_false {kept : List (Option Instr)} {dead : Nat → Prop}
    {targets : List Label} {p : Point} {i : Instr} (hi : code[p.machine.pc]? = some i)
    (hu : isUsed targets i = false) :
    ∃ m, (Code.link ⟨code, functions⟩ settings).advance p = .next ⟨m, p.unread⟩ ∧
      p.machine.pc < m.pc ∧
      (∀ j, p.machine.pc < j → j < m.pc → ∃ i', code[j]? = some i' ∧ i'.op.label?.isSome) ∧
      ∀ b, Machine.Alike (shift kept) dead p.machine b →
        Machine.Alike (shift kept) dead m b := by
  obtain ⟨l, hop, -⟩ := exists_of_isUsed_eq_false hu
  exact exists_advance_of_label hi (by rw [hop]; rfl)

/-- Taking away labels of loops and branches that nothing jumps to preserves code. -/
theorem preserves_dropUnusedLabels (hs : settings.maxSteps = none)
    (hf : ∀ f ∈ functions, ∃ name, f.label = .function name) (code : List Instr) :
    Preserves functions settings held moving code (dropUnusedLabels code) := by
  rw [dropUnusedLabels_eq, ← reduceOption_keepIf]
  refine Preserves.of_rearranged hs
    (fun hl => rearranged_dropUnusedLabels hl fun f hfm =>
      mem_labelsIn_dropUnusedLabels (hl.entries f hfm) (.inl (hf f hfm)))
    (fun ht => ?_) (fun _ => False) (fun _ => True) (fun _ _ => trivial)
    (fun _ _ _ _ _ _ => trivial) (fun _ _ _ _ => id) ?_ ?_
  · rw [reduceOption_keepIf]
    refine tidy_filter ht fun i _ h => ?_
    obtain ⟨l, hop, -⟩ := exists_of_isUsed_eq_false h
    rw [hop]
    rfl
  · intro _ _ m i i' _ ht hi hi'
    exact keep_same (keepIf_eq_some hi hi').1 ht
  · intro _ _ p i _ _ hi hi'
    exact exists_advance_of_isUsed_eq_false hi (keepIf_eq_none hi hi')

/-! ### Unreachable instructions -/

/-- What `dropUnreachable` does with every instruction. -/
def keepReached (reached : Bool) : List Instr → List (Option Instr)
  | [] => []
  | i :: is =>
    if i.op.label?.isSome then some i :: keepReached true is
    else if reached then some i :: keepReached (!i.op.endsBlock) is
    else none :: keepReached false is

theorem reduceOption_keepReached (reached : Bool) (code : List Instr) :
    (keepReached reached code).reduceOption = dropUnreachable reached code := by
  induction code generalizing reached with
  | nil => rfl
  | cons i is ih =>
    rw [keepReached, dropUnreachable]
    split
    · rw [List.reduceOption_cons_of_some, ih]
    · split
      · rw [List.reduceOption_cons_of_some, ih]
      · rw [List.reduceOption_cons_of_none, ih]

theorem forall₂_keepReached {R : Instr → Option Instr → Prop} (hsome : ∀ i, R i (some i))
    (hnone : ∀ i, i.op.label? = none → R i none) (reached : Bool) (code : List Instr) :
    List.Forall₂ R code (keepReached reached code) := by
  induction code generalizing reached with
  | nil => exact .nil
  | cons i is ih =>
    rw [keepReached]
    split
    · exact .cons (hsome i) (ih true)
    · split
      · exact .cons (hsome i) (ih _)
      · exact .cons (hnone i (by simpa using ‹¬ i.op.label?.isSome = true›)) (ih false)

theorem keepReached_eq_self {reached : Bool} {k : Nat} {i i' : Instr} (hi : code[k]? = some i)
    (h : (keepReached reached code)[k]? = some (some i')) : i' = i := by
  have hR := forall₂_keepReached (R := fun i o => ∀ i', o = some i' → i' = i)
    (fun i i' h => by cases h; rfl) (fun i _ i' h => by cases h) reached code
  obtain ⟨hk, rfl⟩ := List.getElem?_eq_some_iff.1 hi
  obtain ⟨hk', he⟩ := List.getElem?_eq_some_iff.1 h
  exact hR.get hk hk' i' he

/-- Labels stay. -/
theorem keepReached_of_label {reached : Bool} {k : Nat} {i : Instr} (hi : code[k]? = some i)
    (hl : i.op.label?.isSome) : (keepReached reached code)[k]? ≠ some none := by
  have hR := forall₂_keepReached (R := fun i o => i.op.label?.isSome → o ≠ none)
    (fun i _ => nofun) (fun i hn h => by rw [hn] at h; cases h) reached code
  obtain ⟨hk, rfl⟩ := List.getElem?_eq_some_iff.1 hi
  have hk' : k < (keepReached reached code).length := by rw [← hR.length_eq]; exact hk
  rw [List.getElem?_eq_getElem hk']
  intro h
  exact hR.get hk hk' hl (Option.some.inj h)

/-- What comes after an instruction that stays and lets control go on stays, too. -/
theorem keepReached_succ {reached : Bool} {k : Nat} {i : Instr} (hi : code[k]? = some i)
    (h : (keepReached reached code)[k]? ≠ some none) (hb : i.op.endsBlock = false) :
    (keepReached reached code)[k + 1]? ≠ some none := by
  have hhead : ∀ is : List Instr, (keepReached true is)[0]? ≠ some none := by
    intro is
    cases is with
    | nil => exact nofun
    | cons j js =>
      rw [keepReached]
      split
      · exact nofun
      · exact nofun
  induction code generalizing reached k with
  | nil => cases hi
  | cons j js ih =>
    cases k with
    | zero =>
      cases hi
      rw [keepReached] at h ⊢
      split
      · exact hhead js
      · split
        · rw [hb]
          exact hhead js
        · rw [if_neg ‹_›, if_neg ‹_›] at h
          exact absurd rfl h
    | succ k =>
      rw [keepReached] at h ⊢
      split
      · rw [if_pos ‹_›] at h
        exact ih hi h
      · rw [if_neg ‹_›] at h
        split
        · rw [if_pos ‹_›] at h
          exact ih hi h
        · rw [if_neg ‹_›] at h
          exact ih hi h

/-- A run does not come to what goes, and neither do the calls in it return there. -/
def IsReached (code : List Instr) (m : Machine) : Prop :=
  (keepReached true code)[m.pc]? ≠ some none ∧
    ∀ r ∈ m.returns, (keepReached true code)[r]? ≠ some none

theorem isReached_start (line : Nat) (angle : AngleMode) : IsReached code (.start line angle) := by
  refine ⟨?_, fun r hr => by cases hr⟩
  cases code with
  | nil => exact nofun
  | cons i is =>
    rw [keepReached]
    split
    · exact nofun
    · exact nofun

theorem IsReached.advance (hl : Linked functions code) {p q : Point} (hp : IsReached code p.machine)
    (hadv : (Code.link ⟨code, functions⟩ settings).advance p = .next q) :
    IsReached code q.machine := by
  refine Image.lands_of_advance (K := fun k => (keepReached true code)[k]? ≠ some none)
    (fun l k hk => ?_) (fun k i hi hk hb => ?_) hp hadv
  · obtain ⟨i, hi, hil⟩ := (position_link hl.distinct).1 hk
    exact keepReached_of_label hi (by rw [hil]; rfl)
  · exact keepReached_succ (by simpa [Code.link] using hi) hk hb

theorem rearranged_dropUnreachable (hl : Linked functions code) :
    Rearranged functions code (keepReached true code) :=
  .of_keepsJumps hl
    (forall₂_keepReached (fun _ => ⟨rfl, rfl, fun _ => id⟩) (fun _ h => h) true code)

theorem Paid.dropUnreachable {t : Nat} (h : Paid t code) :
    Paid t (NumericScript.dropUnreachable true code) := by
  induction code with
  | nil => exact h
  | cons i is ih =>
    have hnext : i.op.isStraight = true → (!i.op.endsBlock) = true := by
      intro hs
      rw [Op.isStraight, Bool.and_eq_true] at hs
      exact hs.2
    unfold NumericScript.dropUnreachable
    rcases h with h | ⟨hw, hs, h⟩
    · split
      · exact .inl h
      · exact .inl h
    · split
      · exact .inr ⟨hw, hs, ih h⟩
      · rw [if_pos rfl, hnext hs]
        exact .inr ⟨hw, hs, ih h⟩

theorem Thrifty.dropUnreachable (h : Thrifty code) (reached : Bool) :
    Thrifty (NumericScript.dropUnreachable reached code) := by
  induction code generalizing reached with
  | nil => exact trivial
  | cons i is ih =>
    unfold NumericScript.dropUnreachable
    split
    · exact ⟨fun t ht => (h.1 t ht).dropUnreachable, ih h.2 true⟩
    · split
      · refine ⟨fun t ht => ?_, ih h.2 _⟩
        have hb : i.op.endsBlock = false := by
          cases hop : i.op <;> rw [hop] at ht <;> first | rfl | cases ht
        rw [hb]
        exact (h.1 t ht).dropUnreachable
      · exact ih h.2 false

/-- Taking unreachable instructions away preserves code. -/
theorem preserves_dropUnreachable (hs : settings.maxSteps = none) (code : List Instr) :
    Preserves functions settings held moving code (dropUnreachable true code) := by
  have hkept := reduceOption_keepReached true code
  rw [← hkept]
  refine Preserves.of_rearranged hs rearranged_dropUnreachable (fun ht => ?_) (fun _ => False)
    (IsReached code) isReached_start (fun hl _ _ _ hp hadv => hp.advance hl hadv)
    (fun _ _ _ _ => id) ?_ ?_
  · rw [hkept]
    exact ⟨ht.thrifty.dropUnreachable true,
      fun i hi => ht.steady i ((dropUnreachable_sublist true code).subset hi)⟩
  · intro _ _ m i i' _ ht hi hi'
    exact keep_same (keepReached_eq_self hi hi') ht
  · intro _ _ p i hp _ _ hi'
    exact absurd hi' hp.1

/-- Taking dead code away preserves code. -/
theorem preserves_deadCode (hs : settings.maxSteps = none)
    (hf : ∀ f ∈ functions, ∃ name, f.label = .function name) (code : List Instr) :
    Preserves functions settings held moving code (deadCode code).code :=
  ((preserves_dropUnreachable hs code).trans (preserves_dropUnusedLabels hs hf _)).trans
    (preserves_dropAllIdle hs _)

end NumericScript
