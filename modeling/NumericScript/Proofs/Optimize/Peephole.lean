import NumericScript.Proofs.Optimize.DeadCode

/-! # Neighbouring instructions in one

A branch on a constant is no branch, a jump to what comes next is a detour, and so is a
temporary that is only copied to a variable.  A copy of a place to itself does nothing if the
place has a value.

* `preserves_decideBranches`, `preserves_dropJumpsToNext`, `preserves_dropSelfCopies`: each of
  these rewritings preserves code. -/

namespace NumericScript

variable {functions : List FunctionInfo} {settings : MachineSettings} {held moving : Nat → Prop}
  {code : List Instr}

/-! ### Branches on constants -/

theorem reduceOption_map_decideBranch (code : List Instr) :
    (code.map decideBranch).reduceOption = (decideBranches code).code := by
  simp [decideBranches, List.reduceOption, List.filterMap_map]

/-- A branch is decided, or an instruction stays as it is. -/
theorem decideBranch_cases (i : Instr) :
    decideBranch i = some i ∨
      (∃ l, i.op = .jumpIfFalse (.const (.bool true)) l ∧ decideBranch i = none) ∨
      ∃ l, i.op = .jumpIfFalse (.const (.bool false)) l ∧
        decideBranch i = some { i with op := .jump l } := by
  unfold decideBranch
  split
  · rename_i l hop
    exact .inr (.inl ⟨l, hop, rfl⟩)
  · rename_i l hop
    exact .inr (.inr ⟨l, hop, rfl⟩)
  · exact .inl rfl

theorem eq_decideBranch {k : Nat} {i : Instr} {o : Option Instr} (hi : code[k]? = some i)
    (ho : (code.map decideBranch)[k]? = some o) : o = decideBranch i := by
  rw [List.getElem?_map, hi] at ho
  exact (Option.some.inj ho).symm

theorem keepsJumps_decideBranch (code : List Instr) :
    List.Forall₂ KeepsJumps code (code.map decideBranch) := by
  rw [List.forall₂_map_right_iff, List.forall₂_same]
  intro i _
  rcases decideBranch_cases i with h | ⟨l, hop, h⟩ | ⟨l, hop, h⟩
  · rw [h]
    exact ⟨rfl, rfl, fun _ => id⟩
  · rw [h]
    exact congrArg Op.label? hop
  · rw [h]
    exact ⟨rfl, by rw [hop]; rfl, fun l' hl => by rw [hop]; exact hl⟩

/-- Unless nothing is left of a branch, what it amounts to does what it does. -/
theorem execute_decideBranch {i i' : Instr} (h : decideBranch i = some i') (image : Image)
    (m : Machine) : m.execute image i.op = m.execute image i'.op := by
  rcases decideBranch_cases i with h' | ⟨l, hop, h'⟩ | ⟨l, hop, h'⟩
  · rw [h'] at h
    cases h
    rfl
  · rw [h'] at h
    cases h
  · rw [h'] at h
    cases h
    rw [hop]
    rfl

/-- A branch of which nothing is left goes on. -/
theorem exists_advance_of_decided (hs : settings.maxSteps = none) {kept : List (Option Instr)}
    {dead : Nat → Prop} {p : Point} {i : Instr} (hi : code[p.machine.pc]? = some i)
    (h : decideBranch i = none) :
    ∃ m, (Code.link ⟨code, functions⟩ settings).advance p = .next ⟨m, p.unread⟩ ∧
      p.machine.pc < m.pc ∧
      (∀ j, p.machine.pc < j → j < m.pc → ∃ i', code[j]? = some i' ∧ i'.op.label?.isSome) ∧
      ∀ b, Machine.Alike (shift kept) dead p.machine b →
        Machine.Alike (shift kept) dead m b := by
  rcases decideBranch_cases i with h' | ⟨l, hop, -⟩ | ⟨l, -, h'⟩
  · rw [h'] at h
    cases h
  · refine ⟨(p.machine.noted i.line).next, ?_, ?_, fun j h₁ h₂ => ?_, fun b hb => ?_⟩
    · rw [Image.advance_of_op (i := i) hs (by simpa [Code.link] using hi) (by rw [hop]; rfl),
        hop]
      rfl
    · simp [Machine.next]
    · simp only [Machine.next, Machine.pc_noted] at h₂
      omega
    · exact (hb.noted_left i.line).next_left
  · rw [h'] at h
    cases h

/-- Deciding branches preserves code. -/
theorem preserves_decideBranches (hs : settings.maxSteps = none) (code : List Instr) :
    Preserves functions settings held moving code (decideBranches code).code := by
  rw [← reduceOption_map_decideBranch]
  refine Preserves.of_rearranged hs (fun hl => .of_keepsJumps hl (keepsJumps_decideBranch code))
    (fun ht => ?_) (fun _ => False) (fun _ => True) (fun _ _ => trivial)
    (fun _ _ _ _ _ _ => trivial) (fun _ _ _ _ => id) ?_ ?_
  · refine tidy_of_keepsPaid ht ?_
    rw [List.forall₂_map_right_iff, List.forall₂_same]
    intro i _
    rcases decideBranch_cases i with h | ⟨l, hop, h⟩ | ⟨l, hop, h⟩
    · rw [h]
      exact ⟨.refl i, fun i' he hst => by cases he; exact hst⟩
    · rw [h]
      exact ⟨congrArg Op.tempsRead hop, fun i' he => by cases he⟩
    · rw [h]
      refine ⟨⟨fun t h => (by cases h), fun t ht => ?_, by rw [hop]; rfl, fun hst => ?_⟩,
        fun i' he _ => ?_⟩
      · rw [hop] at ht
        exact ht
      · rw [hop] at hst
        cases hst
      · cases he
        exact Op.steady_jump held moving l
  · intro _ _ m i i' _ ht hi hi'
    have he := eq_decideBranch hi hi'
    refine ⟨fun _ => execute_decideBranch he.symm _ _, ?_⟩
    rcases decideBranch_cases i with h | ⟨l, hop, h⟩ | ⟨l, hop, h⟩
    · rw [h] at he
      cases he
      exact ht
    · rw [h] at he
      cases he
    · rw [h] at he
      cases he
      exact trivial
  · intro _ _ p i _ _ hi hi'
    exact exists_advance_of_decided hs hi (eq_decideBranch hi hi').symm

/-! ### Jumps to what comes next -/

/-- What `dropJumpsToNext` does with every instruction. -/
def keepDetours : List Instr → List (Option Instr)
  | [] => []
  | i :: is =>
    match i.op with
    | .jump l => (if opensWith l is then none else some i) :: keepDetours is
    | _ => some i :: keepDetours is

theorem reduceOption_keepDetours (code : List Instr) :
    (keepDetours code).reduceOption = dropJumpsToNext code := by
  induction code with
  | nil => rfl
  | cons i is ih =>
    rcases i with ⟨op, line⟩
    cases op with
    | jump l =>
      simp only [keepDetours, dropJumpsToNext]
      by_cases ho : opensWith l is = true
      · rw [if_pos ho, if_pos ho, List.reduceOption_cons_of_none, ih]
      · rw [if_neg ho, if_neg ho, List.reduceOption_cons_of_some, ih]
    | _ => simp only [keepDetours, dropJumpsToNext, List.reduceOption_cons_of_some, ih]

theorem forall₂_keepDetours {R : Instr → Option Instr → Prop} (hsome : ∀ i, R i (some i))
    (hnone : ∀ i l, i.op = .jump l → R i none) (code : List Instr) :
    List.Forall₂ R code (keepDetours code) := by
  induction code with
  | nil => exact .nil
  | cons i is ih =>
    unfold keepDetours
    split
    · rename_i l hop
      split
      · exact .cons (hnone i l hop) ih
      · exact .cons (hsome i) ih
    · exact .cons (hsome i) ih

theorem keepDetours_eq_self {k : Nat} {i i' : Instr} (hi : code[k]? = some i)
    (h : (keepDetours code)[k]? = some (some i')) : i' = i := by
  have hR := forall₂_keepDetours (R := fun i o => ∀ i', o = some i' → i' = i)
    (fun i i' h => by cases h; rfl) (fun i l _ i' h => by cases h) code
  obtain ⟨hk, rfl⟩ := List.getElem?_eq_some_iff.1 hi
  obtain ⟨hk', he⟩ := List.getElem?_eq_some_iff.1 h
  exact hR.get hk hk' i' he

/-- Where code opens with labels, one of them is at some distance, and before it are labels. -/
theorem exists_of_opensWith {l : Label} (h : opensWith l code = true) :
    ∃ (n : Nat) (i : Instr), code[n]? = some i ∧ i.op.label? = some l ∧
      ∀ j < n, ∃ i' : Instr, code[j]? = some i' ∧ i'.op.label?.isSome := by
  induction code with
  | nil => cases h
  | cons i is ih =>
    rw [opensWith] at h
    cases hl : i.op.label? with
    | none => rw [hl] at h; cases h
    | some l' =>
      rw [hl] at h
      by_cases he : l' = l
      · exact ⟨0, i, rfl, he ▸ hl, fun j hj => absurd hj (Nat.not_lt_zero j)⟩
      · obtain ⟨n, i', hn, hi', hbefore⟩ := ih (by simpa [he] using h)
        refine ⟨n + 1, i', hn, hi', fun j hj => ?_⟩
        cases j with
        | zero => exact ⟨i, rfl, by rw [hl]; rfl⟩
        | succ j => exact hbefore j (Nat.lt_of_succ_lt_succ hj)

/-- What goes is a jump to a label that comes next, perhaps after other labels. -/
theorem exists_of_keepDetours {k : Nat} {i : Instr} (hi : code[k]? = some i)
    (h : (keepDetours code)[k]? = some none) : ∃ (l : Label) (n : Nat) (i' : Instr),
      i.op = .jump l ∧ code[k + 1 + n]? = some i' ∧ i'.op.label? = some l ∧
      ∀ j < n, ∃ i' : Instr, code[k + 1 + j]? = some i' ∧ i'.op.label?.isSome := by
  induction code generalizing k with
  | nil => cases hi
  | cons i₀ is ih =>
    cases k with
    | zero =>
      cases hi
      unfold keepDetours at h
      split at h
      · rename_i l hop
        split at h
        · rename_i ho
          obtain ⟨n, i', hn, hl, hbefore⟩ := exists_of_opensWith ho
          refine ⟨l, n, i', hop, ?_, hl, fun j hj => ?_⟩
          · rw [Nat.zero_add, Nat.add_comm, List.getElem?_cons_succ]
            exact hn
          · rw [Nat.zero_add, Nat.add_comm, List.getElem?_cons_succ]
            exact hbefore j hj
        · cases h
      · cases h
    | succ k =>
      have h' : (keepDetours is)[k]? = some none := by
        unfold keepDetours at h
        split at h <;> exact h
      obtain ⟨l, n, i', hop, hn, hl, hbefore⟩ := ih hi h'
      refine ⟨l, n, i', hop, ?_, hl, fun j hj => ?_⟩
      · rw [show k + 1 + 1 + n = (k + 1 + n) + 1 by omega, List.getElem?_cons_succ]
        exact hn
      · rw [show k + 1 + 1 + j = (k + 1 + j) + 1 by omega, List.getElem?_cons_succ]
        exact hbefore j hj

theorem keepsJumps_keepDetours (code : List Instr) :
    List.Forall₂ KeepsJumps code (keepDetours code) :=
  forall₂_keepDetours (fun _ => ⟨rfl, rfl, fun _ => id⟩)
    (fun _ _ hop => congrArg Op.label? hop) code

/-- A jump to a label that comes next goes on past labels. -/
theorem exists_advance_of_detour (hs : settings.maxSteps = none) (hl : Linked functions code)
    {dead : Nat → Prop} {p : Point} {i : Instr} (hi : code[p.machine.pc]? = some i)
    (hi' : (keepDetours code)[p.machine.pc]? = some none) :
    ∃ m, (Code.link ⟨code, functions⟩ settings).advance p = .next ⟨m, p.unread⟩ ∧
      p.machine.pc < m.pc ∧
      (∀ j, p.machine.pc < j → j < m.pc → ∃ i', code[j]? = some i' ∧ i'.op.label?.isSome) ∧
      ∀ b, Machine.Alike (shift (keepDetours code)) dead p.machine b →
        Machine.Alike (shift (keepDetours code)) dead m b := by
  obtain ⟨l, n, i', hop, hn, hil, hbefore⟩ := exists_of_keepDetours hi hi'
  have hpos : (Code.link ⟨code, functions⟩ settings).position l =
      .ok (p.machine.pc + 1 + n) := (position_link hl.distinct).2 ⟨i', hn, hil⟩
  refine ⟨{ p.machine.noted i.line with pc := p.machine.pc + 1 + n }, ?_, ?_,
    fun j h₁ h₂ => ?_, fun b hb => ?_⟩
  · rw [Image.advance_of_op (i := i) hs (by simpa [Code.link] using hi) (by rw [hop]; rfl),
      hop, Machine.execute, hpos]
    rfl
  · dsimp only
    omega
  · obtain ⟨d, rfl⟩ : ∃ d, j = p.machine.pc + 1 + d := ⟨j - (p.machine.pc + 1), by omega⟩
    exact hbefore d (by dsimp only at h₂; omega)
  · have h := hb.noted_left i.line
    exact ⟨h.globals, h.main, h.calls, h.args, h.returned, h.angle, h.output⟩

/-- Taking away jumps to what comes next preserves code. -/
theorem preserves_dropJumpsToNext (hs : settings.maxSteps = none) (code : List Instr) :
    Preserves functions settings held moving code (dropJumpsToNext code) := by
  rw [← reduceOption_keepDetours]
  refine Preserves.of_rearranged hs (fun hl => .of_keepsJumps hl (keepsJumps_keepDetours code))
    (fun ht => ?_) (fun _ => False) (fun _ => True) (fun _ _ => trivial)
    (fun _ _ _ _ _ _ => trivial) (fun _ _ _ _ => id) ?_
    (fun hl _ _ _ _ _ => exists_advance_of_detour hs hl)
  · refine tidy_of_keepsPaid ht (forall₂_keepDetours (fun i => ?_) (fun i l hop => ?_) code)
    · exact ⟨.refl i, fun i' he hst => by cases he; exact hst⟩
    · exact ⟨congrArg Op.tempsRead hop, fun i' he => by cases he⟩
  · intro _ _ m i i' _ ht hi hi'
    exact keep_same (keepDetours_eq_self hi hi') ht

/-! ### Copies of a place to itself -/

theorem Store.set_of_get? {κ α : Type} [DecidableEq κ] {s : Store κ α} {k : κ} {a : α}
    (h : s.get? k = some a) : s.set k a = s := by
  induction s with
  | nil => cases h
  | cons p s ih =>
    rcases p with ⟨k', b⟩
    by_cases hk : k' = k
    · subst hk
      simp only [Store.get?, if_true, Option.some.injEq] at h
      simp [Store.set, h]
    · simp only [Store.get?, hk, if_false] at h
      simp [Store.set, hk, ih h]

/-- Writing what is there already changes nothing. -/
theorem Machine.write_of_read? {m : Machine} {d : Place} {v : Value} (h : m.read? d = some v) :
    m.write d v = m := by
  have hframe : ∀ f : Frame → Frame, f m.frame = m.frame → m.modifyFrame f = m := by
    rcases m with ⟨pc, executed, globals, main, calls, args, returned, angle, output⟩
    intro f hf
    cases calls with
    | nil => exact congrArg (Machine.mk pc executed globals · [] args returned angle output) hf
    | cons fr frs =>
      exact congrArg (Machine.mk pc executed globals main · args returned angle output)
        (congrArg (· :: frs) hf)
  rcases d with t | ⟨slot, storage⟩
  · have ht : m.frame.temps.set t v = m.frame.temps := Store.set_of_get? h
    exact hframe (fun f => { f with temps := f.temps.set t v }) (by rw [ht])
  · cases storage with
    | global =>
      have hg : m.globals.set slot v = m.globals := Store.set_of_get? h
      rw [Machine.write, hg]
    | «local» =>
      have hf : m.frame.locals.set slot v = m.frame.locals := Store.set_of_get? h
      exact hframe (fun f => { f with locals := f.locals.set slot v }) (by rw [hf])

theorem exists_of_isSelfCopy {op : Op} (h : op.isSelfCopy = true) :
    ∃ d, op = .copy d (.place d) := by
  cases op with
  | copy d s => exact ⟨d, by rw [of_decide_eq_true h]⟩
  | _ => cases h

/-- A copy of a place to itself goes on if the place has a value. -/
theorem exists_advance_of_selfCopy (hs : settings.maxSteps = none) {kept : List (Option Instr)}
    {dead : Nat → Prop} {p : Point} {i : Instr} {d : Place} (hi : code[p.machine.pc]? = some i)
    (hop : i.op = .copy d (.place d)) (hd : (p.machine.read? d).isSome) :
    ∃ m, (Code.link ⟨code, functions⟩ settings).advance p = .next ⟨m, p.unread⟩ ∧
      p.machine.pc < m.pc ∧
      (∀ j, p.machine.pc < j → j < m.pc → ∃ i', code[j]? = some i' ∧ i'.op.label?.isSome) ∧
      ∀ b, Machine.Alike (shift kept) dead p.machine b →
        Machine.Alike (shift kept) dead m b := by
  obtain ⟨v, hv⟩ := Option.isSome_iff_exists.1 hd
  have hv' : (p.machine.noted i.line).read? d = some v := by
    rw [Machine.read?_noted, hv]
  have he : (p.machine.noted i.line).effect i.op = some (d, .ok v) := by
    rw [hop]
    simp only [Machine.effect, Machine.eval, Machine.read, hv']
  refine ⟨(p.machine.noted i.line).next, ?_, ?_, fun j h₁ h₂ => ?_, fun b hb => ?_⟩
  · rw [Image.advance_of_op (i := i) hs (by simpa [Code.link] using hi) (by rw [hop]; rfl),
      Machine.execute_of_effect he]
    change Image.follow _ _ _ (.ok (.go ((p.machine.noted i.line).write d v).next)) = _
    rw [Machine.write_of_read? hv']
    rfl
  · simp [Machine.next]
  · simp only [Machine.next, Machine.pc_noted] at h₂
    omega
  · exact (hb.noted_left i.line).next_left

theorem exists_of_keepIf_isSelfCopy {k : Nat} {i : Instr} (hi : code[k]? = some i)
    (h : (keepIf (fun i => !i.op.isSelfCopy) code)[k]? = some none) :
    ∃ d, i.op = .copy d (.place d) :=
  exists_of_isSelfCopy (by simpa using keepIf_eq_none hi h)

theorem rearranged_dropSelfCopies (hl : Linked functions code) :
    Rearranged functions code (keepIf (fun i => !i.op.isSelfCopy) code) := by
  refine linked_filter hl fun i _ h => ?_
  have hself : i.op.isSelfCopy = true := by simpa using h
  obtain ⟨d, hop⟩ := exists_of_isSelfCopy hself
  rw [hop]
  rfl

/-- Taking away copies of a place to itself preserves code. -/
theorem preserves_dropSelfCopies (hs : settings.maxSteps = none) (code : List Instr) :
    Preserves functions settings held moving code (dropSelfCopies code) := by
  -- Temporaries are never copied to themselves.
  have hvar : Tidy held moving code → ∀ i ∈ code, ∀ d, i.op = .copy d (.place d) →
      ∃ x, d = .var x := by
    intro ht i hi d hop
    cases d with
    | var x => exact ⟨x, rfl⟩
    | temp t =>
      refine absurd ?_ ((ht.steady i hi).fresh t (by rw [hop]; rfl))
      rw [hop]
      exact List.mem_cons_self ..
  unfold dropSelfCopies
  rw [← reduceOption_keepIf]
  refine Preserves.of_rearranged hs rearranged_dropSelfCopies
    (fun ht => ?_) (fun _ => False) (fun _ => True) (fun _ _ => trivial)
    (fun _ _ _ _ _ _ => trivial) (fun _ _ _ _ => id) ?_ ?_
  · rw [reduceOption_keepIf]
    refine tidy_filter ht fun i hi h => ?_
    have hself : i.op.isSelfCopy = true := by simpa using h
    obtain ⟨d, hop⟩ := exists_of_isSelfCopy hself
    obtain ⟨x, rfl⟩ := hvar ht i hi d hop
    rw [hop]
    rfl
  · intro _ _ m i i' _ ht hi hi'
    exact keep_same (keepIf_eq_some hi hi').1 ht
  · intro _ ht p i _ htrust hi hi'
    obtain ⟨d, hop⟩ := exists_of_keepIf_isSelfCopy hi hi'
    obtain ⟨x, rfl⟩ := hvar ht i (List.mem_of_getElem? hi) d hop
    refine exists_advance_of_selfCopy hs hi hop ?_
    rw [hop] at htrust
    rcases htrust with h | h
    · exact h x rfl
    · exact absurd rfl h.1

end NumericScript
