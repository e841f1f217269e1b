import NumericScript.Proofs.Optimize.Peephole

/-! # Values without a detour

An instruction that writes a temporary and a copy of it to a variable become one instruction
that writes the variable.  Between the two the runs differ: one has still to take the copy.

* `preserves_spareTemps`: sparing temporaries that are read once preserves code.
* `preserves_peephole`: and so does the pass as a whole. -/

namespace NumericScript

variable {functions : List FunctionInfo} {settings : MachineSettings} {held moving : Nat → Prop}
  {code : List Instr} {single : Nat → Bool}

/-- `i` writes a temporary that `j` copies to a variable, and `i'` writes that variable. -/
structure Joins (single : Nat → Bool) (t : Nat) (v : Variable) (i j i' : Instr) : Prop where
  written : i.op.tempWritten? = some t
  copied : j.op = .copy (.var v) (.place (.temp t))
  once : single t = true
  result : i' = { i with op := i.op.withDest (.var v) }

theorem exists_joins {i j i' : Instr} (h : joined? single i j = some i') :
    ∃ t v, Joins single t v i j i' := by
  unfold joined? at h
  split at h
  · rename_i t v s hw hop
    split at h
    · rename_i hs
      obtain ⟨rfl, hs⟩ : s = t ∧ single t = true := by simpa using hs
      cases h
      exact ⟨s, v, hw, hop, hs, rfl⟩
    · cases h
  · cases h

/-- What `joinCopies` does with every instruction. -/
def keepJoined (single : Nat → Bool) : List Instr → List (Option Instr)
  | i :: j :: is =>
    match joined? single i j with
    | some k => some k :: none :: keepJoined single is
    | none => some i :: keepJoined single (j :: is)
  | is => is.map some

theorem reduceOption_keepJoined (single : Nat → Bool) (code : List Instr) :
    (keepJoined single code).reduceOption = joinCopies single code := by
  fun_induction joinCopies single code with
  | case1 i j is k h ih =>
    rw [keepJoined, h]
    exact congrArg (k :: ·) ih
  | case2 i j is h ih =>
    rw [keepJoined, h]
    exact congrArg (i :: ·) ih
  | case3 is h =>
    have hk : keepJoined single is = is.map some := by
      unfold keepJoined
      split
      · exact absurd rfl (h _ _ _)
      · rfl
    rw [hk]
    simp [List.reduceOption]

theorem keepJoined_head (single : Nat → Bool) (code : List Instr) :
    (keepJoined single code)[0]? ≠ some none := by
  fun_cases keepJoined single code <;> simp

/-- An instruction stays, is joined with the next one, or is the copy that went with the one
before. -/
theorem keepJoined_cases {k : Nat} {i : Instr} {o : Option Instr} (hi : code[k]? = some i)
    (ho : (keepJoined single code)[k]? = some o) :
    (o = some i ∧ (keepJoined single code)[k + 1]? ≠ some none) ∨
    (∃ t v j i', code[k + 1]? = some j ∧ Joins single t v i j i' ∧ o = some i' ∧
      (keepJoined single code)[k + 1]? = some none) ∨
    (o = none ∧ (keepJoined single code)[k + 1]? ≠ some none ∧
      ∃ k₀ t v j i', k = k₀ + 1 ∧ code[k₀]? = some j ∧ Joins single t v j i i') := by
  induction hn : code.length using Nat.strongRecOn generalizing code k with
  | ind n ih =>
    subst hn
    match code, hi with
    | [i₀], hi =>
      cases k with
      | zero => cases hi; cases ho; exact .inl ⟨rfl, nofun⟩
      | succ k => cases hi
    | i₀ :: j₀ :: is, hi =>
      rw [keepJoined] at ho ⊢
      cases hj : joined? single i₀ j₀ with
      | some i' =>
        simp only [hj] at ho ⊢
        obtain ⟨t, v, hjoin⟩ := exists_joins hj
        match k, hi with
        | 0, hi =>
          cases hi
          cases ho
          exact .inr (.inl ⟨t, v, j₀, i', rfl, hjoin, rfl, rfl⟩)
        | 1, hi =>
          cases hi
          cases ho
          exact .inr (.inr ⟨rfl, keepJoined_head single is, 0, t, v, i₀, i', rfl, rfl, hjoin⟩)
        | k + 2, hi =>
          rcases @ih is.length (by rw [List.length_cons, List.length_cons]; omega) is k hi ho rfl
            with h | ⟨t, v, j, i'', h⟩ | ⟨h₁, h₂, k₀, t, v, j, i'', hk, hj', h₃⟩
          · exact .inl h
          · exact .inr (.inl ⟨t, v, j, i'', h⟩)
          · exact .inr (.inr ⟨h₁, h₂, k₀ + 2, t, v, j, i'', by omega, hj', h₃⟩)
      | none =>
        simp only [hj] at ho ⊢
        cases k with
        | zero => cases hi; cases ho; exact .inl ⟨rfl, keepJoined_head single (j₀ :: is)⟩
        | succ k =>
          rcases @ih (j₀ :: is).length (by simp) (j₀ :: is) k hi ho rfl with h | ⟨t, v, j, i'', h⟩ |
            ⟨h₁, h₂, k₀, t, v, j, i'', hk, hj', h₃⟩
          · exact .inl h
          · exact .inr (.inl ⟨t, v, j, i'', h⟩)
          · exact .inr (.inr ⟨h₁, h₂, k₀ + 1, t, v, j, i'', by omega, hj', h₃⟩)

theorem length_keepJoined (single : Nat → Bool) (code : List Instr) :
    (keepJoined single code).length = code.length := by
  fun_induction keepJoined single code with
  | case1 i j is k h ih => simp [ih]
  | case2 i j is h ih => simp [ih]
  | case3 is h => simp

/-! ### The joined instruction -/

section Joins

variable {t : Nat} {v : Variable} {i j i' : Instr}

theorem Joins.line (h : Joins single t v i j i') : i'.line = i.line := by rw [h.result]

theorem Joins.label? (h : Joins single t v i j i') :
    i.op.label? = none ∧ i'.op.label? = none := by
  have hw := h.written
  rw [h.result]
  cases hop : i.op <;> rw [hop] at hw <;> first | exact ⟨rfl, rfl⟩ | cases hw

theorem Joins.target? (h : Joins single t v i j i') : i'.op.target? = none := by
  have hw := h.written
  rw [h.result]
  cases hop : i.op <;> first | rfl | (rw [hop] at hw; cases hw)

theorem Joins.tempsRead (h : Joins single t v i j i') : i'.op.tempsRead = i.op.tempsRead := by
  rw [h.result]
  cases hop : i.op <;> rfl

theorem Joins.tempWritten? (h : Joins single t v i j i') : i'.op.tempWritten? = none := by
  rw [h.result]
  cases hop : i.op <;> rfl

theorem Joins.owes (h : Joins single t v i j i') : i'.op.owes = none := by
  cases ho : i'.op.owes with
  | none => rfl
  | some t' =>
    have := Op.tempWritten?_of_owes ho
    rw [h.tempWritten?] at this
    cases this

theorem Joins.isStraight (h : Joins single t v i j i') : i'.op.isStraight = true := by
  have hw := h.written
  rw [h.result]
  cases hop : i.op <;> rw [hop] at hw <;> first | rfl | cases hw

/-- The joined instruction computes what the first one computes, or reads what it reads. -/
theorem Joins.effect (h : Joins single t v i j i') :
    (∃ ty, i.op = .input (.temp t) ty ∧ i'.op = .input (.var v) ty) ∨
    ∀ m : Machine, ∃ x, m.effect i.op = some (.temp t, x) ∧ m.effect i'.op = some (.var v, x) := by
  have hw := h.written
  rw [h.result]
  dsimp only
  cases hop : i.op with
  | input d ty => rw [hop] at hw; cases d <;> cases hw; exact .inl ⟨ty, rfl, rfl⟩
  | assign d _ | copy d _ | unary d _ _ | binary d _ _ _ | newArray d _ | newMatrix d _ _
  | load d _ _ _ => rw [hop] at hw; cases d <;> cases hw; exact .inr fun m => ⟨_, rfl, rfl⟩
  | _ => rw [hop] at hw; cases hw

theorem Joins.steady (h : Joins single t v i j i') (hi : i.op.Steady held moving) :
    i'.op.Steady held moving where
  fresh := fun t ht => by rw [h.owes] at ht; cases ht
  copied := by
    intro d s hop
    have hw := h.written
    rw [h.result] at hop
    dsimp only at hop
    cases hi' : i.op with
    | copy d' s' =>
      rw [hi'] at hop
      cases hop
      exact hi.copied d' s hi'
    | _ => rw [hi'] at hop hw; first | cases hw | cases hop
  factor := by
    intro d f l r hop
    have hw := h.written
    rw [h.result] at hop
    dsimp only at hop
    cases hi' : i.op with
    | binary d' f' l' r' =>
      rw [hi'] at hop
      cases hop
      exact hi.factor d' f l r hi'
    | _ => rw [hi'] at hop hw; first | cases hw | cases hop
  moves := fun t ht => by rw [h.tempWritten?] at ht; cases ht
  input := by
    intro s ty hop
    have hw := h.tempWritten?
    rw [hop] at hw
    cases hw

/-- The joined instruction is trusted like the first one: a value that is copied right away
was not kept over a call. -/
theorem Joins.trusty (h : Joins single t v i j i') {m : Machine} (hi : i.op.Trusty held m)
    (hj : j.op.Steady held moving) : i'.op.Trusty held m := by
  have hw := h.written
  rw [h.result]
  dsimp only
  cases hop : i.op with
  | copy d s =>
    rw [hop] at hi hw
    rcases hi with hi | ⟨-, hi⟩
    · exact .inl hi
    · cases d with
      | temp t' => cases hw; exact absurd (hi t rfl) (hj.copied _ t h.copied)
      | var x => cases hw
  | binary d f l r => rw [hop] at hi; exact hi
  | _ => exact trivial

end Joins

/-! ### Temporaries -/

/-- A temporary that is read once is read by one instruction. -/
theorem eq_of_count_tempsRead {t : Nat} (h : (tempsRead code).count t ≤ 1) {j k : Nat}
    {i i' : Instr} (hj : code[j]? = some i) (hk : code[k]? = some i') (ht : t ∈ i.op.tempsRead)
    (ht' : t ∈ i'.op.tempsRead) : j = k := by
  induction code generalizing j k with
  | nil => cases hj
  | cons i₀ is ih =>
    rw [tempsRead, List.flatMap_cons, List.count_append] at h
    have hmem : ∀ {n : Nat} {i : Instr}, is[n]? = some i → t ∈ i.op.tempsRead →
        0 < (is.flatMap (·.op.tempsRead)).count t := fun hn hi =>
      List.count_pos_iff.2 (List.mem_flatMap.2 ⟨_, List.mem_of_getElem? hn, hi⟩)
    cases j with
    | zero =>
      cases hj
      have := List.count_pos_iff.2 ht
      cases k with
      | zero => rfl
      | succ k =>
        have := hmem hk ht'
        omega
    | succ j =>
      cases k with
      | zero =>
        cases hk
        have := List.count_pos_iff.2 ht'
        have := hmem hj ht
        omega
      | succ k =>
        have hle : (tempsRead is).count t ≤ 1 := Nat.le_trans (Nat.le_add_left _ _) h
        rw [ih hle hj hk]

theorem Paid.joinCopies {t : Nat} (h : Paid t code) :
    Paid t (NumericScript.joinCopies single code) := by
  fun_induction NumericScript.joinCopies single code with
  | case1 i j is i' hj ih =>
    obtain ⟨s, v, hjoin⟩ := exists_joins hj
    rcases h with h | ⟨hw, -, h⟩
    · exact .inl (by rw [hjoin.tempsRead]; exact h)
    · refine .inr ⟨by rw [hjoin.tempWritten?]; exact nofun, hjoin.isStraight, ?_⟩
      rcases h with h | ⟨-, -, h⟩
      · rw [hjoin.copied] at h
        obtain rfl : t = s := by simpa [Op.tempsRead, Op.operands, Op.operandTemp?] using h
        exact absurd hjoin.written hw
      · exact ih h
  | case2 i j is hj ih =>
    rcases h with h | ⟨hw, hs, h⟩
    · exact .inl h
    · exact .inr ⟨hw, hs, ih h⟩
  | case3 is h' => exact h

theorem Thrifty.joinCopies (h : Thrifty code) :
    Thrifty (NumericScript.joinCopies single code) := by
  fun_induction NumericScript.joinCopies single code with
  | case1 i j is i' hj ih =>
    obtain ⟨s, v, hjoin⟩ := exists_joins hj
    refine ⟨fun t ht => ?_, ih h.2.2⟩
    rw [hjoin.owes] at ht
    cases ht
  | case2 i j is hj ih => exact ⟨fun t ht => (h.1 t ht).joinCopies, ih h.2⟩
  | case3 is h' => exact h

theorem forall₂_keepJoined {R : Instr → Option Instr → Prop} (hsome : ∀ i ∈ code, R i (some i))
    (hjoin : ∀ t v, ∀ i ∈ code, ∀ j ∈ code, ∀ i', Joins single t v i j i' →
      R i (some i') ∧ R j none) : List.Forall₂ R code (keepJoined single code) := by
  rw [List.forall₂_iff_get]
  refine ⟨(length_keepJoined single code).symm, fun k hk hk' => ?_⟩
  have hi : code[k]? = some code[k] := List.getElem?_eq_getElem hk
  rcases keepJoined_cases hi (List.getElem?_eq_getElem hk') with
    ⟨ho, -⟩ | ⟨t, v, j, i', hj, h, ho, -⟩ | ⟨ho, -, k₀, t, v, j, i', -, hj, h⟩
  · rw [List.get_eq_getElem, List.get_eq_getElem, ho]
    exact hsome _ (List.getElem_mem hk)
  · rw [List.get_eq_getElem, List.get_eq_getElem, ho]
    exact (hjoin t v _ (List.getElem_mem hk) j (List.mem_of_getElem? hj) i' h).1
  · rw [List.get_eq_getElem, List.get_eq_getElem, ho]
    exact (hjoin t v j (List.mem_of_getElem? hj) _ (List.getElem_mem hk) i' h).2

/-! ### The pass -/

/-- The second run is where the first is, or it has already taken the copy that the first is
about to take. -/
def Joined (kept : List (Option Instr)) (dead : Nat → Prop) (code : List Instr) (a b : Point) :
    Prop :=
  b.unread = a.unread ∧
    (kept[a.machine.pc]? ≠ some none ∧ Machine.Together (shift kept) dead a.machine b.machine ∨
    ∃ i t v w, kept[a.machine.pc]? = some none ∧ code[a.machine.pc]? = some i ∧
      i.op = .copy (.var v) (.place (.temp t)) ∧ a.machine.read? (.temp t) = some w ∧
      Machine.Together (shift kept) dead ((a.machine.noted i.line).write (.var v) w).next
        b.machine)

/-- The temporaries that are spared. -/
def Spared (single : Nat → Bool) (code : List Instr) (t : Nat) : Prop :=
  ∃ k v i j i', code[k]? = some i ∧ code[k + 1]? = some j ∧ Joins single t v i j i' ∧
    (keepJoined single code)[k + 1]? = some none

/-- A spared temporary is read nowhere but by the copy. -/
theorem Spared.not_mem_tempsRead (hsingle : ∀ t, single t = true → (tempsRead code).count t ≤ 1)
    {k : Nat} {i i' : Instr} (hi : code[k]? = some i)
    (hk : (keepJoined single code)[k]? = some (some i')) :
    ∀ t ∈ i'.op.tempsRead, ¬ Spared single code t := by
  rintro t ht ⟨k₀, v, i₀, j₀, i₀', -, hj₀, hjoin, hgone⟩
  have hread : t ∈ j₀.op.tempsRead := by
    rw [hjoin.copied]
    exact List.mem_cons_self ..
  have hread' : t ∈ i.op.tempsRead := by
    rcases keepJoined_cases hi hk with ⟨he, -⟩ | ⟨_, _, _, _, -, h, he, -⟩ | ⟨he, -⟩
    · cases he
      exact ht
    · cases he
      rw [h.tempsRead] at ht
      exact ht
    · cases he
  obtain rfl := eq_of_count_tempsRead (hsingle t hjoin.once) hi hj₀ hread' hread
  rw [hgone] at hk
  cases hk

section Pass

variable (hs : settings.maxSteps = none)
  (hsingle : ∀ t, single t = true → (tempsRead code).count t ≤ 1)

include hs hsingle

omit hs hsingle in
/-- Where the first run has given a value to a temporary and the second to the variable, the
first is about to take the copy. -/
theorem joined_of_write {a : Point} {b : Machine} {t : Nat} {v : Variable} {i j i' : Instr}
    (hab : Machine.Together (shift (keepJoined single code)) (Spared single code) a.machine b)
    (hi : code[a.machine.pc]? = some i) (hj : code[a.machine.pc + 1]? = some j)
    (hjoin : Joins single t v i j i')
    (hk : (keepJoined single code)[a.machine.pc]? = some (some i'))
    (hk' : (keepJoined single code)[a.machine.pc + 1]? = some none) (w : Value)
    (unread : List String) :
    Joined (keepJoined single code) (Spared single code) code
      ⟨((a.machine.noted i.line).write (.temp t) w).next, unread⟩
      ⟨((b.noted i.line).write (.var v) w).next, unread⟩ := by
  have hnoted := hab.1.noted i.line i.line
  have hdead : Spared single code t := ⟨_, v, i, j, i', hi, hj, hjoin, hk'⟩
  refine ⟨rfl, .inr ⟨j, t, v, w, ?_, ?_, hjoin.copied, ?_, ?_, ?_⟩⟩
  · simpa [Machine.next] using hk'
  · simpa [Machine.next] using hj
  · rw [Machine.read?_next, Machine.read?_write, if_pos rfl]
  · exact ((((hnoted.write_dead hdead w).next_left).noted_left j.line).write (.var v) w).next
  · have h₁ := shift_succ_of_some hk
    have h₂ := shift_succ_of_none hk'
    simp only [Machine.next, Machine.pc_write, Machine.pc_noted, hab.2]
    omega

/-- Where an instruction is joined with a copy, the first run is about to take the copy when
the second has taken it. -/
theorem matches_of_joins {a : Point} {b : Machine} {t : Nat} {v : Variable} {i j i' : Instr}
    (hab : Machine.Together (shift (keepJoined single code)) (Spared single code) a.machine b)
    (hi : code[a.machine.pc]? = some i) (hj : code[a.machine.pc + 1]? = some j)
    (hjoin : Joins single t v i j i')
    (hk : (keepJoined single code)[a.machine.pc]? = some (some i'))
    (hk' : (keepJoined single code)[a.machine.pc + 1]? = some none) {Q : Point → Prop}
    (hQ : Q ⟨b, a.unread⟩) :
    Matches (Code.link ⟨code, functions⟩ settings)
      (Code.link ⟨(keepJoined single code).reduceOption, functions⟩ settings)
      (Joined (keepJoined single code) (Spared single code) code)
      (Rearranged.rank code (keepJoined single code)) Q a ⟨b, a.unread⟩ := by
  have hb : (keepJoined single code).reduceOption[b.pc]? = some i' := by
    rw [hab.2]
    exact getElem?_shift hk
  have hA : (Code.link ⟨code, functions⟩ settings).advance a = _ :=
    Image.advance_of_op (i := i) hs (by simpa [Code.link] using hi) hjoin.label?.1
  have hB : (Code.link ⟨(keepJoined single code).reduceOption, functions⟩ settings).advance
      ⟨b, a.unread⟩ = _ :=
    Image.advance_of_op (i := i') hs (by simpa [Code.link] using hb) hjoin.label?.2
  have hnoted := hab.1.noted i.line i.line
  have hwrite := joined_of_write hab hi hj hjoin hk hk'
  have hline : ∀ (is : List Instr) (m : Machine) (i : Instr), is[m.pc]? = some i →
      (Code.link ⟨is, functions⟩ settings).line? m.pc = some i.line := by
    intro is m i hi
    simp [Image.line?, Code.link, hi]
  have hlA := hline code (a.machine.noted i.line) i (by simpa using hi)
  have hlB := hline _ (b.noted i.line) i' (by simpa using hb)
  have hfault : ∀ f rest,
      Image.faultOutcome (Code.link ⟨(keepJoined single code).reduceOption, functions⟩ settings)
        (b.noted i.line) f rest =
      Image.faultOutcome (Code.link ⟨code, functions⟩ settings) (a.machine.noted i.line) f
        rest := by
    intro f rest
    rw [Image.faultOutcome, Image.faultOutcome, hlA, hlB, hjoin.line, hnoted.output]
  rw [hjoin.line] at hB
  rcases hjoin.effect with ⟨ty, hop, hop'⟩ | heffect
  · -- Both ask for a line of input.
    rw [hop] at hA
    rw [hop'] at hB
    simp only [Machine.execute, Image.follow, pure, Except.pure] at hA hB
    cases hu : a.unread with
    | nil =>
      rw [hu] at hA hB hQ
      refine .done hQ hA (hB.trans (congrArg Advance.done ?_))
      rw [Image.cancelOutcome, Image.cancelOutcome, hlA, hlB, hjoin.line, hnoted.output]
    | cons line rest =>
      rw [hu] at hA hB hQ
      dsimp only at hA hB
      cases hv : Value.ofInput line ty with
      | error f =>
        rw [hv] at hA hB
        exact .done hQ hA (hB.trans (congrArg Advance.done (hfault f rest)))
      | ok w =>
        rw [hv] at hA hB
        exact .both hQ hA hB (hwrite w rest)
  · obtain ⟨x, hx, hx'⟩ := heffect (a.machine.noted i.line)
    have hread := Spared.not_mem_tempsRead hsingle hi hk
    rw [Machine.execute_of_effect hx] at hA
    rw [Machine.execute_of_effect ((hnoted.effect hread).trans hx')] at hB
    cases x with
    | error f => exact .done hQ hA (hB.trans (congrArg Advance.done (hfault f a.unread)))
    | ok w => exact .both hQ hA hB (hwrite w a.unread)

/-- Runs of code in which instructions are joined with copies go on alike.  Something may hold
of every operation at hand that does not depend on temporaries that are not read. -/
theorem simulates_joinCopies (h : Rearranged functions code (keepJoined single code))
    (T : Machine → Op → Prop)
    (halike : ∀ place a b op, Machine.Alike place (Spared single code) a b →
      (∀ t ∈ op.tempsRead, ¬ Spared single code t) → T a op → T b op)
    (hjoins : ∀ m t v, ∀ i ∈ code, ∀ j ∈ code, ∀ i', Joins single t v i j i' → T m i.op →
      T m i'.op) :
    Simulates (Code.link ⟨code, functions⟩ settings)
      (Code.link ⟨(keepJoined single code).reduceOption, functions⟩ settings)
      (Joined (keepJoined single code) (Spared single code) code)
      (Rearranged.rank code (keepJoined single code))
      (fun p => OpAt T code p ∧
        ∀ r ∈ p.machine.returns, (keepJoined single code)[r]? ≠ some none)
      (OpAt T (keepJoined single code).reduceOption) := by
  rintro a ⟨b, unread⟩ ⟨hu, hab⟩ ⟨htrust, hret⟩
  obtain rfl : unread = a.unread := hu
  rcases hab with ⟨hk, hab⟩ | ⟨i, t, v, w, hk, hi, hop, hread, hab⟩
  · cases hi : code[a.machine.pc]? with
    | none =>
      obtain ⟨-, o, ha, hb⟩ := h.advance_end hab hi
      refine .done (fun i hi' => ?_) ha hb
      have hlen : (keepJoined single code).length ≤ a.machine.pc := by
        rw [length_keepJoined]
        exact List.getElem?_eq_none_iff.1 hi
      rw [hab.2, shift_of_length_le hlen, List.getElem?_eq_none_iff.2 (Nat.le_refl _)] at hi'
      cases hi'
    | some i =>
      obtain ⟨o, ho, -⟩ := h.exists_kept hi
      have hQ : ∀ i', o = some i' → T a.machine i'.op →
          OpAt T (keepJoined single code).reduceOption ⟨b, a.unread⟩ := by
        intro i' he hi' i'' hb
        rw [hab.2, getElem?_shift (ho.trans (congrArg some he))] at hb
        cases hb
        exact halike _ _ _ _ hab.1
          (Spared.not_mem_tempsRead hsingle hi (ho.trans (congrArg some he))) hi'
      rcases keepJoined_cases hi ho with ⟨rfl, hnext⟩ | ⟨t, v, j, i', hj, hjoin, rfl, hgone⟩ |
        ⟨rfl, -⟩
      · have hadv : Advance.Alike _ ((Code.link ⟨code, functions⟩ settings).advance a) _ :=
          h.advance hs hab hi ho (fun _ => rfl) (Spared.not_mem_tempsRead hsingle hi ho)
        have hq := hQ i rfl (htrust i hi)
        generalize hx : (Code.link ⟨code, functions⟩ settings).advance a = x at hadv
        generalize hy : (Code.link ⟨(keepJoined single code).reduceOption, functions⟩
          settings).advance ⟨b, a.unread⟩ = y at hadv
        cases hadv with
        | done => exact .done hq hx hy
        | next hr =>
          refine .both hq hx hy ⟨rfl, .inl ⟨?_, hr⟩⟩
          obtain ⟨i', hi', hpc, -⟩ := Image.control_of_advance hx
          rcases hpc with ⟨hpc, -⟩ | ⟨l, hl⟩ | hr'
          · rw [hpc]
            exact hnext
          · obtain ⟨i₀, hi₀, hlab⟩ := (position_link h.before.distinct).1 hl
            intro hnone
            rcases keepJoined_cases hi₀ hnone with ⟨he, -⟩ | ⟨_, _, _, _, -, -, he, -⟩ |
              ⟨-, -, _, _, _, _, _, -, -, hjoin⟩
            · cases he
            · cases he
            · rw [hjoin.copied] at hlab
              cases hlab
          · exact hret _ hr'
      · refine matches_of_joins hs hsingle hab hi hj hjoin ho hgone (hQ i' rfl ?_)
        exact hjoins _ t v i (List.mem_of_getElem? hi) j (List.mem_of_getElem? hj) i' hjoin
          (htrust i hi)
      · exact absurd ho hk
  · -- The first run takes the copy that the second has taken already.
    have hw : (a.machine.noted i.line).effect i.op = some (.var v, .ok w) := by
      rw [hop]
      simp only [Machine.effect, Machine.eval, Machine.read, Machine.read?_noted, hread]
    have hadv : (Code.link ⟨code, functions⟩ settings).advance a = _ :=
      Image.advance_of_op (i := i) hs (by simpa [Code.link] using hi) (by rw [hop]; rfl)
    rw [Machine.execute_of_effect hw] at hadv
    refine .left hadv ⟨rfl, .inl ⟨?_, hab⟩⟩ ?_
    · rcases keepJoined_cases hi hk with ⟨he, -⟩ | ⟨_, _, _, _, -, -, he, -⟩ | ⟨-, hnext, -⟩
      · cases he
      · cases he
      · simpa [Machine.next] using hnext
    · have := (List.getElem?_eq_some_iff.1 hi).1
      simp only [Rearranged.rank, Machine.next, Machine.pc_write, Machine.pc_noted]
      omega

omit hs hsingle in
variable (single) in
theorem rearranged_keepJoined (hl : Linked functions code) :
    Rearranged functions code (keepJoined single code) := by
  refine .of_keepsJumps hl (forall₂_keepJoined (fun i _ => ⟨rfl, rfl, fun _ => id⟩) ?_)
  intro t v i _ j _ i' hjoin
  refine ⟨⟨hjoin.line, hjoin.label?.2.trans hjoin.label?.1.symm, fun l hl => ?_⟩, ?_⟩
  · rw [hjoin.target?] at hl
    cases hl
  · exact congrArg Op.label? hjoin.copied

omit hs hsingle in
theorem tidy_joinCopies (ht : Tidy held moving code) :
    Tidy held moving (joinCopies single code) := by
  refine ⟨ht.thrifty.joinCopies, fun i' hi' => ?_⟩
  rw [← reduceOption_keepJoined] at hi'
  have hR : List.Forall₂ (fun _ o => ∀ i', o = some i' → i'.op.Steady held moving) code
      (keepJoined single code) := by
    refine forall₂_keepJoined (fun i hi i' he => ?_) fun t v i hi j _ i' hjoin => ⟨?_, ?_⟩
    · cases he
      exact ht.steady i hi
    · intro i'' he
      cases he
      exact hjoin.steady (ht.steady i hi)
    · intro i'' he
      cases he
  obtain ⟨i, -, h⟩ := exists_of_mem_reduceOption hR hi'
  exact h i' rfl

omit hs hsingle in
variable (single) in
/-- A call goes back to an instruction that stays. -/
theorem always_returns (hl : Linked functions code) (lines : List String) :
    (Code.link ⟨code, functions⟩ settings).Always
      (fun p => ∀ r ∈ p.machine.returns, (keepJoined single code)[r]? ≠ some none)
      ((Code.link ⟨code, functions⟩ settings).startPoint lines) := by
  refine Image.always_of_step (Q := fun _ => True) (fun r hr => by cases hr)
    (fun _ _ => trivial) fun p q hp _ hadv r hr => ?_
  obtain ⟨i, hi, -, hret⟩ := Image.control_of_advance hadv
  replace hi : code[p.machine.pc]? = some i := by simpa [Code.link] using hi
  rcases hret r hr with hr | ⟨rfl, f, argc, hop⟩
  · exact hp r hr
  · obtain ⟨o, ho, -⟩ := (rearranged_keepJoined single hl).exists_kept hi
    rcases keepJoined_cases hi ho with ⟨-, h⟩ | ⟨_, _, _, _, -, h, -⟩ |
      ⟨-, -, _, _, _, _, _, -, -, h⟩
    · exact h
    · have := h.written
      rw [hop] at this
      cases this
    · have := h.copied
      rw [hop] at this
      cases this

/-- Code in which instructions are joined with copies runs as before. -/
theorem runs_joinCopies (hl : Linked functions code) (T : Machine → Op → Prop)
    (halike : ∀ place a b op, Machine.Alike place (Spared single code) a b →
      (∀ t ∈ op.tempsRead, ¬ Spared single code t) → T a op → T b op)
    (hjoins : ∀ m t v, ∀ i ∈ code, ∀ j ∈ code, ∀ i', Joins single t v i j i' → T m i.op →
      T m i'.op)
    {lines : List String}
    (hP : Image.Always (Code.link ⟨code, functions⟩ settings) (OpAt T code)
      ((Code.link ⟨code, functions⟩ settings).startPoint lines)) :
    Image.Always (Code.link ⟨joinCopies single code, functions⟩ settings)
        (OpAt T (joinCopies single code))
        ((Code.link ⟨joinCopies single code, functions⟩ settings).startPoint lines) ∧
      ∀ o, (Code.link ⟨code, functions⟩ settings).Halts
          ((Code.link ⟨code, functions⟩ settings).startPoint lines) o ↔
        (Code.link ⟨joinCopies single code, functions⟩ settings).Halts
          ((Code.link ⟨joinCopies single code, functions⟩ settings).startPoint lines) o := by
  have hboth := hP.and (always_returns single hl lines)
  have hsim := simulates_joinCopies hs hsingle (rearranged_keepJoined single hl) T halike hjoins
  rw [← reduceOption_keepJoined]
  have hR : Joined (keepJoined single code) (Spared single code) code
      ((Code.link ⟨code, functions⟩ settings).startPoint lines)
      ((Code.link ⟨(keepJoined single code).reduceOption, functions⟩ settings).startPoint
        lines) :=
    ⟨rfl, .inl ⟨keepJoined_head single code, Machine.together_start _ _ _⟩⟩
  exact ⟨hsim.always hR hboth, fun o => hsim.halts_iff hR hboth⟩

/-- Sparing temporaries that are read at most once preserves code. -/
theorem preserves_joinCopies :
    Preserves functions settings held moving code (joinCopies single code) where
  linked := by
    intro hl
    rw [← reduceOption_keepJoined]
    exact (rearranged_keepJoined single hl).after
  tidy := tidy_joinCopies
  runs := fun hl ht _ hP => runs_joinCopies hs hsingle hl (fun m op => op.Trusty held m)
    (fun _ _ _ _ hab hread h => h.of_alike hab hread)
    (fun _ _ _ _ _ j hj _ hjoin h => hjoin.trusty h (ht.steady j hj)) hP

end Pass

theorem read_of_single (code : List Instr) (t : Nat)
    (ht : ((tempsWritten code).count t = 1 && (tempsRead code).count t = 1) = true) :
    (tempsRead code).count t ≤ 1 := by
  have h : (tempsWritten code).count t = 1 ∧ (tempsRead code).count t = 1 := by
    simpa using ht
  exact Nat.le_of_eq h.2

/-- Sparing temporaries that are written and read once preserves code. -/
theorem preserves_spareTemps (hs : settings.maxSteps = none) (code : List Instr) :
    Preserves functions settings held moving code (spareTemps code) :=
  preserves_joinCopies hs (read_of_single code)

/-- Simplifying neighbouring instructions preserves code. -/
theorem preserves_peephole (hs : settings.maxSteps = none) (code : List Instr) :
    Preserves functions settings held moving code (peephole code).code :=
  (((preserves_decideBranches hs code).trans (preserves_dropJumpsToNext hs _)).trans
    (preserves_dropSelfCopies hs _)).trans (preserves_spareTemps hs _)

end NumericScript
