import Mathlib.Data.List.ReduceOption
import NumericScript.Proofs.Alike
import NumericScript.Proofs.Link

/-! # Rearranged code

A pass over code says for every instruction whether it stays, perhaps as another instruction,
or goes.  What stays moves forward by the number of instructions that went before it.

* `Rearranged.resolves`: the labels that stay are where their instructions went.
* `Rearranged.simulates`: code runs as before if what stays acts as before and what goes does
  nothing that is noticed. -/

namespace NumericScript

/-- Where the instruction at a position goes. -/
def shift (kept : List (Option Instr)) (k : Nat) : Nat := (kept.take k).reduceOption.length

section Shift

variable {kept : List (Option Instr)} {k : Nat} {i : Instr}

@[simp] theorem shift_zero (kept : List (Option Instr)) : shift kept 0 = 0 := by
  simp [shift]

theorem shift_succ {o : Option Instr} (h : kept[k]? = some o) :
    shift kept (k + 1) = shift kept k + o.toList.length := by
  rw [shift, List.take_add_one, h, Option.toList_some, List.reduceOption_append,
    List.length_append, List.reduceOption_singleton]
  rfl

theorem shift_succ_of_some (h : kept[k]? = some (some i)) :
    shift kept (k + 1) = shift kept k + 1 := shift_succ h

theorem shift_succ_of_none (h : kept[k]? = some none) : shift kept (k + 1) = shift kept k :=
  shift_succ h

theorem shift_of_length_le (h : kept.length ≤ k) :
    shift kept k = kept.reduceOption.length := by
  rw [shift, List.take_of_length_le h]

theorem shift_mono (kept : List (Option Instr)) {j k : Nat} (h : j ≤ k) :
    shift kept j ≤ shift kept k := by
  induction h with
  | refl => exact Nat.le_refl _
  | @step k _ ih =>
    cases ho : kept[k]? with
    | none =>
      have hlen := List.getElem?_eq_none_iff.1 ho
      rwa [shift_of_length_le (Nat.le_succ_of_le hlen), ← shift_of_length_le hlen]
    | some o =>
      rw [Nat.succ_eq_add_one, shift_succ ho]
      omega

theorem getElem?_shift (h : kept[k]? = some (some i)) :
    kept.reduceOption[shift kept k]? = some i := by
  obtain ⟨hk, hi⟩ := List.getElem?_eq_some_iff.1 h
  have hsplit : kept = kept.take k ++ some i :: kept.drop (k + 1) := by
    rw [← hi, ← List.drop_eq_getElem_cons hk, List.take_append_drop]
  have hred : kept.reduceOption =
      (kept.take k).reduceOption ++ i :: (kept.drop (k + 1)).reduceOption := by
    conv => lhs; rw [hsplit]
    rw [List.reduceOption_append, List.reduceOption_cons_of_some]
  rw [hred, shift, List.getElem?_append_right (Nat.le_refl _), Nat.sub_self]
  rfl

/-- Between the places of two positions there is nothing but what stays between them. -/
theorem exists_shift_eq {n j : Nat} (hlo : shift kept k ≤ j) (hhi : j < shift kept (k + n)) :
    ∃ k' i, k ≤ k' ∧ k' < k + n ∧ kept[k']? = some (some i) ∧
      kept.reduceOption[j]? = some i := by
  induction n with
  | zero => exact absurd hhi (by simpa using hlo)
  | succ n ih =>
    by_cases hj : j < shift kept (k + n)
    · obtain ⟨k', i, h₁, h₂, h₃, h₄⟩ := ih hj
      exact ⟨k', i, h₁, by omega, h₃, h₄⟩
    · cases ho : kept[k + n]? with
      | none =>
        have hlen : kept.length ≤ k + n := List.getElem?_eq_none_iff.1 ho
        rw [← Nat.add_assoc, shift_of_length_le (by omega)] at hhi
        rw [shift_of_length_le hlen] at hj
        exact absurd hhi hj
      | some o =>
        rw [← Nat.add_assoc, shift_succ ho] at hhi
        cases o with
        | none => exact absurd hhi hj
        | some i =>
          have he : j = shift kept (k + n) := by
            simp only [Option.toList_some, List.length_singleton] at hhi
            omega
          exact ⟨k + n, i, by omega, by omega, ho, he ▸ getElem?_shift ho⟩

end Shift

/-- What may become of an instruction. -/
def Keeps (i : Instr) : Option Instr → Prop
  | some i' => i'.line = i.line ∧ i'.op.label? = i.op.label?
  | none => True

/-- Linked code that stays linked when instructions are replaced or go. -/
structure Rearranged (functions : List FunctionInfo) (code : List Instr)
    (kept : List (Option Instr)) : Prop where
  before : Linked functions code
  keeps : List.Forall₂ Keeps code kept
  after : Linked functions kept.reduceOption

theorem mem_functions {functions : List FunctionInfo} {s : Store String FunctionInfo}
    {name : String} {f : FunctionInfo}
    (h : (functions.foldl (fun s f => s.set f.name f) s).get? name = some f) :
    f ∈ functions ∨ s.get? name = some f :=
  Store.forall_get?_foldl_set (P := fun name f => f ∈ functions ∨ s.get? name = some f)
    (fun _ _ => .inr) (fun _ => .inl) name f h

namespace Rearranged

variable {functions : List FunctionInfo} {code : List Instr} {kept : List (Option Instr)}
  {settings : MachineSettings}

theorem exists_kept (h : Rearranged functions code kept) {k : Nat} {i : Instr}
    (hi : code[k]? = some i) : ∃ o, kept[k]? = some o ∧ Keeps i o := by
  obtain ⟨hk, rfl⟩ := List.getElem?_eq_some_iff.1 hi
  have hk' : k < kept.length := by rw [← h.keeps.length_eq]; exact hk
  exact ⟨kept[k], List.getElem?_eq_getElem hk', h.keeps.get hk hk'⟩

/-- The labels that stay are where their instructions went. -/
theorem resolves (h : Rearranged functions code kept) {l : Label}
    (hl : l ∈ labelsIn kept.reduceOption) :
    Resolves (Code.link ⟨code, functions⟩ settings)
      (Code.link ⟨kept.reduceOption, functions⟩ settings) (shift kept) l := by
  obtain ⟨i', hi', hl'⟩ := List.mem_filterMap.1 hl
  obtain ⟨k, hk⟩ := List.mem_iff_getElem?.1 (List.reduceOption_mem_iff.1 hi')
  have hlt : k < code.length := by
    rw [h.keeps.length_eq]
    exact (List.getElem?_eq_some_iff.1 hk).1
  obtain ⟨o, ho, hkeep⟩ := h.exists_kept (List.getElem?_eq_getElem hlt)
  rw [hk] at ho
  cases ho
  refine ⟨k, (position_link h.before.distinct).2 ⟨_, List.getElem?_eq_getElem hlt, ?_⟩,
    (position_link h.after.distinct).2 ⟨i', getElem?_shift hk, hl'⟩⟩
  rw [← hkeep.2, hl']

theorem relocates (h : Rearranged functions code kept) :
    Relocates (Code.link ⟨code, functions⟩ settings)
      (Code.link ⟨kept.reduceOption, functions⟩ settings) (shift kept) where
  functions := rfl
  settings := rfl
  entries := by
    intro name f hf
    rcases mem_functions hf with hf | hf
    · exact h.resolves (h.after.entries f hf)
    · cases hf

/-- What stays and acts as before lets runs go on alike. -/
theorem advance {dead : Nat → Prop} (h : Rearranged functions code kept)
    (hs : settings.maxSteps = none) {p : Point} {b : Machine} {i i' : Instr}
    (hp : Machine.Together (shift kept) dead p.machine b)
    (hi : code[p.machine.pc]? = some i) (hi' : kept[p.machine.pc]? = some (some i'))
    (hact : i.op.label? = none →
      (p.machine.noted i.line).execute (Code.link ⟨code, functions⟩ settings) i.op =
        (p.machine.noted i.line).execute (Code.link ⟨code, functions⟩ settings) i'.op)
    (hread : ∀ t ∈ i'.op.tempsRead, ¬ dead t) :
    Advance.Alike (Machine.Together (shift kept) dead)
      ((Code.link ⟨code, functions⟩ settings).advance p)
      ((Code.link ⟨kept.reduceOption, functions⟩ settings).advance ⟨b, p.unread⟩) := by
  obtain ⟨o, ho, hkeep⟩ := h.exists_kept hi
  rw [hi'] at ho
  cases ho
  have hpc := shift_succ_of_some hi'
  have hb : kept.reduceOption[b.pc]? = some i' := by
    rw [hp.2]
    exact getElem?_shift hi'
  have hA : (Code.link ⟨code, functions⟩ settings).instrs[p.machine.pc]? = some i := by
    simpa [Code.link] using hi
  have hB : (Code.link ⟨kept.reduceOption, functions⟩ settings).instrs[b.pc]? = some i' := by
    simpa [Code.link] using hb
  cases hl : i.op.label? with
  | some l =>
    rw [Image.advance_of_label hA (by rw [hl]; rfl),
      Image.advance_of_label (p := ⟨b, p.unread⟩) hB (by rw [hkeep.2, hl]; rfl)]
    refine .next ⟨hp.1.next, ?_⟩
    exact (congrArg (· + 1) hp.2).trans hpc.symm
  | none =>
    rw [Image.advance_of_op hs hA hl,
      Image.advance_of_op (p := ⟨b, p.unread⟩) hs hB (by rw [hkeep.2, hl]), hact hl, hkeep.1]
    have hpc' : (b.noted i.line).pc + 1 = shift kept ((p.machine.noted i.line).pc + 1) := by
      rw [Machine.pc_noted, Machine.pc_noted, hpc, hp.2]
    refine (hp.1.noted i.line i.line).follow hpc' ?_ p.unread
      ((hp.1.noted i.line i.line).execute h.relocates hpc' hread fun l hl => ?_)
    · rw [Machine.pc_noted, Machine.pc_noted, Image.line?, Image.line?, hA, hB]
      exact congrArg some hkeep.1
    · exact h.resolves (h.after.targets i' (List.reduceOption_mem_iff.2
        (List.mem_iff_getElem?.2 ⟨_, hi'⟩)) l hl)

/-- Behind the last instruction, runs come to an end alike. -/
theorem advance_end {dead : Nat → Prop} (h : Rearranged functions code kept) {p : Point}
    {b : Machine} (hp : Machine.Together (shift kept) dead p.machine b)
    (hi : code[p.machine.pc]? = none) :
    kept[p.machine.pc]? = none ∧ ∃ o, (Code.link ⟨code, functions⟩ settings).advance p = .done o ∧
      (Code.link ⟨kept.reduceOption, functions⟩ settings).advance ⟨b, p.unread⟩ = .done o := by
  have hlen : kept.length ≤ p.machine.pc := by
    rw [← h.keeps.length_eq]
    exact List.getElem?_eq_none_iff.1 hi
  have hpc : kept.reduceOption.length = b.pc := by
    rw [hp.2, shift_of_length_le hlen]
  have hb : kept.reduceOption[b.pc]? = none := List.getElem?_eq_none_iff.2 (Nat.le_of_eq hpc)
  refine ⟨List.getElem?_eq_none_iff.2 hlen, _,
    Image.advance_of_none (by simpa [Code.link] using hi), ?_⟩
  rw [Image.advance_of_none (by simpa [Code.link] using hb), hp.1.output]

/-- How far two runs are from the ends of their code. -/
def rank (code : List Instr) (kept : List (Option Instr)) (a b : Point) : Nat :=
  (code.length - a.machine.pc) + (kept.reduceOption.length - b.machine.pc)

/-- The second run is where the first is, but for labels that it has still to pass. -/
structure Behind (kept : List (Option Instr)) (dead : Nat → Prop) (a b : Point) : Prop where
  unread : b.unread = a.unread
  alike : Machine.Alike (shift kept) dead a.machine b.machine
  le : b.machine.pc ≤ shift kept a.machine.pc
  labels : ∀ j, b.machine.pc ≤ j → j < shift kept a.machine.pc →
    ∃ i, kept.reduceOption[j]? = some i ∧ i.op.label?.isSome

theorem Behind.of_together {dead : Nat → Prop} {a b : Machine} {unread : List String}
    (h : Machine.Together (shift kept) dead a b) :
    Behind kept dead ⟨a, unread⟩ ⟨b, unread⟩ where
  unread := rfl
  alike := h.1
  le := Nat.le_of_eq h.2
  labels := by
    intro j hlo hhi
    have := h.2
    dsimp only at hlo hhi
    omega

/-- Code runs as before if what stays acts as before and what goes does nothing but to go on,
perhaps past labels, and to write temporaries without meaning. -/
theorem simulates {P Q : Point → Prop} (h : Rearranged functions code kept)
    (dead : Nat → Prop) (hs : settings.maxSteps = none)
    (hkeep : ∀ p i i', P p → code[p.machine.pc]? = some i →
      kept[p.machine.pc]? = some (some i') →
      (i.op.label? = none →
        (p.machine.noted i.line).execute (Code.link ⟨code, functions⟩ settings) i.op =
          (p.machine.noted i.line).execute (Code.link ⟨code, functions⟩ settings) i'.op) ∧
      ∀ t ∈ i'.op.tempsRead, ¬ dead t)
    (hdrop : ∀ p i, P p → code[p.machine.pc]? = some i → kept[p.machine.pc]? = some none →
      ∃ m, (Code.link ⟨code, functions⟩ settings).advance p = .next ⟨m, p.unread⟩ ∧
        p.machine.pc < m.pc ∧
        (∀ j, p.machine.pc < j → j < m.pc →
          ∃ i', code[j]? = some i' ∧ i'.op.label?.isSome) ∧
        ∀ b, Machine.Alike (shift kept) dead p.machine b → Machine.Alike (shift kept) dead m b)
    (hlabel : ∀ b i, kept.reduceOption[b.machine.pc]? = some i → i.op.label?.isSome → Q b)
    (hQ : ∀ p b, P p → Machine.Together (shift kept) dead p.machine b →
      kept[p.machine.pc]? ≠ some none → Q ⟨b, p.unread⟩) :
    Simulates (Code.link ⟨code, functions⟩ settings)
      (Code.link ⟨kept.reduceOption, functions⟩ settings) (Behind kept dead)
      (rank code kept) P Q := by
  intro a b hab hP
  rcases Nat.lt_or_eq_of_le hab.le with hlt | heq
  · -- The second run passes a label.
    obtain ⟨i, hi, hl⟩ := hab.labels _ (Nat.le_refl _) hlt
    have hlen := (List.getElem?_eq_some_iff.1 hi).1
    refine .right (hlabel b i hi hl)
      (Image.advance_of_label (i := i) (by simpa [Code.link] using hi) hl) ?_ ?_
    · exact ⟨hab.unread, hab.alike.next_right, hlt, fun j hlo hhi =>
        hab.labels j (Nat.le_of_succ_le hlo) hhi⟩
    · simp only [rank, Machine.next]
      omega
  · rcases b with ⟨b, unread⟩
    obtain rfl : unread = a.unread := hab.unread
    have htog : Machine.Together (shift kept) dead a.machine b := ⟨hab.alike, heq⟩
    cases hi : code[a.machine.pc]? with
    | none =>
      obtain ⟨hk, o, ha, hb⟩ := h.advance_end htog hi
      exact .done (hQ a b hP htog (by simp [hk])) ha hb
    | some i =>
      obtain ⟨o, ho, -⟩ := h.exists_kept hi
      cases o with
      | some i' =>
        obtain ⟨hact, hread⟩ := hkeep a i i' hP hi ho
        have hnone : kept[a.machine.pc]? ≠ some none := by simp [ho]
        have hadv := h.advance hs htog hi ho hact hread
        generalize hx : (Code.link ⟨code, functions⟩ settings).advance a = x at hadv
        generalize hy : (Code.link ⟨kept.reduceOption, functions⟩ settings).advance
          ⟨b, a.unread⟩ = y at hadv
        cases hadv with
        | next hr => exact .both (hQ a b hP htog hnone) hx hy (.of_together hr)
        | done => exact .done (hQ a b hP htog hnone) hx hy
      | none =>
        obtain ⟨m, hm, hpc, hlabels, halike⟩ := hdrop a i hP hi ho
        have hsucc := shift_succ_of_none ho
        refine .left hm ⟨rfl, halike b hab.alike, ?_, ?_⟩ ?_
        · dsimp only at heq ⊢
          rw [heq, ← hsucc, ← Nat.sub_add_cancel hpc]
          exact shift_mono _ (by omega)
        · intro j hlo hhi
          obtain ⟨k', i', h₁, h₂, h₃, h₄⟩ : ∃ k' i', a.machine.pc + 1 ≤ k' ∧
              k' < a.machine.pc + 1 + (m.pc - (a.machine.pc + 1)) ∧
              kept[k']? = some (some i') ∧ kept.reduceOption[j]? = some i' := by
            refine exists_shift_eq ?_ ?_
            · rw [hsucc, ← heq]
              exact hlo
            · rw [Nat.add_sub_cancel' hpc]
              exact hhi
          obtain ⟨i₀, hi₀, hl⟩ := hlabels k' (by omega) (by omega)
          obtain ⟨o, ho', hk⟩ := h.exists_kept hi₀
          rw [h₃] at ho'
          cases ho'
          exact ⟨i', h₄, by rw [hk.2]; exact hl⟩
        · have := (List.getElem?_eq_some_iff.1 hi).1
          simp only [rank]
          omega

end Rearranged

end NumericScript
