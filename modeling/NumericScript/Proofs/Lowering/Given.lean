import Mathlib.Data.List.Nodup
import NumericScript.Proofs.Lowering.Counters

/-! # What has a value at labels

The labels in the code of a statement can be given temporaries so that the code reads none but those
that have a value: at a label in a loop that counts the limit and the counter have one, and at
others those that had one before the statement.

* `Asks`: labels that are given such temporaries.
* `StmtCode.asks`: the labels in the code of a statement. -/

namespace NumericScript

open Lowering

variable {D E : Set Nat} {code : List Instr}

/-! ### Loops that count -/

/-- Temporaries with `n`, the limit of a loop, and its counter, which is the next one. -/
def loopTemps (K : Set Nat) (n : Nat) : Set Nat := insert (n + 1) (insert n K)

section

variable {K : Set Nat} {s : State} {L : Label → Set Nat} {l : Label}

theorem subset_loopTemps (K : Set Nat) (n : Nat) : K ⊆ loopTemps K n :=
  (Set.subset_insert _ _).trans (Set.subset_insert _ _)

theorem loopTemps_subset {n : Nat} (hK : K ⊆ D) (hlimit : n ∈ D) (hcounter : n + 1 ∈ D) :
    loopTemps K n ⊆ D :=
  Set.insert_subset hcounter (Set.insert_subset hlimit hK)

/-- Before the loop its limit and its counter are written. -/
theorem Yields.begin {n : Operand} (h : Yields L E code D) (hn : n.Within D) (hK : K ⊆ D) :
    Yields L E (code ++ [s.instr (put s.temp n)] ++ [s.instr (put s.nextTemp.temp (indexConst 0))])
      (loopTemps K s.temps) := by
  have hlimit : (put s.temp n).label? = none ∧ (put s.temp n).target? = none ∧
      (put s.temp n).tempWritten? = some s.temps := by
    cases n <;> exact ⟨rfl, rfl, rfl⟩
  refine .less (.append (.append h
    (.write hlimit.1 (mem_of_tempsRead_put hn) hlimit.2.1 hlimit.2.2))
    (.write rfl (fun t ht => by cases ht) rfl rfl)) ?_
  exact Set.insert_subset_insert (Set.insert_subset_insert hK)

/-- The loop goes on while the counter is below the limit. -/
theorem Yields.below (h : Yields L E code (loopTemps K s.temps)) (hl : L l ⊆ loopTemps K s.temps) :
    Yields L E (code ++ [s.instr (.binary s.nextTemp.nextTemp.temp .lt (.place s.nextTemp.temp)
        (.place s.temp))] ++ [s.instr (.jumpIfFalse (.place s.nextTemp.nextTemp.temp) l)])
      (loopTemps K s.temps) := by
  have hoperands : ∀ o ∈ [.place s.nextTemp.temp, .place s.temp],
      Operand.Within (loopTemps K s.temps) o :=
    List.forall_mem_cons.2 ⟨within_temp (Set.mem_insert _ _), List.forall_mem_singleton.2
      (within_temp (Set.mem_insert_of_mem _ (Set.mem_insert _ _)))⟩
  refine .less (.append (.append h (.write rfl (mem_of_tempsRead hoperands rfl) rfl rfl))
    (.test rfl (within_temp (Set.mem_insert _ _)) ?_)) (Set.subset_insert _ _)
  exact hl.trans (Set.subset_insert _ _)

/-- The counter goes on, and so does the loop. -/
theorem Yields.advance {s' : State} (h : Yields L E code (loopTemps K s.temps))
    (hl : L l ⊆ loopTemps K s.temps) :
    Yields L E (code ++
        [s'.instr (.binary s.nextTemp.temp .add (.place s.nextTemp.temp) (indexConst 1))] ++
        [s'.instr (.jump l)]) (loopTemps K s.temps) := by
  have hoperands : ∀ o ∈ [.place s.nextTemp.temp, indexConst 1],
      Operand.Within (loopTemps K s.temps) o :=
    List.forall_mem_cons.2 ⟨within_temp (Set.mem_insert _ _),
      List.forall_mem_singleton.2 (within_const _)⟩
  refine .less (.append (.append h (.write rfl (mem_of_tempsRead hoperands rfl) rfl rfl))
    (.jump rfl ?_)) (Set.subset_insert _ _)
  exact hl.trans (Set.subset_insert _ _)

end

/-! ### What labels ask for -/

namespace Lowering

variable {code code' : List Instr} {op : Op}

/-- The labels in code ask for the temporaries that `M` says: those of `K`, which have a value
before the code and behind it, and some that are written in between.  Jumps out of the code are
to labels among `exits`, which ask for no more than those of `K`. -/
structure Asks (exits : List Label) (K : Set Nat) (lo hi : Nat) (code : List Instr)
    (M : List (Label × Set Nat)) : Prop where
  le : lo ≤ hi
  labels : M.map Prod.fst = labelsIn code
  range : ∀ p ∈ M, p.2 ⊆ K ∪ Set.Ico lo hi
  yields : ∀ L : Label → Set Nat, (∀ p ∈ M, L p.1 = p.2) → (∀ l ∈ exits, L l ⊆ K) →
    Yields L K code K

namespace Asks

variable {exits exits' : List Label} {K K' : Set Nat} {lo mid hi : Nat}
  {M M' : List (Label × Set Nat)} {l : Label} {s : State}

theorem nil (exits : List Label) (K : Set Nat) (n : Nat) : Asks exits K n n [] [] where
  le := Nat.le_refl n
  labels := rfl
  range := List.forall_mem_nil _
  yields L _ _ := .nil L K

/-- Code that is followed by other code, which may jump to fewer labels. -/
theorem append (h : Asks exits K lo mid code M) (h' : Asks exits' K mid hi code' M')
    (he : exits' ⊆ exits) : Asks exits K lo hi (code ++ code') (M ++ M') where
  le := Nat.le_trans h.le h'.le
  labels := by rw [List.map_append, h.labels, h'.labels, labelsIn_append]
  range := by
    refine List.forall_mem_append.2 ⟨fun p hp => ?_, fun p hp => ?_⟩
    · exact (h.range p hp).trans
        (Set.union_subset_union_right _ (Set.Ico_subset_Ico_right h'.le))
    · exact (h'.range p hp).trans
        (Set.union_subset_union_right _ (Set.Ico_subset_Ico_left h.le))
  yields L hL hexits := by
    obtain ⟨hM, hM'⟩ := List.forall_mem_append.1 hL
    exact (h.yields L hM hexits).append (h'.yields L hM' fun l hl => hexits l (he hl))

/-- Code that is made longer, but not by labels. -/
theorem extend (h : Asks exits K lo mid code M) (hle : mid ≤ hi)
    (hlabels : labelsIn code' = labelsIn code)
    (hy : ∀ L, (∀ l ∈ exits, L l ⊆ K) → Yields L K code K → Yields L K code' K) :
    Asks exits K lo hi code' M where
  le := Nat.le_trans h.le hle
  labels := h.labels.trans hlabels.symm
  range p hp :=
    (h.range p hp).trans (Set.union_subset_union_right _ (Set.Ico_subset_Ico_right hle))
  yields L hL hexits := hy L hexits (h.yields L hL hexits)

/-- Code that is followed by a label. -/
theorem label (h : Asks exits K lo hi code M) (s : State) (l : Label) :
    Asks exits K lo hi (code ++ [s.instr (.label l)]) (M ++ [(l, K)]) := by
  have hlabel : Asks exits K hi hi [s.instr (.label l)] [(l, K)] := by
    refine ⟨Nat.le_refl hi, rfl, ?_, fun L hL _ => ?_⟩
    · exact List.forall_mem_singleton.2 Set.subset_union_left
    · exact .label rfl (hL _ (List.mem_cons_self ..))
  exact h.append hlabel (List.Subset.refl exits)

/-- A label that stands in the code is no exit. -/
theorem close (h : Asks (l :: exits) K lo hi code M) (hl : (l, K) ∈ M) :
    Asks exits K lo hi code M where
  le := h.le
  labels := h.labels
  range := h.range
  yields L hL hexits := h.yields L hL (List.forall_mem_cons.2 ⟨(hL _ hl).le, hexits⟩)

/-- Code that only jumps to exits. -/
theorem of_brings {s' : State} (h : Brings K s code s') (hl : labelsIn code = [])
    (exits : List Label) : Asks exits K s.temps s'.temps code [] :=
  (nil exits K s.temps).extend h.temps hl fun L _ _ => (h.yields L).less Set.subset_union_left

/-- An instruction that only jumps to exits. -/
theorem one (n : Nat) (hl : op.label? = none) (hr : ∀ t ∈ op.tempsRead, t ∈ K)
    (ht : ∀ l, op.target? = some l → l ∈ exits) : Asks exits K n n [s.instr op] [] := by
  refine (nil exits K n).extend (Nat.le_refl n) ?_ fun L hexits _ => ?_
  · rw [labelsIn_singleton, hl]
    rfl
  · exact .keep hl hr fun l h => hexits l (ht l h)

theorem jump (h : Asks exits K lo hi code M) (s : State) (hl : l ∈ exits) :
    Asks exits K lo hi (code ++ [s.instr (.jump l)]) M := by
  refine h.extend (Nat.le_refl hi) ?_ fun L hexits hy => hy.append (.jump rfl (hexits l hl))
  simp only [labelsIn_append, labelsIn_singleton, Op.label?, Option.toList_none, List.append_nil]

/-- Code that is followed by a branch on the value of an expression. -/
theorem test {c : Context} {s₁ : State} {e : Expr} {test : List Instr} {a : Operand}
    (he : ExprCode c s e test a s₁) (h : Asks exits K lo s.temps code M) (hl : l ∈ exits) :
    Asks exits K lo s₁.temps (code ++ test ++ [s₁.instr (.jumpIfFalse a l)]) M := by
  refine h.extend he.supplied.temps ?_ fun L hexits hy => ?_
  · simp only [labelsIn_append, labelsIn_singleton, he.supplied.labelsIn_eq, Op.label?,
      Option.toList_none, List.append_nil]
  · rw [List.append_assoc]
    exact hy.append ((he.brings _ K).yields_test he.within (hexits l hl))

theorem below (h : Asks exits (loopTemps K s.temps) lo hi code M) (hl : l ∈ exits) :
    Asks exits (loopTemps K s.temps) lo hi
      (code ++ [s.instr (.binary s.nextTemp.nextTemp.temp .lt (.place s.nextTemp.temp)
        (.place s.temp))] ++ [s.instr (.jumpIfFalse (.place s.nextTemp.nextTemp.temp) l)]) M := by
  refine h.extend (Nat.le_refl hi) ?_ fun L hexits hy => hy.below (hexits l hl)
  simp only [labelsIn_append, labelsIn_singleton, Op.label?, Option.toList_none, List.append_nil]

theorem advance (h : Asks exits (loopTemps K s.temps) lo hi code M) (s' : State)
    (hl : l ∈ exits) : Asks exits (loopTemps K s.temps) lo hi
      (code ++ [s'.instr (.binary s.nextTemp.temp .add (.place s.nextTemp.temp) (indexConst 1))] ++
        [s'.instr (.jump l)]) M := by
  refine h.extend (Nat.le_refl hi) ?_ fun L hexits hy => hy.advance (hexits l hl)
  simp only [labelsIn_append, labelsIn_singleton, Op.label?, Option.toList_none, List.append_nil]

/-- A loop that counts, with the code before it. -/
theorem begin {c : Context} {s₁ : State} {e : Expr} {counting : List Instr} {n : Operand}
    (h : Asks exits (loopTemps K s₁.temps) mid hi code M) (he : ExprCode c s e counting n s₁)
    (hmid : s₁.temps + 2 ≤ mid) :
    Asks exits K s.temps hi (counting ++ [s₁.instr (put s₁.temp n)] ++
      [s₁.instr (put s₁.nextTemp.temp (indexConst 0))] ++ code) M := by
  have htemps := he.supplied.temps
  have hle := h.le
  refine ⟨by omega, ?_, fun p hp => (h.range p hp).trans (Set.union_subset ?_ ?_),
    fun L hL hexits => ?_⟩
  · have hlimit : (put s₁.temp n).label?.toList = [] := by cases n <;> rfl
    have hzero : (put s₁.nextTemp.temp (indexConst 0)).label?.toList = [] := rfl
    simp only [labelsIn_append, labelsIn_singleton, he.supplied.labelsIn_eq, hlimit, hzero,
      h.labels, List.nil_append]
  · exact loopTemps_subset Set.subset_union_left (.inr ⟨by omega, by omega⟩)
      (.inr ⟨by omega, by omega⟩)
  · exact (Set.Ico_subset_Ico_left (by omega)).trans Set.subset_union_right
  · have hK := subset_loopTemps K s₁.temps
    have hbegin := ((he.brings _ K).yields L).begin (s := s₁)
      (he.within.mono Set.subset_union_right) Set.subset_union_left
    exact (hbegin.append (h.yields L hL fun l hl => (hexits l hl).trans hK)).less hK

theorem isLocal (h : Asks exits K lo hi code M)
    (hl : (labelsIn code).all Label.isLocal = true) : ∀ q ∈ M, q.1.isLocal = true := fun _ hq =>
  List.all_eq_true.1 hl _ (h.labels ▸ List.mem_map_of_mem hq)

end Asks

/-- Where labels are distinct, each can be given what is asked for it. -/
theorem exists_labelling {M : List (Label × Set Nat)} (h : (M.map Prod.fst).Nodup) :
    ∃ L : Label → Set Nat, ∀ p ∈ M, L p.1 = p.2 := by
  refine ⟨fun l => {t | ∃ p ∈ M, p.1 = l ∧ t ∈ p.2}, fun p hp => ?_⟩
  ext t
  constructor
  · rintro ⟨p', hp', hl, ht⟩
    rwa [List.inj_on_of_nodup_map h hp' hp hl] at ht
  · exact fun ht => ⟨p, hp, rfl, ht⟩

mutual

theorem StmtCode.asks (st : Stmt) : ∀ {c : Context} {s s' : State} {code : List Instr},
    StmtCode c s st code s' → ∀ K, ∃ M, Asks c.exits K s.temps s'.temps code M := by
  intro c s s' code h K
  cases h with
  | decl h | assign h | store h | print h =>
    exact ⟨_, .of_brings (h.brings K) h.supplied.labelsIn_eq _⟩
  | function => exact ⟨_, .nil _ K s.temps⟩
  | input | leave =>
    exact ⟨_, .one _ rfl (fun t ht => by cases ht) fun l h => by cases h⟩
  | «break» hl | «continue» hl =>
    exact ⟨_, (Asks.nil _ K s.temps).jump _ (by simp [Context.exits, hl])⟩
  | call hf ha =>
    exact ⟨_, .of_brings (ha.brings _ K).call (by simp [ha.supplied.labelsIn_eq, Op.label?]) _⟩
  | expr hc he => exact ⟨_, .of_brings (he.brings _ K) he.supplied.labelsIn_eq _⟩
  | «return» he =>
    refine ⟨_, .of_brings ((he.brings K).append (.one rfl rfl rfl ?_)) ?_ _⟩
    · have hoperand := he.within.mono (E := K ∪ _) Set.subset_union_right
      exact mem_of_tempsRead (List.forall_mem_singleton.2 hoperand) rfl
    · simp only [labelsIn_append, labelsIn_singleton, he.supplied.labelsIn_eq, Op.label?]
      rfl
  | @cond _ _ s₁ _ _ _ _ _ _ _ he hb =>
    obtain ⟨M, hM⟩ := BlockCode.asks _ hb K
    have htest := Asks.test he (.nil (s₁.label :: c.exits) K _) (List.mem_cons_self ..)
    have hbody := (htest.append hM (List.subset_cons_self ..)).label s' s₁.label
    exact ⟨_, hbody.close (by simp)⟩
  | @branch _ _ s₁ s₂ _ _ _ _ _ _ _ _ _ he hb ho =>
    obtain ⟨M, hM⟩ := BlockCode.asks _ hb K
    obtain ⟨M', hM'⟩ := BlockCode.asks _ ho K
    have hin := List.subset_append_right [s₁.nextLabel.label, s₁.label] c.exits
    have hskips : s₁.nextLabel.label ∈ [s₁.nextLabel.label, s₁.label] ++ c.exits := by simp
    have hleaves : s₁.label ∈ [s₁.nextLabel.label, s₁.label] ++ c.exits := by simp
    have htest := Asks.test he (.nil _ K _) hskips
    have hbody := ((htest.append hM hin).jump s₂ hleaves).label s₂ s₁.nextLabel.label
    have hElse := (hbody.append hM' hin).label s' s₁.label
    exact ⟨_, (hElse.close (by simp)).close (by simp)⟩
  | @«while» _ _ s₀ s₁ _ _ _ _ _ _ _ h₀ he hb =>
    obtain ⟨M, hM⟩ := BlockCode.asks _ hb K
    have hin := List.subset_append_left [s₀.label, s₀.nextLabel.label] c.exits
    have hagain : s₀.label ∈ [s₀.label, s₀.nextLabel.label] ++ c.exits := by simp
    have hafter : s₀.nextLabel.label ∈ [s₀.label, s₀.nextLabel.label] ++ c.exits := by simp
    have htest := Asks.test he ((Asks.nil _ K _).label s₀ s₀.label) hafter
    have hbody := ((htest.append hM hin).jump s' hagain).label s' s₀.nextLabel.label
    subst h₀
    exact ⟨_, (hbody.close (by simp)).close (by simp)⟩
  | @«for» _ _ s₁ _ _ s₄ _ s₆ loc _ _ _ _ _ _ _ _ _ hi h₂ he hb h₅ hu =>
    subst h₂ h₅
    obtain ⟨M, hM⟩ := StmtCode.asks _ hi K
    obtain ⟨M', hM'⟩ := BlockCode.asks _ hb K
    obtain ⟨M'', hM''⟩ := StmtCode.asks _ hu K
    let s₂ := s₁.inLine loc.line
    have hout := List.subset_append_right
      [s₂.label, s₂.nextLabel.label, s₂.nextLabel.nextLabel.label] c.exits
    have hin : [s₂.nextLabel.label, s₂.nextLabel.nextLabel.label] ⊆
        [s₂.label, s₂.nextLabel.label, s₂.nextLabel.nextLabel.label] ++ c.exits := by simp
    have hstart : s₂.label ∈
        [s₂.label, s₂.nextLabel.label, s₂.nextLabel.nextLabel.label] ++ c.exits := by simp
    have hafter : s₂.nextLabel.nextLabel.label ∈
        [s₂.label, s₂.nextLabel.label, s₂.nextLabel.nextLabel.label] ++ c.exits := by simp
    have hinit := ((Asks.nil _ K _).append hM hout).label s₂ s₂.label
    have hbody := ((Asks.test he hinit hafter).append hM' hin).label (s₄.inLine loc.line)
      s₂.nextLabel.label
    have hupdate := ((hbody.append hM'' hout).jump (s₆.inLine loc.line) hstart).label
      (s₆.inLine loc.line) s₂.nextLabel.nextLabel.label
    exact ⟨_, ((hupdate.close (by simp)).close (by simp)).close (by simp)⟩
  | @«repeat» _ _ s₁ s₂ _ loc _ _ counting _ n he hb h₃ =>
    subst h₃
    -- In the loop, its limit and its counter have values, too.
    obtain ⟨M, hM⟩ := BlockCode.asks _ hb (loopTemps K s₁.temps)
    have hin : [s₁.nextLabel.label, s₁.nextLabel.nextLabel.label] ⊆
        [s₁.label, s₁.nextLabel.label, s₁.nextLabel.nextLabel.label] ++ c.exits := by simp
    have hstart : s₁.label ∈
        [s₁.label, s₁.nextLabel.label, s₁.nextLabel.nextLabel.label] ++ c.exits := by simp
    have hafter : s₁.nextLabel.nextLabel.label ∈
        [s₁.label, s₁.nextLabel.label, s₁.nextLabel.nextLabel.label] ++ c.exits := by simp
    have hfirst := Asks.nil ([s₁.label, s₁.nextLabel.label, s₁.nextLabel.nextLabel.label] ++
      c.exits) (loopTemps K s₁.temps) (s₁.temps + 3)
    have htest := (hfirst.label s₁ s₁.label).below hafter
    have hround := ((htest.append hM hin).label (s₂.inLine loc.line) s₁.nextLabel.label).advance
      (s₂.inLine loc.line) hstart
    have hloop := ((hround.close (by simp)).close (by simp)).begin he (by omega)
    have hdone := (hloop.label (s₂.inLine loc.line) s₁.nextLabel.nextLabel.label).close (by simp)
    simp only [List.nil_append, List.append_assoc] at hdone ⊢
    exact ⟨_, hdone⟩
termination_by structural st

theorem BlockCode.asks (ss : List Stmt) : ∀ {c : Context} {s s' : State} {code : List Instr},
    BlockCode c s ss code s' → ∀ K, ∃ M, Asks c.exits K s.temps s'.temps code M := by
  intro c s s' code h K
  cases h with
  | nil => exact ⟨_, .nil _ K s.temps⟩
  | cons hs hss =>
    obtain ⟨M, hM⟩ := StmtCode.asks _ hs K
    obtain ⟨M', hM'⟩ := BlockCode.asks _ hss K
    exact ⟨_, hM.append hM' (List.Subset.refl _)⟩
termination_by structural ss

end

end Lowering

end NumericScript
