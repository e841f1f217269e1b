import NumericScript.Proofs.Lowering.Temporaries

/-! # How often temporaries are written

Statements write each temporary that is supplied for them once, but for those in which loops count:
a counter is written where the loop begins, and where it goes on.

* `IsCounter`: the temporaries that count.
* `StmtCode.counts`: how often the code of a statement writes each temporary. -/

namespace NumericScript

namespace Lowering

variable {D : Set Nat} {code code' : List Instr} {op : Op}

/-! ### Counters -/

/-- The operations of a loop that counts in the temporary `t` up to `limit`, with those of its
body. -/
def countingLoop (t limit more : Nat) (start again after : Label) (body : List Op) : List Op :=
  [.assign (.temp t) (.int 0), .label start,
    .binary (.temp more) .lt (.place (.temp t)) (.place (.temp limit)),
    .jumpIfFalse (.place (.temp more)) after] ++ body ++
  [.label again, .binary (.temp t) .add (.place (.temp t)) (.const (.int 1)), .jump start,
    .label after]

/-- A temporary counts how often a loop in code is repeated. -/
def IsCounter (code : List Instr) (t : Nat) : Prop :=
  ∃ limit more start again after body,
    countingLoop t limit more start again after body <:+: code.map (·.op)

theorem IsCounter.mono {t : Nat} (h : IsCounter code t) (hc : code <:+: code') :
    IsCounter code' t := by
  obtain ⟨limit, more, start, again, after, body, h⟩ := h
  exact ⟨limit, more, start, again, after, body, h.trans (hc.map _)⟩

/-- A counter is written where it begins and where it goes on. -/
theorem IsCounter.two_le {t : Nat} (h : IsCounter code t) : 2 ≤ (tempsWritten code).count t := by
  obtain ⟨limit, more, start, again, after, body, h⟩ := h
  have hle := (h.sublist.filterMap Op.tempWritten?).count_le t
  have hmap : (code.map (·.op)).filterMap Op.tempWritten? = tempsWritten code := by
    rw [List.filterMap_map]
    rfl
  rw [hmap] at hle
  refine Nat.le_trans ?_ hle
  have hwritten : (countingLoop t limit more start again after body).filterMap Op.tempWritten? =
      t :: more :: (body.filterMap Op.tempWritten? ++ [t]) := by
    rw [countingLoop, List.filterMap_append, List.filterMap_append]
    rfl
  rw [hwritten, List.count_cons_self, List.count_cons, List.count_append,
    List.count_singleton_self]
  omega

/-- Code writes each temporary from `lo` on and before `hi` once, and once more if it is among
`counters`, and no others. -/
structure Counts (counters : List Nat) (lo hi : Nat) (code : List Instr) : Prop where
  le : lo ≤ hi
  range : ∀ t ∈ counters, lo ≤ t ∧ t < hi
  distinct : counters.Nodup
  counter : ∀ t ∈ counters, IsCounter code t
  written : ∀ t, (tempsWritten code).count t =
    (if lo ≤ t ∧ t < hi then 1 else 0) + counters.count t

namespace Counts

variable {counters counters' : List Nat} {lo mid hi : Nat}

theorem append (h : Counts counters lo mid code) (h' : Counts counters' mid hi code') :
    Counts (counters ++ counters') lo hi (code ++ code') where
  le := Nat.le_trans h.le h'.le
  range := by
    have hle := h.le
    have hle' := h'.le
    refine List.forall_mem_append.2 ⟨fun t ht => ?_, fun t ht => ?_⟩
    · have := h.range t ht
      omega
    · have := h'.range t ht
      omega
  distinct := by
    refine List.nodup_append.2 ⟨h.distinct, h'.distinct, fun t ht t' ht' => ?_⟩
    have := h.range t ht
    have := h'.range t' ht'
    omega
  counter := List.forall_mem_append.2
    ⟨fun t ht => (h.counter t ht).mono (List.prefix_append _ _).isInfix,
      fun t ht => (h'.counter t ht).mono (List.suffix_append _ _).isInfix⟩
  written t := by
    have hle := h.le
    have hle' := h'.le
    rw [tempsWritten_append, List.count_append, List.count_append, h.written, h'.written]
    split_ifs <;> omega

theorem none {s : State} (h : op.tempWritten? = Option.none) (n : Nat) :
    Counts [] n n [s.instr op] where
  le := Nat.le_refl n
  range := nofun
  distinct := List.nodup_nil
  counter := nofun
  written t := by
    rw [tempsWritten_instr, h, if_neg (by omega)]
    rfl

theorem fresh {s : State} {n : Nat} (h : op.tempWritten? = some n) :
    Counts [] n (n + 1) [s.instr op] where
  le := Nat.le_succ n
  range := nofun
  distinct := List.nodup_nil
  counter := nofun
  written t := by
    rw [tempsWritten_instr, h, Option.toList_some, List.count_singleton, List.count_nil,
      Nat.add_zero]
    simp only [beq_iff_eq]
    exact if_congr (by omega) rfl rfl

/-- The end of a loop that counts in the temporary `n`: the counter goes on, control goes back, and
there is the label behind the loop. -/
theorem advance {s : State} {n : Nat} {back done : Op} (h : Counts counters lo hi code)
    (hn : lo ≤ n ∧ n < hi) (hc : n ∉ counters) (hop : op.tempWritten? = some n)
    (hback : back.tempWritten? = Option.none) (hdone : done.tempWritten? = Option.none)
    (hcounter : IsCounter (code ++ [s.instr op] ++ [s.instr back] ++ [s.instr done]) n) :
    Counts (n :: counters) lo hi (code ++ [s.instr op] ++ [s.instr back] ++ [s.instr done]) where
  le := h.le
  range := List.forall_mem_cons.2 ⟨hn, h.range⟩
  distinct := List.nodup_cons.2 ⟨hc, h.distinct⟩
  counter := by
    refine List.forall_mem_cons.2 ⟨hcounter, fun t ht => (h.counter t ht).mono ?_⟩
    exact ⟨[], [s.instr op] ++ [s.instr back] ++ [s.instr done], by simp⟩
  written t := by
    simp only [tempsWritten_append, tempsWritten_instr, hop, hback, hdone, Option.toList_some,
      Option.toList_none, List.append_nil, List.count_append, h.written, List.count_cons,
      List.count_nil]
    omega

theorem mem_range (h : Counts counters lo hi code) : ∀ t ∈ tempsWritten code, lo ≤ t ∧ t < hi := by
  intro t ht
  by_contra hrange
  have hwritten := h.written t
  have hcounter : counters.count t = 0 := List.count_eq_zero.2 fun ht => hrange (h.range t ht)
  rw [if_neg hrange, hcounter] at hwritten
  exact List.count_eq_zero.1 hwritten ht

theorem count_of_isCounter (h : Counts counters lo hi code) {t : Nat} (ht : IsCounter code t) :
    (tempsWritten code).count t = 2 := by
  have hle := ht.two_le
  have hrange := h.mem_range t (List.count_pos_iff.1 (by omega))
  have hwritten := h.written t
  have hcounter := List.nodup_iff_count.1 h.distinct t
  rw [if_pos hrange] at hwritten
  omega

theorem count_of_not_isCounter (h : Counts counters lo hi code) {t : Nat} (hrange : lo ≤ t ∧ t < hi)
    (ht : ¬ IsCounter code t) : (tempsWritten code).count t = 1 := by
  rw [h.written, if_pos hrange, List.count_eq_zero.2 fun hmem => ht (h.counter t hmem)]

end Counts

theorem Brings.counts {s s' : State} (h : Brings D s code s') :
    Counts [] s.temps s'.temps code where
  le := h.temps
  range := nofun
  distinct := List.nodup_nil
  counter := nofun
  written := h.once

/-! ### Statements -/

mutual

theorem StmtCode.counts (st : Stmt) : ∀ {c : Context} {s s' : State} {code : List Instr},
    StmtCode c s st code s' → ∃ counters, Counts counters s.temps s'.temps code := by
  intro c s s' code h
  cases h with
  | decl h | assign h | store h | print h => exact ⟨_, (h.brings ∅).counts⟩
  | function => exact ⟨_, (Brings.nil ∅ s).counts⟩
  | input | «break» | «continue» | leave => exact ⟨_, .none rfl s.temps⟩
  | call hf ha => exact ⟨_, ((ha.brings _ ∅).call).counts⟩
  | expr hc he => exact ⟨_, (he.brings _ ∅).counts⟩
  | «return» he => exact ⟨_, (he.brings ∅).counts.append (.none rfl _)⟩
  | cond he hb =>
    obtain ⟨counters, hb⟩ := BlockCode.counts _ hb
    exact ⟨_, (((he.brings _ ∅).counts.append (.none rfl _)).append hb).append (.none rfl _)⟩
  | branch he hb ho =>
    obtain ⟨counters, hb⟩ := BlockCode.counts _ hb
    obtain ⟨counters', ho⟩ := BlockCode.counts _ ho
    exact ⟨_, ((((((he.brings _ ∅).counts.append (.none rfl _)).append hb).append
      (.none rfl _)).append (.none rfl _)).append ho).append (.none rfl _)⟩
  | «while» h₀ he hb =>
    subst h₀
    obtain ⟨counters, hb⟩ := BlockCode.counts _ hb
    exact ⟨_, (((((Counts.none rfl _).append (he.brings _ ∅).counts).append
      (.none rfl _)).append hb).append (.none rfl _)).append (.none rfl _)⟩
  | «for» hi h₂ he hb h₅ hu =>
    subst h₂ h₅
    obtain ⟨countersInit, hi⟩ := StmtCode.counts _ hi
    obtain ⟨counters, hb⟩ := BlockCode.counts _ hb
    obtain ⟨countersUpdate, hu⟩ := StmtCode.counts _ hu
    exact ⟨_, (((((((hi.append (.none rfl _)).append (he.brings _ ∅).counts).append
      (.none rfl _)).append hb).append (.none rfl _)).append hu).append (.none rfl _)).append
      (.none rfl _)⟩
  | @«repeat» _ _ s₁ s₂ _ loc count body counting code n he hb h₃ =>
    subst h₃
    obtain ⟨counters, hb⟩ := BlockCode.counts _ hb
    have hlimit : (put s₁.temp n).tempWritten? = some s₁.temps := by cases n <;> rfl
    have hmore := hb.le
    have hcounting := he.supplied.temps
    simp only [State.nextTemp, State.nextLabel, State.inLine] at hmore hcounting
    have hstart : (put s₁.nextTemp.temp (indexConst 0)).tempWritten? = some (s₁.temps + 1) := rfl
    refine ⟨_, .advance (.append (.append (.append (.append (.append (.append (.append
      (he.brings _ ∅).counts (.fresh hlimit)) (.fresh hstart)) (.none rfl _)) (.fresh rfl))
      (.none rfl _)) hb) (.none rfl _)) ⟨?_, ?_⟩ ?_ rfl rfl rfl ?_⟩
    · simp only [State.nextTemp]
      omega
    · simp only [State.nextTemp, State.inLine]
      omega
    · intro hmem
      simp only [List.nil_append, List.append_nil] at hmem
      have hrange := (hb.range _ hmem).1
      simp only [State.nextTemp, State.nextLabel] at hrange
      omega
    · refine ⟨s₁.temps, s₁.temps + 2, s₁.label, s₁.nextLabel.label, s₁.nextLabel.nextLabel.label,
        code.map (·.op), (counting ++ [s₁.instr (put s₁.temp n)]).map (·.op), [], ?_⟩
      simp only [countingLoop, List.map_append, List.append_assoc,
        List.append_nil]
      rfl
termination_by structural st

theorem BlockCode.counts (ss : List Stmt) : ∀ {c : Context} {s s' : State} {code : List Instr},
    BlockCode c s ss code s' → ∃ counters, Counts counters s.temps s'.temps code := by
  intro c s s' code h
  cases h with
  | nil => exact ⟨_, (Brings.nil ∅ s).counts⟩
  | cons hs hss =>
    obtain ⟨counters, hs⟩ := StmtCode.counts _ hs
    obtain ⟨counters', hss⟩ := BlockCode.counts _ hss
    exact ⟨_, hs.append hss⟩
termination_by structural ss

end

end Lowering

end NumericScript
