import Mathlib.Data.Prod.Lex
import NumericScript.Proofs.Text.Bytes
import NumericScript.Spelling

/-! # Suggestions

The candidates for a misspelled name are ranked by their distance and then by their bytes.  They are
sorted with their distances, and among sorted ones the same ones are neighbours; so each is there
once, and it does not matter how often and in which order the candidates were given.

* `pairwise_eraseReps`: sorted lists without their repetitions.
* `Ranking`, `Ranking.unique`: the one list of all that may be suggested.
* `suggest_eq_take`: suggestions are the beginning of that list. -/

namespace NumericScript.Spelling

/-! ### Repetitions -/

section

variable {α : Type} [BEq α]

theorem eraseReps_loop (a : α) (l acc : List α) :
    List.eraseRepsBy.loop (· == ·) a l acc =
      acc.reverse ++ List.eraseRepsBy.loop (· == ·) a l [] := by
  induction l generalizing a acc with
  | nil =>
    rw [List.eraseRepsBy.loop, List.eraseRepsBy.loop, List.reverse_cons]
    rfl
  | cons b l ih =>
    rw [List.eraseRepsBy.loop, List.eraseRepsBy.loop]
    split
    · exact ih a acc
    · rw [ih b (a :: acc), ih b [a], List.reverse_cons, List.append_assoc]
      rfl

theorem eraseReps_cons_cons (a b : α) (l : List α) :
    (a :: b :: l).eraseReps = if a == b then (a :: l).eraseReps else a :: (b :: l).eraseReps := by
  change List.eraseRepsBy.loop (· == ·) a (b :: l) [] = _
  rw [List.eraseRepsBy.loop]
  split
  · rw [if_pos ‹_›]
    rfl
  · rw [if_neg (Bool.eq_false_iff.1 ‹_›), eraseReps_loop]
    rfl

variable [LawfulBEq α]

theorem mem_eraseReps {l : List α} {x : α} : x ∈ l.eraseReps ↔ x ∈ l := by
  induction l with
  | nil => rfl
  | cons a l ih =>
    cases l with
    | nil => rfl
    | cons b l =>
      rw [eraseReps_cons_cons]
      split
      · obtain rfl := eq_of_beq ‹_›
        rw [ih]
        simp
      · rw [List.mem_cons, ih, List.mem_cons (b := a)]

/-- A sorted list without its repetitions is strictly sorted. -/
theorem pairwise_eraseReps {le : α → α → Prop} (hanti : ∀ a b, le a b → le b a → a = b)
    {l : List α} (h : l.Pairwise le) : l.eraseReps.Pairwise fun a b => le a b ∧ a ≠ b := by
  induction l with
  | nil => exact .nil
  | cons a l ih =>
    obtain ⟨hhead, htail⟩ := List.pairwise_cons.1 h
    cases l with
    | nil => exact List.pairwise_singleton _ a
    | cons b l =>
      rw [eraseReps_cons_cons]
      split
      · obtain rfl := eq_of_beq ‹_›
        exact ih htail
      · have hne : a ≠ b := fun he => ‹¬ (a == b) = true› (beq_iff_eq.2 he)
        refine List.pairwise_cons.2 ⟨fun c hc => ?_, ih htail⟩
        have hc := mem_eraseReps.1 hc
        refine ⟨hhead c hc, ?_⟩
        -- An element that comes back behind `b` would be equal to `b`.
        rintro rfl
        obtain rfl | hmem := List.mem_cons.1 hc
        · exact hne rfl
        · exact hne (hanti a b (hhead b List.mem_cons_self) ((List.pairwise_cons.1 htail).1 a hmem))

end

/-! ### The order of candidates -/

/-- Of two candidates for `name`, the first is closer, or as close and its bytes come first. -/
def Precedes (name a b : String) : Prop :=
  editDistance name.toList a.toList < editDistance name.toList b.toList ∨
    editDistance name.toList a.toList = editDistance name.toList b.toList ∧
      Text.bytes a < Text.bytes b

/-- With their distances, candidates are in the order of pairs. -/
theorem precedes_iff {name a b : String} :
    Precedes name a b ↔
      toLex (editDistance name.toList a.toList, a) <
        toLex (editDistance name.toList b.toList, b) := by
  rw [Prod.Lex.toLex_lt_toLex, Text.lt_iff_bytes_lt]
  rfl

theorem Precedes.asymm {name a b : String} (h : Precedes name a b) : ¬ Precedes name b a := by
  rw [precedes_iff] at *
  exact lt_asymm h

theorem Precedes.ne {name a b : String} (h : Precedes name a b) : a ≠ b := by
  rintro rfl
  exact h.asymm h

/-- The candidates for `name` that are near enough, each once and in order. -/
structure Ranking (name : String) (candidates : List String) (maxDistance : Nat)
    (best : List String) : Prop where
  nodup : best.Nodup
  mem_iff : ∀ c, c ∈ best ↔
    c ∈ candidates ∧ c ≠ name ∧ editDistance name.toList c.toList ≤ maxDistance
  sorted : best.Pairwise (Precedes name)

variable {name : String} {candidates candidates' best best' : List String}
  {maxDistance limit : Nat}

/-- There is only one such list, whatever the order of the candidates. -/
theorem Ranking.unique (h : Ranking name candidates maxDistance best)
    (h' : Ranking name candidates' maxDistance best')
    (hmem : ∀ c, c ∈ candidates' ↔ c ∈ candidates) : best' = best := by
  have hperm : best'.Perm best := by
    refine (List.perm_ext_iff_of_nodup h'.nodup h.nodup).2 fun c => ?_
    rw [h'.mem_iff, h.mem_iff, hmem]
  exact hperm.eq_of_pairwise (fun a b _ _ hab hba => absurd hba hab.asymm) h'.sorted h.sorted

/-! ### Candidates with their distances -/

theorem before_iff {p q : Nat × String} : before p q = true ↔ toLex p ≤ toLex q := by
  rw [Prod.Lex.toLex_le_toLex, before]
  simp only [Bool.or_eq_true, Bool.and_eq_true, decide_eq_true_eq, not_lt]

/-- What is ranked: the candidates that are near enough, each with its distance. -/
theorem mem_ranked {p : Nat × String} :
    p ∈ ranked name candidates maxDistance ↔
      (p.2 ∈ candidates ∧ p.2 ≠ name ∧ editDistance name.toList p.2.toList ≤ maxDistance) ∧
        editDistance name.toList p.2.toList = p.1 := by
  unfold ranked
  dsimp only
  obtain ⟨d, c⟩ := p
  simp only [mem_eraseReps, List.mem_mergeSort, List.mem_filter, List.mem_map, decide_eq_true_eq,
    Prod.mk.injEq]
  constructor
  · rintro ⟨⟨c, ⟨hc, hne⟩, rfl, rfl⟩, hle⟩
    exact ⟨⟨hc, hne, hle⟩, rfl⟩
  · rintro ⟨⟨hc, hne, hle⟩, rfl⟩
    exact ⟨⟨c, ⟨hc, hne⟩, rfl, rfl⟩, hle⟩

/-- Sorted pairs without their repetitions come strictly one before the other. -/
theorem pairwise_ranked (name : String) (candidates : List String) (maxDistance : Nat) :
    (ranked name candidates maxDistance).Pairwise fun p q => toLex p < toLex q := by
  unfold ranked
  dsimp only
  have htrans (p q r : Nat × String) (hpq : before p q = true) (hqr : before q r = true) :
      before p r = true := before_iff.2 ((before_iff.1 hpq).trans (before_iff.1 hqr))
  have htotal (p q : Nat × String) : (before p q || before q p) = true := by
    rw [Bool.or_eq_true, before_iff, before_iff]
    exact le_total _ _
  have hanti (p q : Nat × String) (hpq : before p q = true) (hqp : before q p = true) : p = q :=
    toLex_inj.1 (le_antisymm (before_iff.1 hpq) (before_iff.1 hqp))
  have hsorted := List.pairwise_mergeSort htrans htotal
    (((candidates.filter (· ≠ name)).map fun c =>
      (editDistance name.toList c.toList, c)).filter (·.1 ≤ maxDistance))
  exact (pairwise_eraseReps hanti hsorted).imp fun ⟨hle, hne⟩ =>
    lt_of_le_of_ne (before_iff.1 hle) fun he => hne (toLex_inj.1 he)

theorem ranking_ranked (name : String) (candidates : List String) (maxDistance : Nat) :
    Ranking name candidates maxDistance ((ranked name candidates maxDistance).map (·.2)) := by
  have hsorted : ((ranked name candidates maxDistance).map (·.2)).Pairwise (Precedes name) := by
    refine List.pairwise_map.2 ((pairwise_ranked name candidates maxDistance).imp_of_mem ?_)
    intro p q hp hq hlt
    rw [precedes_iff, (mem_ranked.1 hp).2, (mem_ranked.1 hq).2]
    exact hlt
  refine ⟨hsorted.imp Precedes.ne, fun c => ?_, hsorted⟩
  rw [List.mem_map]
  constructor
  · rintro ⟨p, hp, rfl⟩
    exact (mem_ranked.1 hp).1
  · exact fun h => ⟨(editDistance name.toList c.toList, c), mem_ranked.2 ⟨h, rfl⟩, rfl⟩

/-! ### Suggestions -/

theorem suggest_eq (name : String) (candidates : List String) (maxDistance limit : Nat) :
    suggest name candidates maxDistance limit =
      ((ranked name candidates maxDistance).map (·.2)).take limit := List.map_take

/-- Of a sorted list, what is at the beginning precedes what is not. -/
theorem Ranking.precedes (h : Ranking name candidates maxDistance best) {c d : String}
    (hc : c ∈ best.take limit) (hd : d ∈ best) (hnot : d ∉ best.take limit) :
    Precedes name c d := by
  have hsorted := h.sorted
  rw [← List.take_append_drop limit best] at hsorted hd
  exact (List.pairwise_append.1 hsorted).2.2 c hc d
    ((List.mem_append.1 hd).resolve_left hnot)

theorem Precedes.distance_le {a b : String} (h : Precedes name a b) :
    editDistance name.toList a.toList ≤ editDistance name.toList b.toList := by
  obtain h | ⟨h, -⟩ := h
  · exact h.le
  · exact h.le

/-- The candidates for a name that are near enough can be listed in just one way, each once, the
closest first and those as close by their bytes.  The suggestions are the beginning of that list, as
far as the limit goes; so no name that is left out is closer than one that is not.  It does not
matter in what order the candidates are given, and how often. -/
theorem suggest_eq_take (name : String) (candidates : List String) (maxDistance limit : Nat) :
    ∃ best, Ranking name candidates maxDistance best ∧
      (∀ best', Ranking name candidates maxDistance best' → best' = best) ∧
      suggest name candidates maxDistance limit = best.take (min limit best.length) ∧
      (∀ c ∈ suggest name candidates maxDistance limit,
        ∀ d ∈ best, d ∉ suggest name candidates maxDistance limit →
          editDistance name.toList c.toList ≤ editDistance name.toList d.toList) ∧
      ∀ candidates', (∀ c, c ∈ candidates' ↔ c ∈ candidates) →
        suggest name candidates' maxDistance limit = suggest name candidates maxDistance limit := by
  have hbest := ranking_ranked name candidates maxDistance
  rw [suggest_eq]
  refine ⟨_, hbest, fun best' h => hbest.unique h fun _ => .rfl, ?_, ?_, ?_⟩
  · exact List.take_eq_take_min
  · exact fun c hc d hd hnot => (hbest.precedes hc hd hnot).distance_le
  · intro candidates' hmem
    rw [suggest_eq, hbest.unique (ranking_ranked name candidates' maxDistance) hmem]

/-- Names from several scopes: one comes twice, one is too far away, and the order makes no
difference. -/
theorem suggest_eq_take_scopes :
    Ranking "coun" ["count", "amount", "cont"] 2 ["count", "cont"] ∧
    (∀ c, c ∈ ["cont", "count", "amount", "count"] ↔ c ∈ ["count", "amount", "cont"]) ∧
    suggest "coun" ["count", "amount", "cont"] 2 3 = ["count", "cont"] ∧
    suggest "coun" ["cont", "count", "amount", "count"] 2 3 = ["count", "cont"] := by
  have hmem (c : String) :
      c ∈ ["cont", "count", "amount", "count"] ↔ c ∈ ["count", "amount", "cont"] := by
    simp
    tauto
  have hbest : Ranking "coun" ["count", "amount", "cont"] 2 ["count", "cont"] := by
    refine ⟨by decide, fun c => ⟨fun hc => ?_, fun ⟨hc, _, hd⟩ => ?_⟩, ?_⟩
    · obtain rfl | rfl : c = "count" ∨ c = "cont" := by simpa using hc
      · decide
      · decide
    · obtain rfl | rfl | rfl : c = "count" ∨ c = "amount" ∨ c = "cont" := by simpa using hc
      · decide
      · exact absurd hd (by decide)
      · decide
    · exact List.pairwise_pair.2 (.inl (by decide))
  obtain ⟨best, -, hunique, htake, -, hany⟩ :=
    suggest_eq_take "coun" ["count", "amount", "cont"] 2 3
  obtain rfl := hunique _ hbest
  exact ⟨hbest, hmem, htake, (hany _ hmem).trans htake⟩

end NumericScript.Spelling
