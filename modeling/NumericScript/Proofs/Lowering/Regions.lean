import NumericScript.Analysis
import NumericScript.Proofs.Lowering.Given
import NumericScript.Proofs.Optimize.Labels

/-! # Regions of code

The code of a program is that of its statements at top level, and after it that of one function
after the other.

* `Code.InRegions`: code that is made up so.
* `Program.inRegions_of_lower`: the code of a program whose functions have distinct names is. -/

namespace NumericScript

open Lowering

/-- A temporary is read or written in code. -/
def Occurs (t : Nat) (code : List Instr) : Prop := t ∈ tempsRead code ∨ t ∈ tempsWritten code

/-- No temporary occurs in both. -/
def Apart (code code' : List Instr) : Prop := ∀ t, Occurs t code → ¬ Occurs t code'

/-- The code of a function: its label, then its body and a return. -/
inductive IsRegion (f : FunctionInfo) : List Instr → Prop where
  | mk {body : List Instr} {line line' : Nat} (hl : f.label = .function f.name)
      (hb : (labelsIn body).all Label.isLocal) :
      IsRegion f ([⟨.label f.label, line⟩] ++ body ++ [⟨.return none, line'⟩])

/-- The code at top level: it has no function in it, and halts at its end. -/
inductive IsMain : List Instr → Prop where
  | mk {body : List Instr} {line : Nat} (hb : (labelsIn body).all Label.isLocal) :
      IsMain (body ++ [⟨.halt, line⟩])

/-- A region begins at a position. -/
def IsEntry (code : List Instr) (entry : Nat) : Prop :=
  entry = 0 ∨ ∃ f line, code[entry]? = some ⟨.label (.function f), line⟩

/-- Code that is made up of regions, in which control stays, and which share no temporary.  One
instruction writes a temporary, or two if it counts, and on every way from the beginning of a region
it is written before it is read. -/
structure Code.InRegions (c : Code) (main : List Instr) (regions : List (List Instr)) : Prop where
  instrs : c.instrs = main ++ regions.flatten
  isMain : IsMain main
  functions : List.Forall₂ IsRegion c.functions regions
  labels : ∃ found, c.labels = .ok found
  targets : ∀ region ∈ main :: regions, Targets (labelsIn region) region
  apart : (main :: regions).Pairwise Apart
  counters : ∀ t, IsCounter c.instrs t → (tempsWritten c.instrs).count t = 2
  others : ∀ t, Occurs t c.instrs → ¬ IsCounter c.instrs t → (tempsWritten c.instrs).count t = 1
  given : ∀ entry, IsEntry c.instrs entry → ∀ past k, Walk c.instrs entry past k →
    ∀ i, c.instrs[k]? = some i → ∀ t ∈ i.op.tempsRead, GivenOn c.instrs past t

/-! ### Temporaries of regions -/

theorem occurs_append {t : Nat} {code code' : List Instr} :
    Occurs t (code ++ code') ↔ Occurs t code ∨ Occurs t code' := by
  simp only [Occurs, tempsRead, tempsWritten, List.flatMap_append, List.filterMap_append,
    List.mem_append, or_or_or_comm]

theorem not_occurs {t : Nat} {s : State} {op : Op} (hr : op.tempsRead = [])
    (hw : op.tempWritten? = none) : ¬ Occurs t [s.instr op] := by
  rintro (ht | ht)
  · rw [tempsRead, List.flatMap_singleton, State.instr, hr] at ht
    cases ht
  · rw [tempsWritten_instr, hw] at ht
    cases ht

namespace Lowering

variable {lo hi : Nat} {code : List Instr} {counters : List Nat} {M : List (Label × Set Nat)}

theorem Labelled.nodup {exits : List Label} {s s' : State} (h : Labelled exits s code s') :
    (labelsIn code).Nodup := by
  refine List.nodup_iff_count.2 fun l => ?_
  cases l with
  | «local» k =>
    have hk := h.counts k
    rw [labelCount] at hk
    omega
  | function f =>
    have hnone : (labelsIn code).count (.function f) = 0 :=
      List.count_eq_zero.2 fun hf => by cases List.all_eq_true.1 h.locals _ hf
    omega

/-- Where nothing has a value at the labels of functions, nothing has one where regions begin. -/
theorem Asks.givenAt_entry {L : Label → Set Nat} {entry : Nat} (h : Asks [] ∅ lo hi code M)
    (hnone : ∀ q ∈ M, q.1.isLocal = false → q.2 = ∅) (hL : ∀ q ∈ M, L q.1 = q.2)
    (hentry : IsEntry code entry) : givenAt L code entry = ∅ := by
  rcases hentry with rfl | ⟨f, line, hf⟩
  · exact Set.subset_empty_iff.1 ((h.yields L hL (List.forall_mem_nil _)).covered.givenAt_subset 0)
  · have hmem : .function f ∈ labelsIn code :=
      List.mem_filterMap.2 ⟨_, List.mem_of_getElem? hf, rfl⟩
    rw [← h.labels] at hmem
    obtain ⟨q, hq, hlabel⟩ := List.mem_map.1 hmem
    rw [givenAt_of_label hf rfl, ← hlabel, hL q hq]
    exact hnone q hq (by rw [hlabel]; rfl)

/-- In code that control does not leave, only temporaries occur that were supplied for it. -/
theorem Asks.occurs (h : Asks [] ∅ lo hi code M) (hw : Counts counters lo hi code)
    (hn : (labelsIn code).Nodup) : ∀ t, Occurs t code → lo ≤ t ∧ t < hi := by
  rintro t (ht | ht)
  · obtain ⟨L, hL⟩ := exists_labelling (h.labels ▸ hn)
    have hcovered := (h.yields L hL (List.forall_mem_nil _)).covered
    have hlabels : ∀ l ∈ labelsIn code, L l ⊆ Set.Ico lo hi := by
      intro l hl
      rw [← h.labels] at hl
      obtain ⟨p, hp, rfl⟩ := List.mem_map.1 hl
      rw [hL p hp, ← Set.empty_union (Set.Ico lo hi)]
      exact h.range p hp
    exact hcovered.reads_subset (Set.empty_subset _) hlabels hw.mem_range t ht
  · exact hw.mem_range t ht

/-! ### The code at top level -/

variable {c : Context} {p : Program} {s s' : State}

theorem TopCode.counts (h : TopCode c s p code s') :
    ∃ counters, Counts counters s.temps s'.temps code := by
  induction h with
  | nil => exact ⟨_, .none rfl _⟩
  | function _ _ ih => exact ih
  | cons _ hs _ ih =>
    obtain ⟨counters, hs⟩ := hs.counts
    obtain ⟨counters', ih⟩ := ih
    exact ⟨_, hs.append ih⟩

theorem TopCode.asks (h : TopCode c s p code s') (K : Set Nat) :
    ∃ M, Asks c.exits K s.temps s'.temps code M := by
  induction h with
  | nil => exact ⟨_, .one _ rfl (fun t ht => by cases ht) fun l h => by cases h⟩
  | function _ _ ih => exact ih
  | cons _ hs h ih =>
    obtain ⟨M, hM⟩ := hs.asks _ K
    obtain ⟨M', hM'⟩ := ih
    exact ⟨_, hM.append hM' (List.Subset.refl _)⟩

theorem TopCode.isMain (h : TopCode c s p code s') : IsMain code := by
  induction h with
  | nil => exact @IsMain.mk [] _ rfl
  | function _ _ ih => exact ih
  | cons _ hs _ ih =>
    cases ih with
    | mk hb =>
      rw [← List.append_assoc]
      refine .mk ?_
      rw [labelsIn_append, List.all_append, (hs.labelled _).locals, hb]
      rfl

/-! ### The code of functions -/

variable {codes : List Instr} {infos : List FunctionInfo}

theorem RegionsCode.counts (h : RegionsCode c s p codes infos s') :
    ∃ counters, Counts counters s.temps s'.temps codes := by
  induction h with
  | nil => exact ⟨_, (Brings.nil ∅ _).counts⟩
  | function _ hb _ ih =>
    obtain ⟨counters, hb⟩ := hb.counts
    obtain ⟨counters', ih⟩ := ih
    exact ⟨_, (((Counts.none rfl _).append hb).append (.none rfl _)).append ih⟩
  | other _ _ ih => exact ih

/-- Nothing has a value at the labels of functions. -/
theorem RegionsCode.asks (h : RegionsCode c s p codes infos s') :
    ∃ M, Asks [] ∅ s.temps s'.temps codes M ∧ ∀ q ∈ M, q.1.isLocal = false → q.2 = ∅ := by
  induction h with
  | nil => exact ⟨_, .nil _ _ _, List.forall_mem_nil _⟩
  | @function s s₁ s₂ loc f returns params vars body rest code codes infos hp hb h ih =>
    obtain ⟨M, hM⟩ : ∃ M, Asks [] ∅ s.temps s₁.temps code M := hb.asks _ ∅
    obtain ⟨M', hM', hnone⟩ := ih
    have hentry := (Asks.nil [] ∅ s.temps).label (s.inLine loc.line) (.function f)
    have hleave : Asks [] ∅ s₁.temps s₁.temps [(s₁.inLine loc.line).instr (.return none)] [] :=
      .one _ rfl (fun t ht => by cases ht) fun l h => by cases h
    have hregion := (hentry.append hM (List.Subset.refl _)).append hleave (List.Subset.refl _)
    refine ⟨_, hregion.append hM' (List.Subset.refl _), ?_⟩
    simp only [List.nil_append, List.append_nil, List.forall_mem_append,
      List.forall_mem_singleton]
    refine ⟨⟨fun _ => trivial, fun q hq hl => ?_⟩, hnone⟩
    rw [hM.isLocal (hb.labelled _).locals q hq] at hl
    cases hl
  | other _ _ ih => exact ih

/-- The code of functions is that of one after the other. -/
theorem RegionsCode.regions (h : RegionsCode c s p codes infos s') :
    ∃ regions : List (List Instr), codes = regions.flatten ∧ List.Forall₂ IsRegion infos regions ∧
      (∀ region ∈ regions, Targets (labelsIn region) region) ∧
      (∀ region ∈ regions, ∀ t, Occurs t region → s.temps ≤ t ∧ t < s'.temps) ∧
      regions.Pairwise Apart := by
  induction h with
  | nil => exact ⟨[], rfl, .nil, List.forall_mem_nil _, List.forall_mem_nil _, .nil⟩
  | @function s s₁ s₂ loc f returns params vars body rest code codes infos hp hb h ih =>
    obtain ⟨regions, rfl, hregions, htargets, hrange, hapart⟩ := ih
    have hlabelled := hb.labelled
    have htemps := hlabelled.temps
    have hrest := h.labelled.temps
    simp only [State.inLine] at htemps hrest
    obtain ⟨M, hM⟩ : ∃ M, Asks [] ∅ s.temps s₁.temps code M := hb.asks _ ∅
    obtain ⟨counters, hw⟩ := hb.counts
    have hoccurs := hM.occurs hw hlabelled.nodup
    have hin : ∀ t, Occurs t ([(s.inLine loc.line).instr (.label (.function f))] ++ code ++
        [(s₁.inLine loc.line).instr (.return none)]) → s.temps ≤ t ∧ t < s₁.temps := by
      intro t ht
      rw [occurs_append, occurs_append] at ht
      rcases ht with (ht | ht) | ht
      · exact absurd ht (not_occurs rfl rfl)
      · exact hoccurs t ht
      · exact absurd ht (not_occurs rfl rfl)
    refine ⟨([(s.inLine loc.line).instr (.label (.function f))] ++ code ++
        [(s₁.inLine loc.line).instr (.return none)]) :: regions, rfl,
      .cons (.mk rfl hlabelled.locals) hregions, List.forall_mem_cons.2 ⟨?_, htargets⟩,
      List.forall_mem_cons.2 ⟨fun t ht => ?_, fun region hregion t ht => ?_⟩,
      .cons (fun region hregion t ht ht' => ?_) hapart⟩
    · simp only [targets_append, targets_singleton, labelsIn_append]
      refine ⟨⟨(fun l h => by cases h), hlabelled.targets_of_subset fun l hl => ?_⟩,
        (fun l h => by cases h)⟩
      have hl : l ∈ labelsIn code := hl.resolve_right (List.not_mem_nil)
      exact List.mem_append_left _ (List.mem_append_right _ hl)
    · have := hin t ht
      omega
    · have := hrange region hregion t ht
      simp only [State.inLine] at this
      omega
    · have := hin t ht
      have := hrange region hregion t ht'
      simp only [State.inLine] at this
      omega
  | other _ _ ih => exact ih

end Lowering

/-! ### Programs -/

theorem map_label_of_isRegion {infos : List FunctionInfo} {regions : List (List Instr)}
    (h : List.Forall₂ IsRegion infos regions) :
    infos.map (·.label) = (infos.map (·.name)).map .function := by
  induction h with
  | nil => rfl
  | cons hf _ ih =>
    cases hf with
    | mk hl => rw [List.map_cons, ih, hl]; rfl

/-- The code of a program whose functions have distinct names is made up of regions: one for its
statements at top level, and one for each of its functions. -/
theorem Program.inRegions_of_lower {p : Program} {code : Code} (hn : p.functionNames.Nodup)
    (h : p.lower = .ok code) :
    code.functions.map (·.name) = p.functionNames ∧
      ∃ top regions, code.InRegions top regions := by
  obtain ⟨top, codes, s₁, s₂, htop, hr, hcode⟩ := exists_of_lower h
  obtain ⟨regions, rfl, hregions, htargets, hrange, hapart⟩ := hr.regions
  have hlinked := linked htop hr hn
  obtain ⟨counters, hwtop⟩ := htop.counts
  obtain ⟨counters', hwr⟩ := hr.counts
  have hw := hwtop.append hwr
  obtain ⟨M, hM⟩ : ∃ M, Asks [] ∅ 0 s₁.temps top M := htop.asks ∅
  obtain ⟨M', hM', hnone⟩ := hr.asks
  have hasks := hM.append hM' (List.Subset.refl _)
  rw [← hcode] at hlinked hw hasks
  refine ⟨?_, top, regions, ?_⟩
  · have hnames := hr.labelled.names
    rw [map_label_of_isRegion hregions] at hnames
    exact List.map_injective_iff.2 (fun _ _ h => Label.function.inj h) hnames
  constructor
  case instrs => exact hcode
  case isMain => exact htop.isMain
  case functions => exact hregions
  case labels => exact Code.exists_labels_iff.2 hlinked
  case targets =>
    refine List.forall_mem_cons.2 ⟨htop.labelled.targets_of_subset fun l hl => ?_, htargets⟩
    exact hl.resolve_right List.not_mem_nil
  case apart =>
    refine .cons (fun region hregion t ht ht' => ?_) hapart
    have := hM.occurs hwtop htop.labelled.nodup t ht
    have := hrange region hregion t ht'
    omega
  case counters => exact fun t => hw.count_of_isCounter
  case others =>
    exact fun t ht => hw.count_of_not_isCounter (hasks.occurs hw hlinked.distinct t ht)
  case given =>
    obtain ⟨L, hL⟩ := exists_labelling (hasks.labels ▸ hlinked.distinct)
    have hnone : ∀ q ∈ M ++ M', q.1.isLocal = false → q.2 = ∅ := by
      refine List.forall_mem_append.2 ⟨fun q hq hl => ?_, hnone⟩
      rw [hM.isLocal htop.labelled.locals q hq] at hl
      cases hl
    intro entry hentry past k hwalk i hi t ht
    exact (hasks.yields L hL (List.forall_mem_nil _)).covered.givenOn_of_reads
      (hasks.givenAt_entry hnone hL hentry) hwalk hi ht

/-- A function whose loop may be left before its end.  The fifth temporary is the counter. -/
theorem Program.inRegions_of_lower_repeat : ∃ p code, ((Program.parse (Token.scan
      ("function int sum(int n):\n    int s = 0\n    repeat n times:\n        if s > 9:\n" ++
        "            break\n        end\n        s = s + n\n    end\n    return s\nend\n" ++
        "print sum(3) + sum(4)\n")).tokens).program.analyze {}).program = p ∧
    p.functionNames.Nodup ∧ p.lower = .ok code ∧ code.functions.map (·.name) = ["sum"] ∧
    ∃ top regions, code.InRegions top regions ∧ IsCounter code.instrs 4 := by
  let p := ((Program.parse (Token.scan
    ("function int sum(int n):\n    int s = 0\n    repeat n times:\n        if s > 9:\n" ++
      "            break\n        end\n        s = s + n\n    end\n    return s\nend\n" ++
      "print sum(3) + sum(4)\n")).tokens).program.analyze {}).program
  have hcode : (p.functionNames, p.lower.toOption.map fun code =>
      (tempsWritten code.instrs).count 4) = (["sum"], some 2) := by decide +kernel
  obtain ⟨hnames, htwice⟩ := Prod.mk.inj hcode
  have hdistinct : p.functionNames.Nodup := by
    rw [hnames]
    exact List.nodup_singleton _
  cases hl : p.lower with
  | error e =>
    rw [hl] at htwice
    cases htwice
  | ok code =>
    rw [hl] at htwice
    have hcount : (tempsWritten code.instrs).count 4 = 2 := Option.some.inj htwice
    obtain ⟨hfunctions, top, regions, h⟩ := Program.inRegions_of_lower hdistinct hl
    refine ⟨p, code, rfl, hdistinct, hl, hfunctions.trans hnames, top, regions, h, ?_⟩
    by_contra hcounter
    have hoccurs : Occurs 4 code.instrs := .inr (List.count_pos_iff.1 (by omega))
    have honce := h.others 4 hoccurs hcounter
    omega

end NumericScript
