import NumericScript.Proofs.Analysis.Reports

/-! # Places of reports of analysis

The places of reports are those of the tree, but for those of empty rows of matrices, and so are
the places of the annotated tree.

* `Program.located_analyze`: the annotated program and the reports. -/

namespace NumericScript

namespace Analysis

/-- The places of reports and symbols have the property `L`, but for those of empty rows. -/
structure State.Located (L : Loc → Prop) (s : State) : Prop where
  reports : ∀ r ∈ s.reports, L r.loc ∨ r.OfEmptyRow
  symbols : ∀ x ∈ s.scopes.symbols, L x.loc

theorem State.lasting_located (L : Loc → Prop) : Lasting L (State.Located L) where
  report hs hr :=
    ⟨List.forall_mem_append.2 ⟨hs.reports, List.forall_mem_singleton.2 hr⟩, hs.symbols⟩
  step hs hr hx := by
    refine ⟨hr ▸ hs.reports, fun x hmem => ?_⟩
    rcases hx x hmem with ⟨y, hy, hloc⟩ | hloc
    · exact hloc ▸ hs.symbols y hy
    · exact hloc

end Analysis

open Analysis

/-- The places of a program that was analysed are those of the program before, and so are the
places of reports, but for those of empty rows. -/
theorem Program.located_analyze {L : Loc → Prop} {p : Program} (h : Stmt.AllLocated L p)
    (settings : SuggestionSettings) :
    Stmt.AllLocated L (p.analyze settings).program ∧
      ∀ r ∈ (p.analyze settings).reports, L r.loc ∨ r.OfEmptyRow := by
  have hL := State.lasting_located L
  have hanalyze : Takes (State.Located L) (do hoist p; topLevel p) (Stmt.AllLocated L) :=
    .bind (hL.takes_hoist p h) fun _ _ => hL.takes_topLevel p h
  obtain ⟨hp, hs⟩ := hanalyze (.start settings) ⟨nofun, nofun⟩
  refine ⟨hp, List.forall_mem_append.2 ⟨hs.reports, fun r hr => .inl ?_⟩⟩
  obtain ⟨x, hx, rfl⟩ := List.mem_map.1 hr
  exact hs.symbols x (Array.mem_toList_iff.1 (List.mem_filter.1 hx).1)

end NumericScript
