import NumericScript.Diagnostic
import Mathlib.Data.List.Basic

/-! # Places in a source text

A token stands where its first character does, and so does a lexeme that is no token.  Both are
counted from the beginning of the text, line by line.

* `Loc.IsIn`: the places in a text.
* `Position.isIn_advanceAll`: the place behind any part of the text from its beginning is one.
* `Scan.located_ofChars`: tokens and lexical errors have such places. -/

namespace NumericScript

/-- A place in a source text.  Its line is one of those that line feeds separate, and its column
that of a character of the line, or of the end of the line. -/
structure Loc.IsIn (source : String) (p : Loc) : Prop where
  line : 1 ≤ p.line ∧ p.line ≤ 1 + source.toList.count '\n'
  column : ∃ text ∈ (source.toList.splitOn '\n')[p.line - 1]?,
    1 ≤ p.column ∧ p.column ≤ 1 + text.length

/-- The first column of a line in which there is a place is one too. -/
theorem Loc.IsIn.first {source : String} {p : Loc} (h : p.IsIn source) :
    (⟨p.line, 1⟩ : Loc).IsIn source := by
  obtain ⟨text, htext, -, -⟩ := h.column
  exact ⟨h.line, text, htext, Nat.le_refl 1, Nat.le_add_right 1 _⟩

/-! ### Counting lines and columns -/

namespace Position

/-- The line and the column of a place. -/
def loc (p : Position) : Loc := ⟨p.line, p.column⟩

theorem line_advance (p : Position) (c : Char) :
    (p.advance c).line = p.line + [c].count '\n' := by
  unfold advance
  split <;> simp [*]

theorem column_advance (p : Position) (c : Char) :
    (p.advance c).column = if c = '\n' then 1 else p.column + 1 := by
  unfold advance
  split <;> rfl

theorem line_advanceAll (p : Position) (cs : List Char) :
    (p.advanceAll cs).line = p.line + cs.count '\n' := by
  induction cs generalizing p with
  | nil => rfl
  | cons c cs ih =>
    rw [advanceAll_cons, ih, line_advance, Nat.add_assoc, ← List.count_append,
      List.singleton_append]

theorem column_advanceAll_pos {p : Position} (hp : 1 ≤ p.column) (cs : List Char) :
    1 ≤ (p.advanceAll cs).column := by
  induction cs generalizing p with
  | nil => exact hp
  | cons c cs ih =>
    refine ih ?_
    rw [column_advance]
    split
    · exact Nat.le_refl 1
    · exact Nat.le_add_left 1 p.column

/-- The line behind `pre` is as long as the column there demands. -/
theorem exists_line (p : Position) (pre suf : List Char) :
    ∃ text, ((pre ++ suf).splitOn '\n')[pre.count '\n']? = some text ∧
      (p.advanceAll pre).column ≤ (if '\n' ∈ pre then 1 else p.column) + text.length := by
  induction pre generalizing p with
  | nil =>
    obtain ⟨text, rest, h⟩ := List.exists_cons_of_ne_nil (List.splitOn_ne_nil '\n' suf)
    exact ⟨text, by simp [h], by simp⟩
  | cons c pre ih =>
    obtain ⟨text, htext, hcolumn⟩ := ih (p.advance c)
    obtain ⟨first, lines, hlines⟩ := List.exists_cons_of_ne_nil
      (List.splitOn_ne_nil '\n' (pre ++ suf))
    rw [column_advance] at hcolumn
    rw [List.cons_append, List.splitOn, List.splitOnP_cons_eq_if_modifyHead, ← List.splitOn,
      advanceAll_cons]
    rw [hlines] at htext ⊢
    by_cases hc : c = '\n'
    · refine ⟨text, by simpa [hc] using htext, ?_⟩
      simpa [hc] using hcolumn
    · have hcount : (c :: pre).count '\n' = pre.count '\n' := by simp [hc]
      rw [hcount, if_neg (by simpa using hc)]
      by_cases hmem : '\n' ∈ pre
      · -- The first line goes on with one character more, but it is not the line at hand.
        obtain ⟨k, hk⟩ := Nat.exists_eq_succ_of_ne_zero
          (Nat.ne_of_gt (List.count_pos_iff.2 hmem))
        rw [hk] at htext ⊢
        exact ⟨text, htext, by simpa [hmem] using hcolumn⟩
      · rw [List.count_eq_zero.2 hmem] at htext ⊢
        cases htext
        refine ⟨c :: text, rfl, ?_⟩
        simp only [hmem, hc, Ne.symm hc, List.mem_cons, or_self, if_false, List.length_cons]
          at hcolumn ⊢
        omega

/-- The place behind any part of a text from its beginning is in the text. -/
theorem isIn_advanceAll {source : String} {pre suf : List Char} (h : pre ++ suf = source.toList) :
    (start.advanceAll pre).loc.IsIn source := by
  have hline : (start.advanceAll pre).line = 1 + pre.count '\n' := line_advanceAll start pre
  obtain ⟨text, htext, hcolumn⟩ := exists_line start pre suf
  have hcolumn : (start.advanceAll pre).column ≤ 1 + text.length := by simpa [start] using hcolumn
  have hpos : 1 ≤ (start.advanceAll pre).column := column_advanceAll_pos (Nat.le_refl 1) pre
  constructor
  · rw [← h, List.count_append]
    change 1 ≤ (start.advanceAll pre).line ∧ (start.advanceAll pre).line ≤ _
    omega
  · refine ⟨text, ?_, hpos, hcolumn⟩
    rw [← h, loc, hline, Nat.add_sub_cancel_left]
    exact htext

end Position

/-! ### Tokens and lexical errors -/

/-- The place of a stretch of text. -/
def Span.loc (s : Span) : Loc := ⟨s.line, s.column⟩

namespace Scan

/-- All tokens and lexical errors of a scan have places with the property `L`. -/
structure Located (L : Loc → Prop) (s : Scan) : Prop where
  tokens : ∀ t ∈ s.tokens, L t.span.loc
  errors : ∀ r ∈ s.errors, L ⟨r.line, r.column⟩

theorem Located.cons {L : Loc → Prop} {s : Scan} (h : s.Located L) {p : Position} (hp : L p.loc)
    (l : Lexeme) : (s.cons p l).Located L := by
  unfold Scan.cons
  split
  · exact ⟨List.forall_mem_cons.2 ⟨hp, h.tokens⟩, h.errors⟩
  · exact ⟨h.tokens, List.forall_mem_cons.2 ⟨hp, h.errors⟩⟩

/-- What stands in a text has the places that there are behind its beginnings. -/
theorem located_ofChars {L : Loc → Prop} (p : Position) (cs : List Char)
    (h : ∀ pre suf, pre ++ suf = cs → L (p.advanceAll pre).loc) : (ofChars p cs).Located L := by
  induction hn : cs.length using Nat.strongRecOn generalizing p cs with
  | ind n ih =>
    have hgap := splitGap_append cs
    have hq : L (p.advanceAll (splitGap cs).1).loc := h _ _ hgap
    rw [ofChars]
    dsimp only
    split
    · exact ⟨List.forall_mem_singleton.2 hq, List.forall_mem_nil _⟩
    · rename_i c rest hrest
      have htext := Lexeme.text_append_rest c rest
      rw [hrest] at hgap
      have hlength := congrArg List.length hgap
      rw [List.length_append] at hlength
      have hlt := Lexeme.rest_length_lt c rest
      refine .cons (ih _ (by omega) _ _ (fun pre suf hpre => ?_) rfl) hq _
      rw [← Position.advanceAll_append, ← Position.advanceAll_append]
      refine h _ suf ?_
      rw [List.append_assoc, List.append_assoc, hpre, htext, hgap]

theorem tokens_cons_ne_nil {s : Scan} (h : s.tokens ≠ []) (p : Position) (l : Lexeme) :
    (s.cons p l).tokens ≠ [] := by
  unfold Scan.cons
  split
  · exact List.cons_ne_nil _ _
  · exact h

/-- At the end of a text there is a token for it. -/
theorem tokens_ofChars_ne_nil (p : Position) (cs : List Char) : (ofChars p cs).tokens ≠ [] := by
  induction hn : cs.length using Nat.strongRecOn generalizing p cs with
  | ind n ih =>
    rw [ofChars]
    dsimp only
    split
    · exact List.cons_ne_nil _ _
    · rename_i c rest hrest
      have hlength := congrArg List.length (splitGap_append cs)
      rw [List.length_append, hrest] at hlength
      have hlt := Lexeme.rest_length_lt c rest
      exact tokens_cons_ne_nil (ih _ (by omega) _ _ rfl) _ _

end Scan

/-- The tokens and the lexical errors of a source text have places in it. -/
theorem Token.located_scan (source : String) : (Token.scan source).Located (Loc.IsIn source) :=
  Scan.located_ofChars _ _ fun _ _ => Position.isIn_advanceAll

end NumericScript
