import NumericScript.Proofs.Printed.Line

/-! # Ruled code

Code is ruled if all that it prints is printed in lines.  Then a run that is about to print has
entered the code of a line at its beginning and has not left it since.

* `Ruled`: code that is made of lines and of instructions that print nothing.
* `Code.PrintsLines`: what runs of ruled code print.
* `Ruled.printsLines`: that they do. -/

namespace NumericScript

/-- Code that prints the lines of `lines`, one behind the other, and nothing else. -/
inductive Ruled : List Instr → List (List Phrase) → Prop where
  | nil : Ruled [] []
  | other {i : Instr} {is : List Instr} {lines : List (List Phrase)} (h : i.op.isPrint = false)
      (his : Ruled is lines) : Ruled (i :: is) lines
  | line {line : List Phrase} {is : List Instr} {lines : List (List Phrase)} (h : line ≠ [])
      (his : Ruled is lines) : Ruled (lineCode line ++ is) (line :: lines)

namespace Ruled

variable {code code' : List Instr} {lines lines' : List (List Phrase)}

theorem append (h : Ruled code lines) (h' : Ruled code' lines') :
    Ruled (code ++ code') (lines ++ lines') := by
  induction h with
  | nil => exact h'
  | other hi _ ih => exact ih.other hi
  | line hline _ ih =>
    rw [List.append_assoc]
    exact ih.line hline

theorem of_silent (h : ∀ i ∈ code, i.op.isPrint = false) : Ruled code [] := by
  induction code with
  | nil => exact .nil
  | cons i is ih =>
    obtain ⟨hi, his⟩ := List.forall_mem_cons.1 h
    exact (ih his).other hi

theorem ne_nil (h : Ruled code lines) : ∀ line ∈ lines, line ≠ [] := by
  induction h with
  | nil => exact nofun
  | other _ _ ih => exact ih
  | line hline _ ih => exact List.forall_mem_cons.2 ⟨hline, ih⟩

/-- What prints stands in a line. -/
theorem exists_line {j : Nat} {i : Instr} (h : Ruled code lines) (hj : code[j]? = some i)
    (hi : i.op.isPrint = true) : ∃ line ∈ lines, ∃ k, CodeAt code k (lineCode line) ∧
      k ≤ j ∧ j < k + (lineCode line).length := by
  induction h generalizing j with
  | nil => cases hj
  | @other i' is lines hother _ ih =>
    cases j with
    | zero =>
      cases hj
      rw [hother] at hi
      cases hi
    | succ j =>
      obtain ⟨line, hmem, k, hcode, hk, hlt⟩ := ih hj
      refine ⟨line, hmem, 1 + k, hcode.after [i'], by omega, by omega⟩
  | @line line is lines hline _ ih =>
    by_cases hlt : j < (lineCode line).length
    · exact ⟨line, List.mem_cons_self, 0, codeAt_start _ _, Nat.zero_le _, by omega⟩
    · rw [List.getElem?_append_right (Nat.le_of_not_lt hlt)] at hj
      obtain ⟨line', hmem, k, hcode, hk, hlt'⟩ := ih hj
      exact ⟨line', List.mem_cons_of_mem _ hmem, (lineCode line).length + k,
        hcode.after (lineCode line), by omega, by omega⟩

end Ruled

/-! ### Runs of ruled code -/

theorem Image.placed_of_ofCode {c : Code} {settings : MachineSettings} {image : Image}
    (h : Image.ofCode c settings = .ok image) : image.Placed := by
  obtain ⟨hl, rfl⟩ := Code.ofCode_eq_ok_iff.1 h
  intro l k hk
  obtain ⟨i, hi, hlabel⟩ := (position_link hl.distinct).1 hk
  exact ⟨i, by simpa [Code.link] using hi, hlabel⟩

/-- Whatever code prints when it is run belongs to one of the lines of `lines`, which stand in the
code in this order. -/
structure Code.PrintsLines (c : Code) (lines : List (List Phrase)) : Prop where
  ruled : Ruled c.instrs lines
  /-- A run that enters a line prints the line, and nothing else unless a call prints it. -/
  writes {settings : MachineSettings} {image : Image} (h : Image.ofCode c settings = .ok image)
    {line : List Phrase} (hline : line ∈ lines) {k : Nat}
    (hk : CodeAt c.instrs k (lineCode line)) : image.WritesLine k line
  /-- A run that is about to print is in a line that it has entered at its beginning. -/
  enters {settings : MachineSettings} {image : Image} (h : Image.ofCode c settings = .ok image)
    {inputs : List String} {past : List Machine} {r : Point}
    (hr : image.Passes (image.startPoint inputs) past r) {i : Instr}
    (hi : image.action? r.machine = some i) (hprint : i.op.isPrint = true) :
    ∃ line ∈ lines, ∃ k x before later, CodeAt c.instrs k (lineCode line) ∧
      past = later ++ before ∧ image.Passes (image.startPoint inputs) before x ∧
      x.machine.pc = k ∧ image.Passes x later r ∧
      ∀ m ∈ later, m.InCode x.machine.depth k (lineCode line).length

theorem Ruled.printsLines {c : Code} {lines : List (List Phrase)} (h : Ruled c.instrs lines) :
    c.PrintsLines lines where
  ruled := h
  writes {_ _} hc {line} hline {k} hk := by
    refine Image.writesLine (h.ne_nil _ hline) ?_
    rw [(Code.ofCode_eq_ok_iff.1 hc).2]
    exact hk
  enters {_ image} hc {_ _ _} hr {_} hi hprint := by
    have hcode : image.instrs.toList = c.instrs := by rw [(Code.ofCode_eq_ok_iff.1 hc).2]; rfl
    have hinstr : ∀ j, image.instrs[j]? = c.instrs[j]? := fun j => by
      rw [← hcode, Array.getElem?_toList]
    rw [Image.action?_eq_some, hinstr] at hi
    obtain ⟨line, hline, k, hk, hle, hlt⟩ := h.exists_line hi.1 hprint
    have hlabel : ∀ j i, k < j → j < k + (lineCode line).length → image.instrs[j]? = some i →
        i.op.label? = none := by
      intro j i hkj hj hi
      obtain ⟨n, rfl⟩ := Nat.exists_eq_add_of_le (Nat.le_of_lt hkj)
      have hn : n < (lineCode line).length := by omega
      have hat := hk n _ (List.getElem?_eq_getElem hn)
      rw [hinstr, hat] at hi
      cases hi
      exact (isStraight_of_mem_lineCode (List.getElem_mem hn)).2
    obtain ⟨x, before, later, hpast, hx, hlater, hxk, hdepth, hin⟩ :=
      Image.exists_entry (Image.placed_of_ofCode hc) (Nat.zero_le _) rfl hlabel hr hle hlt
    rw [← hdepth] at hin
    exact ⟨line, hline, k, x, before, later, hk, hpast, hx, hxk, hlater, hin⟩

end NumericScript
