import NumericScript.Proofs.Printed.Straight

/-! # Printed lines

A line is printed by straight code: code that evaluates a value, an instruction that prints it, and
so on, with a line feed after the last value and a space after each of the others.  What functions
print that are called in between comes in between.

* `Phrase`, `lineCode`: the code that prints a line.
* `Image.WritesLine`: what the code of a line prints by itself, and what is printed meanwhile.
* `Image.writesLine`: that it does so, wherever it stands. -/

namespace NumericScript

/-- Code that evaluates a value, and what prints the value. -/
structure Phrase where
  code : List Instr
  value : Operand
  line : Nat
  /-- Nothing is printed and control does not move until the value is printed. -/
  inline : ∀ i ∈ code, i.op.isInline = true

/-- The code that prints a value, with a line feed or a space after it. -/
def Phrase.instrs (ph : Phrase) (newline : Bool) : List Instr :=
  ph.code ++ [⟨.print ph.value newline, ph.line⟩]

/-- The code that prints a line.  The line ends after its last phrase. -/
def lineCode : List Phrase → List Instr
  | [] => []
  | ph :: rest => ph.instrs rest.isEmpty ++ lineCode rest

/-- What a line with values is. -/
def lineText (vs : List Value) : String := " ".intercalate (vs.map Value.text) ++ "\n"

/-- What has been printed of a line whose first values are printed. -/
def partText (vs : List Value) : String := String.join (vs.map fun v => v.text ++ " ")

theorem lineText_cons {vs : List Value} (h : vs ≠ []) (v : Value) :
    lineText (v :: vs) = v.text ++ " " ++ lineText vs := by
  have h : vs.map Value.text ≠ [] := by simpa using h
  simp [lineText, String.intercalate_cons_of_ne_nil h, String.append_assoc]

theorem isStraight_of_mem_lineCode {line : List Phrase} {i : Instr} (h : i ∈ lineCode line) :
    i.op.isStraight = true ∧ i.op.label? = none := by
  induction line with
  | nil => cases h
  | cons ph rest ih =>
    rw [lineCode, Phrase.instrs, List.mem_append, List.mem_append, List.mem_singleton] at h
    obtain (h | rfl) | h := h
    · obtain ⟨hstraight, hlabel, -⟩ := Op.isInline_iff.1 (ph.inline i h)
      exact ⟨hstraight, hlabel⟩
    · exact ⟨rfl, rfl⟩
    · exact ih h

/-- The last instruction for a line prints. -/
theorem callsUser_of_getLast? {line : List Phrase} {i : Instr}
    (h : (lineCode line).getLast? = some i) : i.op.callsUser = false := by
  induction line with
  | nil => cases h
  | cons ph rest ih =>
    rw [lineCode, List.getLast?_append] at h
    cases hrest : (lineCode rest).getLast? with
    | none =>
      rw [hrest, Phrase.instrs, List.getLast?_concat] at h
      cases h
      rfl
    | some i' =>
      rw [hrest] at h
      cases h
      exact ih hrest

namespace Image

variable {image : Image} {p q r : Point} {k : Nat} {i : Instr} {m : Machine}
  {ms past : List Machine} {is : List Instr} {line : List Phrase}

/-- The value that a machine is about to print. -/
def displayed? (image : Image) (m : Machine) : Option Value :=
  match image.action? m with
  | some ⟨.print o _, _⟩ => (m.eval o).toOption
  | _ => none

/-- The values that machines print, one after the other. -/
def shown (image : Image) (ms : List Machine) : List Value := ms.filterMap image.displayed?

@[simp] theorem shown_nil : image.shown [] = [] := rfl

@[simp] theorem shown_append (ms ms' : List Machine) :
    image.shown (ms ++ ms') = image.shown ms ++ image.shown ms' :=
  List.filterMap_append

/-- A machine takes a step and its run goes on. -/
def Steps (image : Image) (m : Machine) : Prop :=
  ∃ q r : Point, q.machine = m ∧ image.advance q = .next r

theorem steps_of_passes (h : image.Passes p past r) : ∀ m ∈ past, image.Steps m := by
  induction h with
  | refl => exact nofun
  | tail _ hadv ih => exact List.forall_mem_cons.2 ⟨⟨_, _, rfl, hadv⟩, ih⟩

/-- The machines are about to execute the instructions, each one of them. -/
abbrev AboutTo (image : Image) : List Machine → List Instr → Prop :=
  List.Forall₂ fun m i => image.action? m = some i

theorem exists_of_aboutTo_append {is' : List Instr} (h : image.AboutTo ms (is ++ is')) :
    ∃ ms₁ ms₂, ms = ms₁ ++ ms₂ ∧ image.AboutTo ms₁ is ∧ image.AboutTo ms₂ is' :=
  ⟨_, _, (List.take_append_drop is.length ms).symm, List.forall₂_take_append _ _ _ h,
    List.forall₂_drop_append _ _ _ h⟩

/-- Inline code prints nothing. -/
theorem printed_of_inline (h : image.AboutTo ms is) (his : ∀ i ∈ is, i.op.isInline = true) :
    image.printed ms = "" ∧ image.shown ms = [] := by
  induction h with
  | nil => exact ⟨rfl, rfl⟩
  | @cons m i ms is hact _ ih =>
    obtain ⟨hi, his⟩ := List.forall_mem_cons.1 his
    obtain ⟨hprinted, hshown⟩ := ih his
    obtain ⟨-, -, hprint⟩ := Op.isInline_iff.1 hi
    obtain ⟨op, line⟩ := i
    constructor
    · rw [printed, List.map_cons, String.join_cons, prints_of_action? hact,
        Machine.prints_of_not_isPrint hprint]
      exact hprinted
    · have hnone : image.displayed? m = none := by
        rw [displayed?, hact]
        cases op <;> first | rfl | cases hprint
      rw [shown, List.filterMap_cons, hnone]
      exact hshown

/-- A machine that prints a value and goes on has evaluated it. -/
theorem printed_of_print {o : Operand} {newline : Bool} {number : Nat}
    (hact : image.action? m = some ⟨.print o newline, number⟩) (h : image.Steps m) :
    ∃ v, image.shown [m] = [v] ∧ image.printed [m] = v.text ++ Machine.separator newline := by
  obtain ⟨q, r, rfl, hadv⟩ := h
  obtain ⟨hnone, -⟩ | ⟨i, hi, hgo | ⟨dest, ty, v, hop, -⟩⟩ := advance_cases hadv
  · rw [hact] at hnone
    cases hnone
  all_goals obtain rfl := Option.some.inj (hact.symm.trans hi)
  · generalize r.machine = m' at hgo
    cases hgo with
    | write hw => cases hw
    | @print _ _ v hv =>
      rw [Machine.eval_noted] at hv
      refine ⟨v, ?_, ?_⟩
      · simp [shown, displayed?, hact, hv, Except.toOption]
      · simp [printed, prints_of_action? hact, Machine.prints_of_eval hv]
  · cases hop

/-- Every instruction that prints has printed a value. -/
theorem length_shown (h : image.AboutTo ms is) (hms : ∀ m ∈ ms, image.Steps m) :
    (image.shown ms).length = is.countP (·.op.isPrint) := by
  induction h with
  | nil => rfl
  | @cons m i ms is hact _ ih =>
    obtain ⟨hm, hms⟩ := List.forall_mem_cons.1 hms
    rw [← List.singleton_append, shown_append, List.length_append, ih hms, List.countP_cons]
    obtain ⟨op, number⟩ := i
    cases op with
    | print o newline =>
      obtain ⟨v, hv, -⟩ := printed_of_print hact hm
      rw [hv]
      exact Nat.add_comm 1 _
    | _ => simp [shown, displayed?, hact, Op.isPrint]

/-- A phrase prints its value. -/
theorem printed_of_phrase {ph : Phrase} {newline : Bool}
    (h : image.AboutTo ms (ph.instrs newline)) (hms : ∀ m ∈ ms, image.Steps m) :
    ∃ v, image.shown ms = [v] ∧ image.printed ms = v.text ++ Machine.separator newline := by
  obtain ⟨before, own, rfl, hcode, hprint⟩ := exists_of_aboutTo_append h
  obtain ⟨hprinted, hshown⟩ := printed_of_inline hcode ph.inline
  rw [shown_append, printed_append, hshown, hprinted, List.nil_append, String.empty_append]
  cases hprint with
  | cons hact hnil =>
    cases hnil
    exact printed_of_print hact (hms _ (by simp))

/-- The code of a line prints the line. -/
theorem printed_of_line (hline : line ≠ []) (h : image.AboutTo ms (lineCode line))
    (hms : ∀ m ∈ ms, image.Steps m) :
    (image.shown ms).length = line.length ∧ image.printed ms = lineText (image.shown ms) := by
  induction line generalizing ms with
  | nil => exact absurd rfl hline
  | cons ph rest ih =>
    obtain ⟨first, later, rfl, hfirst, hlater⟩ := exists_of_aboutTo_append h
    obtain ⟨hf, hl⟩ := List.forall_mem_append.1 hms
    obtain ⟨v, hv, htext⟩ := printed_of_phrase hfirst hf
    rw [shown_append, printed_append, hv, htext]
    cases rest with
    | nil =>
      cases hlater
      exact ⟨rfl, by simp [lineText, Machine.separator]⟩
    | cons ph' rest =>
      obtain ⟨hlen, hrest⟩ := ih (List.cons_ne_nil _ _) hlater hl
      have hne : image.shown later ≠ [] := List.ne_nil_of_length_eq_add_one hlen
      exact ⟨by simp [hlen], by rw [hrest]; exact (lineText_cons hne v).symm⟩

/-- A first part of that code that is not all of it prints a first part of the line. -/
theorem printed_of_part {j : Nat} (hj : j < (lineCode line).length)
    (h : image.AboutTo ms ((lineCode line).take j)) (hms : ∀ m ∈ ms, image.Steps m) :
    (image.shown ms).length < line.length ∧ image.printed ms = partText (image.shown ms) := by
  induction line generalizing ms j with
  | nil => cases hj
  | cons ph rest ih =>
    rw [lineCode, List.length_append] at hj
    by_cases hlt : j < (ph.instrs rest.isEmpty).length
    · have htake : (lineCode (ph :: rest)).take j = ph.code.take j := by
        rw [Phrase.instrs, List.length_append, List.length_singleton] at hlt
        rw [lineCode, Phrase.instrs, List.append_assoc,
          List.take_append_of_le_length (Nat.le_of_lt_succ hlt)]
      rw [htake] at h
      obtain ⟨hprinted, hshown⟩ :=
        printed_of_inline h fun i hi => ph.inline i (List.mem_of_mem_take hi)
      rw [hprinted, hshown]
      exact ⟨Nat.zero_lt_succ _, rfl⟩
    · obtain ⟨j, rfl⟩ := Nat.exists_eq_add_of_le (Nat.le_of_not_lt hlt)
      rw [lineCode, List.take_length_add_append] at h
      obtain ⟨first, later, rfl, hfirst, hlater⟩ := exists_of_aboutTo_append h
      obtain ⟨hf, hl⟩ := List.forall_mem_append.1 hms
      obtain ⟨v, hv, htext⟩ := printed_of_phrase hfirst hf
      obtain ⟨hlen, hrest⟩ := ih (Nat.lt_of_add_lt_add_left hj) hlater hl
      have hne : rest.isEmpty = false := by
        cases rest with
        | nil => cases hlen
        | cons => rfl
      rw [shown_append, printed_append, hv, htext, hrest, hne]
      refine ⟨by simp; omega, ?_⟩
      simp [partText, Machine.separator, String.append_assoc]

/-! ### Runs through a line -/

/-- What a run has come to at `r` that has entered the code of a line at `p`, at position `k`, and
has passed the machines of `past` since, all of them in that code or in calls from there. -/
structure LineRun (image : Image) (k : Nat) (line : List Phrase) (p : Point)
    (past : List Machine) (r : Point) : Prop where
  /-- It has executed a first part of the code at its own depth, in order, with a value for every
  instruction there that prints, and stands behind that part or in a call from the end of it. -/
  executed : ∃ j, image.AboutTo (own p.machine.depth past) ((lineCode line).take j) ∧
    (image.shown (own p.machine.depth past)).length =
      ((lineCode line).take j).countP (·.op.isPrint) ∧
    ((r.machine.depth = p.machine.depth ∧ r.machine.pc = k + j) ∨
      ∃ outer : List Frame, outer.length = p.machine.depth ∧ r.machine.Within outer (k + j))
  /-- What has been printed is what the passed machines print. -/
  output : r.machine.output = p.machine.output ++ image.printed past.reverse
  /-- Those of them at its own depth have printed the line, if it is through, and otherwise the
  first values of the line. -/
  text : let vs := image.shown (own p.machine.depth past)
    (r.machine.depth = p.machine.depth ∧ r.machine.pc = k + (lineCode line).length ∧
      vs.length = line.length ∧ image.printed (own p.machine.depth past) = lineText vs) ∨
    (r.machine.InCode p.machine.depth k (lineCode line).length ∧ vs.length < line.length ∧
      image.printed (own p.machine.depth past) = partText vs)
  /-- Nothing else has been printed unless calls have printed it. -/
  alone : (∀ m ∈ past, p.machine.depth < m.depth → image.prints m = "") →
    image.printed past.reverse = image.printed (own p.machine.depth past)
  /-- And nothing is printed if the run ends here. -/
  ends : ∀ o, image.advance r = .done o → o.output = r.machine.output

/-- Runs that enter code at `k` print a line there. -/
def WritesLine (image : Image) (k : Nat) (line : List Phrase) : Prop :=
  ∀ (p r : Point) (past : List Machine), p.machine.pc = k → image.Passes p past r →
    (∀ m ∈ past, m.InCode p.machine.depth k (lineCode line).length) →
      image.LineRun k line p past r

theorem printed_reverse_of_alone {d : Nat} (hin : ∀ m ∈ past, d ≤ m.depth)
    (h : ∀ m ∈ past, d < m.depth → image.prints m = "") :
    image.printed past.reverse = image.printed (own d past) := by
  induction past with
  | nil => rfl
  | cons m past ih =>
    obtain ⟨hm, hpast⟩ := List.forall_mem_cons.1 h
    obtain ⟨hd, hin⟩ := List.forall_mem_cons.1 hin
    rw [List.reverse_cons, printed_append, ih hin hpast]
    obtain heq | hlt := Nat.eq_or_lt_of_le hd
    · rw [own_cons_of_eq heq.symm, printed_append]
    · rw [own_cons_of_ne (Nat.ne_of_gt hlt)]
      simp [printed, hm hlt]

/-- The code of a line prints the line, wherever it stands. -/
theorem writesLine (hline : line ≠ [])
    (hcode : CodeAt image.instrs.toList k (lineCode line)) : image.WritesLine k line := by
  intro p r past hk h hin
  obtain ⟨j, hj, hown, hwhere⟩ :=
    exists_take_of_passes hcode (fun i hi => isStraight_of_mem_lineCode hi) hk h hin
  have hsteps : ∀ m ∈ own p.machine.depth past, image.Steps m := by
    intro m hm
    exact steps_of_passes h m (by simpa using List.mem_of_mem_filter hm)
  have hdeep : ∀ m ∈ past, p.machine.depth ≤ m.depth := by
    intro m hm
    have := hin m hm
    unfold Machine.InCode at this
    omega
  refine ⟨⟨j, hown, length_shown hown hsteps, ?_⟩, output_of_passes h, ?_,
    printed_reverse_of_alone hdeep, fun o ho => output_of_done ho⟩
  · exact hwhere.imp id fun ⟨_, outer, _, _, houter, hwithin⟩ => ⟨outer, houter, hwithin⟩
  · obtain rfl | hlt := Nat.eq_or_lt_of_le hj
    · rw [List.take_length] at hown hwhere
      obtain ⟨hdepth, hpc⟩ | ⟨i, outer, hlast, hcall, -⟩ := hwhere
      · exact .inl ⟨hdepth, hpc, printed_of_line hline hown hsteps⟩
      · rw [callsUser_of_getLast? hlast] at hcall
        cases hcall
    · refine .inr ⟨?_, printed_of_part hlt hown hsteps⟩
      obtain ⟨hdepth, hpc⟩ | ⟨i, outer, hlast, hcall, houter, hwithin⟩ := hwhere
      · exact .inr ⟨hdepth, by omega, by omega⟩
      · exact .inl (houter ▸ hwithin.lt_depth)

end Image

end NumericScript
