import NumericScript.Proofs.Link
import NumericScript.Proofs.Optimize.Preserve
import NumericScript.Proofs.Session.Frames

/-! # Runs through straight code

Straight code leads from instruction to instruction; only calls of functions of the program lead
away from it, and from these a run comes back to the next instruction.  So a run that enters such a
piece of code at its beginning executes its instructions in their order, each once, and prints at
the depth of that code exactly what they print.

* `Image.output_of_passes`: the output of a run is what its steps print.
* `Image.exists_take_of_passes`: what a run executes of straight code that it has entered.
* `Image.exists_entry`: a run that stands in straight code has entered it at its beginning. -/

namespace NumericScript

namespace Op

/-- Whether an operation calls a function of the program. -/
def callsUser : Op → Bool
  | .call (.user _) _ => true
  | _ => false

end Op

namespace Machine

variable {image : Image} {m m' : Machine} {op : Op}

/-- What an operation prints. -/
def prints (m : Machine) : Op → String
  | .print o newline =>
    match m.eval o with
    | .ok v => v.text ++ separator newline
    | .error _ => ""
  | _ => ""

theorem prints_of_not_isPrint (h : op.isPrint = false) : m.prints op = "" := by
  cases op <;> first | rfl | cases h

theorem prints_of_eval {o : Operand} {newline : Bool} {v : Value} (h : m.eval o = .ok v) :
    m.prints (.print o newline) = v.text ++ separator newline := by
  rw [prints, h]

@[simp] theorem prints_noted (m : Machine) (line : Nat) (op : Op) :
    (m.noted line).prints op = m.prints op := by
  cases op <;> simp [prints]

theorem Goes.output_eq (h : Goes image m op m') : m'.output = m.output ++ m.prints op := by
  cases h with
  | write hw =>
    have hp : op.isPrint = false := by cases op <;> first | rfl | cases hw
    simp [prints_of_not_isPrint hp, next]
  | print hv => rw [prints_of_eval hv, String.append_assoc]
  | _ => simp [prints, next]

/-- An operation of straight code leads to the next instruction or into a call that goes back to
it. -/
theorem Goes.of_isStraight (h : Goes image m op m') (hop : op.isStraight = true) :
    (m'.depth = m.depth ∧ m'.pc = m.pc + 1) ∨
      op.callsUser = true ∧ m'.Within m.frames (m.pc + 1) := by
  cases h with
  | write => exact .inl ⟨depth_write m _ _, by simp [next]⟩
  | user => exact .inr ⟨rfl, [], _, rfl, rfl⟩
  | label | param | builtin | print => exact .inl ⟨rfl, rfl⟩
  | jump | pass | branch | leave => cases hop

/-- A machine is executing one of the `n` instructions from position `k` on, with as many frames as
given, or is in a call from there. -/
def InCode (d k n : Nat) (m : Machine) : Prop :=
  d < m.depth ∨ m.depth = d ∧ k ≤ m.pc ∧ m.pc < k + n

instance (d k n : Nat) (m : Machine) : Decidable (m.InCode d k n) :=
  inferInstanceAs (Decidable (d < m.depth ∨ m.depth = d ∧ k ≤ m.pc ∧ m.pc < k + n))

end Machine

namespace Image

variable {image : Image} {p q r : Point} {d k : Nat} {i : Instr} {is is' : List Instr}
  {m : Machine} {ms past : List Machine}

/-! ### What a run prints -/

/-- What a machine prints with its next step. -/
def prints (image : Image) (m : Machine) : String :=
  match image.action? m with
  | some i => m.prints i.op
  | none => ""

/-- What machines print with their next steps, one after the other. -/
def printed (image : Image) (ms : List Machine) : String := String.join (ms.map image.prints)

theorem prints_of_action? (h : image.action? m = some i) : image.prints m = m.prints i.op := by
  rw [prints, h]

@[simp] theorem printed_nil : image.printed [] = "" := rfl

@[simp] theorem printed_append (ms ms' : List Machine) :
    image.printed (ms ++ ms') = image.printed ms ++ image.printed ms' := by
  simp [printed, String.join_append]

/-- A step appends what it prints. -/
theorem output_of_advance (h : image.advance p = .next q) :
    q.machine.output = p.machine.output ++ image.prints p.machine := by
  obtain ⟨hp, rfl⟩ | ⟨i, hp, hgo | ⟨dest, ty, v, hop, hq⟩⟩ := advance_cases h
  · simp [prints, hp, Machine.next]
  · rw [prints_of_action? hp, hgo.output_eq, Machine.output_noted, Machine.prints_noted]
  · rw [prints_of_action? hp, hop, hq]
    simp [Machine.prints, Machine.next]

/-- The output of a run is what its steps print. -/
theorem output_of_passes (h : image.Passes p past q) :
    q.machine.output = p.machine.output ++ image.printed past.reverse := by
  induction h with
  | refl => simp
  | tail _ hadv ih =>
    rw [output_of_advance hadv, ih, List.reverse_cons, printed_append, String.append_assoc]
    simp [printed]

/-! ### Straight code -/

/-- An instruction of straight code leads to the next one, perhaps by way of a call. -/
theorem advance_of_isStraight (hp : image.action? p.machine = some i)
    (hi : i.op.isStraight = true) (h : image.advance p = .next q) :
    (q.machine.depth = p.machine.depth ∧ q.machine.pc = p.machine.pc + 1) ∨
      i.op.callsUser = true ∧ ∃ outer : List Frame, outer.length = p.machine.depth ∧
        q.machine.Within outer (p.machine.pc + 1) := by
  obtain ⟨hnone, -⟩ | ⟨j, hj, hgo | ⟨dest, ty, v, -, hq⟩⟩ := advance_cases h
  · rw [hp] at hnone
    cases hnone
  · obtain rfl : i = j := Option.some.inj (hp.symm.trans hj)
    have hframes : (p.machine.noted i.line).frames.length = p.machine.depth := by
      rw [Machine.length_frames, Machine.depth_noted]
    have hgo := hgo.of_isStraight hi
    rw [Machine.depth_noted, Machine.pc_noted] at hgo
    exact hgo.imp id fun ⟨hcall, hwithin⟩ => ⟨hcall, _, hframes, hwithin⟩
  · rw [hq]
    exact .inl ⟨Machine.depth_written _ _ _ _, Machine.pc_written _ _ _ _⟩

/-- The machines at a given depth among those that a run has passed, the first one first. -/
def own (d : Nat) (past : List Machine) : List Machine := past.reverse.filter (·.depth = d)

theorem own_cons_of_eq (h : m.depth = d) (past : List Machine) :
    own d (m :: past) = own d past ++ [m] := by
  simp [own, h]

theorem own_cons_of_ne (h : m.depth ≠ d) (past : List Machine) :
    own d (m :: past) = own d past := by
  simp [own, h]

/-- A run that enters straight code at its beginning, and has not left it, has executed a first part
of it at its own depth, each instruction once and in their order.  It stands behind that part, or in
a call that is the last instruction of that part. -/
theorem exists_take_of_passes (hcode : CodeAt image.instrs.toList k is)
    (hstraight : ∀ i ∈ is, i.op.isStraight = true ∧ i.op.label? = none)
    (hk : p.machine.pc = k) (h : image.Passes p past r)
    (hin : ∀ m ∈ past, m.InCode p.machine.depth k is.length) :
    ∃ j ≤ is.length, List.Forall₂ (fun m i => image.action? m = some i)
        (own p.machine.depth past) (is.take j) ∧
      ((r.machine.depth = p.machine.depth ∧ r.machine.pc = k + j) ∨
        ∃ i outer, (is.take j).getLast? = some i ∧ i.op.callsUser = true ∧
          outer.length = p.machine.depth ∧ r.machine.Within outer (k + j)) := by
  induction h with
  | refl => exact ⟨0, Nat.zero_le _, .nil, .inl ⟨rfl, hk⟩⟩
  | @tail past q r _ hadv ih =>
    obtain ⟨hq, hin⟩ := List.forall_mem_cons.1 hin
    obtain ⟨j, hj, hown, ⟨hdepth, hpc⟩ | ⟨i, outer, hlast, hi, houter, hwithin⟩⟩ := ih hin
    · have hlt : j < is.length := by
        unfold Machine.InCode at hq
        omega
      have hact : image.action? q.machine = some is[j] := by
        refine action?_eq_some.2 ⟨?_, (hstraight _ (List.getElem_mem hlt)).2⟩
        rw [hpc, ← Array.getElem?_toList]
        exact hcode j _ (List.getElem?_eq_getElem hlt)
      have htake : is.take (j + 1) = is.take j ++ [is[j]] := List.take_succ_eq_append_getElem hlt
      refine ⟨j + 1, hlt, ?_, ?_⟩
      · rw [own_cons_of_eq hdepth, htake]
        exact List.rel_append hown (.cons hact .nil)
      · have hstep := advance_of_isStraight hact (hstraight _ (List.getElem_mem hlt)).1 hadv
        rw [hdepth, hpc] at hstep
        refine hstep.imp id fun ⟨hcall, outer, houter, hwithin⟩ => ?_
        exact ⟨is[j], outer, by rw [htake, List.getLast?_concat], hcall, houter, hwithin⟩
    · have hdeep : q.machine.depth ≠ p.machine.depth := by
        have := hwithin.lt_depth
        omega
      refine ⟨j, hj, by rwa [own_cons_of_ne hdeep], ?_⟩
      obtain hwithin | ⟨hframes, hpc⟩ := within_of_advance hwithin hadv
      · exact .inr ⟨i, outer, hlast, hi, houter, hwithin⟩
      · exact .inl ⟨by rw [← Machine.length_frames, hframes, houter], hpc⟩

/-! ### Where straight code is entered -/

/-- Labels stand where the image says. -/
def Placed (image : Image) : Prop :=
  ∀ l k, image.position l = .ok k → ∃ i, image.instrs[k]? = some i ∧ i.op.label? = some l

/-- A step leads to the next instruction, or to a label, or back from a call. -/
theorem advance_arrives (hplaced : image.Placed) (h : image.advance q = .next r) :
    (r.machine.depth = q.machine.depth ∧ r.machine.pc = q.machine.pc + 1) ∨
      (∃ i l, image.instrs[r.machine.pc]? = some i ∧ i.op.label? = some l) ∨
      ∃ outer : List Frame, outer.length = r.machine.depth ∧
        q.machine.Within outer r.machine.pc := by
  have hlabel : ∀ {l k}, image.position l = .ok k →
      ∃ i l, image.instrs[k]? = some i ∧ i.op.label? = some l := fun {l k} h =>
    (hplaced l k h).imp fun _ h => ⟨l, h⟩
  obtain ⟨-, rfl⟩ | ⟨⟨op, line⟩, -, hgo | ⟨dest, ty, v, -, hm⟩⟩ := advance_cases h
  · exact .inl ⟨rfl, rfl⟩
  · dsimp only at hgo
    generalize r.machine = m at hgo ⊢
    cases hgo with
    | write => exact .inl ⟨Machine.depth_written _ _ _ _, Machine.pc_written _ _ _ _⟩
    | label | pass | param | builtin | print =>
      exact .inl ⟨Machine.depth_noted _ _, by simp [Machine.next]⟩
    | jump h | branch _ h | user _ _ _ _ h => exact .inr (.inl (hlabel h))
    | @leave _ _ f fs _ hc _ =>
      refine .inr (.inr ⟨fs ++ [(q.machine.noted line).main], ?_, ?_⟩)
      · simp [Machine.depth]
      · exact Machine.Within.of_noted ⟨[], f, by rw [Machine.frames, hc]; rfl, rfl⟩
  · rw [hm]
    exact .inl ⟨Machine.depth_written _ _ _ _, Machine.pc_written _ _ _ _⟩

/-- A run that stands in the midst of code without labels has entered that code at its beginning and
has not left it since. -/
theorem exists_entry {n : Nat} (hplaced : image.Placed) (hp : p.machine.pc ≤ k)
    (hflat : p.machine.calls = [])
    (hcode : ∀ j i, k < j → j < k + n → image.instrs[j]? = some i → i.op.label? = none)
    (h : image.Passes p past r) (hk : k ≤ r.machine.pc) (hn : r.machine.pc < k + n) :
    ∃ x before later, past = later ++ before ∧ image.Passes p before x ∧
      image.Passes x later r ∧ x.machine.pc = k ∧ x.machine.depth = r.machine.depth ∧
      ∀ m ∈ later, m.InCode r.machine.depth k n := by
  -- Each step of the induction goes back to the instruction before, or to the call before.
  induction hlen : past.length using Nat.strongRecOn generalizing past r with
  | ind len ih =>
    obtain hk | hk := Nat.eq_or_lt_of_le hk
    · exact ⟨r, past, [], rfl, h, .refl, hk.symm, rfl, nofun⟩
    cases h with
    | refl => omega
    | @tail past q _ hq hadv =>
      obtain ⟨hdepth, hpc⟩ | ⟨i, l, hi, hl⟩ | ⟨outer, houter, hwithin⟩ :=
        advance_arrives hplaced hadv
      · obtain ⟨x, before, later, rfl, hx, hlater, hxk, hxd, hin⟩ :=
          ih _ (by rw [← hlen]; simp) hq (by omega) (by omega) rfl
        rw [hdepth]
        refine ⟨x, before, q.machine :: later, rfl, hx, hlater.tail hadv, hxk, hxd, ?_⟩
        exact List.forall_mem_cons.2 ⟨.inr ⟨rfl, by omega, by omega⟩, hin⟩
      · rw [hcode _ i hk hn hi] at hl
        cases hl
      · obtain ⟨y, before', during, rfl, hy, hduring, hyd, hyk, hin'⟩ :=
          exists_call_of_within hq hwithin (by simp [houter, Machine.depth, hflat])
        obtain ⟨x, before, later, rfl, hx, hlater, hxk, hxd, hin⟩ :=
          ih _ (by rw [← hlen]; simp; omega) hy (by omega) (by omega) rfl
        refine ⟨x, before, q.machine :: (during ++ y.machine :: later), by simp, hx, ?_, hxk,
          by omega, ?_⟩
        · simpa using (hlater.trans hduring).tail hadv
        · refine List.forall_mem_cons.2 ⟨.inl (houter ▸ hwithin.lt_depth), ?_⟩
          rw [List.forall_mem_append, List.forall_mem_cons]
          rw [hyd, houter] at hin
          exact ⟨fun m hm => .inl (houter ▸ hin' m hm), .inr ⟨by omega, by omega, by omega⟩, hin⟩

end Image

end NumericScript
