import NumericScript.Machine.Snapshot
import NumericScript.Proofs.Lowering.Names
import NumericScript.Proofs.Optimize.Compiled
import NumericScript.Proofs.Session.Mirror
import NumericScript.Proofs.Session.Rest

/-! # What a host sees under a name

A host looks a name up in what it sees of a session: among the variables of the innermost frame,
and then among the global ones.  The program knows its variables by their slots.  Frames hold no
other variables than those that the names of the program stand for, so both mean the same variable
unless the program has another one, a local one, of that name.

* `Store.get?_sorted`: sorting changes nothing that is found.
* `Session.valueOf?_inspect`: what a host finds is what the machine holds.
* `Machine.LocalsIn`: the local variables that the frames hold, and `keeps_localsIn`: it stays so.
* `Obscured`: where another variable of the name comes between the host and the one that is meant.
* `compile_lookup`: elsewhere the host sees what the program sees. -/

namespace NumericScript

/-! ### What is found -/

namespace Store

variable {α : Type}

theorem get?_eq_head? {κ : Type} [DecidableEq κ] (s : Store κ α) (k : κ) :
    s.get? k = ((s.filter fun p => p.1 = k).head?).map (·.2) := by
  induction s with
  | nil => rfl
  | cons p s ih =>
    by_cases hk : p.1 = k
    · simp [get?, hk]
    · simp [get?, hk, ih]

/-- Sorting is stable, so what is stored under one name keeps its order. -/
theorem get?_sorted (s : Store String α) (x : String) : get? (sorted s) x = s.get? x := by
  have hperm := List.mergeSort_perm s fun a b => ¬ b.1 < a.1
  have hkept : (s.filter fun p => p.1 = x).Sublist (sorted s) := by
    refine List.sublist_mergeSort (fun a b c hab hbc => ?_) (fun a b => ?_) ?_ List.filter_sublist
    · rw [decide_eq_true_eq, String.not_lt] at hab hbc ⊢
      exact String.le_trans hab hbc
    · rw [Bool.or_eq_true, decide_eq_true_eq, decide_eq_true_eq, String.not_lt, String.not_lt]
      exact String.le_total a.1 b.1
    · refine List.pairwise_of_forall_mem_list fun a ha b hb => ?_
      obtain ⟨-, ha⟩ := List.mem_filter.1 ha
      obtain ⟨-, hb⟩ := List.mem_filter.1 hb
      rw [decide_eq_true_eq] at ha hb ⊢
      rw [ha, hb]
      exact String.lt_irrefl x
  have hfilter := hkept.filter fun p => decide (p.1 = x)
  simp only [List.filter_filter, Bool.and_self] at hfilter
  rw [get?_eq_head?, get?_eq_head?,
    hfilter.eq_of_length (hperm.filter fun p => decide (p.1 = x)).length_eq.symm]

end Store

namespace Machine

variable {m : Machine}

/-- The variable that is seen under a name: a local one if the innermost frame holds one, else a
global one. -/
def seen (m : Machine) (x : String) : Variable :=
  if (m.frame.locals.get? x).isSome then ⟨x, .local⟩ else ⟨x, .global⟩

theorem slot_seen (m : Machine) (x : String) : (m.seen x).slot = x := by
  unfold seen
  split <;> rfl

theorem read?_seen (m : Machine) (x : String) :
    m.read? (.var (m.seen x)) = (m.frame.locals.get? x).or (m.globals.get? x) := by
  unfold seen
  cases hx : m.frame.locals.get? x with
  | none => rfl
  | some v => exact hx

/-- A variable that holds something is seen under its slot, unless it is global and the innermost
frame holds a local variable there. -/
theorem seen_eq_iff {w : Variable} {x : String} (hw : (m.read? (.var w)).isSome) :
    m.seen x = w ↔ w.slot = x ∧ (w.storage = .global → (m.frame.locals.get? x).isNone) := by
  obtain ⟨slot, storage⟩ := w
  constructor
  · rintro h
    refine ⟨by rw [← slot_seen m x, h], fun hglobal => ?_⟩
    dsimp only at hglobal
    subst hglobal
    unfold seen at h
    split at h
    · cases h
    · rename_i hnone
      exact Option.not_isSome_iff_eq_none.1 hnone ▸ rfl
  · rintro ⟨rfl, hnone⟩
    unfold seen
    cases storage with
    | global => rw [if_neg (by simpa using hnone rfl)]
    | «local» => exact if_pos hw

end Machine

namespace Session

/-- A host finds what the machine holds in the variable that is seen under the name. -/
theorem valueOf?_inspect (image : Image) (s : Session) (x : String) :
    (s.inspect image).valueOf? x = s.machine.read? (.var (s.machine.seen x)) := by
  rw [Machine.read?_seen, Snapshot.valueOf?, inspect]
  dsimp only
  rw [List.getLast?_concat, Option.bind_some, Frame.snapshot, Store.get?_sorted,
    Store.get?_sorted]

end Session

/-! ### Local variables of frames -/

/-- A frame holds no other local variables than those of some slots. -/
def Frame.LocalsIn (W : String → Prop) (f : Frame) : Prop :=
  ∀ slot v, f.locals.get? slot = some v → W slot

/-- No frame holds other local variables than those of some slots. -/
def Machine.LocalsIn (W : String → Prop) (m : Machine) : Prop :=
  ∀ f ∈ m.main :: m.calls, f.LocalsIn W

namespace Machine.LocalsIn

variable {W : String → Prop} {image : Image} {m m' : Machine}

theorem start (line : Nat) (angle : AngleMode) : LocalsIn W (.start line angle) := by
  intro f hf
  obtain rfl := List.mem_singleton.1 hf
  exact nofun

theorem frame (h : m.LocalsIn W) : m.frame.LocalsIn W := by
  unfold Machine.frame
  cases hc : m.calls with
  | nil => exact h _ List.mem_cons_self
  | cons f fs => exact h f (by rw [hc]; exact List.mem_cons_of_mem _ List.mem_cons_self)

theorem modifyFrame (h : m.LocalsIn W) {g : Frame → Frame}
    (hg : (g m.frame).LocalsIn W) : (m.modifyFrame g).LocalsIn W := by
  obtain ⟨hmain, hcalls⟩ := List.forall_mem_cons.1 h
  unfold Machine.modifyFrame
  unfold Machine.frame at hg
  split
  · rename_i hc
    rw [hc] at hg
    exact List.forall_mem_cons.2 ⟨hg, hcalls⟩
  · rename_i f fs hc
    rw [hc] at hg hcalls
    exact List.forall_mem_cons.2
      ⟨hmain, List.forall_mem_cons.2 ⟨hg, (List.forall_mem_cons.1 hcalls).2⟩⟩

theorem noted (h : m.LocalsIn W) (line : Nat) : (m.noted line).LocalsIn W :=
  modifyFrame (m := { m with executed := m.executed + 1 }) h h.frame

theorem next (h : m.LocalsIn W) : m.next.LocalsIn W := h

theorem write (h : m.LocalsIn W) {d : Place} {v : Value}
    (hd : ∀ slot, d = .var ⟨slot, .local⟩ → W slot) : (m.write d v).LocalsIn W := by
  rcases d with t | ⟨slot, storage⟩
  · exact h.modifyFrame (g := fun f => { f with temps := f.temps.set t v }) h.frame
  · cases storage with
    | global => exact h
    | «local» =>
      exact h.modifyFrame (g := fun f => { f with locals := f.locals.set slot v })
        (Store.forall_get?_set h.frame (hd slot rfl))

/-- An operation that gives a local variable a value is said to write it, unless it stores an
element, and then the variable holds something already. -/
theorem of_effect (h : m.LocalsIn W) {op : Op} {slot : String} {v : Value}
    (he : m.effect op = some (.var ⟨slot, .local⟩, .ok v))
    (hop : ∀ slot, op.varWritten? = some ⟨slot, .local⟩ → W slot) : W slot := by
  cases op <;>
    simp only [Machine.effect, Option.some.injEq, Prod.mk.injEq, reduceCtorEq] at he
  case store base row col o =>
    obtain ⟨rfl, hv⟩ := he
    obtain ⟨i, -, hv⟩ := bind_eq_ok.1 hv
    obtain ⟨j, -, hv⟩ := bind_eq_ok.1 hv
    obtain ⟨w, -, hv⟩ := bind_eq_ok.1 hv
    obtain ⟨b, hb, -⟩ := bind_eq_ok.1 hv
    unfold Machine.read at hb
    split at hb
    · rename_i w hw
      exact h.frame slot w hw
    · cases hb
  all_goals
    obtain ⟨rfl, -⟩ := he
    exact hop slot rfl

theorem callFrame {f : FunctionInfo} (hf : ∀ v ∈ f.params, W v.slot) (args : List Value)
    (address : Nat) : (Machine.callFrame f args address).LocalsIn W :=
  Store.forall_get?_foldl_set (P := fun slot _ => W slot) (s := []) nofun
    fun p hp => hf p.1 (List.of_mem_zip hp).1

/-- An operation keeps to the slots if those that it writes are among them, and so are those of the
parameters of the functions. -/
theorem goes (h : m.LocalsIn W) {op : Op} (hgo : Goes image m op m')
    (hop : ∀ slot, op.varWritten? = some ⟨slot, .local⟩ → W slot)
    (hparams : ∀ name f, image.functions.get? name = some f → ∀ v ∈ f.params, W v.slot) :
    m'.LocalsIn W := by
  cases hgo with
  | write he =>
    refine (h.write fun slot hd => ?_).next
    subst hd
    exact h.of_effect he hop
  | user _ hf _ _ _ =>
    obtain ⟨hmain, hcalls⟩ := List.forall_mem_cons.1 h
    exact List.forall_mem_cons.2
      ⟨hmain, List.forall_mem_cons.2 ⟨callFrame (hparams _ _ hf) _ _, hcalls⟩⟩
  | leave _ hc _ =>
    obtain ⟨hmain, hcalls⟩ := List.forall_mem_cons.1 h
    rw [hc] at hcalls
    exact List.forall_mem_cons.2 ⟨hmain, (List.forall_mem_cons.1 hcalls).2⟩
  | _ => exact h

end Machine.LocalsIn

/-- Wherever a session goes, its frames hold no other local variables than those that the code
writes and the parameters of the functions. -/
theorem keeps_localsIn {c : Code} {settings : MachineSettings} {W : String → Prop}
    (hcode : ∀ i ∈ c.instrs, ∀ slot, i.op.varWritten? = some ⟨slot, .local⟩ → W slot)
    (hparams : ∀ f ∈ c.functions, ∀ v ∈ f.params, W v.slot) :
    (c.link settings).Keeps (Machine.LocalsIn W) where
  start := .start _ _
  running := by
    intro m m' hm hstep
    obtain ⟨i, hi, ⟨-, rfl⟩ | ⟨-, hgo⟩⟩ := Machine.step_eq_running hstep
    · exact hm.next
    · have hmem : i ∈ c.instrs := List.mem_of_getElem? (by simpa [Code.link] using hi)
      refine (hm.noted i.line).goes hgo (hcode i hmem) fun name f hf => ?_
      exact hparams f ((mem_functions hf).resolve_right (by simp))
  answered := by
    intro m m' dest ty line v hm hstep hv
    obtain ⟨i, hi, hop, rfl⟩ := Machine.step_eq_awaiting hstep
    have hmem : i ∈ c.instrs := List.mem_of_getElem? (by simpa [Code.link] using hi)
    refine ((hm.noted i.line).write fun slot hd => ?_).next
    subst hd
    exact hcode i hmem slot (by rw [hop]; rfl)

/-- What steps keep holds wherever commands lead. -/
theorem Session.Leads.holds {image : Image} {ok : Machine → Prop} {s : Session}
    (h : Leads image (start image) s) (hk : image.Keeps ok) : Holds ok s := by
  induction h with
  | refl => exact hk.start
  | tail _ hu ih => exact ih.perform hk hu

/-- Letting a session run to a breakpoint is to give it two commands. -/
theorem Session.leads_of_breakpoint {image : Image} {line fuel : Nat} {s : Session}
    (h : ((start image).addBreakpoint line).run image fuel none = some s) :
    Leads image (start image) s := by
  have hset : (start image).perform image fuel (.addBreakpoint line) =
      some ((start image).addBreakpoint line) := rfl
  have hrun : ((start image).addBreakpoint line).perform image fuel .resume = some s := h
  exact .tail (.tail .refl hset) hrun

/-! ### What names stand for -/

/-- Another variable of a program that has the name comes between the host and the one that the name
stands for.  It is a local one: either the name stands for a variable that does not live under it,
or the innermost frame holds the other one there. -/
def Obscured (N : List Name) (m : Machine) (x : String) (b : Binding) : Prop :=
  ∃ y ∈ N, y.text = x ∧ ∃ b', y.binding = some b' ∧ b'.storage = .local ∧
    b'.variable ≠ b.variable ∧ (b.slot ≠ x ∨ b'.slot = x ∧ (m.frame.locals.get? x).isSome)

section

open Analysis

variable {N : List Name} {m : Machine} {x : String} {b : Binding}

/-- What the innermost frame holds under a name is a variable of that name. -/
theorem exists_of_held (hN : ∀ x ∈ N, ∃ b, x.binding = some b ∧ StandsFor N x.text b)
    (hm : m.LocalsIn fun slot => Lowering.Named N ⟨slot, .local⟩) (hx : '#' ∉ x.toList)
    (hheld : (m.frame.locals.get? x).isSome) :
    ∃ y ∈ N, y.text = x ∧ ∃ b, y.binding = some b ∧ b.storage = .local ∧ b.slot = x := by
  obtain ⟨v, hv⟩ := Option.isSome_iff_exists.1 hheld
  obtain ⟨y, hy, b, hb, hvar⟩ := hm.frame x v hv
  obtain ⟨hslot, hstorage⟩ := Variable.mk.inj hvar
  refine ⟨y, hy, ?_, b, hb, hstorage, hslot⟩
  obtain ⟨b', hb', hstands⟩ := hN y hy
  obtain rfl : b = b' := Option.some.inj (hb.symm.trans hb')
  rcases hstands.slot with h | ⟨-, ⟨n, h⟩, -⟩
  · exact h.symm.trans hslot
  · exact absurd (hslot ▸ h ▸ mem_toList_numbered _ n) hx

/-- What a name stands for lives under the name where nothing obscures it. -/
theorem slot_eq_of_not_obscured (hb : StandsFor N x b) (h : ¬ Obscured N m x b) : b.slot = x := by
  rcases hb.slot with hslot | ⟨-, ⟨n, hslot⟩, y, hy, hname, b', hb', hlocal, hne⟩
  · exact hslot
  · refine absurd ⟨y, hy, hname, b', hb', hlocal, fun heq => ?_, .inl fun heq => ?_⟩ h
    · exact hne (congrArg Variable.slot heq)
    · exact hb.plain (heq ▸ hslot ▸ mem_toList_numbered _ n)

/-- A variable is the one that is seen under its name unless another one obscures it. -/
theorem seen_eq_iff_not_obscured (hN : ∀ x ∈ N, ∃ b, x.binding = some b ∧ StandsFor N x.text b)
    (hm : m.LocalsIn fun slot => Lowering.Named N ⟨slot, .local⟩) (hb : StandsFor N x b)
    (hv : (m.read? (.var b.variable)).isSome) :
    m.seen x = b.variable ↔ ¬ Obscured N m x b := by
  rw [Machine.seen_eq_iff hv]
  constructor
  · rintro ⟨hslot, hnone⟩ ⟨y, -, -, b', -, hlocal, hne, hslot' | ⟨hslot', hheld⟩⟩
    · exact hslot' hslot
    · -- The two variables live under the same name, so the one is global and the other local.
      have hglobal : b.storage = .global := by
        cases hst : b.storage with
        | global => rfl
        | «local» =>
          refine absurd ?_ hne
          rw [Binding.variable, Binding.variable, hslot', hlocal, hst, show b.slot = x from hslot]
      have hnone' := Option.isNone_iff_eq_none.1 (hnone hglobal)
      rw [hnone'] at hheld
      cases hheld
  · intro hclear
    have hslot := slot_eq_of_not_obscured hb hclear
    refine ⟨hslot, fun hglobal => ?_⟩
    rw [Option.isNone_iff_eq_none, ← Option.not_isSome_iff_eq_none]
    intro hheld
    obtain ⟨y, hy, hname, b', hb', hlocal, hslot'⟩ := exists_of_held hN hm hb.plain hheld
    refine hclear ⟨y, hy, hname, b', hb', hlocal, fun heq => ?_, .inr ⟨hslot', hheld⟩⟩
    have hstorage : b'.storage = b.storage := congrArg Variable.storage heq
    rw [hlocal, show b.storage = .global from hglobal] at hstorage
    cases hstorage

end

/-- A host that looks up a name in a paused session of raw code sees the variable that the name
stands for, if that holds a value, unless another variable of the program obscures it; then it sees
another variable of that name. -/
theorem compile_lookup {source : String} {settings : Settings} (machine : MachineSettings)
    (h : (compile source settings).succeeded = true) :
    ∃ p raw image, (compile source settings).analysis.map (·.program) = some p ∧
      (compile source settings).code = some raw ∧ Image.ofCode raw machine = .ok image ∧
      ∀ s reason, Session.Leads image (Session.start image) s → s.status = .paused reason →
        ∀ x ∈ p.names, ∃ b, x.binding = some b ∧
          ∀ v, s.machine.read? (.var b.variable) = some v →
            (¬ Obscured p.names s.machine x.text b →
              (s.inspect image).valueOf? x.text = some v) ∧
            (Obscured p.names s.machine x.text b → ∃ w, w.slot = x.text ∧ w ≠ b.variable ∧
              (s.inspect image).valueOf? x.text = s.machine.read? (.var w)) := by
  obtain ⟨p, raw, hp, hl, hprogram, hraw, -⟩ := exists_program_of_succeeded h
  have himage : Image.ofCode raw machine = .ok (raw.link machine) :=
    Code.ofCode_eq_ok_iff.2 ⟨hp.linked hl, rfl⟩
  refine ⟨p, raw, raw.link machine, hprogram, hraw, himage, fun s reason hs hpaused x hx => ?_⟩
  have hN := fun x (hx : x ∈ p.names) => hp.standsFor hx
  obtain ⟨hcode, hparams⟩ := hp.assigns hl
  have hm : s.machine.LocalsIn fun slot => Lowering.Named p.names ⟨slot, .local⟩ := by
    refine (Session.holds_of_canRun (by rw [hpaused]; rfl)).1 (hs.holds (keeps_localsIn ?_ hparams))
    exact fun i hi slot hslot => hcode i hi _ hslot
  obtain ⟨b, hb, hstands⟩ := hN x hx
  refine ⟨b, hb, fun v hv => ?_⟩
  have hseen := seen_eq_iff_not_obscured hN hm hstands (by rw [hv]; rfl)
  rw [Session.valueOf?_inspect]
  refine ⟨fun hclear => ?_, fun hobscured => ?_⟩
  · rw [hseen.2 hclear, hv]
  · exact ⟨s.machine.seen x.text, s.machine.slot_seen x.text, fun heq => hseen.1 heq hobscured, rfl⟩

/-- A program in which a block has a variable of the same name as a global one. -/
def shadowing : String := "int x = 1\nif true:\n    int x = 2\n    print x\nend\nprint x\n"

theorem succeeded_shadowing : (compile shadowing {}).succeeded = true := by decide +kernel

/-- In the block, its own variable is seen and not the global one. -/
theorem compile_lookup_block : (compile shadowing {}).succeeded = true ∧
    ∃ p raw image s, (compile shadowing {}).analysis.map (·.program) = some p ∧
      (compile shadowing {}).code = some raw ∧ Image.ofCode raw {} = .ok image ∧
      Session.Leads image (Session.start image) s ∧ s.status = .paused (.breakpoint 4) ∧
      ∃ x ∈ p.names, ∃ b v, x.binding = some b ∧ b.variable = ⟨"x", .local⟩ ∧
        s.machine.read? (.var b.variable) = some v ∧ v.text = "2" ∧
        ¬ Obscured p.names s.machine x.text b ∧ (s.inspect image).valueOf? x.text = some v := by
  have hlocal : ((compile shadowing {}).analysis.map (·.program)).any (fun p =>
      p.names.any fun x => x.binding = some ⟨"x", .int, .local⟩) = true := by decide +kernel
  have hothers : ((compile shadowing {}).analysis.map (·.program)).all (fun p =>
      p.names.all fun y => y.binding.all fun b =>
        b.storage = .global ∨ b.variable = ⟨"x", .local⟩) = true := by decide +kernel
  have hpaused : ((compile shadowing {}).code.bind fun c =>
      (((Session.start (c.link {})).addBreakpoint 4).run (c.link {}) 99 none).map fun s =>
        (s.status, (s.machine.read? (.var ⟨"x", .local⟩)).map (·.text))) =
      some (.paused (.breakpoint 4), some "2") := by decide +kernel
  obtain ⟨p, raw, image, hp, hraw, himage, hlookup⟩ := compile_lookup {} succeeded_shadowing
  obtain ⟨-, rfl⟩ := Code.ofCode_eq_ok_iff.1 himage
  rw [hp] at hlocal hothers
  rw [hraw] at hpaused
  obtain ⟨s, hs, heq⟩ := Option.map_eq_some_iff.1 hpaused
  obtain ⟨hstatus, hvalue⟩ := Prod.mk.inj heq
  obtain ⟨v, hv, htext⟩ := Option.map_eq_some_iff.1 hvalue
  have hleads := Session.leads_of_breakpoint hs
  obtain ⟨x, hx, hbinding⟩ := List.any_eq_true.1 hlocal
  obtain ⟨b, hb, hsees⟩ := hlookup s _ hleads hstatus x hx
  obtain rfl : b = ⟨"x", .int, .local⟩ :=
    Option.some.inj (hb.symm.trans (of_decide_eq_true hbinding))
  have hclear : ¬ Obscured p.names s.machine x.text ⟨"x", .int, .local⟩ := by
    rintro ⟨y, hy, -, b', hb', hlocal, hne, -⟩
    have hother := List.all_eq_true.1 hothers y hy
    rw [hb'] at hother
    rcases of_decide_eq_true hother with hglobal | heq
    · rw [hlocal] at hglobal
      cases hglobal
    · exact hne heq
  exact ⟨succeeded_shadowing, p, raw, raw.link {}, s, hp, hraw, himage, hleads, hstatus, x, hx, _,
    v, hb, rfl, hv, htext, hclear, (hsees v hv).1 hclear⟩

/-- After the block its variable is still in the frame, where a host finds it although the next
statement prints the global one. -/
theorem not_compile_lookup_ended : ¬ ∀ source settings p raw image,
    (compile source settings).succeeded = true →
    (compile source settings).analysis.map (·.program) = some p →
    (compile source settings).code = some raw → Image.ofCode raw settings.machine = .ok image →
    ∀ s loc values newline, Session.Leads image (Session.start image) s →
      s.status = .paused (.breakpoint loc.line) → Stmt.print loc values ∈ p →
      ∀ x ∈ Expr.allNames values, ∀ b, x.binding = some b →
        image.instrs[s.machine.pc]? = some ⟨.print (.place (.var b.variable)) newline, loc.line⟩ →
        ∀ v, s.machine.read? (.var b.variable) = some v →
          (s.inspect image).valueOf? x.text = some v := by
  intro h
  have hprint : ((compile shadowing {}).analysis.map (·.program)).map (fun p =>
      p.filterMap fun
        | .print loc values =>
          some (loc.line, (Expr.allNames values).map fun x => (x.text, x.binding))
        | _ => none) = some [(6, [("x", some ⟨"x", .int, .global⟩)])] := by decide +kernel
  have hpaused : ((compile shadowing {}).code.bind fun c =>
      (((Session.start (c.link {})).addBreakpoint 6).run (c.link {}) 99 none).map fun s =>
        (s.status, (c.link {}).instrs[s.machine.pc]?,
          (s.machine.read? (.var ⟨"x", .global⟩)).map (·.text),
          (s.machine.read? (.var ⟨"x", .local⟩)).map (·.text))) =
      some (.paused (.breakpoint 6), some ⟨.print (.place (.var ⟨"x", .global⟩)) true, 6⟩,
        some "1", some "2") := by decide +kernel
  obtain ⟨p, raw, hp, hl, hprogram, hraw, -⟩ := exists_program_of_succeeded succeeded_shadowing
  rw [hprogram] at hprint
  rw [hraw] at hpaused
  obtain ⟨s, hs, heq⟩ := Option.map_eq_some_iff.1 hpaused
  simp only [Prod.mk.injEq] at heq
  obtain ⟨hstatus, hinstr, hglobal, hlocal⟩ := heq
  obtain ⟨v, hv, hvtext⟩ := Option.map_eq_some_iff.1 hglobal
  obtain ⟨w, hw, hwtext⟩ := Option.map_eq_some_iff.1 hlocal
  have hmem := List.mem_of_mem_head? (congrArg List.head? (Option.some.inj hprint))
  obtain ⟨st, hst, hstprint⟩ := List.mem_filterMap.1 hmem
  cases st <;> simp only [reduceCtorEq, Option.some.injEq, Prod.mk.injEq] at hstprint
  rename_i loc values
  obtain ⟨hline, hvalues⟩ := hstprint
  obtain ⟨x, hx, hname⟩ := List.mem_map.1 (List.mem_of_mem_head? (congrArg List.head? hvalues))
  obtain ⟨hname, hbinding⟩ := Prod.mk.inj hname
  rw [← hline] at hstatus hinstr
  have hseen := h shadowing {} p raw (raw.link {}) succeeded_shadowing hprogram hraw
    (Code.ofCode_eq_ok_iff.2 ⟨hp.linked hl, rfl⟩) s loc values true
    (Session.leads_of_breakpoint hs) hstatus hst x hx _ hbinding hinstr v hv
  have hlocal : s.machine.seen "x" = ⟨"x", .local⟩ :=
    (Machine.seen_eq_iff (by rw [hw]; rfl)).2 ⟨rfl, nofun⟩
  rw [Session.valueOf?_inspect, hname, hlocal, hw] at hseen
  cases hseen
  exact absurd (hwtext.symm.trans hvtext) (by decide)

end NumericScript
