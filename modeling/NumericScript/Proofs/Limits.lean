import NumericScript.Proofs.Link
import NumericScript.Proofs.Session

/-! # Limits only cut runs short

The limits on the number of instructions and on the depth of calls are looked at in two places,
before an instruction acts and before a call is entered.  So two machines with different limits
take the same steps until one of them comes to a limit.

* `Machine.step_link`: a step within narrower limits is one within wider limits, or a fault of
  the limits.
* `Code.run_of_within`: so is a whole run. -/

namespace NumericScript

/-- One choice of limits leaves room for the other, with angles in the same unit. -/
structure MachineSettings.Within (s t : MachineSettings) : Prop where
  angleMode : s.angleMode = t.angleMode
  maxCallDepth : s.maxCallDepth ≤ t.maxCallDepth
  maxSteps : ∀ n, t.maxSteps = some n → ∃ k, s.maxSteps = some k ∧ k ≤ n

/-- A fault that tells of a limit. -/
inductive Fault.OfLimit : Fault → Prop where
  | depth (limit : Nat) : OfLimit (.stackDepthExceeded limit)
  | steps (limit : Nat) : OfLimit (.stepLimitExceeded limit)

/-- A run has come to its end because of a limit. -/
def RunOutcome.OfLimit (o : RunOutcome) : Prop :=
  ∃ d ∈ o.diagnostics, ∃ f : Fault, f.OfLimit ∧ d.message = f.message

variable {c : Code} {s t : MachineSettings}

/-! ### Steps -/

theorem settings_link (s : MachineSettings) : (c.link s).settings = s := rfl

theorem instrs_link (s t : MachineSettings) : (c.link s).instrs = (c.link t).instrs := rfl

theorem functions_link (s t : MachineSettings) : (c.link s).functions = (c.link t).functions := rfl

theorem position_link_eq (s t : MachineSettings) (l : Label) :
    (c.link s).position l = (c.link t).position l := rfl

namespace Machine

/-- A function is entered alike, unless there is no room for its call. -/
theorem callUser_link (hw : s.Within t) (m : Machine) (name : String) (args : List Value) :
    callUser (c.link s) m name args = callUser (c.link t) m name args ∨
      ∃ f : Fault, f.OfLimit ∧ callUser (c.link s) m name args = .error f := by
  unfold callUser
  rw [functions_link s t]
  simp only [position_link_eq s t]
  cases (c.link t).functions.get? name with
  | none => exact .inl rfl
  | some f =>
    dsimp only
    by_cases harity : f.params.length ≠ args.length
    · rw [if_pos harity, if_pos harity]
      exact .inl rfl
    rw [if_neg harity, if_neg harity]
    by_cases hdepth : (c.link s).settings.maxCallDepth ≤ m.calls.length
    · exact .inr ⟨_, .depth s.maxCallDepth, by rw [if_pos hdepth]; rfl⟩
    · have hroom : ¬ (c.link t).settings.maxCallDepth ≤ m.calls.length :=
        fun h => hdepth (Nat.le_trans hw.maxCallDepth h)
      rw [if_neg hdepth, if_neg hroom]
      exact .inl rfl

theorem execute_link (hw : s.Within t) (m : Machine) (op : Op) :
    execute (c.link s) m op = execute (c.link t) m op ∨
      ∃ f : Fault, f.OfLimit ∧ execute (c.link s) m op = .error f := by
  cases op with
  | call callee argc =>
    simp only [execute, call]
    split
    · exact .inl rfl
    · cases callee with
      | builtin f => exact .inl rfl
      | user name => exact callUser_link hw _ name _
  | «return» o => cases o <;> exact .inl rfl
  | _ => exact .inl rfl

/-- Where the narrower limit on instructions is not exceeded, the wider one is not. -/
theorem overLimit_eq_none (hw : s.Within t) {m : Machine} (h : overLimit s m = none) :
    overLimit t m = none := by
  unfold overLimit at h ⊢
  cases ht : t.maxSteps with
  | none => rfl
  | some n =>
    obtain ⟨k, hk, hkn⟩ := hw.maxSteps n ht
    simp only [hk, ite_eq_right_iff, reduceCtorEq, imp_false] at h
    exact if_neg (by omega)

/-- A step within narrower limits is the step within wider limits, or faults at a limit. -/
theorem step_link (hw : s.Within t) (m : Machine) :
    m.step (c.link s) = m.step (c.link t) ∨
      ∃ m' f, f.OfLimit ∧ m.step (c.link s) = .faulted m' f := by
  unfold step
  rw [instrs_link s t]
  cases (c.link t).instrs[m.pc]? with
  | none => exact .inl rfl
  | some i =>
    dsimp only
    split
    · exact .inl rfl
    unfold perform
    dsimp only
    rw [settings_link, settings_link]
    cases ho : overLimit s { m with executed := m.executed + 1 } with
    | some limit => exact .inr ⟨_, _, .steps limit, rfl⟩
    | none =>
      rw [overLimit_eq_none hw ho]
      dsimp only
      rw [← noted]
      obtain he | ⟨f, hf, he⟩ := @execute_link c s t hw (m.noted i.line) i.op
      · rw [he]
        exact .inl rfl
      · rw [he]
        exact .inr ⟨_, f, hf, rfl⟩

end Machine

/-! ### Runs -/

namespace Image

/-- A step of a run is the same within wider limits, unless the run is over because of a
limit. -/
theorem advance_link (hw : s.Within t) (p : Point) :
    (c.link s).advance p = (c.link t).advance p ∨
      ∃ o, o.OfLimit ∧ (c.link s).advance p = .done o := by
  obtain hstep | ⟨m, f, hf, hstep⟩ := @Machine.step_link c s t hw p.machine
  · left
    unfold advance
    rw [hstep]
    rfl
  · refine .inr ⟨(c.link s).faultOutcome m f p.unread, ?_, by simp only [advance, hstep]⟩
    have hne : f ≠ .overflow := by
      rintro rfl
      cases hf
    rw [faultOutcome, if_neg hne]
    exact ⟨_, List.mem_singleton_self _, f, hf, rfl⟩

/-- A run that comes to an end within narrower limits has come to where it takes its last step
within wider limits too, and the step is the same unless the run is over because of a limit. -/
theorem Halts.link (hw : s.Within t) {p : Point} {o : RunOutcome} (h : (c.link s).Halts p o) :
    ∃ q, (c.link t).Reaches p q ∧ q.machine.output = o.output ∧
      ((c.link t).advance q = .done o ∨ o.OfLimit) := by
  induction h with
  | @done p o h =>
    refine ⟨p, .refl, (output_of_done h).symm, ?_⟩
    obtain heq | ⟨o', ho', h'⟩ := @advance_link c s t hw p
    · exact .inl (heq ▸ h)
    · rw [h] at h'
      cases h'
      exact .inr ho'
  | @next p q o h _ ih =>
    obtain heq | ⟨o', -, h'⟩ := @advance_link c s t hw p
    · obtain ⟨r, hr, hout, hdone⟩ := ih
      exact ⟨r, hr.head (heq ▸ h), hout, hdone⟩
    · rw [h] at h'
      cases h'

end Image

/-- Limits only cut runs short.  Code that can be made ready with narrower limits can be made
ready with wider ones.  If it comes to an end within the narrower limits and not because of them,
it comes to the same end, with the same input unread, within the wider limits.  And in any case
what it has printed then is the beginning of what it prints within the wider limits, at some time
and in the end if there is one. -/
theorem Code.run_of_within (hw : s.Within t) {image : Image} (hi : Image.ofCode c s = .ok image) :
    ∃ image', Image.ofCode c t = .ok image' ∧ ∀ lines fuel o, image.run fuel lines = some o →
      (¬ o.OfLimit → ∃ fuel', image'.run fuel' lines = some o) ∧
      (∃ q more, image'.Reaches (image'.startPoint lines) q ∧
        q.machine.output = o.output ++ more) ∧
      ∀ fuel' o', image'.run fuel' lines = some o' → ∃ more, o'.output = o.output ++ more := by
  obtain ⟨hl, rfl⟩ := Code.ofCode_eq_ok_iff.1 hi
  refine ⟨c.link t, Code.ofCode_eq_ok_iff.2 ⟨hl, rfl⟩, fun lines fuel o ho => ?_⟩
  have hstart : (c.link s).startPoint lines = (c.link t).startPoint lines := by
    unfold Image.startPoint Image.start
    rw [settings_link, settings_link, hw.angleMode]
    rfl
  have hhalts := Image.exists_run_iff.1 ⟨fuel, ho⟩
  rw [hstart] at hhalts
  obtain ⟨q, hq, hout, hend⟩ := hhalts.link hw
  refine ⟨fun hlimit => ?_, ⟨q, "", hq, by simp [hout]⟩, fun fuel' o' ho' => ?_⟩
  · have hdone := hend.resolve_right hlimit
    exact Image.exists_run_iff.2 (.of_reaches hq (.done hdone))
  · rw [← hout]
    exact ((Image.exists_run_iff.1 ⟨fuel', ho'⟩).of_halts hq).output

/-- Code that prints two texts. -/
def twoTexts : Code where
  instrs := [⟨.print (.const (.str "a")) true, 1⟩, ⟨.print (.const (.str "b")) true, 2⟩,
    ⟨.halt, 2⟩]
  functions := []

/-- It may execute one instruction, and prints the first text.  Where it may execute ten, it has
printed that at some time too. -/
theorem Code.run_of_within_twoTexts :
    let narrow : MachineSettings := { maxSteps := some 1 }
    let wide : MachineSettings := { maxSteps := some 10 }
    narrow.Within wide ∧ ∃ image o image', Image.ofCode twoTexts narrow = .ok image ∧
      image.run 9 [] = some o ∧ o.OfLimit ∧ o.output = "a\n" ∧
      Image.ofCode twoTexts wide = .ok image' ∧
      ∃ q more, image'.Reaches (image'.startPoint []) q ∧ q.machine.output = "a\n" ++ more := by
  intro narrow wide
  have hw : narrow.Within wide := ⟨rfl, Nat.le_refl _, fun n hn => ⟨1, rfl, by cases hn; decide⟩⟩
  obtain ⟨image, hi⟩ : ∃ image, Image.ofCode twoTexts narrow = .ok image := ⟨_, rfl⟩
  obtain ⟨o, ho, hlimit, hout⟩ : ∃ o, image.run 9 [] = some o ∧ o.OfLimit ∧ o.output = "a\n" := by
    cases hi
    exact ⟨_, rfl, ⟨_, List.mem_singleton_self _, _, .steps 1, rfl⟩, rfl⟩
  obtain ⟨image', hi', hruns⟩ := Code.run_of_within hw hi
  refine ⟨hw, image, o, image', hi, ho, hlimit, hout, hi', ?_⟩
  rw [← hout]
  exact (hruns [] 9 o ho).2.1

end NumericScript
