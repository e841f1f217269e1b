import NumericScript.Proofs.Rearrange

/-! # What a run knows of its values

An analysis that goes through code from front to back finds out something about the values of
operands at every position.  Nothing is known at labels, where control may come from elsewhere;
and over a call only what is known of temporaries stays known.

* `Sound.known_of_advance`: what is found out holds whenever a run comes to the position. -/

namespace NumericScript

/-- What is known of the values of operands. -/
abbrev Claims := Operand → Option (Value → Prop)

/-- What is known holds in a machine. -/
def Claims.Hold (c : Claims) (m : Machine) : Prop :=
  ∀ o P, c o = some P → ∃ v, m.eval o = .ok v ∧ P v

/-- What is known is about temporaries and holds in a frame. -/
def Claims.Survive (c : Claims) (f : Frame) : Prop :=
  ∀ o P, c o = some P → ∃ t v, o = .place (.temp t) ∧ f.temps.get? t = some v ∧ P v

/-- In every frame that waits for a call, what is known at its return address holds. -/
def Suspended (claims : Nat → Claims) : List Frame → Frame → Prop
  | [], _ => True
  | f :: fs, main => (claims f.returnAddress).Survive (fs.headD main) ∧ Suspended claims fs main

/-- What is known at the present position holds, and in the frames that wait as well. -/
def Known (claims : Nat → Claims) (m : Machine) : Prop :=
  (claims m.pc).Hold m ∧ Suspended claims m.calls m.main

/-- Whether an operation leaves an operand as it is. -/
def Op.Leaves : Op → Operand → Prop
  | .call _ _, o => ∃ t, o = .place (.temp t)
  | .store base _ _ _, o => o ≠ .place base
  | op, o => ∀ d, op.dest? = some d → o ≠ .place d

/-- What an operation makes of an operand, where something is known before. -/
inductive Op.Gives (c : Claims) (P : Value → Prop) : Op → Operand → Prop where
  | effect {op : Op} {d : Place}
      (h : ∀ m v, c.Hold m → m.effect op = some (d, .ok v) → P v) (hd : op.dest? = some d)
      (hin : ∀ ty, op ≠ .input d ty) :
      Gives c P op (.place d)
  | input {d : Place} {ty : Ty} (h : ∀ line v, Value.ofInput line ty = .ok v → P v) :
      Gives c P (.input d ty) (.place d)
  | builtin {f : Builtin} {argc : Nat}
      (h : ∀ args mode v mode', f.call args mode = .ok (v, mode') → P v) :
      Gives c P (.call (.builtin f) argc) .returned

/-- What is found out follows from what operations do. -/
structure Sound (code : List Instr) (claims : Nat → Claims) : Prop where
  label : ∀ k i, code[k]? = some i → i.op.label?.isSome →
    ∀ o, claims k o = none ∧ claims (k + 1) o = none
  flow : ∀ k i o P, code[k]? = some i → i.op.label? = none → i.op.endsBlock = false →
    claims (k + 1) o = some P →
      claims k o = some P ∧ i.op.Leaves o ∨ i.op.Gives (claims k) P o

/-- Nothing is known at the start. -/
theorem known_start {claims : Nat → Claims} (h : ∀ o, claims 0 o = none) (line : Nat)
    (angle : AngleMode) : Known claims (.start line angle) :=
  ⟨fun o P ho => absurd ho (by rw [show (Machine.start line angle).pc = 0 from rfl, h o]; simp),
    trivial⟩

section

variable {claims : Nat → Claims} {m : Machine}

theorem Claims.Hold.of_eval {c : Claims} {m m' : Machine} (h : c.Hold m)
    (he : ∀ o, m'.eval o = m.eval o) : c.Hold m' :=
  fun o P ho => by rw [he]; exact h o P ho

theorem Claims.hold_of_none {c : Claims} (h : ∀ o, c o = none) (m : Machine) : c.Hold m :=
  fun o P ho => absurd ho (by simp [h o])

theorem suspended_modifyFrame (h : Suspended claims m.calls m.main) {f : Frame → Frame}
    (hf : ∀ x, (f x).returnAddress = x.returnAddress) :
    Suspended claims (m.modifyFrame f).calls (m.modifyFrame f).main := by
  unfold Machine.modifyFrame
  cases hc : m.calls with
  | nil => exact trivial
  | cons x xs =>
    rw [hc] at h
    exact ⟨by rw [hf]; exact h.1, h.2⟩

theorem suspended_write (h : Suspended claims m.calls m.main) (p : Place) (v : Value) :
    Suspended claims (m.write p v).calls (m.write p v).main := by
  rcases p with t | ⟨slot, storage⟩
  · exact suspended_modifyFrame h fun x => rfl
  · cases storage with
    | global => exact h
    | «local» => exact suspended_modifyFrame h fun x => rfl

theorem Known.noted (h : Known claims m) (line : Nat) : Known claims (m.noted line) := by
  refine ⟨?_, suspended_modifyFrame (m := { m with executed := m.executed + 1 }) h.2
    fun x => rfl⟩
  rw [Machine.pc_noted]
  exact h.1.of_eval fun o => Machine.eval_noted m line o

theorem eval_write_of_ne {m : Machine} {p : Place} {o : Operand} (h : o ≠ .place p)
    (v : Value) : (m.write p v).eval o = m.eval o := by
  cases o with
  | place q =>
    have hne : p ≠ q := fun e => h (congrArg Operand.place e.symm)
    rw [Machine.eval, Machine.eval, Machine.read, Machine.read, Machine.read?_write,
      if_neg hne]
  | const c => rfl
  | returned =>
    have hr : (m.write p v).returned = m.returned := by
      rcases p with t | ⟨slot, storage⟩
      · simp [Machine.write]
      · cases storage <;> simp [Machine.write]
    rw [Machine.eval, Machine.eval, hr]

theorem eval_write_self (m : Machine) (p : Place) (v : Value) :
    (m.write p v).eval (.place p) = .ok v := by
  rw [Machine.eval, Machine.read, Machine.read?_write, if_pos rfl]

/-- An operation that gives a place a value leaves all other operands as they are. -/
theorem Op.Leaves.ne_of_effect {m : Machine} {op : Op} {d : Place} {x : Except Fault Value}
    {o : Operand} (h : op.Leaves o) (he : m.effect op = some (d, x)) : o ≠ .place d := by
  cases op <;> cases he
  case store => exact h
  all_goals exact h _ rfl

theorem dest?_of_effect {m : Machine} {op : Op} {d d' : Place} {x : Except Fault Value}
    (he : m.effect op = some (d, x)) (hd : op.dest? = some d') : d' = d := by
  cases op <;> cases he <;> cases hd <;> rfl

end

namespace Sound

variable {functions : List FunctionInfo} {code : List Instr} {settings : MachineSettings}
  {claims : Nat → Claims}

/-- Nothing is known where a label stands. -/
theorem eq_none_of_position (h : Sound code claims) {l : Label} {k : Nat}
    (hd : (labelsIn code).Nodup)
    (hk : (Code.link ⟨code, functions⟩ settings).position l = .ok k) (o : Operand) :
    claims k o = none := by
  obtain ⟨i, hi, hl⟩ := (position_link hd).1 hk
  exact (h.label k i hi (by rw [hl]; rfl) o).1

/-- After an operation that gives a place a value, what is found out holds. -/
theorem hold_write (h : Sound code claims) {m : Machine} {i : Instr} {d : Place} {v : Value}
    (hm : (claims m.pc).Hold m) (hi : code[m.pc]? = some i)
    (he : m.effect i.op = some (d, .ok v)) : (claims (m.pc + 1)).Hold (m.write d v) := by
  have hl : i.op.label? = none := by
    cases hop : i.op <;> rw [hop] at he <;> first | rfl | cases he
  have hb : i.op.endsBlock = false := by
    cases hop : i.op <;> rw [hop] at he <;> first | rfl | cases he
  intro o P ho
  rcases h.flow m.pc i o P hi hl hb ho with ⟨hk, hleaves⟩ | hgives
  · rw [eval_write_of_ne (hleaves.ne_of_effect he)]
    exact hm o P hk
  · generalize hop : i.op = op at hgives he
    cases hgives with
    | @effect _ d' hP hd =>
      obtain rfl := dest?_of_effect he hd
      exact ⟨v, eval_write_self m d' v, hP m v hm he⟩
    | input => cases he
    | builtin => cases he

/-- After an operation that writes no place and only goes on, what is found out holds. -/
theorem hold_next (h : Sound code claims) {m m' : Machine} {i : Instr}
    (hm : (claims m.pc).Hold m) (hi : code[m.pc]? = some i) (hl : i.op.label? = none)
    (hb : i.op.endsBlock = false) (hd : i.op.dest? = none)
    (hc : ∀ f argc, i.op ≠ .call f argc) (he : ∀ o, m'.eval o = m.eval o) :
    (claims (m.pc + 1)).Hold m' := by
  intro o P ho
  rcases h.flow m.pc i o P hi hl hb ho with ⟨hk, -⟩ | hgives
  · rw [he]
    exact hm o P hk
  · generalize hop : i.op = op at hgives hd hc
    cases hgives with
    | effect _ hd' => rw [hd] at hd'; cases hd'
    | input => cases hd
    | builtin => exact absurd rfl (hc _ _)

/-- What an operation leads to is known, if what is known before holds. -/
theorem known_of_goes (h : Sound code claims) (hd : (labelsIn code).Nodup) {m m' : Machine}
    {i : Instr} (hm : Known claims m) (hi : code[m.pc]? = some i)
    (hgo : Machine.Goes (Code.link ⟨code, functions⟩ settings) m i.op m') :
    Known claims m' := by
  have hrec := @hold_next code claims h m
  generalize hop : i.op = op at hgo
  cases hgo with
  | @write op d v he =>
    refine ⟨?_, suspended_write hm.2 d v⟩
    have hpc : (m.write d v).next.pc = m.pc + 1 :=
      congrArg (· + 1) (Machine.pc_write m d v)
    rw [hpc]
    exact (h.hold_write hm.1 hi (by rw [hop]; exact he)).of_eval fun o => rfl
  | label =>
    refine ⟨Claims.hold_of_none (fun o => ?_) _, hm.2⟩
    exact (h.label m.pc i hi (by rw [hop]; rfl) o).2
  | jump hk => exact ⟨Claims.hold_of_none (h.eq_none_of_position hd hk) _, hm.2⟩
  | pass =>
    exact ⟨hrec hm.1 hi (by rw [hop]; rfl) (by rw [hop]; rfl) (by rw [hop]; rfl)
      (by rw [hop]; exact nofun) fun o => rfl, hm.2⟩
  | branch _ hk => exact ⟨Claims.hold_of_none (h.eq_none_of_position hd hk) _, hm.2⟩
  | param =>
    exact ⟨hrec hm.1 hi (by rw [hop]; rfl) (by rw [hop]; rfl) (by rw [hop]; rfl)
      (by rw [hop]; exact nofun) fun o => rfl, hm.2⟩
  | print =>
    exact ⟨hrec hm.1 hi (by rw [hop]; rfl) (by rw [hop]; rfl) (by rw [hop]; rfl)
      (by rw [hop]; exact nofun) fun o => rfl, hm.2⟩
  | @builtin f argc v angle hlen hv =>
    refine ⟨fun o P ho => ?_, hm.2⟩
    rcases h.flow m.pc i o P hi (by rw [hop]; rfl) (by rw [hop]; rfl) ho with
      ⟨hk, hleaves⟩ | hgives
    · rw [hop] at hleaves
      obtain ⟨t, rfl⟩ := hleaves
      exact hm.1 _ P hk
    · rw [hop] at hgives
      cases hgives with
      | effect _ hd' => cases hd'
      | builtin hP => exact ⟨v, rfl, hP _ _ _ _ hv⟩
  | @user name argc k f hlen hf harity hdepth hk =>
    refine ⟨Claims.hold_of_none (h.eq_none_of_position hd hk) _, fun o P ho => ?_, hm.2⟩
    rcases h.flow m.pc i o P hi (by rw [hop]; rfl) (by rw [hop]; rfl) ho with
      ⟨hk, hleaves⟩ | hgives
    · rw [hop] at hleaves
      obtain ⟨t, rfl⟩ := hleaves
      obtain ⟨v, hv, hP⟩ := hm.1 _ P hk
      refine ⟨t, v, rfl, ?_, hP⟩
      simp only [Machine.eval, Machine.read, Machine.read?, Machine.frame] at hv
      split at hv
      · rename_i w hw
        cases hv
        exact hw
      · cases hv
    · rw [hop] at hgives
      cases hgives with
      | effect _ hd' => cases hd'
  | @leave o v f fs ho hc hr =>
    have hs := hm.2
    rw [hc] at hs
    refine ⟨fun o P ho => ?_, hs.2⟩
    obtain ⟨t, v, rfl, ht, hP⟩ := hs.1 o P ho
    refine ⟨v, ?_, hP⟩
    simp only [Machine.eval, Machine.read, Machine.read?, Machine.frame]
    rw [ht]

/-- What a line of input leads to is known, if what is known before holds. -/
theorem known_of_input (h : Sound code claims) {m : Machine} {i : Instr} {d : Place} {ty : Ty}
    {line : String} {v : Value} (hm : Known claims m) (hi : code[m.pc]? = some i)
    (hop : i.op = .input d ty) (hv : Value.ofInput line ty = .ok v) :
    Known claims (m.write d v).next := by
  refine ⟨fun o P ho => ?_, suspended_write hm.2 d v⟩
  have hpc : ((m.write d v).next).pc = m.pc + 1 := by
    rw [Machine.next, Machine.pc_write]
  rw [hpc] at ho
  have hev : ∀ o, (m.write d v).next.eval o = (m.write d v).eval o := fun o => rfl
  rcases h.flow _ i o P hi (by rw [hop]; rfl) (by rw [hop]; rfl) ho with
    ⟨hk, hleaves⟩ | hgives
  · rw [hop] at hleaves
    rw [hev, eval_write_of_ne (hleaves d rfl)]
    exact hm.1 o P hk
  · rw [hop] at hgives
    cases hgives with
    | effect _ hd' hin =>
      cases hd'
      exact absurd rfl (hin ty)
    | input hP => exact ⟨v, eval_write_self _ d v, hP line v hv⟩

/-- What passing a label leads to is known. -/
theorem known_of_label (h : Sound code claims) {m : Machine} {i : Instr} (hm : Known claims m)
    (hi : code[m.pc]? = some i) (hl : i.op.label?.isSome) : Known claims m.next :=
  ⟨Claims.hold_of_none (fun o => (h.label _ i hi hl o).2) _, hm.2⟩

/-- What is found out holds whenever a run comes to the position. -/
theorem known_of_advance (h : Sound code claims) (hd : (labelsIn code).Nodup)
    {p q : Point} (hp : Known claims p.machine)
    (hadv : (Code.link ⟨code, functions⟩ settings).advance p = .next q) :
    Known claims q.machine := by
  obtain ⟨i, hi, ⟨hl, rfl⟩ | ⟨m, hgo, rfl⟩ | ⟨d, ty, line, rest, v, hop, -, hv, rfl⟩⟩ :=
    Image.advance_eq_next hadv
  all_goals replace hi : code[p.machine.pc]? = some i := by simpa [Code.link] using hi
  · exact h.known_of_label hp hi hl
  · exact h.known_of_goes hd (hp.noted i.line) (by rw [Machine.pc_noted]; exact hi) hgo
  · exact h.known_of_input (hp.noted i.line) (by rw [Machine.pc_noted]; exact hi) hop hv

end Sound

end NumericScript
