import NumericScript.Proofs.Fault
import NumericScript.Proofs.Typing.Run

/-! # Values along typed code

Every temporary and every local variable of which something is known holds a value, whatever it is.
Unlike their types, this does not depend on the values that are moved about.  Of a global variable
it may be known which type its values have while it has none yet.

* `Sees`: the places of which something is known.
* `Present`: of what is known there is a value in the frames.
* `Standing.of_reaches`: that it is so all along a run. -/

namespace NumericScript

namespace Typing

/-- Something is known of a place. -/
inductive Sees (I : Interface) (S : Assertion) : Place → Prop where
  | temp {u : Nat} {c : Content} (h : S.temps u = some c) : Sees I S (.temp u)
  | local {slot : String} {t : Ty} (h : S.locals slot = some t) : Sees I S (.var ⟨slot, .local⟩)
  | global {slot : String} {t : Ty} (h : I.globals slot = some t) :
      Sees I S (.var ⟨slot, .global⟩)

section

variable {shapes : Bool} {I : Interface} {S S' T : Assertion} {op : Op} {n : Note} {p : Place}

theorem OperandHas.sees {o : Operand} {t : Ty} (h : OperandHas I S o t) (ho : .place p = o) :
    Sees I S p := by
  cases h with
  | temp h => cases ho; exact .temp h
  | «local» h => cases ho; exact .local h
  | global h => cases ho; exact .global h
  | const | returned => cases ho

theorem IndexHas.sees {row : Operand} {col : Option Operand} {ts : List Ty}
    (h : IndexHas I S row col ts) (hp : .place p = row ∨ .place p ∈ col) : Sees I S p := by
  cases h with
  | element hr => exact hr.sees (hp.resolve_right nofun)
  | entry hr _ hc =>
    rcases hp with hp | hp
    · exact hr.sees hp
    · exact hc.sees (Option.some.inj hp).symm

/-- Something is known of every place that an operation looks up. -/
theorem OpTyped.sees (h : OpTyped shapes I S op n S') (hp : .place p ∈ op.lookups) :
    Sees I S p := by
  cases h with
  | copy ho => exact ho.sees (List.mem_singleton.1 hp)
  | binary hl hr =>
    rcases List.mem_pair.1 hp with hp | hp
    · exact hl.sees hp
    · exact hr.sees hp
  | unary ho => exact ho.sees (List.mem_singleton.1 hp)
  | widen ho => exact ho.sees (List.mem_singleton.1 hp)
  | jumpIfFalse ho => exact ho.sees (List.mem_singleton.1 hp)
  | param ho => exact ho.sees (List.mem_singleton.1 hp)
  | «return» ho => exact ho.sees (List.mem_singleton.1 hp)
  | print ho => exact ho.sees (List.mem_singleton.1 hp)
  | load hb hi =>
    simp only [Op.lookups, Op.operands, List.mem_cons, Option.mem_toList] at hp
    rcases hp with hp | hp
    · exact hb.sees hp
    · exact hi.sees hp
  | storeElement hb hi _ _ ho =>
    simp only [Op.lookups, List.mem_cons, List.mem_append, Option.mem_toList, List.not_mem_nil,
      or_false] at hp
    rcases hp with hp | hp | hp | hp
    · exact hb.sees hp
    · exact hi.sees (.inl hp)
    · exact hi.sees (.inr hp)
    · exact ho.sees hp
  | storeEntry hb hi ho =>
    simp only [Op.lookups, List.mem_cons, List.mem_append, Option.mem_toList, List.not_mem_nil,
      or_false] at hp
    rcases hp with hp | hp | hp | hp
    · exact hb.sees hp
    · exact hi.sees (.inl hp)
    · exact hi.sees (.inr hp)
    · exact ho.sees hp
  | fill hu ho =>
    simp only [Op.lookups, List.mem_cons, Option.toList_none, List.nil_append, List.not_mem_nil,
      or_false] at hp
    rcases hp with hp | hp | hp
    · cases hp
      exact .temp hu
    · cases hp
    · exact ho.sees hp
  | entry hu ho =>
    simp only [Op.lookups, List.mem_cons, List.mem_append, Option.toList_some, List.not_mem_nil,
      or_false] at hp
    rcases hp with hp | hp | hp | hp
    · cases hp
      exact .temp hu
    · cases hp
    · cases hp
    · exact ho.sees hp
  | _ => cases hp

/-- In noted code something is known of every place that is looked up. -/
theorem Flows.sees {code : List Instr} {notes : List Note} (h : Flows shapes I S code notes T)
    {i : Instr} (hi : i ∈ code) (hp : .place p ∈ i.op.lookups) : ∃ U, Sees I U p := by
  induction h with
  | nil => cases hi
  | @cons S S₁ S₂ T j n is ns hS h hr ih =>
    rcases List.mem_cons.1 hi with rfl | hi
    · exact ⟨S₁, h.sees hp⟩
    · exact ih hi

end

/-! ### Frames -/

/-- What is known of in a frame is there. -/
structure FramePresent (S : Assertion) (f : Frame) : Prop where
  locals : ∀ slot t, S.locals slot = some t → (f.locals.get? slot).isSome
  temps : ∀ u c, S.temps u = some c → (f.temps.get? u).isSome

section

variable (shapes : Bool) (I : Interface) (code : List Instr) (notes : List Note)

/-- Where the calls that have not returned go back to, what is known of is there. -/
inductive Waiting : List Frame → Frame → Prop where
  | top {main : Frame} : Waiting [] main
  | call {f main : Frame} {fs : List Frame} {S : Assertion}
      (hat : At shapes I code notes f.returnAddress S)
      (hframe : FramePresent S (fs.headD main)) (h : Waiting fs main) : Waiting (f :: fs) main

/-- What is known of is there in a machine. -/
structure Present (m : Machine) (S : Assertion) : Prop where
  frame : FramePresent S m.frame
  calls : Waiting shapes I code notes m.calls m.main

/-- What is known of at its position is there in the machine. -/
def Standing (p : Point) : Prop :=
  ∃ S, At shapes I code notes p.machine.pc S ∧ Present shapes I code notes p.machine S

end

section

variable {shapes : Bool} {I : Interface} {code : List Instr} {notes : List Note}
  {S S' T : Assertion} {m m' : Machine} {image : Image} {op : Op} {n : Note}

theorem FramePresent.of_entails {f : Frame} (h : FramePresent S f) (hS : S.Entails shapes T) :
    FramePresent T f where
  locals := fun slot t ht => h.locals slot t (hS.locals slot t ht)
  temps := by
    intro u d hd
    obtain ⟨c, hc, -⟩ := hS.temps u d hd
    exact h.temps u c hc

/-- A value does not get lost when another one is stored. -/
theorem isSome_get?_set {α β : Type} [DecidableEq α] {s : Store α β} {k k' : α} {v : β}
    (h : (s.get? k).isSome) : ((s.set k' v).get? k).isSome := by
  rw [Store.get?_set]
  split
  · rfl
  · exact h

/-- There are values of every type. -/
theorem exists_has (shapes : Bool) (t : Ty) : ∃ v, t.Has shapes v := by
  cases t with
  | int => exact ⟨_, 0, rfl⟩
  | float => exact ⟨_, .ofInt64 0, rfl⟩
  | str => exact ⟨_, "", rfl⟩
  | bool => exact ⟨_, false, rfl⟩
  | array element => exact ⟨_, [], rfl, fun w hw => by cases hw⟩
  | matrix shape =>
    cases shape with
    | none => exact ⟨_, .zeros 0 0, rfl, fun _ s hs => by cases hs⟩
    | some s => exact ⟨_, .zeros s.1 s.2, rfl, fun _ s' hs => by cases hs; rfl⟩
  | void => exact ⟨.void, rfl⟩
  | unknown => exact ⟨.void, trivial⟩

theorem exists_forall₂_has (shapes : Bool) (ts : List Ty) :
    ∃ vs, List.Forall₂ (Ty.Has shapes) ts vs := by
  induction ts with
  | nil => exact ⟨[], .nil⟩
  | cons t ts ih =>
    obtain ⟨v, hv⟩ := exists_has shapes t
    obtain ⟨vs, hvs⟩ := ih
    exact ⟨v :: vs, .cons hv hvs⟩

/-- Which variables of parameters have values does not depend on the arguments. -/
theorem isSome_get?_params {slot : String} {vars : List Variable} :
    ∀ {args args' : List Value} {s s' : Store String Value}, args.length = args'.length →
    ((s.get? slot).isSome → (s'.get? slot).isSome) →
    (((vars.zip args).foldl (fun s p => s.set p.1.slot p.2) s).get? slot).isSome →
    (((vars.zip args').foldl (fun s p => s.set p.1.slot p.2) s').get? slot).isSome := by
  induction vars with
  | nil => exact fun _ hs h => hs h
  | cons x vars ih =>
    intro args args' s s' hlen hs h
    cases args with
    | nil =>
      obtain rfl := List.length_eq_zero_iff.1 hlen.symm
      exact hs h
    | cons v args =>
      obtain ⟨v', args', rfl⟩ := List.exists_cons_of_length_eq_add_one hlen.symm
      refine ih (Nat.succ.inj hlen) (fun hset => ?_) h
      dsimp only at hset ⊢
      rw [Store.get?_set] at hset ⊢
      split
      · rfl
      · rw [if_neg (by assumption)] at hset
        exact hs hset

/-- A frame of a call holds what is known of when it is entered with arguments of the types of the
parameters, whatever its arguments are. -/
theorem framePresent_callFrame {info : FunctionInfo} {params : List Ty} {args : List Value}
    {returnAddress : Nat} (hlen : params.length = args.length)
    (h : ∀ args returnAddress, List.Forall₂ (Ty.Has shapes) params args →
      FrameHas shapes T (Machine.callFrame info args returnAddress)) :
    FramePresent T (Machine.callFrame info args returnAddress) := by
  obtain ⟨vs, hvs⟩ := exists_forall₂_has shapes params
  have hframe := h vs returnAddress hvs
  constructor
  · intro slot t ht
    obtain ⟨v, hv, -⟩ := hframe.locals slot t ht
    exact isSome_get?_params (hvs.length_eq.symm.trans hlen) id (Option.isSome_of_eq_some hv)
  · intro u c hc
    obtain ⟨v, hv, -⟩ := hframe.temps u c hc
    cases hv

namespace Present

theorem of_entails (h : Present shapes I code notes m S) (hS : S.Entails shapes T) :
    Present shapes I code notes m T := ⟨h.frame.of_entails hS, h.calls⟩

/-- A frame may change as long as it goes back to where it went. -/
theorem modifyFrame (h : Present shapes I code notes m S) {g : Frame → Frame}
    (hg : FramePresent S' (g m.frame)) (haddress : ∀ f, (g f).returnAddress = f.returnAddress) :
    Present shapes I code notes (m.modifyFrame g) S' where
  frame := by rwa [Machine.frame_modifyFrame]
  calls := by
    have hcalls := h.calls
    unfold Machine.modifyFrame
    cases hc : m.calls with
    | nil => exact .top
    | cons f fs =>
      rw [hc] at hcalls
      cases hcalls with
      | call hat hframe hrest => exact .call (by rwa [haddress]) hframe hrest

theorem noted (h : Present shapes I code notes m S) (line : Nat) :
    Present shapes I code notes (m.noted line) S := by
  have hcounted : Present shapes I code notes { m with executed := m.executed + 1 } S :=
    ⟨h.frame, h.calls⟩
  exact hcounted.modifyFrame ⟨h.frame.locals, h.frame.temps⟩ fun _ => rfl

/-- What is there stays when a place gets a value. -/
theorem write_of_present (h : Present shapes I code notes m S) (d : Place) (v : Value) :
    Present shapes I code notes (m.write d v) S := by
  rcases d with u | ⟨slot, storage⟩
  · refine h.modifyFrame (g := fun f => { f with temps := f.temps.set u v }) ?_ fun _ => rfl
    exact ⟨h.frame.locals, fun u' c hc => isSome_get?_set (h.frame.temps u' c hc)⟩
  · cases storage with
    | global => exact ⟨h.frame, h.calls⟩
    | «local» =>
      refine h.modifyFrame (g := fun f => { f with locals := f.locals.set slot v }) ?_ fun _ => rfl
      exact ⟨fun slot' t ht => isSome_get?_set (h.frame.locals slot' t ht), h.frame.temps⟩

/-- A place of which something is known from then on gets a value. -/
theorem write (h : Present shapes I code notes m S) {d : Place} {c : Content} {v : Value}
    (hw : Writes I S d c S') : Present shapes I code notes (m.write d v) S' := by
  have hkept := h.write_of_present d v
  cases hw with
  | @temp u c =>
    refine ⟨⟨hkept.frame.locals, fun u' d hd => ?_⟩, hkept.calls⟩
    by_cases hu : u' = u
    · subst hu
      simp [Machine.write]
    · exact hkept.frame.temps u' d (by simpa [Assertion.setTemp, hu] using hd)
  | @«local» slot t =>
    refine ⟨⟨fun slot' t' ht => ?_, hkept.frame.temps⟩, hkept.calls⟩
    by_cases hs : slot = slot'
    · subst hs
      simp [Machine.write]
    · exact hkept.frame.locals slot' t' (by simpa [Assertion.setLocal, hs] using ht)
  | global => exact hkept

/-- What an operation gives a value is there behind it. -/
theorem of_effect (h : Present shapes I code notes m S) (hop : OpTyped shapes I S op n S')
    {d : Place} {x : Except Fault Value} (he : m.effect op = some (d, x)) (v : Value) :
    Present shapes I code notes (m.write d v) S' := by
  cases hop with
  | assign _ hw => cases he; exact h.write hw
  | copy _ _ hw => cases he; exact h.write hw
  | binary _ _ _ hw => cases he; exact h.write hw
  | unary _ _ hw => cases he; exact h.write hw
  | widen _ hw => cases he; exact h.write hw
  | load _ _ _ hw => cases he; exact h.write hw
  | newArray => cases he; exact h.write .temp
  | newMatrix => cases he; exact h.write .temp
  | storeElement | storeEntry | entry => exact h.write_of_present d v
  | fill => cases he; exact h.write .temp
  | _ => cases he

/-- What holds behind a jump. -/
theorem of_position (hfits : I.Fits shapes code notes image) {l : Label} {k : Nat}
    (h : Present shapes I code notes m S) (hl : I.labels l = some T) (hS : S.Entails shapes T)
    (hk : image.position l = .ok k) :
    ∃ S', At shapes I code notes k S' ∧ Present shapes I code notes { m with pc := k } S' := by
  obtain ⟨U, hU, hat⟩ := hfits.labels l k hk
  rw [hl] at hU
  cases hU
  exact ⟨T, hat, (h.of_entails hS).frame, h.calls⟩

/-- The machine keeps what is known of, along the code. -/
theorem of_goes (hfits : I.Fits shapes code notes image)
    (h : Present shapes I code notes m S) (hop : OpTyped shapes I S op n S')
    (hnext : At shapes I code notes (m.pc + 1) S') (hgo : Machine.Goes image m op m') :
    ∃ S'', At shapes I code notes m'.pc S'' ∧ Present shapes I code notes m' S'' := by
  cases hgo with
  | @write _ d v he =>
    have hwritten := h.of_effect hop he v
    refine ⟨S', ?_, hwritten.frame, hwritten.calls⟩
    change At shapes I code notes ((m.write d v).pc + 1) S'
    rw [Machine.pc_write]
    exact hnext
  | label =>
    cases hop with
    | label hl hS => exact ⟨S', hnext, (h.of_entails hS).frame, h.calls⟩
  | jump hk =>
    cases hop with
    | jump hl hS => exact h.of_position hfits hl hS hk
  | pass =>
    cases hop with
    | jumpIfFalse => exact ⟨S, hnext, h.frame, h.calls⟩
  | branch _ hk =>
    cases hop with
    | jumpIfFalse ho ht hl hS => exact h.of_position hfits hl hS hk
  | param =>
    cases hop with
    | param => exact ⟨_, hnext, ⟨h.frame.locals, h.frame.temps⟩, h.calls⟩
  | builtin =>
    cases hop with
    | builtin => exact ⟨_, hnext, ⟨h.frame.locals, h.frame.temps⟩, h.calls⟩
  | @user f argc k info hlen hinfo harity hdepth hk =>
    cases hop with
    | @user _ params before returns hf hargs =>
      obtain ⟨info', hinfo', hparams, -, -, hentry⟩ := hfits.callees f params returns hf
      rw [hinfo] at hinfo'
      cases hinfo'
      obtain ⟨T, hT, hat⟩ := hfits.labels info.label k hk
      obtain ⟨-, -, -, hframe⟩ := hentry T hT
      refine ⟨T, hat, ?_, .call hnext ⟨h.frame.locals, h.frame.temps⟩ h.calls⟩
      exact framePresent_callFrame (hparams.symm.trans harity) hframe
  | @leave o v f fs ho hc hsome =>
    have hcalls := h.calls
    rw [hc] at hcalls
    cases hcalls with
    | call hat hframe hrest => exact ⟨_, hat, hframe, hrest⟩
  | print =>
    cases hop with
    | print => exact ⟨S, hnext, h.frame, h.calls⟩

end Present

/-! ### Runs -/

namespace Standing

variable {p q : Point}

/-- What is known of is there from step to step. -/
theorem next (hfits : I.Fits shapes code notes image) (h : Standing shapes I code notes p)
    (hadv : image.advance p = .next q) : Standing shapes I code notes q := by
  obtain ⟨S, hat, hm⟩ := h
  obtain ⟨i, hi, hstep⟩ := Image.advance_eq_next hadv
  rw [hfits.instrs, List.getElem?_toArray] at hi
  obtain ⟨n, S₁, S₂, hn, hS, hop, hnext⟩ := hat.next hi
  have hnoted := (hm.of_entails hS).noted i.line
  rcases hstep with ⟨hl, rfl⟩ | ⟨m', hgo, rfl⟩ | ⟨d, ty, line, rest, v, hd, -, hv, rfl⟩
  · obtain ⟨l, hl⟩ := Option.isSome_iff_exists.1 hl
    have hlabel : i.op = .label l := by
      cases hop' : i.op <;> rw [hop'] at hl <;> cases hl
      rfl
    rw [hlabel] at hop
    exact (hm.of_entails hS).of_goes hfits hop hnext .label
  · rw [← Machine.pc_noted p.machine i.line] at hnext
    exact hnoted.of_goes hfits hop hnext hgo
  · rw [hd] at hop
    cases hop with
    | input hw =>
      have hwritten := hnoted.write (v := v) hw
      refine ⟨S₂, ?_, hwritten.frame, hwritten.calls⟩
      change At shapes I code notes (((p.machine.noted i.line).write d v).pc + 1) S₂
      rwa [Machine.pc_write, Machine.pc_noted]

theorem of_reaches (hfits : I.Fits shapes code notes image) (h : Standing shapes I code notes p)
    (hq : image.Reaches p q) : Standing shapes I code notes q := by
  induction hq with
  | refl => exact h
  | tail _ hadv ih => exact ih.next hfits hadv

end Standing

end

end Typing

end NumericScript
