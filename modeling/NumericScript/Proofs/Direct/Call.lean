import NumericScript.Proofs.Direct.Statement
import NumericScript.Proofs.Typing.Program

/-! # The code of calls

A call does what it does when it is carried out directly: it leads into the region of the function,
whose statements do what they do, and back behind the call, where the variables and temporaries of
the caller are as they were.

* `Houses`: the code of a program, and the regions of its functions in it.
* `Houses.tracks_call`: calls, by induction on the bound on how deep they go. -/

namespace NumericScript

open Direct Lowering Machine

/-! ### Functions of a program -/

section

variable {p : Program} {f : String} {fn : Function}

theorem function?_eq_none (h : f ∉ p.functionNames) : function? p f = none := by
  refine List.findSome?_eq_none_iff.2 fun st hst => ?_
  cases st with
  | function loc g returns params body =>
    refine if_neg ?_
    rintro rfl
    exact h (List.mem_filterMap.2 ⟨_, hst, rfl⟩)
  | _ => rfl

theorem name_of_function? (h : function? p f = some fn) : fn.name = f := by
  obtain ⟨st, -, hst⟩ := List.exists_of_findSome?_eq_some h
  cases st with
  | function loc g returns params body =>
    dsimp only at hst
    split at hst
    · cases hst
      assumption
    · cases hst
  | _ => cases hst

theorem function?_cons_of_ne {loc : Loc} {g : String} {returns : Ty} {params : List Param}
    {body : List Stmt} {rest : Program} (h : g ≠ f) :
    function? (.function loc g returns params body :: rest) f = function? rest f := by
  unfold function?
  rw [List.findSome?_cons_of_isNone]
  exact Option.isNone_iff_eq_none.2 (if_neg h)

theorem function?_cons_self {loc : Loc} {returns : Ty} {params : List Param}
    {body : List Stmt} {rest : Program} :
    function? (.function loc f returns params body :: rest) f =
      some ⟨loc, f, returns, params, body⟩ := by
  simp [function?]

theorem function?_cons_of_isFunction {st : Stmt} {rest : Program} (h : st.isFunction = false) :
    function? (st :: rest) f = function? rest f := by
  unfold function?
  rw [List.findSome?_cons_of_isNone]
  cases st <;> first | rfl | cases h

/-- The signature of a function. -/
def Direct.Function.signature (fn : Function) : Signature := ⟨fn.params.map (·.ty), fn.returns⟩

/-- Signatures are those of the functions of a program, if their names are distinct. -/
theorem get?_signatures (hd : p.functionNames.Nodup) :
    (signatures p).get? f = (function? p f).map Function.signature := by
  induction p using List.reverseRecOn with
  | nil => rfl
  | append_singleton p st ih =>
    have hnames : Program.functionNames (p ++ [st]) =
        Program.functionNames p ++ Program.functionNames [st] := List.filterMap_append
    have happend : function? (p ++ [st]) f = (function? p f).or (function? [st] f) :=
      List.findSome?_append
    rw [hnames] at hd
    have ih := ih (List.nodup_append.1 hd).1
    rw [signatures, List.foldl_append, ← signatures, happend]
    cases st with
    | function loc g returns params body =>
      rw [List.foldl_cons, List.foldl_nil]
      dsimp only
      by_cases hg : g = f
      · subst hg
        have hfresh : g ∉ Program.functionNames p := fun hmem =>
          (List.nodup_append.1 hd).2.2 g hmem g List.mem_cons_self rfl
        rw [Store.get?_set_self, function?_eq_none hfresh, function?_cons_self]
        rfl
      · rw [Store.get?_set_of_ne _ _ hg, function?_cons_of_ne hg, ih]
        cases function? p f <;> rfl
    | _ =>
      rw [List.foldl_cons, List.foldl_nil, function?_cons_of_isFunction rfl]
      dsimp only
      rw [ih]
      cases function? p f <;> rfl

end

/-! ### Regions -/

/-- The code of a function, from its label on. -/
inductive Region (code : List Instr) (c : Context) (fn : Function) (entry : Nat) : Prop where
  | mk {s s' : State} {body : List Instr}
      (hb : BlockCode (c.inFunction fn.returns) s fn.body body s')
      (enter : code[entry]? = some ⟨.label (.function fn.name), fn.loc.line⟩)
      (hat : CodeAt code (entry + 1) body)
      (leave : code[entry + 1 + body.length]? = some ⟨.return none, fn.loc.line⟩)

/-- What the machine knows of a function. -/
def Direct.Function.info (fn : Function) (vars : List Variable) : FunctionInfo :=
  ⟨fn.name, .function fn.name, vars, fn.returns ≠ .void, fn.loc.line⟩

theorem Region.position {code : List Instr} {image : Image} {c : Context} {fn : Function}
    {entry : Nat} (h : Region code c fn entry) (hr : Ready code image) (vars : List Variable) :
    image.position (fn.info vars).label = .ok entry := by
  cases h with
  | mk _ enter => exact hr.labels enter rfl

/-- Every function has a region. -/
theorem Lowering.RegionsCode.exists_region {c : Context} {s s' : State} {p : Program}
    {codes : List Instr} {infos : List FunctionInfo} (h : RegionsCode c s p codes infos s')
    {code : List Instr} {k : Nat} (hat : CodeAt code k codes) {f : String} {fn : Function}
    (hf : function? p f = some fn) :
    ∃ vars entry, List.Forall₂ IsSlot fn.params vars ∧ fn.info vars ∈ infos ∧
      Region code c fn entry := by
  induction h generalizing k with
  | nil => cases hf
  | @function s s₁ _ loc g returns params vars body rest piece _ infos hp hb h ih =>
    simp only [codeAt_append, codeAt_singleton, List.length_append, List.length_singleton,
      ← Nat.add_assoc] at hat
    obtain ⟨⟨⟨hate, hatb⟩, hatl⟩, hatr⟩ := hat
    by_cases hg : g = f
    · subst hg
      rw [function?_cons_self] at hf
      cases hf
      exact ⟨vars, k, hp, List.mem_cons_self, .mk hb hate hatb hatl⟩
    · rw [function?_cons_of_ne hg] at hf
      obtain ⟨vars, entry, hvars, hinfo, hregion⟩ := ih hatr hf
      exact ⟨vars, entry, hvars, List.mem_cons_of_mem _ hinfo, hregion⟩
  | other hst h ih =>
    rw [function?_cons_of_isFunction hst] at hf
    exact ih hat hf

/-- Linked code of a program. -/
structure Houses (p : Program) (code : List Instr) (image : Image) : Prop where
  ready : Ready code image
  names : p.functionNames.Nodup
  functions : ∀ {f : String} {fn : Function}, function? p f = some fn → ∃ vars entry,
    List.Forall₂ IsSlot fn.params vars ∧ image.functions.get? f = some (fn.info vars) ∧
      Region code p.context fn entry

theorem Houses.of_lower {p : Program} {code : Code} {settings : MachineSettings}
    (hl : p.lower = .ok code) (hd : p.functionNames.Nodup) (hs : settings.maxSteps = none) :
    Houses p code.instrs (code.link settings) := by
  obtain ⟨top, regions, s₁, s₂, ht, hr, hcode⟩ := Program.exists_of_lower hl
  have hlinked := Program.linked ht hr hd
  rw [← hcode] at hlinked
  refine ⟨.of_linked hlinked hs, hd, fun {f fn} hf => ?_⟩
  have hat : CodeAt code.instrs top.length regions := by
    intro j i hj
    rw [hcode, List.getElem?_append_right (Nat.le_add_right _ _), Nat.add_sub_cancel_left]
    exact hj
  obtain ⟨vars, entry, hvars, hinfo, hregion⟩ := hr.exists_region hat hf
  have hnames : (code.functions.map (·.name)).Nodup := by
    rw [hr.names]
    exact hd
  refine ⟨vars, entry, hvars, ?_, hregion⟩
  rw [← name_of_function? hf]
  exact get?_functions hnames hinfo

/-- The local variables with which a call starts. -/
theorem locals_callFrame {fn : Function} {vars : List Variable} (returnAddress : Nat)
    (h : List.Forall₂ IsSlot fn.params vars) (args : List Value) :
    (callFrame (fn.info vars) args returnAddress).locals = fn.locals args := by
  have hfold : ∀ {params : List Param} {vars : List Variable}, List.Forall₂ IsSlot params vars →
      ∀ (args : List Value) (s : Store String Value),
      (vars.zip args).foldl (fun s p => s.set p.1.slot p.2) s =
        (params.zip args).foldl (fun s p => Direct.pass s p.1 p.2) s := by
    intro params vars h
    induction h with
    | nil => exact fun _ _ => rfl
    | cons hslot _ ih =>
      intro args s
      obtain ⟨b, hb, rfl⟩ := hslot
      cases args with
      | nil => rfl
      | cons v args =>
        rw [List.zip_cons_cons, List.zip_cons_cons, List.foldl_cons, List.foldl_cons,
          Direct.pass, hb]
        exact ih args _
  exact hfold h args []

/-! ### Calls -/

section

variable {code : List Instr} {image : Image} {n k line bound : Nat} {c : Context} {p r q : Point}
  {args rest : List Value} {v : Option Value}

/-- Where a call in a line leads that enters a function. -/
def Point.entered (p : Point) (line : Nat) (info : FunctionInfo) (args rest : List Value)
    (entry : Nat) : Point :=
  ⟨{ p.machine.noted line with
    pc := entry
    args := rest
    calls := callFrame info args (p.machine.pc + 1) :: (p.machine.noted line).calls
    returned := none }, p.unread⟩

/-- A call takes its arguments from those that were passed. -/
theorem execute_call (image : Image) (m : Machine) (target : Callee)
    (h : m.args = args.reverse ++ rest) :
    execute image m (.call target args.length) =
      match target with
      | .builtin f => Machine.callBuiltin { m with args := rest } f args
      | .user f => callUser image { m with args := rest } f args := by
  have hlen : ¬ (args.reverse ++ rest).length < args.length := by simp
  have htake : ((args.reverse ++ rest).take args.length).reverse = args := by
    rw [List.take_left' List.length_reverse, List.reverse_reverse]
  have hdrop : (args.reverse ++ rest).drop args.length = rest :=
    List.drop_left' List.length_reverse
  cases target with
  | builtin f => simp only [execute, Machine.call, h, if_neg hlen, htake, hdrop]
  | user f => simp only [execute, Machine.call, h, if_neg hlen, htake, hdrop]

theorem execute_return (m : Machine) (o : Option Operand) :
    execute image m (.return o) = m.givesBack o >>= m.leave := by
  cases o with
  | none => rfl
  | some o =>
    rw [execute, givesBack]
    cases m.eval o <;> rfl

@[simp] theorem givesBack_noted (m : Machine) (line : Nat) (o : Option Operand) :
    (m.noted line).givesBack o = m.givesBack o := by
  cases o <;> simp [givesBack]

/-- From a function that returns the machine comes back behind the call. -/
theorem returns_behind (hr : Ready code image) (bound : Nat) {info : FunctionInfo} {entry j : Nat}
    (h : Leaves code image c 0 (p.entered line info args rest entry) j (.returned v) q) :
    ∃ r, image.advance q = .next r ∧ r.world = { q.world with locals := p.world.locals } ∧
      Went bound p (p.machine.pc + 1) rest r ∧ r.machine.returned = v := by
  cases h with
  | @returned _ _ line' o _ hat hv hsome hwent =>
    obtain rfl := hwent.pc
    have hargs := hwent.args
    have hhome := hwent.home
    unfold home at hhome
    cases hc : q.machine.calls with
    | nil =>
      rw [hc] at hhome
      cases hhome
    | cons f fs =>
      rw [hc] at hhome
      obtain ⟨hf, hfs⟩ := Prod.mk.inj (Option.some.inj hhome)
      obtain ⟨rfl, hmain⟩ := Prod.mk.inj hfs
      have haddress : f.returnAddress = p.machine.pc + 1 := congrArg Frame.returnAddress hf
      have hnoted : (q.machine.noted line').calls =
          { f with line := some line' } :: (p.machine.noted line).calls := by
        rw [noted, modifyFrame, hc]
      have hleaves : (f.returnsValue && v.isNone) = false := by
        cases hr : f.returnsValue with
        | false => rfl
        | true => simpa using hsome f _ hc hr
      have he : execute image (q.machine.noted line') (.return o) =
          .ok (.go { q.machine.noted line' with
            pc := p.machine.pc + 1, calls := (p.machine.noted line).calls, returned := v }) := by
        rw [execute_return, givesBack_noted, hv]
        change Machine.leave _ v = _
        rw [Machine.leave, hnoted]
        dsimp only
        rw [hleaves, haddress]
        rfl
      have hmain : (q.machine.noted line').main = (p.machine.noted line).main := by
        rw [noted, modifyFrame, hc]
        exact hmain
      have hframe : (p.machine.noted line).calls.headD (q.machine.noted line').main =
          (p.machine.noted line).frame := by
        rw [hmain]
        rfl
      refine ⟨_, hr.advance_of_go hat rfl he, ?_, ⟨rfl, ?_, ?_, fun t _ => ?_⟩, rfl⟩
      · unfold Point.world frame
        dsimp only
        rw [hframe, frame_noted, globals_noted, angle_noted, output_noted]
        rfl
      · exact (args_noted _ _).trans hargs
      · refine Eq.trans ?_ (home_noted p.machine line)
        unfold home
        dsimp only
        rw [hmain]
      · unfold frame
        dsimp only
        rw [hframe, temps_noted]
        rfl

variable {depth : Nat} {fn : Function} {σ : Scene}

/-- The region of a function does what its body does, and ends where the function returns. -/
theorem tracks_finish (hσ : Plays code image n depth (c.inFunction fn.returns) σ)
    (hfunction : σ.function = some fn) {entry : Nat} (hregion : Region code c fn entry)
    (hr : Stands σ.function depth entry r) :
    Tracks image n r
      (fun v q => ∃ j, Leaves code image (c.inFunction fn.returns) 0 r j (.returned v) q)
      (Direct.finish fn (Direct.block σ fn.body) r.world) := by
  obtain ⟨hb, hate, hat, hatl⟩ := hregion
  obtain ⟨r₁, hadv, hw, hr₁⟩ := passes_label hσ.ready 0 hr.pc hate
  rw [← hw]
  refine .of_reaches (.tail .refl hadv) ?_
  refine (BlockCode.tracks fn.body hσ hb hat (hr.went hr₁)).bind fun exit q hq => ?_
  have hq := hq.after hr₁ (Nat.zero_le _)
  cases hq with
  | normal hq =>
    have htracks : Tracks image n q
        (fun v => Leaves code image (c.inFunction fn.returns) 0 q 0 (.returned v)) _ :=
      tracks_leave hσ hatl (hr.went hq)
    rw [hfunction] at htracks
    exact htracks.mono fun v q' hq' => ⟨0, hq'.after hq (Nat.le_refl _)⟩
  | broke hl => cases hl
  | continued hl => cases hl
  | returned hat hv hsome hq => exact .pure ⟨0, .returned hat hv hsome hq⟩

/-- A function is entered and left. -/
theorem tracks_enter (hσ : Plays code image n (depth + 1) (c.inFunction fn.returns) σ)
    (hfunction : σ.function = some fn) {function : Option Function} {entry : Nat}
    {vars : List Variable} (hvars : List.Forall₂ IsSlot fn.params vars)
    (hregion : Region code c fn entry) (hp : Stands function depth k p) :
    Tracks image n (p.entered line (fn.info vars) args rest entry)
      (fun v q => Went bound p (k + 1) rest q ∧ q.machine.returned = v)
      (Direct.enter fn args (Direct.block σ fn.body) p.world) := by
  obtain rfl := hp.pc
  have hdepth : (p.machine.noted line).calls.length = depth :=
    (length_calls_of_home (home_noted p.machine line)).trans hp.resident.depth
  have hentered : Stands σ.function (depth + 1) entry
      (p.entered line (fn.info vars) args rest entry) := by
    refine ⟨rfl, ?_, ?_⟩
    · exact congrArg (· + 1) hdepth
    · rw [hfunction]
      exact ⟨_, _, rfl, rfl, rfl⟩
  have hworld : (p.entered line (fn.info vars) args rest entry).world =
      { p.world with locals := fn.locals args } := by
    rw [← locals_callFrame (p.machine.pc + 1) hvars args]
    unfold Point.world Point.entered
    dsimp only
    rw [globals_noted, angle_noted, output_noted]
    rfl
  have henter : Direct.enter fn args (Direct.block σ fn.body) p.world =
      (do
        let v ← Direct.finish fn (Direct.block σ fn.body)
        modify fun w => { w with locals := p.world.locals }
        return v : Act (Option Value)) (p.entered line (fn.info vars) args rest entry).world := by
    rw [hworld]
    rfl
  rw [henter]
  refine (tracks_finish hσ hfunction hregion hentered).bind fun v q ⟨j, hq⟩ => ?_
  obtain ⟨r, hadv, hw, hwent, hreturned⟩ := returns_behind hσ.ready bound hq
  exact ⟨r, .tail .refl hadv, hw, hwent, hreturned⟩

variable {program : Program} {f : String} {target : Callee} {params : List Ty} {returns : Ty}

/-- What calls call. -/
theorem Houses.callee? (h : Houses program code image)
    (hf : callee? program.context f = some (target, params, returns)) :
    (∃ fn, function? program f = some fn ∧ target = .user f ∧ params = fn.params.map (·.ty)) ∨
      ∃ b, function? program f = none ∧ Builtin.ofName? f = some b ∧ target = .builtin b ∧
        params = [] := by
  unfold Lowering.callee? at hf
  rw [show program.context.signatures.get? f = _ from get?_signatures h.names] at hf
  cases hfn : function? program f with
  | some fn =>
    rw [hfn] at hf
    cases hf
    exact .inl ⟨fn, rfl, rfl, rfl⟩
  | none =>
    rw [hfn] at hf
    obtain ⟨b, hb, heq⟩ := Option.map_eq_some_iff.1 hf
    cases heq
    exact .inr ⟨b, rfl, hb, rfl, rfl⟩

/-- A call is tracked if what it enters is. -/
theorem Houses.tracks_callWith (h : Houses program code image) {body : Function → Act Exit}
    {function : Option Function}
    (hf : Lowering.callee? program.context f = some (target, params, returns))
    (hat : code[k]? = some ⟨.call target args.length, line⟩)
    (hargs : p.machine.args = args.reverse ++ rest) (hp : Stands function depth k p)
    (henter : ∀ fn vars entry, function? program f = some fn →
      List.Forall₂ IsSlot fn.params vars → Region code program.context fn entry →
      image.advance p = .next (p.entered line (fn.info vars) args rest entry) →
      Tracks image n p (fun v q => Went bound p (k + 1) rest q ∧ q.machine.returned = v)
        (Direct.enter fn args (body fn) p.world)) :
    Tracks image n p (fun v q => Went bound p (k + 1) rest q ∧ q.machine.returned = v)
      (Direct.callWith program image.settings depth body line f args p.world) := by
  obtain rfl := hp.pc
  have hdepth : (p.machine.noted line).calls.length = depth :=
    (length_calls_of_home (home_noted p.machine line)).trans hp.resident.depth
  have he := execute_call image (p.machine.noted line) target
    ((args_noted p.machine line).trans hargs)
  unfold Direct.callWith
  rcases h.callee? hf with ⟨fn, hfn, rfl, -⟩ | ⟨b, hfn, hb, rfl, -⟩
  · obtain ⟨vars, entry, hvars, hinfo, hregion⟩ := h.functions hfn
    have hlen : (fn.info vars).params.length = fn.params.length := hvars.length_eq.symm
    dsimp only at he
    rw [callUser, hinfo] at he
    dsimp only at he
    rw [hlen, hdepth] at he
    rw [hfn]
    dsimp only
    by_cases harity : fn.params.length = args.length
    · rw [if_neg (not_not_intro harity)] at he ⊢
      by_cases hdeep : image.settings.maxCallDepth ≤ depth
      · rw [if_pos hdeep] at he ⊢
        exact .done (h.ready.advance_of_error hat rfl he)
      · rw [if_neg hdeep] at he ⊢
        refine henter fn vars entry hfn hvars hregion (h.ready.advance_of_go hat rfl (he.trans ?_))
        rw [hregion.position h.ready vars, pc_noted]
        rfl
    · rw [if_pos harity] at he ⊢
      exact .done (h.ready.advance_of_error hat rfl he)
  · rw [hfn]
    dsimp only
    rw [hb]
    dsimp only at he ⊢
    rw [Machine.callBuiltin] at he
    dsimp only at he
    rw [angle_noted] at he
    have hcall : Direct.callBuiltin line b args p.world = (do
        let given ← check line (b.call args p.machine.angle)
        set { p.world with angle := given.2 }
        return some given.1 : Act (Option Value)) p.world := rfl
    rw [hcall]
    cases hv : b.call args p.machine.angle with
    | error e =>
      rw [hv] at he
      exact .done (h.ready.advance_of_error hat rfl he)
    | ok result =>
      obtain ⟨v, angle⟩ := result
      rw [hv] at he
      refine ⟨_, .tail .refl (h.ready.advance_of_go hat rfl he), ?_, ?_, rfl⟩
      · exact congrArg (fun w : World => { w with angle := angle })
          (world_noted p.machine line p.unread)
      · exact went_noted bound line (congrArg (· + 1) (pc_noted p.machine line)) rfl rfl rfl

/-- The statements of a program and of its functions do what they do if calls do. -/
theorem Houses.plays (h : Houses program code image) {caller : Caller} {function : Option Function}
    (hcallee : ∀ f, Lowering.callee? c f = Lowering.callee? program.context f)
    (hreturns : c.returns = (scene program caller function n).returns)
    (hcall : ∀ {f : String} {target : Callee} {params : List Ty} {returns : Ty},
      Lowering.callee? program.context f = some (target, params, returns) →
      ∀ (bound k line : Nat) (args rest : List Value) (p : Point),
        code[k]? = some ⟨.call target args.length, line⟩ → p.machine.args = args.reverse ++ rest →
        Stands function depth k p →
        Tracks image n p (fun v q => Went bound p (k + 1) rest q ∧ q.machine.returned = v)
          (caller line f args p.world)) :
    Plays code image n depth c (scene program caller function n) where
  ready := h.ready
  returns := hreturns
  bound := rfl
  params := by
    intro f target params returns hf
    rw [hcallee] at hf
    change Direct.paramTypes program f = params
    unfold Direct.paramTypes
    rcases h.callee? hf with ⟨fn, hfn, -, rfl⟩ | ⟨b, hfn, -, -, rfl⟩ <;> rw [hfn]
  call := by
    intro f target params returns hf
    rw [hcallee] at hf
    exact hcall hf

/-- Calls do what they do when they are carried out directly. -/
theorem Houses.tracks_call (h : Houses program code image) : ∀ {n depth : Nat}
    {function : Option Function} {f : String} {target : Callee} {params : List Ty} {returns : Ty},
    Lowering.callee? program.context f = some (target, params, returns) →
    ∀ (bound k line : Nat) (args rest : List Value) (p : Point),
      code[k]? = some ⟨.call target args.length, line⟩ → p.machine.args = args.reverse ++ rest →
      Stands function depth k p →
      Tracks image n p (fun v q => Went bound p (k + 1) rest q ∧ q.machine.returned = v)
        (Direct.call program image.settings n depth line f args p.world) := by
  intro n
  induction n with
  | zero =>
    intro depth function f target params returns hf bound k line args rest p hat hargs hp
    exact h.tracks_callWith hf hat hargs hp fun fn vars entry hfn hvars hregion hadv => .zero
  | succ n ih =>
    intro depth function f target params returns hf bound k line args rest p hat hargs hp
    refine h.tracks_callWith hf hat hargs hp fun fn vars entry hfn hvars hregion hadv => ?_
    -- The step of the call pays for going one call deeper.
    refine .of_advance hadv (tracks_enter ?_ rfl hvars hregion hp)
    exact h.plays (fun _ => rfl) rfl fun hf => ih hf

end

end NumericScript
