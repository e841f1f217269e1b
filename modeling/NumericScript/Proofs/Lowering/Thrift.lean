import NumericScript.Proofs.Lowering.Supply

/-! # Lowered code pays its temporaries

A temporary that holds the value of an expression is read by the operation for which the
expression was evaluated, unless the expression stands as a statement.  Only calls and elements
of what they give stand as statements.

* `ExprCode.thrifty`: before an operation that reads it, the code of an expression may stand.
* `StmtCode.thrifty`: the code of a statement may stand before any thrifty code. -/

namespace NumericScript

/-- The temporary that an operand may be is read. -/
def Pays (a : Operand) (rest : List Instr) : Prop := ∀ t, a = .place (.temp t) → Paid t rest

theorem pays_of_mem {a : Operand} {i : Instr} {rest : List Instr} (h : a ∈ i.op.operands) :
    Pays a (i :: rest) := by
  rintro t rfl
  exact .inl (Machine.Alike.mem_tempsRead h rfl)

theorem pays_of_not_temp {a : Operand} {rest : List Instr}
    (h : ∀ t, a ≠ .place (.temp t)) : Pays a rest := fun t ht => absurd ht (h t)

theorem thrifty_cons_of_owes {i : Instr} {rest : List Instr} (h : i.op.owes = none)
    (hr : Thrifty rest) : Thrifty (i :: rest) :=
  ⟨fun t ht => (by rw [h] at ht; cases ht), hr⟩

theorem pays_store {s : Lowering.State} {p : Place} {row a : Operand} {col : Option Operand}
    {rest : List Instr} : Pays a (s.instr (.store p row col a) :: rest) :=
  pays_of_mem (by simp [Op.operands, Lowering.State.instr])

namespace Lowering

/-- A temporary is read after code that runs straight through and does not write it. -/
theorem Supplied.paid {s s' : State} {code rest : List Instr} (h : Supplied s code s') {t : Nat}
    (ht : t < s.temps ∨ s'.temps ≤ t) (hp : Paid t rest) : Paid t (code ++ rest) := by
  have hs := h.straight
  have hw := h.writes
  clear h
  induction code with
  | nil => exact hp
  | cons i is ih =>
    refine .inr ⟨fun hi => ?_, (hs i (List.mem_cons_self ..)).1,
      ih (fun j hj => hs j (List.mem_cons_of_mem _ hj))
        fun j hj => hw j (List.mem_cons_of_mem _ hj)⟩
    have := hw i (List.mem_cons_self ..) t hi
    omega

/-- The temporary that an operand may be was supplied before. -/
def Before (s : State) (a : Operand) : Prop := ∀ t, a = .place (.temp t) → t < s.temps

theorem Supplied.pays {s s' : State} {code rest : List Instr} {a : Operand}
    (h : Supplied s code s') (ha : Before s a) (hp : Pays a rest) : Pays a (code ++ rest) :=
  fun t ht => h.paid (.inl (ha t ht)) (hp t ht)

theorem Before.mono {s s' : State} {a : Operand} (h : Before s a) (hs : s.temps ≤ s'.temps) :
    Before s' a := fun t ht => Nat.lt_of_lt_of_le (h t ht) hs

theorem Pins.before {changes : Bool} {s s' : State} {a a' : Operand} {code : List Instr}
    (h : Pins changes s a code a' s') (ha : Before s a) : Before s' a' := by
  cases h with
  | keep => exact ha
  | pin =>
    rintro t ⟨⟩
    exact Nat.lt_succ_self _

/-- The operand that holds the value of an expression was supplied for it. -/
theorem ExprCode.before {c : Context} {e : Expr} {s s' : State} {code : List Instr} {a : Operand}
    (h : ExprCode c s e code a s') : Before s' a := by
  cases h with
  | int | float | str | bool | name => exact fun t ht => by cases ht
  | binary | unary | call | element | entry =>
    rintro t ⟨⟩
    exact Nat.lt_succ_self _
  | array hi =>
    rintro t ⟨⟩
    exact hi.supplied.temps
  | matrix hi =>
    rintro t ⟨⟩
    exact hi.supplied.temps

theorem Pins.thrifty {changes : Bool} {s s' : State} {a a' : Operand} {code rest : List Instr}
    (h : Pins changes s a code a' s') (hr : Thrifty rest) (hp : Pays a' rest) :
    Thrifty (code ++ rest) ∧ Pays a (code ++ rest) := by
  cases h with
  | keep => exact ⟨hr, hp⟩
  | pin =>
    refine ⟨⟨fun t ht => ?_, hr⟩, pays_of_not_temp fun t ht => by cases ht⟩
    cases ht
    exact hp _ rfl

theorem Widens.thrifty {found expected : Ty} {s s' : State} {a a' : Operand}
    {code rest : List Instr} (h : Widens s found expected a code a' s') (hr : Thrifty rest)
    (hp : Pays a' rest) : Thrifty (code ++ rest) ∧ Pays a (code ++ rest) := by
  cases h with
  | same => exact ⟨hr, hp⟩
  | const => exact ⟨hr, pays_of_not_temp fun t ht => by cases ht⟩
  | widen =>
    refine ⟨⟨fun t ht => ?_, hr⟩, pays_of_mem (List.mem_singleton.2 rfl)⟩
    cases ht
    exact hp _ rfl

/-- Whether the value of an expression may not go unread. -/
def owesValue : Expr → Bool
  | .binary _ _ _ _ | .unary _ _ _ | .call _ _ _ => true
  | _ => false

theorem thrifty_binary {s : State} {op : BinaryOp} {l r : Operand} {rest : List Instr}
    (hr : Thrifty rest) (hp : Pays (.place s.temp) rest) :
    Thrifty (s.instr (.binary s.temp op l r) :: rest) := by
  refine ⟨fun t ht => ?_, hr⟩
  have : t = s.temps := by
    have := Op.tempWritten?_of_owes ht
    cases this
    rfl
  exact hp t (by rw [this]; rfl)

/-- An operand may be put into a temporary that is read later. -/
theorem thrifty_put {s : State} {a : Operand} {rest : List Instr} (hr : Thrifty rest)
    (hp : Paid s.temps rest) :
    Thrifty (s.instr (put s.temp a) :: rest) ∧ Pays a (s.instr (put s.temp a) :: rest) := by
  cases a with
  | const c => exact ⟨thrifty_cons_of_owes rfl hr, pays_of_not_temp fun t ht => by cases ht⟩
  | _ =>
    refine ⟨⟨fun t ht => ?_, hr⟩, pays_of_mem (List.mem_singleton.2 rfl)⟩
    cases ht
    exact hp

mutual

theorem ExprCode.thrifty {c : Context} (e : Expr) : ∀ {s s' : State} {code rest : List Instr}
    {a : Operand}, ExprCode c s e code a s' → Thrifty rest → (owesValue e = true → Pays a rest) →
    Thrifty (code ++ rest) := by
  intro s s' code rest a h hr hp
  cases h with
  | int | float | str | bool | name => exact hr
  | @binary _ s₁ s₂ s₃ m op l r left keep right a a' b hl hk hr' =>
    have hop : Thrifty (s₃.instr (.binary s₃.temp op a' b) :: rest) := thrifty_binary hr (hp rfl)
    have hpay : Pays a' (s₃.instr (.binary s₃.temp op a' b) :: rest) :=
      pays_of_mem (List.mem_cons_self ..)
    obtain ⟨hkeep, hpin⟩ := hk.thrifty
      (ExprCode.thrifty r hr' hop fun _ => pays_of_mem (by simp [Op.operands, State.instr]))
      (hr'.supplied.pays (hk.before hl.before) hpay)
    simpa using ExprCode.thrifty l hl hkeep fun _ => hpin
  | @unary _ s₁ m op e code a he =>
    have hop : Thrifty (s₁.instr (.unary s₁.temp op.fn a) :: rest) := by
      refine ⟨fun t ht => ?_, hr⟩
      cases ht
      exact hp rfl _ rfl
    simpa using ExprCode.thrifty e he hop fun _ => pays_of_mem (List.mem_cons_self ..)
  | @call _ s₁ m f args target params returns passing hf ha hv =>
    have htake : Thrifty (s₁.instr (.copy s₁.temp .returned) :: rest) := by
      refine ⟨fun t ht => ?_, hr⟩
      cases ht
      exact hp rfl _ rfl
    simpa using ArgumentsCode.thrifty args ha
      (thrifty_cons_of_owes (i := s₁.instr (.call target args.length)) rfl htake)
  | array hi =>
    exact thrifty_cons_of_owes rfl (ElementsCode.thrifty _ hi hr)
  | matrix hi =>
    exact thrifty_cons_of_owes rfl (RowsCode.thrifty _ hi hr)
  | @element _ s₁ s₂ s₃ m base row first keep second b b' i hb hk hr' =>
    have hop : Thrifty (s₃.instr (.load s₃.temp b' i none) :: rest) := thrifty_cons_of_owes rfl hr
    have hpay : Pays b' (s₃.instr (.load s₃.temp b' i none) :: rest) :=
      pays_of_mem (List.mem_cons_self ..)
    obtain ⟨hkeep, hpin⟩ := hk.thrifty
      (ExprCode.thrifty row hr' hop fun _ => pays_of_mem (by simp [Op.operands, State.instr]))
      (hr'.supplied.pays (hk.before hb.before) hpay)
    simpa using ExprCode.thrifty base hb hkeep fun _ => hpin
  | @entry _ s₁ s₂ s₃ s₄ s₅ m base row col first keep second keepRow third b b' i i' j hb hk hr'
      hkr hc =>
    have hop : Thrifty (s₅.instr (.load s₅.temp b' i' (some j)) :: rest) :=
      thrifty_cons_of_owes rfl hr
    have hpay : Pays b' (s₅.instr (.load s₅.temp b' i' (some j)) :: rest) :=
      pays_of_mem (List.mem_cons_self ..)
    have hpayRow : Pays i' (s₅.instr (.load s₅.temp b' i' (some j)) :: rest) :=
      pays_of_mem (by simp [Op.operands, State.instr])
    obtain ⟨hkeepRow, hpinRow⟩ := hkr.thrifty
      (ExprCode.thrifty col hc hop fun _ => pays_of_mem (by simp [Op.operands, State.instr]))
      (hc.supplied.pays (hkr.before hr'.before) hpayRow)
    have hbefore := hk.before hb.before
    obtain ⟨hkeep, hpin⟩ := hk.thrifty
      (ExprCode.thrifty row hr' hkeepRow fun _ => hpinRow)
      (hr'.supplied.pays hbefore (hkr.supplied.pays (hbefore.mono hr'.supplied.temps)
        (hc.supplied.pays ((hbefore.mono hr'.supplied.temps).mono hkr.supplied.temps) hpay)))
    simpa using ExprCode.thrifty base hb hkeep fun _ => hpin
termination_by structural e

theorem ArgumentsCode.thrifty {c : Context} (es : List Expr) : ∀ {params : List Ty}
    {s s' : State} {code rest : List Instr}, ArgumentsCode c s params es code s' →
    Thrifty rest → Thrifty (code ++ rest) := by
  intro params s s' code rest h hr
  cases h with
  | nil => exact hr
  | cons he hes =>
    cases he with
    | mk he hw =>
      obtain ⟨hwiden, hpay⟩ := hw.thrifty
        (thrifty_cons_of_owes rfl (ArgumentsCode.thrifty _ hes hr))
        (pays_of_mem (i := State.instr _ (.param _)) (List.mem_singleton.2 rfl))
      simpa using ExprCode.thrifty _ he hwiden fun _ => hpay
termination_by structural es

theorem ElementsCode.thrifty {c : Context} (es : List Expr) : ∀ {array : Place} {element : Ty}
    {k : Nat} {s s' : State} {code rest : List Instr},
    ElementsCode c array element s k es code s' → Thrifty rest → Thrifty (code ++ rest) := by
  intro array element k s s' code rest h hr
  cases h with
  | nil => exact hr
  | cons he hes =>
    cases he with
    | mk he hw =>
      obtain ⟨hwiden, hpay⟩ := hw.thrifty
        (thrifty_cons_of_owes rfl (ElementsCode.thrifty _ hes hr)) pays_store
      simpa using ExprCode.thrifty _ he hwiden fun _ => hpay
termination_by structural es

theorem EntriesCode.thrifty {c : Context} (es : List Expr) : ∀ {matrix : Place} {row k : Nat}
    {s s' : State} {code rest : List Instr}, EntriesCode c matrix row s k es code s' →
    Thrifty rest → Thrifty (code ++ rest) := by
  intro matrix row k s s' code rest h hr
  cases h with
  | nil => exact hr
  | cons he hes =>
    cases he with
    | mk he hw =>
      obtain ⟨hwiden, hpay⟩ := hw.thrifty
        (thrifty_cons_of_owes rfl (EntriesCode.thrifty _ hes hr)) pays_store
      simpa using ExprCode.thrifty _ he hwiden fun _ => hpay
termination_by structural es

theorem RowsCode.thrifty {c : Context} (rows : List (List Expr)) : ∀ {matrix : Place} {k : Nat}
    {s s' : State} {code rest : List Instr}, RowsCode c matrix s k rows code s' →
    Thrifty rest → Thrifty (code ++ rest) := by
  intro matrix k s s' code rest h hr
  cases h with
  | nil => exact hr
  | cons he hes =>
    simpa using EntriesCode.thrifty _ he (RowsCode.thrifty _ hes hr)
termination_by structural rows

end

theorem WidenedCode.thrifty {c : Context} {e : Expr} {expected : Ty} {s s' : State}
    {code rest : List Instr} {a : Operand} (h : WidenedCode c s e expected code a s')
    (hr : Thrifty rest) (hp : Pays a rest) : Thrifty (code ++ rest) := by
  cases h with
  | mk he hw =>
    obtain ⟨hwiden, hpay⟩ := hw.thrifty hr hp
    simpa using he.thrifty _ hwiden fun _ => hpay

theorem PrintsCode.thrifty {c : Context} {es : List Expr} {s s' : State}
    {code rest : List Instr} (h : PrintsCode c s es code s') (hr : Thrifty rest) :
    Thrifty (code ++ rest) := by
  induction h with
  | nil => exact hr
  | cons he _ ih =>
    simpa using he.thrifty _ (thrifty_cons_of_owes rfl ih) fun _ =>
      pays_of_mem (i := State.instr _ (.print _ _)) (List.mem_singleton.2 rfl)

theorem VariableCode.thrifty {c : Context} {x : Name} {e : Expr} {s s' : State}
    {code rest : List Instr} (h : VariableCode c s x e code s') (hr : Thrifty rest) :
    Thrifty (code ++ rest) := by
  cases h with
  | @mk _ _ b _ code a hb he =>
    have hput : Thrifty (s'.instr (put (.var b.variable) a) :: rest) :=
      thrifty_cons_of_owes (by cases a <;> rfl) hr
    have hpay : Pays a (s'.instr (put (.var b.variable) a) :: rest) := by
      cases a with
      | const n => exact pays_of_not_temp fun t ht => by cases ht
      | _ => exact pays_of_mem (List.mem_singleton.2 rfl)
    simpa using he.thrifty hput hpay

theorem ElementCode.thrifty {c : Context} {x : Name} {sub : Subscript} {e : Expr} {s s' : State}
    {code rest : List Instr} (h : ElementCode c s x sub e code s') (hr : Thrifty rest) :
    Thrifty (code ++ rest) := by
  cases h with
  | @element _ s₁ s₂ _ b row _ first keep code i i' a hb hr' hk he =>
    have hop : Thrifty (s'.instr (.store (.var b.variable) i' none a) :: rest) :=
      thrifty_cons_of_owes rfl hr
    have hpay : Pays i' (s'.instr (.store (.var b.variable) i' none a) :: rest) :=
      pays_of_mem (List.mem_cons_self ..)
    obtain ⟨hkeep, hpin⟩ := hk.thrifty (he.thrifty hop pays_store)
      (he.supplied.pays (hk.before hr'.before) hpay)
    simpa using hr'.thrifty _ hkeep fun _ => hpin
  | @entry _ s₁ s₂ s₃ s₄ _ b row col _ first keep second keepCol code i i' j j' a hb hr' hk hc
      hkc he =>
    have hop : Thrifty (s'.instr (.store (.var b.variable) i' (some j') a) :: rest) :=
      thrifty_cons_of_owes rfl hr
    have hpay : Pays i' (s'.instr (.store (.var b.variable) i' (some j') a) :: rest) :=
      pays_of_mem (List.mem_cons_self ..)
    have hpayCol : Pays j' (s'.instr (.store (.var b.variable) i' (some j') a) :: rest) :=
      pays_of_mem (by simp [Op.operands, State.instr])
    obtain ⟨hkeepCol, hpinCol⟩ := hkc.thrifty (he.thrifty hop pays_store)
      (he.supplied.pays (hkc.before hc.before) hpayCol)
    have hbefore := hk.before hr'.before
    obtain ⟨hkeep, hpin⟩ := hk.thrifty (hc.thrifty _ hkeepCol fun _ => hpinCol)
      (hc.supplied.pays hbefore (hkc.supplied.pays (hbefore.mono hc.supplied.temps)
        (he.supplied.pays ((hbefore.mono hc.supplied.temps).mono hkc.supplied.temps) hpay)))
    simpa using hr'.thrifty _ hkeep fun _ => hpin

end Lowering

/-! ### Statements -/

mutual

/-- Whether only calls and elements stand as statements. -/
def Stmt.callsOnly : Stmt → Bool
  | .expr _ (.call _ _ _) | .expr _ (.index _ _ _ _) => true
  | .expr _ _ => false
  | .function _ _ _ _ body => Stmt.allCallsOnly body
  | .cond _ _ body none => Stmt.allCallsOnly body
  | .cond _ _ body (some orElse) => Stmt.allCallsOnly body && Stmt.allCallsOnly orElse
  | .while _ _ body | .repeat _ _ body => Stmt.allCallsOnly body
  | .for _ init _ update body =>
    Stmt.callsOnly init && Stmt.callsOnly update && Stmt.allCallsOnly body
  | .decl _ _ _ _ | .assign _ _ _ _ | .break _ | .continue _ | .return _ _ | .print _ _
  | .input _ _ => true

/-- Whether only calls and elements stand as statements among those of a list. -/
def Stmt.allCallsOnly : List Stmt → Bool
  | [] => true
  | s :: ss => Stmt.callsOnly s && Stmt.allCallsOnly ss

end

namespace Lowering

mutual

theorem StmtCode.thrifty (st : Stmt) : ∀ {c : Context} {s s' : State} {code rest : List Instr},
    StmtCode c s st code s' → st.callsOnly = true → Thrifty rest → Thrifty (code ++ rest) := by
  intro c s s' code rest h hst hr
  cases h with
  | decl h => exact h.thrifty hr
  | assign h => exact h.thrifty hr
  | store h => exact h.thrifty hr
  | function => exact hr
  | @cond _ _ s₁ s₂ loc e body test code a he hb =>
    have hbody := BlockCode.thrifty body hb hst
      (thrifty_cons_of_owes (i := s'.instr (.label s₁.label)) rfl hr)
    simpa using he.thrifty _ (thrifty_cons_of_owes (i := s₁.instr (.jumpIfFalse a s₁.label)) rfl
      hbody) fun _ => pays_of_mem (List.mem_singleton.2 rfl)
  | @branch _ _ s₁ s₂ _ loc e body orElse test code codeElse a he hb ho =>
    rw [Stmt.callsOnly, Bool.and_eq_true] at hst
    have hElse := BlockCode.thrifty orElse ho hst.2
      (thrifty_cons_of_owes (i := s'.instr (.label s₁.label)) rfl hr)
    have hbody := BlockCode.thrifty body hb hst.1
      (thrifty_cons_of_owes (i := s₂.instr (.jump s₁.label)) rfl
        (thrifty_cons_of_owes (i := s₂.instr (.label s₁.nextLabel.label)) rfl hElse))
    simpa using he.thrifty _ (thrifty_cons_of_owes rfl hbody) fun _ =>
      pays_of_mem (i := s₁.instr (.jumpIfFalse a s₁.nextLabel.label)) (List.mem_singleton.2 rfl)
  | @«while» _ _ s₀ s₁ _ loc e body test code a h₀ he hb =>
    have hbody := BlockCode.thrifty body hb hst
      (thrifty_cons_of_owes (i := s'.instr (.jump s₀.label)) rfl
        (thrifty_cons_of_owes (i := s'.instr (.label s₀.nextLabel.label)) rfl hr))
    have htest := he.thrifty _ (thrifty_cons_of_owes rfl hbody) fun _ =>
      pays_of_mem (i := s₁.instr (.jumpIfFalse a s₀.nextLabel.label)) (List.mem_singleton.2 rfl)
    simpa using thrifty_cons_of_owes (i := s₀.instr (.label s₀.label)) rfl htest
  | @«repeat» _ _ s₁ s₂ _ loc count body counting code n he hb h₃ =>
    have hend : Thrifty (s'.instr (.label s₁.nextLabel.label) ::
        s'.instr (.binary s₁.nextTemp.temp .add (.place s₁.nextTemp.temp) (indexConst 1)) ::
        s'.instr (.jump s₁.label) :: s'.instr (.label s₁.nextLabel.nextLabel.label) :: rest) :=
      thrifty_cons_of_owes rfl (thrifty_cons_of_owes rfl
        (thrifty_cons_of_owes rfl (thrifty_cons_of_owes rfl hr)))
    have hbody := BlockCode.thrifty body hb hst hend
    have htest := @thrifty_binary s₁.nextTemp.nextTemp .lt (.place s₁.nextTemp.temp)
      (.place s₁.temp) _ (thrifty_cons_of_owes rfl hbody)
      (pays_of_mem (i := s₁.instr (.jumpIfFalse (.place s₁.nextTemp.nextTemp.temp)
        s₁.nextLabel.nextLabel.label)) (List.mem_singleton.2 rfl))
    have hcounter := thrifty_cons_of_owes
      (i := s₁.instr (put s₁.nextTemp.temp (indexConst 0))) rfl
      (thrifty_cons_of_owes (i := s₁.instr (.label s₁.label)) rfl htest)
    have hne : (put s₁.nextTemp.temp (indexConst 0)).tempWritten? ≠ some s₁.temps := by
      simp [put, indexConst, Op.tempWritten?, Op.dest?, State.temp, State.nextTemp]
    have hlimit := thrifty_put (s := s₁) (a := n) hcounter
      (.inr ⟨hne, rfl, .inr ⟨nofun, rfl, .inl (List.mem_cons_of_mem _ (List.mem_singleton.2 rfl))⟩⟩)
    simpa using he.thrifty _ hlimit.1 fun _ => hlimit.2
  | @«for» _ _ s₁ s₂ s₃ s₄ s₅ s₆ loc init update e body first test code last a hi h₂ he hb h₅ hu =>
    rw [Stmt.callsOnly, Bool.and_eq_true, Bool.and_eq_true] at hst
    have hlast := StmtCode.thrifty update hu hst.1.2
      (thrifty_cons_of_owes (i := (s₆.inLine loc.line).instr (.jump s₂.label)) rfl
        (thrifty_cons_of_owes
          (i := (s₆.inLine loc.line).instr (.label s₂.nextLabel.nextLabel.label)) rfl hr))
    have hbody := BlockCode.thrifty body hb hst.2
      (thrifty_cons_of_owes (i := s₅.instr (.label s₂.nextLabel.label)) rfl hlast)
    have htest := he.thrifty _ (thrifty_cons_of_owes rfl hbody) fun _ =>
      pays_of_mem (i := s₃.instr (.jumpIfFalse a s₂.nextLabel.nextLabel.label))
        (List.mem_singleton.2 rfl)
    simpa using StmtCode.thrifty init hi hst.1.1
      (thrifty_cons_of_owes (i := s₂.instr (.label s₂.label)) rfl htest)
  | «break» hl => exact thrifty_cons_of_owes rfl hr
  | «continue» hl => exact thrifty_cons_of_owes rfl hr
  | leave => exact thrifty_cons_of_owes rfl hr
  | «return» he =>
    simpa using he.thrifty (thrifty_cons_of_owes rfl hr)
      (pays_of_mem (i := State.instr _ (.return (some _))) (List.mem_singleton.2 rfl))
  | print h => exact h.thrifty hr
  | input hb => exact thrifty_cons_of_owes rfl hr
  | call hf ha => simpa using ha.thrifty _ (thrifty_cons_of_owes rfl hr)
  | @expr _ _ _ loc e code a hc he =>
    cases e with
    | call m f args => exact absurd rfl (hc m f args)
    | index m base row col => exact he.thrifty _ hr nofun
    | _ => cases hst
termination_by structural st

theorem BlockCode.thrifty (ss : List Stmt) : ∀ {c : Context} {s s' : State}
    {code rest : List Instr}, BlockCode c s ss code s' → Stmt.allCallsOnly ss = true →
    Thrifty rest → Thrifty (code ++ rest) := by
  intro c s s' code rest h hss hr
  cases h with
  | nil => exact hr
  | cons hs hrest =>
    rw [Stmt.allCallsOnly, Bool.and_eq_true] at hss
    simpa using StmtCode.thrifty _ hs hss.1 (BlockCode.thrifty _ hrest hss.2 hr)
termination_by structural ss

end

/-! ### Programs -/

theorem TopCode.thrifty {c : Context} {p : Program} {s s' : State} {code rest : List Instr}
    (h : TopCode c s p code s') (hp : Stmt.allCallsOnly p = true) (hr : Thrifty rest) :
    Thrifty (code ++ rest) := by
  induction h with
  | nil => exact thrifty_cons_of_owes rfl hr
  | function _ _ ih =>
    rw [Stmt.allCallsOnly, Bool.and_eq_true] at hp
    exact ih hp.2
  | cons _ hs _ ih =>
    rw [Stmt.allCallsOnly, Bool.and_eq_true] at hp
    simpa using hs.thrifty _ hp.1 (ih hp.2)

theorem RegionsCode.thrifty {c : Context} {p : Program} {s s' : State} {codes : List Instr}
    {infos : List FunctionInfo} (h : RegionsCode c s p codes infos s')
    (hp : Stmt.allCallsOnly p = true) : Thrifty codes := by
  induction h with
  | nil => exact trivial
  | function _ hb _ ih =>
    rw [Stmt.allCallsOnly, Bool.and_eq_true] at hp
    simpa using thrifty_cons_of_owes rfl
      (hb.thrifty _ hp.1 (thrifty_cons_of_owes (i := State.instr _ (.return none)) rfl (ih hp.2)))
  | other _ _ ih =>
    rw [Stmt.allCallsOnly, Bool.and_eq_true] at hp
    exact ih hp.2

end Lowering

end NumericScript
