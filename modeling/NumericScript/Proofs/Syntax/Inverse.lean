import NumericScript.Proofs.Syntax.Printed

/-! # Reading printed programs

Reading inverts printing: a program that was read is read again from its tokens, wherever these
stand, and no error is reported.

* `Stmt.reads_statement`: a statement is read from its tokens.
* `Program.parse_tokens`: a program is read from its tokens. -/

namespace NumericScript

open Reader

namespace Stmt

/-- Whether a statement is the same up to places. -/
def Alike (s s' : Stmt) : Prop := s'.unplaced = s.unplaced

/-- Whether statements are the same up to places. -/
def AllAlike (ss ss' : List Stmt) : Prop := allUnplaced ss' = allUnplaced ss

theorem AllAlike.cons {s s' : Stmt} {ss ss' : List Stmt} (h : s.Alike s') (hs : AllAlike ss ss') :
    AllAlike (s :: ss) (s' :: ss') := by
  rw [AllAlike, allUnplaced, allUnplaced, h, hs]

/-! ### Declarations, assignments and calls -/

variable {n : Nat} {rest : List TokenKind}

theorem reads_type {t : Ty} (h : t.isWritten = true) {ks : List TokenKind} :
    type.Reads (t.token :: ks) ks fun t' => t' = t := by
  intro c hc
  have hkind : c.kind = t.token := by rw [c.kind_eq_nextKind, hc, nextKind_cons]
  refine ⟨t, c.advance, ?_, by rw [c.kinds_advance, hc]; rfl, rfl, rfl⟩
  unfold Ty.isWritten at h
  split at h <;> first | (unfold type; rw [hkind]; rfl) | cases h

theorem isType_token (t : Ty) : isType t.token = true := by
  cases t <;> rfl

theorem reads_declaration {loc p : Loc} {x : Name} {t : Ty} {init : Expr} (hx : x.binding = none)
    (hi : init.IsPrinted) (ht : t.isWritten = true) (hstop : bindsAt? (nextKind rest) = none)
    (hn : ((decl loc x t init).tokens ++ rest).length < n) :
    (declaration n p).Reads ((decl loc x t init).tokens ++ rest) rest
      (decl loc x t init).Alike := by
  refine (reads_type ht).bind fun t' ht' => reads_name.bind fun q hq => .eat ?_
  simp [tokens] at hn
  refine (hi.expr hstop (by simp; omega)).map fun init' hinit => ?_
  obtain ⟨text, binding⟩ := x
  subst hx ht'
  simp [Alike, unplaced, hinit.symm, Name.unbound, hq]

theorem reads_column {col : Expr} (hc : col.IsPrinted)
    (hn : (bracketedTokens (col.tokens 0 false) ++ rest).length < n) :
    (column (Reader.expr n)).Reads (bracketedTokens (col.tokens 0 false) ++ rest) rest
      fun o => o.map Expr.unplaced = some col.unplaced := by
  have htokens : bracketedTokens (col.tokens 0 false) ++ rest =
      .punct .leftBracket :: (col.tokens 0 false ++ .punct .rightBracket :: rest) := by
    simp [bracketedTokens]
  rw [htokens] at hn ⊢
  exact .eat ((hc.closedIndex (by simp at hn ⊢; omega)).map fun col' hcol => congrArg some hcol)

theorem reads_targetSubscript {s : Subscript} (hs : s.IsSource)
    (hbracket : nextKind rest ≠ .punct .leftBracket) (hn : (s.tokens ++ rest).length < n) :
    (targetSubscript n).Reads (s.tokens ++ rest) rest
      fun o => o.map Subscript.unplaced = some s.unplaced := by
  obtain ⟨row, col⟩ := s
  have hrow : row.IsPrinted := row.isPrinted_of_isSource hs.1
  cases col with
  | none =>
    have htokens : (Subscript.mk row none).tokens ++ rest =
        .punct .leftBracket :: (row.tokens 0 false ++ .punct .rightBracket :: rest) := by
      simp [Subscript.tokens, bracketedTokens]
    rw [htokens] at hn ⊢
    refine .eat ((hrow.closedIndex (by simp at hn ⊢; omega)).bind fun row' hrow' => ?_)
    refine Reads.bind (P := fun col => col = none) (.not_eat hbracket (.pure rfl)) ?_
    rintro _ rfl
    exact .pure (congrArg (fun row => some (Subscript.mk row none)) hrow')
  | some col =>
    have htokens : (Subscript.mk row (some col)).tokens ++ rest =
        .punct .leftBracket :: (row.tokens 0 false ++ .punct .rightBracket ::
          (bracketedTokens (col.tokens 0 false) ++ rest)) := by
      simp [Subscript.tokens, bracketedTokens]
    rw [htokens] at hn ⊢
    refine .eat ((hrow.closedIndex (by simp at hn ⊢; omega)).bind fun row' hrow' => ?_)
    have hcol : col.IsPrinted := col.isPrinted_of_isSource hs.2
    refine (reads_column hcol (by simp at hn ⊢; omega)).bind fun col' hcol' => .pure ?_
    simp [Subscript.unplaced, hcol', hrow'.symm]

/-- The tokens of a call, and of an element of what it gives, begin with its name. -/
theorem exists_tokens_of_isHeaded (e : Expr) : e.isHeaded = true → ∀ (need : Nat) (caret : Bool),
    ∃ f ks, e.tokens need caret = .name f :: .punct .leftParen :: ks := by
  intro h need caret
  cases e with
  | call m f args => exact ⟨f, _, rfl⟩
  | index m base row col =>
    obtain ⟨hb, hs⟩ := Bool.and_eq_true_iff.1 h
    obtain ⟨f, ks, hks⟩ := exists_tokens_of_isHeaded base hb subscriptLevel false
    have hsingle : base.isSingle = false := by simpa using hs
    cases col with
    | none => exact ⟨f, _, by rw [Expr.tokens, hsingle, enclosed_false, hks]; rfl⟩
    | some col => exact ⟨f, _, by rw [Expr.tokens, hsingle, enclosed_false, hks]; rfl⟩
  | _ => cases h
termination_by structural e

theorem reads_postfixed {e : Expr} (hh : e.isHeaded = true) (he : e.IsPrinted)
    (hstop : bindsAt? (nextKind rest) = none) (hn : (e.tokens 0 false ++ rest).length ≤ n) :
    (postfixed n (Reader.expr n)).Reads (e.tokens 0 false ++ rest) rest e.Alike := by
  have hlevel : e.level = subscriptLevel := by
    cases e with
    | call => rfl
    | index => rfl
    | _ => cases hh
  have htokens : e.tokens 0 false = e.tokens subscriptLevel false := by
    rw [Expr.tokens_of_le (Nat.zero_le _), hlevel]
  have hread : Expr.ReadsBySubscripts e.isSingle (e.tokens subscriptLevel false) e :=
    he (Nat.le_refl _) false
  rw [← htokens] at hread
  exact hread.signed (k := 0) (stops_of_eq_none hstop) hn

theorem reads_simple {s : Stmt} {N : String → Prop} {p : Loc} (hs : s.isSimple = true)
    (hd : s.declares = false) (h : s.IsRead N) (hstop : bindsAt? (nextKind rest) = none)
    (hn : (s.tokens ++ rest).length < n) :
    (simple n p).Reads (s.tokens ++ rest) rest s.Alike := by
  cases s with
  | decl => cases hd
  | assign loc x sub value =>
    obtain ⟨text, binding⟩ := x
    cases sub with
    | none =>
      obtain ⟨rfl, hv⟩ := h
      simp only [tokens, List.cons_append] at hn ⊢
      refine .kindAfter ?_
      rw [if_neg (by simp)]
      refine reads_name.bind fun q hq => ?_
      refine Reads.bind (P := fun o => o = none) (.not_eat (by simp) (.pure rfl)) ?_
      rintro _ rfl
      refine reads_punct.bind fun _ _ => ?_
      have hv := value.isPrinted_of_isSource hv
      refine (hv.expr hstop (by simp at hn ⊢; omega)).map fun value' hvalue => ?_
      simp [Alike, unplaced, Name.unbound, hq, hvalue.symm]
    | some sub =>
      obtain ⟨rfl, hsub, hv⟩ := h
      have htokens : (assign loc ⟨text, none⟩ (some sub) value).tokens ++ rest =
          .name text :: (sub.tokens ++ .punct .assign :: (value.tokens 0 false ++ rest)) := by
        simp [tokens]
      rw [htokens] at hn ⊢
      refine .kindAfter ?_
      rw [if_neg (by simp [Subscript.tokens, bracketedTokens])]
      refine reads_name.bind fun q hq => ?_
      refine (reads_targetSubscript hsub (by simp) (by simp at hn ⊢; omega)).bind fun o ho =>
        reads_punct.bind fun _ _ => ?_
      have hv := value.isPrinted_of_isSource hv
      refine (hv.expr hstop (by simp at hn ⊢; omega)).map fun value' hvalue => ?_
      simp [Alike, unplaced, Name.unbound, hq, hvalue.symm, ho]
  | expr loc e =>
    obtain ⟨f, ks, hks⟩ := exists_tokens_of_isHeaded e h.1 0 false
    have he := e.isPrinted_of_isSource h.2
    refine .kindAfter ?_
    rw [if_pos (by rw [tokens, hks]; rfl)]
    refine (reads_postfixed h.1 he hstop (Nat.le_of_lt hn)).map fun e' he' => ?_
    simp [Alike, unplaced, he'.symm]
  | _ => cases hs

/-- The token that an assignment or a call begins with is a name. -/
theorem exists_tokens_of_isSimple {s : Stmt} {N : String → Prop} (hs : s.isSimple = true)
    (hd : s.declares = false) (h : s.IsRead N) : ∃ x ks, s.tokens = .name x :: ks := by
  cases s with
  | decl => cases hd
  | assign loc x sub value => cases sub <;> exact ⟨_, _, rfl⟩
  | expr loc e =>
    obtain ⟨f, ks, hks⟩ := exists_tokens_of_isHeaded e h.1 0 false
    exact ⟨f, _, hks⟩
  | _ => cases hs

theorem reads_loopInit {s : Stmt} {N : String → Prop} (hs : s.isSimple = true) (h : s.IsRead N)
    (hstop : bindsAt? (nextKind rest) = none) (hn : (s.tokens ++ rest).length < n) :
    (loopInit n).Reads (s.tokens ++ rest) rest s.Alike := by
  refine .loc fun p => .kind ?_
  cases hd : s.declares with
  | true =>
    cases s with
    | decl loc x t init =>
      rw [if_pos (show isType (nextKind ((decl loc x t init).tokens ++ rest)) = true from
        isType_token t)]
      exact reads_declaration h.1 (init.isPrinted_of_isSource h.2.1) h.2.2.1 hstop hn
    | _ => cases hd
  | false =>
    obtain ⟨x, ks, hks⟩ := exists_tokens_of_isSimple hs hd h
    rw [if_neg (by rw [hks]; simp [isType]), if_pos (by rw [hks]; rfl)]
    exact reads_simple hs hd h hstop hn

theorem reads_loopUpdate {s : Stmt} {N : String → Prop} (hs : s.isSimple = true)
    (hd : s.declares = false) (h : s.IsRead N) (hstop : bindsAt? (nextKind rest) = none)
    (hn : (s.tokens ++ rest).length < n) :
    (loopUpdate n).Reads (s.tokens ++ rest) rest s.Alike := by
  refine .loc fun p => .kind ?_
  obtain ⟨x, ks, hks⟩ := exists_tokens_of_isSimple hs hd h
  rw [if_pos (by rw [hks]; rfl)]
  exact reads_simple hs hd h hstop hn

/-! ### Functions -/

theorem reads_params {N : String → Prop} : ∀ {ps : List Param} {n : Nat},
    (∀ p ∈ ps, p.IsRead N) → ps ≠ [] →
    (Param.allTokens ps ++ .punct .rightParen :: rest).length ≤ n →
    (params n).Reads (Param.allTokens ps ++ .punct .rightParen :: rest)
      (.punct .rightParen :: rest) fun ps' => ps'.map Param.unplaced = ps.map Param.unplaced
  | [⟨⟨text, binding⟩, ty, loc⟩], n + 1, hps, _, _ => by
    obtain ⟨rfl, hw, -⟩ := hps _ (List.mem_singleton_self _)
    refine .loc fun q => (reads_type hw).bind fun ty' hty => reads_name.bind fun x hx =>
      .not_eat (by simp) (.pure ?_)
    simp [Param.unplaced, Name.unbound, hty, hx]
  | ⟨⟨text, binding⟩, ty, loc⟩ :: p :: ps, n + 1, hps, _, hn => by
    obtain ⟨rfl, hw, -⟩ := hps _ List.mem_cons_self
    have hrest : (params n).Reads (Param.allTokens (p :: ps) ++ .punct .rightParen :: rest)
        (.punct .rightParen :: rest)
        fun ps' => ps'.map Param.unplaced = (p :: ps).map Param.unplaced :=
      reads_params (fun q hq => hps q (List.mem_cons_of_mem _ hq)) (by simp)
        (by simp [Param.allTokens] at hn ⊢; omega)
    refine .loc fun q => (reads_type hw).bind fun ty' hty => reads_name.bind fun x hx =>
      .eat (hrest.map fun ps' hps' => ?_)
    rw [List.map_cons, hps']
    simp [Param.unplaced, Name.unbound, hty, hx]

/-! ### Lists of statements -/

/-- Whether a token begins a statement. -/
def begins : TokenKind → Bool
  | .name _ => true
  | .keyword k => k.startsStatement
  | _ => false

theorem exists_tokens {s : Stmt} {N : String → Prop} (h : s.IsRead N) :
    ∃ k ks, s.tokens = k :: ks ∧ begins k = true := by
  cases s with
  | decl loc x t init => exact ⟨_, _, rfl, by cases t <;> rfl⟩
  | assign loc x sub value => cases sub <;> exact ⟨_, _, rfl, rfl⟩
  | cond loc e body orElse => cases orElse <;> exact ⟨_, _, rfl, rfl⟩
  | «return» loc value => cases value <;> exact ⟨_, _, rfl, rfl⟩
  | expr loc e =>
    obtain ⟨f, ks, hks⟩ := exists_tokens_of_isHeaded e h.1 0 false
    exact ⟨_, _, hks, rfl⟩
  | _ => exact ⟨_, _, rfl, rfl⟩

theorem stops_eq_false {k : TokenKind} (h : begins k = true) (ending : Ending) :
    ending.stops k = false := by
  cases k with
  | keyword w => cases w <;> first | (cases ending <;> rfl) | cases h
  | name x => cases ending <;> rfl
  | _ => cases h

theorem ne_newline_of_stops {k : TokenKind} {ending : Ending} (h : ending.stops k = true) :
    k ≠ .newline := by
  rintro rfl
  cases ending <;> cases h

theorem reads_statementEnd {ks : List TokenKind} :
    statementEnd.Reads (.newline :: ks) ks fun _ => True := by
  intro c hc
  have hkind : c.kind = .newline := by rw [c.kind_eq_nextKind, hc, nextKind_cons]
  exact ⟨(), c.advance, by rw [statementEnd, if_pos hkind], by rw [c.kinds_advance, hc]; rfl, rfl,
    trivial⟩

theorem reads_attempt {r : Reader Stmt} {ks : List TokenKind} {P : Stmt → Prop}
    (h : r.Reads ks rest P) : (attempt r).Reads ks rest fun o => ∃ s, o = some s ∧ P s := by
  intro c hc
  obtain ⟨s, c', hrun, hk, hd, hs⟩ := h c hc
  exact ⟨some s, c', by rw [attempt, hrun], hk, hd, s, rfl, hs⟩

/-- An end of a line before statements is passed. -/
theorem reads_block_newline {ks : List TokenKind} {ending : Ending} {P : List Stmt → Prop}
    (hn : 0 < n) (h : (block n ending).Reads ks rest P) :
    (block n ending).Reads (.newline :: ks) rest P := by
  obtain ⟨n, rfl⟩ := Nat.exists_eq_succ_of_ne_zero (Nat.ne_of_gt hn)
  intro c hc
  obtain ⟨ss, c', hrun, hk, hd, hss⟩ := h c.advance (by rw [c.kinds_advance, hc]; rfl)
  refine ⟨ss, c', ?_, hk, hd, hss⟩
  rw [← hrun]
  have hskip : skipNewlines c = skipNewlines c.advance := by
    obtain ⟨tokens, last, reports⟩ := c
    cases tokens with
    | nil => cases hc
    | cons t ts =>
      have ht : t.kind = .newline := (List.cons.inj hc).1
      simp [skipNewlines, Cursor.advance, ht]
  simp only [block, bind, EStateM.bind, hskip]

section

variable {N : String → Prop}

/-- What reading a statement needs to know of its parts. -/
def IsPrinted (s : Stmt) : Prop :=
  ∀ ⦃n m : Nat⦄ ⦃rest : List TokenKind⦄, nextKind rest = .newline →
    (s.tokens ++ rest).length < n → (s.tokens ++ rest).length ≤ m →
    (unended n (block m)).Reads (s.tokens ++ rest) rest s.Alike

/-- What reading statements needs to know of them. -/
def ArePrinted (ss : List Stmt) : Prop :=
  ∀ ⦃n : Nat⦄ ⦃ending : Ending⦄ ⦃rest : List TokenKind⦄, ending.stops (nextKind rest) = true →
    (allTokens ss ++ rest).length < n →
    (block n ending).Reads (allTokens ss ++ rest) rest (AllAlike ss)

theorem arePrinted_nil : ArePrinted [] := by
  intro n ending rest hstop hn
  cases n with
  | zero => cases hn
  | succ n =>
    refine (reads_skipNewlines (ne_newline_of_stops hstop)).bind fun _ _ => .kind ?_
    rw [if_pos hstop]
    exact .pure rfl

theorem arePrinted_cons {s : Stmt} {ss : List Stmt} (h : s.IsRead N) (hs : s.IsPrinted)
    (hss : ArePrinted ss) : ArePrinted (s :: ss) := by
  intro n ending rest hstop hn
  cases n with
  | zero => cases hn
  | succ n =>
    have htokens : allTokens (s :: ss) ++ rest =
        s.tokens ++ .newline :: (allTokens ss ++ rest) := by
      simp [allTokens]
    rw [htokens] at hn ⊢
    obtain ⟨k, ks, hks, hk⟩ := exists_tokens h
    have hnext : nextKind (s.tokens ++ .newline :: (allTokens ss ++ rest)) = k := by
      rw [hks]
      rfl
    have hne : k ≠ .newline := by
      rintro rfl
      cases hk
    refine (reads_skipNewlines (by rwa [hnext])).bind fun _ _ => .kind ?_
    rw [hnext, stops_eq_false hk, if_neg (by simp)]
    have hread : (statement (n + 1) (block n)).Reads
        (s.tokens ++ .newline :: (allTokens ss ++ rest)) (allTokens ss ++ rest) s.Alike :=
      (hs rfl hn (Nat.le_of_lt_succ hn)).bind fun s' hs' =>
        reads_statementEnd.bind fun _ _ => .pure hs'
    refine (reads_attempt hread).bind ?_
    rintro _ ⟨s', rfl, hs'⟩
    refine (hss hstop (by simp [hks] at hn ⊢; omega)).map fun ss' hss' => ?_
    exact AllAlike.cons hs' hss'

theorem ArePrinted.body {ss : List Stmt} (h : ArePrinted ss) {m : Nat}
    (hn : (.punct .colon :: .newline :: (allTokens ss ++ .keyword .end :: rest)).length ≤ m) :
    (body (block m)).Reads (.punct .colon :: .newline :: (allTokens ss ++ .keyword .end :: rest))
      rest (AllAlike ss) := by
  have hblock : (block m .body).Reads (.newline :: (allTokens ss ++ .keyword .end :: rest))
      (.keyword .end :: rest) (AllAlike ss) :=
    reads_block_newline (by simp at hn; omega) (h rfl (by simp at hn ⊢; omega))
  exact reads_punct.bind fun _ _ => hblock.bind fun ss' hss' =>
    reads_keyword.bind fun _ _ => .pure hss'

end

/-! ### Forms of statements -/

section

variable {N : String → Prop} {loc : Loc}

theorem isPrinted_simple {s : Stmt} (hs : s.isSimple = true) (hd : s.declares = false)
    (h : s.IsRead N) : s.IsPrinted := by
  intro n m rest hnext hn _
  obtain ⟨x, ks, hks⟩ := exists_tokens_of_isSimple hs hd h
  refine .loc fun p => .kind ?_
  have hname : nextKind (s.tokens ++ rest) = .name x := by
    rw [hks]
    rfl
  rw [hname]
  exact reads_simple hs hd h (by rw [hnext]; rfl) hn

theorem isPrinted_decl {x : Name} {t : Ty} {init : Expr} (h : (decl loc x t init).IsRead N) :
    (decl loc x t init).IsPrinted := by
  intro n m rest hnext hn _
  refine .loc fun p => .kind ?_
  have hread : (declaration n p).Reads ((decl loc x t init).tokens ++ rest) rest
      (decl loc x t init).Alike :=
    reads_declaration h.1 (init.isPrinted_of_isSource h.2.1) h.2.2.1 (by rw [hnext]; rfl) hn
  cases t <;> exact hread

theorem isPrinted_while {e : Expr} {body : List Stmt} (he : e.IsPrinted) (hb : ArePrinted body) :
    (Stmt.while loc e body).IsPrinted := by
  intro n m rest _ hn hm
  have htokens : (Stmt.while loc e body).tokens ++ rest = .keyword .while :: (e.tokens 0 false ++
      .punct .colon :: .newline :: (allTokens body ++ .keyword .end :: rest)) := by
    simp [tokens]
  rw [htokens] at hn hm ⊢
  refine .loc fun p => .kind (.advance fun _ => ?_)
  refine (he.expr rfl (by simp at hn ⊢; omega)).bind fun e' he' => ?_
  refine (hb.body (by simp at hm ⊢; omega)).map fun body' hbody => ?_
  simp [Alike, unplaced, he'.symm, hbody.symm]

theorem isPrinted_repeat {e : Expr} {body : List Stmt} (he : e.IsPrinted)
    (hb : ArePrinted body) : (Stmt.repeat loc e body).IsPrinted := by
  intro n m rest _ hn hm
  have htokens : (Stmt.repeat loc e body).tokens ++ rest = .keyword .repeat ::
      (e.tokens 0 false ++ .keyword .times :: .punct .colon :: .newline ::
        (allTokens body ++ .keyword .end :: rest)) := by
    simp [tokens]
  rw [htokens] at hn hm ⊢
  refine .loc fun p => .kind (.advance fun _ => ?_)
  refine (he.expr rfl (by simp at hn ⊢; omega)).bind fun e' he' => reads_keyword.bind fun _ _ => ?_
  refine (hb.body (by simp at hm ⊢; omega)).map fun body' hbody => ?_
  simp [Alike, unplaced, he'.symm, hbody.symm]

theorem isPrinted_for {init update : Stmt} {e : Expr} {body : List Stmt}
    (hi : init.isSimple = true ∧ init.IsRead N) (he : e.IsPrinted)
    (hu : update.isSimple = true ∧ update.declares = false ∧ update.IsRead N)
    (hb : ArePrinted body) : (Stmt.for loc init e update body).IsPrinted := by
  intro n m rest _ hn hm
  have htokens : (Stmt.for loc init e update body).tokens ++ rest = .keyword .for ::
      (init.tokens ++ .punct .semicolon :: (e.tokens 0 false ++ .punct .semicolon ::
        (update.tokens ++ .punct .colon :: .newline ::
          (allTokens body ++ .keyword .end :: rest)))) := by
    simp [tokens]
  rw [htokens] at hn hm ⊢
  refine .loc fun p => .kind (reads_keyword.bind fun _ _ => ?_)
  refine (reads_loopInit hi.1 hi.2 rfl (by simp at hn ⊢; omega)).bind fun init' hinit =>
    reads_punct.bind fun _ _ => ?_
  refine (he.expr rfl (by simp at hn ⊢; omega)).bind fun e' he' => reads_punct.bind fun _ _ => ?_
  refine (reads_loopUpdate hu.1 hu.2.1 hu.2.2 rfl (by simp at hn ⊢; omega)).bind
    fun update' hupdate => ?_
  refine (hb.body (by simp at hm ⊢; omega)).map fun body' hbody => ?_
  simp [Alike, unplaced, hinit.symm, he'.symm, hupdate.symm, hbody.symm]

theorem isPrinted_function {f : String} {returns : Ty} {params : List Param} {body : List Stmt}
    (hps : ∀ p ∈ params, p.IsRead N) (hb : ArePrinted body) (hw : returns.isWritten = true) :
    (Stmt.function loc f returns params body).IsPrinted := by
  intro n m rest _ hn hm
  have htokens : (Stmt.function loc f returns params body).tokens ++ rest =
      .keyword .function :: returns.token :: .name f :: .punct .leftParen ::
        (Param.allTokens params ++ .punct .rightParen :: .punct .colon :: .newline ::
          (allTokens body ++ .keyword .end :: rest)) := by
    simp [tokens]
  rw [htokens] at hn hm ⊢
  refine .loc fun p => .kind (reads_keyword.bind fun _ _ => (reads_type hw).bind fun returns' hr =>
    reads_name.bind fun q hq => reads_punct.bind fun _ _ => ?_)
  have hend : ∀ ps', ps'.map Param.unplaced = params.map Param.unplaced → (do
      punct .rightParen
      let statements ← Reader.body (block m)
      pure (Stmt.function p q.1 returns' ps' statements) : Reader Stmt).Reads
        (.punct .rightParen :: .punct .colon :: .newline ::
          (allTokens body ++ .keyword .end :: rest)) rest
        (Stmt.function loc f returns params body).Alike := by
    refine fun ps' hps' => reads_punct.bind fun _ _ => ?_
    refine (hb.body (by simp at hm ⊢; omega)).map fun body' hbody => ?_
    simp [Alike, unplaced, hq, hr, hps', hbody.symm]
  refine .kind ?_
  cases params with
  | nil =>
    rw [if_pos (by rfl)]
    exact hend [] rfl
  | cons p ps =>
    have hnext : nextKind (Param.allTokens (p :: ps) ++ .punct .rightParen :: .punct .colon ::
        .newline :: (allTokens body ++ .keyword .end :: rest)) = p.ty.token := by
      cases ps <;> rfl
    rw [hnext, if_neg (by cases p.ty <;> simp [Ty.token])]
    exact (reads_params hps (by simp) (by simp at hn ⊢; omega)).bind hend

theorem isPrinted_cond {e : Expr} {body : List Stmt} (he : e.IsPrinted) (hb : ArePrinted body) :
    (Stmt.cond loc e body none).IsPrinted := by
  intro n m rest _ hn hm
  have htokens : (Stmt.cond loc e body none).tokens ++ rest = .keyword .if ::
      (e.tokens 0 false ++ .punct .colon :: .newline ::
        (allTokens body ++ .keyword .end :: rest)) := by
    simp [tokens]
  rw [htokens] at hn hm ⊢
  have hblock : (block m .branch).Reads (.newline :: (allTokens body ++ .keyword .end :: rest))
      (.keyword .end :: rest) (AllAlike body) :=
    reads_block_newline (by simp at hm; omega) (hb rfl (by simp at hm ⊢; omega))
  refine .loc fun p => .kind (reads_keyword.bind fun _ _ => ?_)
  refine (he.expr rfl (by simp at hn ⊢; omega)).bind fun e' he' => reads_punct.bind fun _ _ => ?_
  refine hblock.bind fun body' hbody => ?_
  refine Reads.bind (P := fun o => o = none) (.not_eat (by simp) (.pure rfl)) ?_
  rintro _ rfl
  refine reads_keyword.bind fun _ _ => .pure ?_
  simp [Alike, unplaced, he'.symm, hbody.symm]

theorem isPrinted_branch {e : Expr} {body orElse : List Stmt} (he : e.IsPrinted)
    (hb : ArePrinted body) (ho : ArePrinted orElse) :
    (Stmt.cond loc e body (some orElse)).IsPrinted := by
  intro n m rest _ hn hm
  have htokens : (Stmt.cond loc e body (some orElse)).tokens ++ rest = .keyword .if ::
      (e.tokens 0 false ++ .punct .colon :: .newline ::
        (allTokens body ++ .keyword .else :: .punct .colon :: .newline ::
          (allTokens orElse ++ .keyword .end :: rest))) := by
    simp [tokens]
  rw [htokens] at hn hm ⊢
  have hfirst : (block m .branch).Reads
      (.newline :: (allTokens body ++ .keyword .else :: .punct .colon :: .newline ::
        (allTokens orElse ++ .keyword .end :: rest)))
      (.keyword .else :: .punct .colon :: .newline :: (allTokens orElse ++ .keyword .end :: rest))
      (AllAlike body) :=
    reads_block_newline (by simp at hm; omega) (hb rfl (by simp at hm ⊢; omega))
  have hsecond : (block m .body).Reads (.newline :: (allTokens orElse ++ .keyword .end :: rest))
      (.keyword .end :: rest) (AllAlike orElse) :=
    reads_block_newline (by simp at hm; omega) (ho rfl (by simp at hm ⊢; omega))
  refine .loc fun p => .kind (reads_keyword.bind fun _ _ => ?_)
  refine (he.expr rfl (by simp at hn ⊢; omega)).bind fun e' he' => reads_punct.bind fun _ _ => ?_
  refine hfirst.bind fun body' hbody => ?_
  refine Reads.bind (P := fun o => ∃ ss, o = some ss ∧ AllAlike orElse ss)
    (.eat (reads_punct.bind fun _ _ => hsecond.map fun ss hss => ⟨ss, rfl, hss⟩)) ?_
  rintro _ ⟨orElse', rfl, horElse⟩
  refine reads_keyword.bind fun _ _ => .pure ?_
  simp [Alike, unplaced, he'.symm, hbody.symm, horElse.symm]

theorem isPrinted_return {value : Option Expr} (hv : ∀ e, value = some e → e.IsPrinted) :
    (Stmt.return loc value).IsPrinted := by
  intro n m rest hnext hn _
  refine .loc fun p => ?_
  cases value with
  | none =>
    have hread : (returned n).Reads rest rest fun o => o = none := by
      refine .kind ?_
      rw [hnext]
      exact .pure rfl
    exact .kind (.advance fun _ => hread.map fun o ho => by simp [Alike, unplaced, ho])
  | some e =>
    refine .kind (.advance fun _ => ?_)
    have hbegins : Expr.Begins (e.tokens 0 false ++ rest) := (e.begins_tokens 0 false).append
    have hend : endsStatement (nextKind (e.tokens 0 false ++ rest)) = false := by
      obtain ⟨k, ks, hks, hk⟩ := hbegins
      rw [hks, nextKind_cons]
      cases k with
      | keyword w => cases w <;> first | rfl | cases hk
      | newline | eof => cases hk
      | _ => rfl
    have hread : (returned n).Reads (e.tokens 0 false ++ rest) rest
        fun o => o.map Expr.unplaced = some e.unplaced := by
      refine .kind ?_
      rw [hend, if_neg (by simp)]
      refine ((hv e rfl).expr (by rw [hnext]; rfl) (by simp [tokens] at hn ⊢; omega)).map ?_
      exact fun e' he' => congrArg some he'
    exact hread.map fun o ho => by simp [Alike, unplaced, ho]

theorem isPrinted_print {values : List Expr} (hv : ∀ e ∈ values, e.IsPrinted)
    (hne : values ≠ []) : (Stmt.print loc values).IsPrinted := by
  intro n m rest hnext hn _
  refine .loc fun p => .kind (.advance fun _ => ?_)
  have hlength : (Expr.allTokens values ++ rest).length < n := by
    simp [tokens] at hn ⊢
    omega
  refine (Expr.reads_separated (by rw [hnext]; rfl) (by simp [hnext]) hv hne hlength hlength).map ?_
  exact fun values' hvalues => by simp [Alike, unplaced, hvalues.symm]

theorem isPrinted_input {x : Name} (hx : x.binding = none) : (Stmt.input loc x).IsPrinted := by
  intro n m rest _ _ _
  obtain ⟨text, binding⟩ := x
  subst hx
  refine .loc fun p => .kind (.advance fun _ => reads_name.bind fun q hq => .pure ?_)
  simp [Alike, unplaced, Name.unbound, hq]

end

mutual

/-- A statement is read from its tokens. -/
theorem isPrinted_of_isRead {N : String → Prop} (s : Stmt) : s.IsRead N → s.IsPrinted := by
  intro h
  cases s with
  | decl loc x t init => exact isPrinted_decl h
  | assign loc x sub value => exact isPrinted_simple rfl rfl h
  | expr loc e => exact isPrinted_simple rfl rfl h
  | function loc f returns params body =>
    exact isPrinted_function h.1 (arePrinted_of_areRead body h.2.1) h.2.2
  | cond loc e body orElse =>
    cases orElse with
    | none =>
      exact isPrinted_cond (e.isPrinted_of_isSource h.1) (arePrinted_of_areRead body h.2)
    | some orElse =>
      exact isPrinted_branch (e.isPrinted_of_isSource h.1) (arePrinted_of_areRead body h.2.1)
        (arePrinted_of_areRead orElse h.2.2)
  | «while» loc e body =>
    exact isPrinted_while (e.isPrinted_of_isSource h.1) (arePrinted_of_areRead body h.2)
  | «repeat» loc e body =>
    exact isPrinted_repeat (e.isPrinted_of_isSource h.1) (arePrinted_of_areRead body h.2)
  | «for» loc init e update body =>
    exact isPrinted_for h.1 (e.isPrinted_of_isSource h.2.1) h.2.2.1
      (arePrinted_of_areRead body h.2.2.2)
  | «break» loc | «continue» loc =>
    exact fun _ _ _ _ _ _ => .loc fun p => .kind (.advance fun _ => .pure rfl)
  | «return» loc value =>
    refine isPrinted_return fun e he => e.isPrinted_of_isSource ?_
    subst he
    exact h
  | print loc values => exact isPrinted_print (Expr.isPrinted_of_areSource values h.1) h.2
  | input loc x => exact isPrinted_input h
termination_by structural s

/-- Statements are read from their tokens. -/
theorem arePrinted_of_areRead {N : String → Prop} (ss : List Stmt) :
    AreRead N ss → ArePrinted ss := by
  intro h
  cases ss with
  | nil => exact arePrinted_nil
  | cons s ss =>
    exact arePrinted_cons h.1 (isPrinted_of_isRead s h.1) (arePrinted_of_areRead ss h.2)
termination_by structural ss

end

end Stmt

/-- Reading inverts printing: tokens of the kinds that a program is printed with, which was read
from any tokens, are read as the same program up to places, and nothing is reported. -/
theorem Program.parse_tokens {source tokens : List Token}
    (h : tokens.map (·.kind) = (Program.parse source).program.tokens) :
    (Program.parse tokens).reports = [] ∧
      (Program.parse tokens).program.unplaced = (Program.parse source).program.unplaced := by
  have hread : Stmt.AreRead (fun _ => True) (Program.parse source).program :=
    areRead_parse fun _ _ _ _ => trivial
  have hlength := congrArg List.length h
  rw [List.length_map] at hlength
  have hprinted : (block (tokens.length + 1) .program).Reads
      (Program.parse source).program.tokens [.eof]
      (Stmt.AllAlike (Program.parse source).program) :=
    Stmt.arePrinted_of_areRead _ hread rfl (hlength ▸ Nat.lt_succ_self _)
  obtain ⟨p, c, hrun, -, hreports, hp⟩ := hprinted (.start tokens) h
  rw [Program.parse, hrun]
  exact ⟨hreports, hp⟩

/-- Tokens with what needs parentheses, the base of a power, a bare `t` behind a `^` and the base
of a single index, and with a pair that nothing needs. -/
def powersSource : List Token :=
  ([.name "x", .punct .assign, .punct .leftParen, .punct .leftParen, .int 2, .punct .caret, .int 3,
    .punct .rightParen, .punct .rightParen, .punct .caret, .punct .leftParen, .name "t",
    .punct .rightParen, .punct .caret, .name "t", .newline,
    .keyword .print, .punct .leftParen, .name "a", .punct .leftBracket, .int 0,
    .punct .rightBracket, .punct .rightParen, .punct .leftBracket, .int 1, .punct .rightBracket,
    .eof] : List TokenKind).map (Token.mk · .none)

/-- The tokens that this program is printed with, all of them on the third line. -/
def powersPrinted : List Token :=
  ([.name "x", .punct .assign, .punct .leftParen, .int 2, .punct .caret, .int 3, .punct .rightParen,
    .punct .caret, .punct .leftParen, .name "t", .punct .rightParen, .punct .caret, .name "t",
    .newline,
    .keyword .print, .punct .leftParen, .name "a", .punct .leftBracket, .int 0,
    .punct .rightBracket, .punct .rightParen, .punct .leftBracket, .int 1, .punct .rightBracket,
    .newline, .eof] : List TokenKind).map (Token.mk · ⟨0, 0, 3, 1⟩)

theorem Program.parse_tokens_powers : (Program.parse powersPrinted).reports = [] ∧
    (Program.parse powersPrinted).program.unplaced =
      (Program.parse powersSource).program.unplaced :=
  Program.parse_tokens (by decide +kernel)

end NumericScript
