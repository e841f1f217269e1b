import NumericScript.Proofs.Location.Scan
import NumericScript.Proofs.Syntax.Source

/-! # Places of trees

All places in a tree are those of tokens from which it was read, and so are the places of syntax
errors.

* `Expr.Located`, `Stmt.Located`: trees all of whose places have a property.
* `Reader.Takes`: readers that take places from tokens only.
* `Program.located_parse`: programs and syntax errors have the places of tokens. -/

namespace NumericScript

variable (L : Loc → Prop)

/-! ### Trees -/

mutual

/-- All places in an expression have the property `L`. -/
def Expr.Located : Expr → Prop
  | .int m _ | .float m _ | .str m _ | .bool m _ | .name m _ => L m.loc
  | .binary m _ l r => L m.loc ∧ l.Located ∧ r.Located
  | .unary m _ e => L m.loc ∧ e.Located
  | .call m _ args => L m.loc ∧ Expr.AllLocated args
  | .array m items => L m.loc ∧ Expr.AllLocated items
  | .matrix m rows => L m.loc ∧ Expr.AllLocatedRows rows
  | .index m base row none => L m.loc ∧ base.Located ∧ row.Located
  | .index m base row (some col) => L m.loc ∧ base.Located ∧ row.Located ∧ col.Located

/-- All places in expressions have the property `L`. -/
def Expr.AllLocated : List Expr → Prop
  | [] => True
  | e :: es => e.Located ∧ Expr.AllLocated es

/-- All places in rows of expressions have the property `L`. -/
def Expr.AllLocatedRows : List (List Expr) → Prop
  | [] => True
  | es :: rows => Expr.AllLocated es ∧ Expr.AllLocatedRows rows

end

/-- All places in an expression that may be missing have the property `L`. -/
def Expr.LocatedOptional : Option Expr → Prop
  | none => True
  | some e => e.Located L

/-- All places in a subscript that may be missing have the property `L`. -/
def Subscript.LocatedOptional : Option Subscript → Prop
  | none => True
  | some s => s.row.Located L ∧ Expr.LocatedOptional L s.col

mutual

/-- All places in a statement have the property `L`. -/
def Stmt.Located : Stmt → Prop
  | .decl p _ _ init => L p ∧ init.Located L
  | .assign p _ sub value => L p ∧ Subscript.LocatedOptional L sub ∧ value.Located L
  | .function p _ _ params body => L p ∧ (∀ q ∈ params, L q.loc) ∧ Stmt.AllLocated body
  | .cond p e body none => L p ∧ e.Located L ∧ Stmt.AllLocated body
  | .cond p e body (some orElse) =>
    L p ∧ e.Located L ∧ Stmt.AllLocated body ∧ Stmt.AllLocated orElse
  | .while p e body => L p ∧ e.Located L ∧ Stmt.AllLocated body
  | .repeat p count body => L p ∧ count.Located L ∧ Stmt.AllLocated body
  | .for p init e update body =>
    L p ∧ init.Located ∧ e.Located L ∧ update.Located ∧ Stmt.AllLocated body
  | .break p | .continue p => L p
  | .return p value => L p ∧ Expr.LocatedOptional L value
  | .print p values => L p ∧ Expr.AllLocated L values
  | .input p _ => L p
  | .expr p e => L p ∧ e.Located L

/-- All places in statements have the property `L`. -/
def Stmt.AllLocated : List Stmt → Prop
  | [] => True
  | s :: ss => s.Located ∧ Stmt.AllLocated ss

end

mutual

theorem Expr.located_true : ∀ e : Expr, e.Located fun _ => True
  | .int _ _ | .float _ _ | .str _ _ | .bool _ _ | .name _ _ => trivial
  | .binary _ _ l r => ⟨trivial, l.located_true, r.located_true⟩
  | .unary _ _ e => ⟨trivial, e.located_true⟩
  | .call _ _ args => ⟨trivial, Expr.allLocated_true args⟩
  | .array _ items => ⟨trivial, Expr.allLocated_true items⟩
  | .matrix _ rows => ⟨trivial, Expr.allLocatedRows_true rows⟩
  | .index _ base row none => ⟨trivial, base.located_true, row.located_true⟩
  | .index _ base row (some col) =>
    ⟨trivial, base.located_true, row.located_true, col.located_true⟩

theorem Expr.allLocated_true : ∀ es : List Expr, Expr.AllLocated (fun _ => True) es
  | [] => trivial
  | e :: es => ⟨e.located_true, Expr.allLocated_true es⟩

theorem Expr.allLocatedRows_true : ∀ rows : List (List Expr),
    Expr.AllLocatedRows (fun _ => True) rows
  | [] => trivial
  | es :: rows => ⟨Expr.allLocated_true es, Expr.allLocatedRows_true rows⟩

end

theorem Expr.locatedOptional_true : ∀ e : Option Expr, Expr.LocatedOptional (fun _ => True) e
  | none => trivial
  | some e => e.located_true

mutual

theorem Stmt.located_true : ∀ s : Stmt, s.Located fun _ => True
  | .decl _ _ _ init => ⟨trivial, init.located_true⟩
  | .assign _ _ none value => ⟨trivial, trivial, value.located_true⟩
  | .assign _ _ (some s) value =>
    ⟨trivial, ⟨s.row.located_true, Expr.locatedOptional_true s.col⟩, value.located_true⟩
  | .function _ _ _ _ body => ⟨trivial, fun _ _ => trivial, Stmt.allLocated_true body⟩
  | .cond _ e body none => ⟨trivial, e.located_true, Stmt.allLocated_true body⟩
  | .cond _ e body (some orElse) =>
    ⟨trivial, e.located_true, Stmt.allLocated_true body, Stmt.allLocated_true orElse⟩
  | .while _ e body => ⟨trivial, e.located_true, Stmt.allLocated_true body⟩
  | .repeat _ count body => ⟨trivial, count.located_true, Stmt.allLocated_true body⟩
  | .for _ init e update body =>
    ⟨trivial, init.located_true, e.located_true, update.located_true, Stmt.allLocated_true body⟩
  | .break _ | .continue _ | .input _ _ => trivial
  | .return _ value => ⟨trivial, Expr.locatedOptional_true value⟩
  | .print _ values => ⟨trivial, Expr.allLocated_true values⟩
  | .expr _ e => ⟨trivial, e.located_true⟩

/-- Of every place something trivial holds. -/
theorem Stmt.allLocated_true : ∀ ss : List Stmt, Stmt.AllLocated (fun _ => True) ss
  | [] => trivial
  | s :: ss => ⟨s.located_true, Stmt.allLocated_true ss⟩

end

/-- A cursor before tokens with the property `L`.  So are the last of all tokens and the errors
reported so far. -/
structure Cursor.Located (c : Cursor) : Prop where
  rest : ∀ t ∈ c.rest, L t.span.loc
  last : L c.last.loc
  reports : ∀ r ∈ c.reports, L r.loc

variable {L}

theorem Expr.Located.loc {e : Expr} (h : e.Located L) : L e.loc := by
  cases e with
  | index m base row col =>
    cases col <;> exact h.1
  | binary | unary | call | array | matrix => exact h.1
  | _ => exact h

theorem Stmt.Located.loc {s : Stmt} (h : s.Located L) : L s.loc := by
  cases s with
  | cond p e body orElse =>
    cases orElse <;> exact h.1
  | «break» | «continue» | input => exact h
  | _ => exact h.1

namespace Cursor.Located

variable {c : Cursor}

theorem loc (h : c.Located L) : L c.loc := by
  unfold Cursor.loc
  split
  · exact h.rest _ (by simp [*])
  · exact h.last

theorem of_subset (h : c.Located L) {ts : List Token} (hts : ts ⊆ c.rest) :
    ({ c with rest := ts } : Cursor).Located L :=
  ⟨fun t ht => h.rest t (hts ht), h.last, h.reports⟩

theorem advance (h : c.Located L) : c.advance.Located L := h.of_subset (List.tail_sublist _).subset

end Cursor.Located

@[simp] theorem Cursor.loc_missing (c : Cursor) (expected : Expected) :
    (c.missing expected).loc = c.loc := rfl

/-! ### Readers -/

namespace Reader

/-- A reader that takes all places from tokens with the property `L`, for the errors that it
reports too.  What it gives has the property `P`. -/
def Takes {α : Type} (L : Loc → Prop) (r : Reader α) (P : α → Prop) : Prop :=
  ∀ c, c.Located L → match r c with
    | .ok a c' => P a ∧ c'.Located L
    | .error e c' => L e.loc ∧ c'.Located L

section

variable {α β : Type} {P : α → Prop} {Q : β → Prop} {r r' : Reader α}

theorem Takes.pure {a : α} (h : P a) : Takes L (Pure.pure a) P := fun _ hc => ⟨h, hc⟩

theorem Takes.missing {e : Expected} : Takes L (Reader.missing e) P := fun _ hc => ⟨hc.loc, hc⟩

theorem Takes.throw {e : SyntaxReport} (h : L e.loc) : Takes L (MonadExcept.throw e) P :=
  fun _ hc => ⟨h, hc⟩

theorem Takes.bind {f : α → Reader β} (hr : r.Takes L P) (hf : ∀ a, P a → (f a).Takes L Q) :
    (r >>= f).Takes L Q := by
  intro c hc
  have h := hr c hc
  change match EStateM.bind r f c with
    | .ok b c' => Q b ∧ c'.Located L
    | .error e c' => L e.loc ∧ c'.Located L
  unfold EStateM.bind
  cases hrc : r c with
  | ok a c₁ =>
    rw [hrc] at h
    exact hf a h.1 c₁ h.2
  | error e c₁ =>
    rw [hrc] at h
    exact h

theorem Takes.ite {c : Prop} [Decidable c] (h : r.Takes L P) (h' : r'.Takes L P) :
    (if c then r else r').Takes L P := by
  split
  · exact h
  · exact h'

end

/-! ### Single tokens -/

theorem takes_kind : kind.Takes L fun _ => True := fun _ hc => ⟨trivial, hc⟩

theorem takes_kindAfter : kindAfter.Takes L fun _ => True := fun _ hc => ⟨trivial, hc⟩

theorem takes_loc : loc.Takes L L := fun _ hc => ⟨hc.loc, hc⟩

theorem takes_advance : advance.Takes L L := fun _ hc => ⟨hc.loc, hc.advance⟩

theorem takes_eat (k : TokenKind) : (eat k).Takes L fun _ => True := by
  intro c hc
  unfold eat
  by_cases hk : c.kind = k
  · simpa [hk] using hc.advance
  · simpa [hk] using hc

theorem takes_punct (p : Punct) : (punct p).Takes L fun _ => True := by
  intro c hc
  unfold punct
  by_cases hk : c.kind = .punct p
  · simpa [hk] using hc.advance
  · simpa [hk] using And.intro hc.loc hc

theorem takes_keyword (k : Keyword) : (keyword k).Takes L fun _ => True := by
  intro c hc
  unfold keyword
  by_cases hk : c.kind = .keyword k
  · simpa [hk] using hc.advance
  · simpa [hk] using And.intro hc.loc hc

theorem takes_name : name.Takes L fun p => L p.2 := by
  intro c hc
  unfold name
  cases c.kind with
  | name x => exact ⟨hc.loc, hc.advance⟩
  | _ => exact ⟨hc.loc, hc⟩

theorem takes_skipNewlines : skipNewlines.Takes L fun _ => True :=
  fun _ hc => ⟨trivial, hc.of_subset (List.dropWhile_sublist _).subset⟩

theorem takes_type : type.Takes L fun _ => True := by
  intro c hc
  unfold type
  dsimp only
  split <;> rename_i h <;> split at h <;> cases h
  all_goals first
    | exact ⟨trivial, hc.advance⟩
    | exact ⟨hc.loc, hc⟩

theorem takes_statementEnd : statementEnd.Takes L fun _ => True := by
  intro c hc
  unfold statementEnd
  by_cases hk : c.kind = .newline
  · simpa [hk] using hc.advance
  · by_cases he : endsStatement c.kind = true
    · simpa [hk, he] using hc
    · simpa [hk, he] using And.intro hc.loc hc

theorem takes_atTranspose : atTranspose.Takes L fun _ => True :=
  .bind takes_kind fun _ _ => .bind takes_kindAfter fun _ _ => .pure trivial

/-! ### Expressions -/

section

variable {n : Nat} {operand : Reader Expr}

theorem takes_chain {ops : TokenKind → Option BinaryOp} (ho : operand.Takes L (Expr.Located L)) :
    ∀ (n : Nat) {left : Expr}, left.Located L → (chain ops operand n left).Takes L (Expr.Located L)
  | 0, left, hl => .pure hl
  | n + 1, left, hl => by
    refine .bind takes_kind fun k _ => ?_
    cases ops k with
    | none => exact .pure hl
    | some op =>
      exact .bind takes_advance fun loc hloc => .bind ho fun right hr =>
        takes_chain ho n ⟨hloc, hl, hr⟩

theorem takes_climb (ho : operand.Takes L (Expr.Located L)) :
    ∀ levels : List (TokenKind → Option BinaryOp),
      (climb n operand levels).Takes L (Expr.Located L)
  | [] => ho
  | _ :: tighter =>
    .bind (takes_climb ho tighter) fun _ hl => takes_chain (takes_climb ho tighter) n hl

theorem takes_powers (ho : operand.Takes L (Expr.Located L)) :
    ∀ (n : Nat) {base : Expr}, base.Located L → (powers operand n base).Takes L (Expr.Located L)
  | 0, base, hb => .pure hb
  | n + 1, base, hb => by
    refine .bind takes_kind fun k _ => .ite (.bind takes_advance fun loc hloc =>
      .bind takes_atTranspose fun t _ => ?_) (.pure hb)
    cases t with
    | true => exact .bind takes_advance fun _ _ => takes_powers ho n ⟨hloc, hb⟩
    | false =>
      exact .bind ho fun next hn => .bind (takes_powers ho n hn) fun exponent he =>
        .pure ⟨hloc, hb, he⟩

theorem takes_power (ho : operand.Takes L (Expr.Located L)) :
    (power n operand).Takes L (Expr.Located L) := .bind ho fun _ hb => takes_powers ho n hb

theorem takes_signed (ho : operand.Takes L (Expr.Located L)) :
    ∀ n : Nat, (signed operand n).Takes L (Expr.Located L)
  | 0 => ho
  | n + 1 => by
    refine .bind takes_kind fun k _ => ?_
    cases signOp? k with
    | none => exact ho
    | some op =>
      exact .bind takes_advance fun loc hloc => .bind (takes_signed ho n) fun e he =>
        .pure ⟨hloc, he⟩

variable {expr : Reader Expr} (h : expr.Takes L (Expr.Located L))
include h

theorem takes_closedIndex : (closedIndex expr).Takes L (Expr.Located L) :=
  .bind h fun _ he => .bind (takes_punct _) fun _ _ => .pure he

theorem takes_column : (column expr).Takes L (Expr.LocatedOptional L) := by
  refine .bind (takes_eat _) fun b _ => ?_
  cases b with
  | true => exact .bind (takes_closedIndex h) fun e he => .pure he
  | false => exact .pure trivial

theorem takes_subscripts : ∀ (n : Nat) {base : Expr}, base.Located L →
    (subscripts expr n base).Takes L (Expr.Located L)
  | 0, base, hb => .pure hb
  | n + 1, base, hb => by
    refine .bind takes_kind fun k _ => .ite (.bind takes_advance fun loc hloc =>
      .bind (takes_closedIndex h) fun row hr => .bind (takes_column h) fun col hc => ?_) (.pure hb)
    refine takes_subscripts n ?_
    cases col with
    | none => exact ⟨hloc, hb, hr⟩
    | some col => exact ⟨hloc, hb, hr, hc⟩

theorem takes_separated : ∀ n : Nat, (separated expr n).Takes L (Expr.AllLocated L)
  | 0 => .pure trivial
  | n + 1 => by
    refine .bind h fun e he => .bind (takes_eat _) fun b _ => ?_
    cases b with
    | true => exact .bind (takes_separated n) fun es hes => .pure ⟨he, hes⟩
    | false => exact .pure ⟨he, trivial⟩

theorem takes_arguments : (arguments n expr).Takes L (Expr.AllLocated L) := by
  have hend : ∀ args, Expr.AllLocated L args →
      Takes L (do punct .rightParen; Pure.pure args) (Expr.AllLocated L) :=
    fun args ha => .bind (takes_punct _) fun _ _ => .pure ha
  exact .bind takes_kind fun _ _ => .ite (hend _ trivial) (.bind (takes_separated h n) hend)

theorem takes_elements : ∀ n : Nat, (elements expr n).Takes L (Expr.AllLocated L)
  | 0 => .pure trivial
  | n + 1 => by
    refine .bind h fun e he => .bind takes_skipNewlines fun _ _ => .bind (takes_eat _) fun b _ => ?_
    cases b with
    | true =>
      exact .bind takes_skipNewlines fun _ _ => .bind (takes_elements n) fun es hes =>
        .pure ⟨he, hes⟩
    | false => exact .pure ⟨he, trivial⟩

omit h in
theorem located_of_mapM_items? {es : List Expr} : ∀ {rows : List (List Expr)},
    Expr.AllLocated L es → es.mapM items? = some rows → Expr.AllLocatedRows L rows := by
  induction es with
  | nil =>
    rintro rows - ⟨⟩
    exact trivial
  | cons e es ih =>
    rintro rows ⟨he, hes⟩ hr
    rw [mapM_items?_cons] at hr
    obtain ⟨row, hrow, hr⟩ := Option.bind_eq_some_iff.1 hr
    obtain ⟨rest, hrest, rfl⟩ := Option.map_eq_some_iff.1 hr
    cases e with
    | array m items =>
      cases hrow
      exact ⟨he.2, ih hes hrest⟩
    | _ => cases hrow

omit h in
theorem located_literal {loc : Loc} (hloc : L loc) {es : List Expr} (hes : Expr.AllLocated L es) :
    (literal loc es).Located L := by
  unfold literal
  split
  · exact ⟨hloc, hes⟩
  · split
    · exact ⟨hloc, located_of_mapM_items? hes ‹_›⟩
    · exact ⟨hloc, hes⟩

theorem takes_bracketed {loc : Loc} (hloc : L loc) :
    (bracketed n expr loc).Takes L (Expr.Located L) := by
  have hend : ∀ es, Expr.AllLocated L es →
      Takes L (do punct .rightBracket; Pure.pure (literal loc es)) (Expr.Located L) :=
    fun es hes => .bind (takes_punct _) fun _ _ => .pure (located_literal hloc hes)
  exact .bind takes_skipNewlines fun _ _ => .bind takes_kind fun _ _ =>
    .ite (hend _ trivial) (.bind (takes_elements h n) hend)

omit h in
theorem takes_textLiteral {loc : Loc} (hloc : L loc) (raw : String) :
    (textLiteral loc raw).Takes L (Expr.Located L) := by
  intro c hc
  unfold textLiteral
  cases Text.unescape raw.toList with
  | ok cs => exact ⟨hloc, hc⟩
  | error ch => exact ⟨hloc, hc⟩

theorem takes_primary : (primary n expr).Takes L (Expr.Located L) := by
  refine .bind takes_kind fun k _ => ?_
  cases k with
  | int value => exact .bind takes_advance fun _ hloc => .pure hloc
  | float value => exact .bind takes_advance fun _ hloc => .pure hloc
  | str raw => exact .bind takes_advance fun _ hloc => takes_textLiteral hloc raw
  | keyword word =>
    cases word with
    | true => exact .bind takes_advance fun _ hloc => .pure hloc
    | false => exact .bind takes_advance fun _ hloc => .pure hloc
    | _ => exact .missing
  | name x =>
    refine .bind takes_advance fun loc hloc => .bind (takes_eat _) fun b _ => ?_
    cases b with
    | true => exact .bind (takes_arguments h) fun args ha => .pure ⟨hloc, ha⟩
    | false => exact .pure hloc
  | punct mark =>
    cases mark with
    | leftParen =>
      exact .bind takes_advance fun _ _ => .bind h fun e he => .bind (takes_punct _) fun _ _ =>
        .pure he
    | leftBracket => exact .bind takes_advance fun _ hloc => takes_bracketed h hloc
    | _ => exact .missing
  | _ => exact .missing

theorem takes_postfixed : (postfixed n expr).Takes L (Expr.Located L) :=
  .bind (takes_primary h) fun _ hb => takes_subscripts h n hb

end

theorem takes_expr : ∀ n : Nat, (expr n).Takes L (Expr.Located L)
  | 0 => .missing
  | n + 1 => takes_climb (takes_power (takes_signed (takes_postfixed (takes_expr n)) n)) levels

/-! ### Statements -/

variable {n : Nat} {p : Loc}

theorem takes_declaration (hp : L p) : (declaration n p).Takes L (Stmt.Located L) := by
  refine .bind takes_type fun _ _ => .bind takes_name fun x hx => .bind (takes_eat _) fun b _ => ?_
  cases b with
  | true => exact .bind (takes_expr n) fun init hi => .pure ⟨hp, hi⟩
  | false => exact .throw hx

theorem takes_targetSubscript : (targetSubscript n).Takes L (Subscript.LocatedOptional L) := by
  refine .bind (takes_eat _) fun b _ => ?_
  cases b with
  | true =>
    exact .bind (takes_closedIndex (takes_expr n)) fun row hr =>
      .bind (takes_column (takes_expr n)) fun col hc => .pure ⟨hr, hc⟩
  | false => exact .pure trivial

theorem takes_simple (hp : L p) : (simple n p).Takes L (Stmt.Located L) :=
  .bind takes_kindAfter fun _ _ => .ite
    (.bind (takes_postfixed (takes_expr n)) fun _ he => .pure ⟨hp, he⟩)
    (.bind takes_name fun _ _ => .bind takes_targetSubscript fun _ hs =>
      .bind (takes_punct _) fun _ _ => .bind (takes_expr n) fun _ hv => .pure ⟨hp, hs, hv⟩)

theorem takes_params : ∀ n : Nat, (params n).Takes L fun ps => ∀ q ∈ ps, L q.loc
  | 0 => .pure nofun
  | n + 1 => by
    refine .bind takes_loc fun loc hloc => .bind takes_type fun _ _ => .bind takes_name fun _ _ =>
      .bind (takes_eat _) fun b _ => ?_
    cases b with
    | true =>
      exact .bind (takes_params n) fun ps hps => .pure (List.forall_mem_cons.2 ⟨hloc, hps⟩)
    | false => exact .pure (List.forall_mem_singleton.2 hloc)

theorem takes_loopInit : (loopInit n).Takes L (Stmt.Located L) :=
  .bind takes_loc fun _ hloc => .bind takes_kind fun _ _ =>
    .ite (takes_declaration hloc) (.ite (takes_simple hloc) .missing)

theorem takes_loopUpdate : (loopUpdate n).Takes L (Stmt.Located L) :=
  .bind takes_loc fun _ hloc => .bind takes_kind fun _ _ => .ite (takes_simple hloc) .missing

theorem takes_returned : (returned n).Takes L (Expr.LocatedOptional L) :=
  .bind takes_kind fun _ _ => .ite (.pure trivial) (.bind (takes_expr n) fun _ he => .pure he)

section

variable {block : Block} (hb : ∀ ending, (block ending).Takes L (Stmt.AllLocated L))
include hb

theorem takes_body : (body block).Takes L (Stmt.AllLocated L) :=
  .bind (takes_punct _) fun _ _ => .bind (hb _) fun _ hs => .bind (takes_keyword _) fun _ _ =>
    .pure hs

theorem takes_conditional (hp : L p) : (conditional n block p).Takes L (Stmt.Located L) := by
  have halternative : (alternative block).Takes L fun o => ∀ ss ∈ o, Stmt.AllLocated L ss := by
    refine .bind (takes_eat _) fun b _ => ?_
    cases b with
    | true =>
      exact .bind (takes_punct _) fun _ _ => .bind (hb _) fun ss hs => .pure (by simpa using hs)
    | false => exact .pure nofun
  refine .bind (takes_keyword _) fun _ _ => .bind (takes_expr n) fun e he =>
    .bind (takes_punct _) fun _ _ => .bind (hb _) fun ss hs => .bind halternative fun o ho =>
      .bind (takes_keyword _) fun _ _ => .pure ?_
  cases o with
  | none => exact ⟨hp, he, hs⟩
  | some orElse => exact ⟨hp, he, hs, ho _ rfl⟩

theorem takes_counting (hp : L p) : (counting n block p).Takes L (Stmt.Located L) :=
  .bind (takes_keyword _) fun _ _ => .bind takes_loopInit fun _ hi => .bind (takes_punct _)
    fun _ _ => .bind (takes_expr n) fun _ he => .bind (takes_punct _) fun _ _ =>
      .bind takes_loopUpdate fun _ hu => .bind (takes_body hb) fun _ hs =>
        .pure ⟨hp, hi, he, hu, hs⟩

theorem takes_function (hp : L p) : (function n block p).Takes L (Stmt.Located L) := by
  have hend : ∀ (returns : Ty) (f : String) (ps : List Param), (∀ q ∈ ps, L q.loc) →
      Takes L (do
        punct .rightParen
        let ss ← body block
        Pure.pure (Stmt.function p f returns ps ss)) (Stmt.Located L) :=
    fun returns f ps hps => .bind (takes_punct _) fun _ _ => .bind (takes_body hb) fun ss hs =>
      .pure ⟨hp, hps, hs⟩
  exact .bind (takes_keyword _) fun _ _ => .bind takes_type fun returns _ => .bind takes_name
    fun f _ => .bind (takes_punct _) fun _ _ => .bind takes_kind fun _ _ =>
      .ite (hend returns f.1 _ nofun) (.bind (takes_params n) fun ps hps => hend returns f.1 ps hps)

theorem takes_unended : (unended n block).Takes L (Stmt.Located L) := by
  refine .bind takes_loc fun p hp => .bind takes_kind fun k _ => ?_
  cases k with
  | name x => exact takes_simple hp
  | keyword word =>
    cases word with
    | function => exact takes_function hb hp
    | «if» => exact takes_conditional hb hp
    | «while» =>
      exact .bind takes_advance fun _ _ => .bind (takes_expr n) fun e he =>
        .bind (takes_body hb) fun ss hs => .pure ⟨hp, he, hs⟩
    | «repeat» =>
      exact .bind takes_advance fun _ _ => .bind (takes_expr n) fun e he =>
        .bind (takes_keyword _) fun _ _ => .bind (takes_body hb) fun ss hs => .pure ⟨hp, he, hs⟩
    | «for» => exact takes_counting hb hp
    | «break» => exact .bind takes_advance fun _ _ => .pure hp
    | «continue» => exact .bind takes_advance fun _ _ => .pure hp
    | «return» =>
      exact .bind takes_advance fun _ _ => .bind takes_returned fun value hv => .pure ⟨hp, hv⟩
    | print =>
      exact .bind takes_advance fun _ _ => .bind (takes_separated (takes_expr n) n) fun vs hvs =>
        .pure ⟨hp, hvs⟩
    | input => exact .bind takes_advance fun _ _ => .bind takes_name fun x _ => .pure hp
    | int | long | float | string | boolean | array | matrix | void => exact takes_declaration hp
    | _ => exact .missing
  | _ => exact .missing

theorem takes_statement : (statement n block).Takes L (Stmt.Located L) :=
  .bind (takes_unended hb) fun _ hs => .bind takes_statementEnd fun _ _ => .pure hs

end

/-- A statement that cannot be read is reported at the place of a token. -/
theorem takes_attempt {r : Reader Stmt} (h : r.Takes L (Stmt.Located L)) :
    (attempt r).Takes L fun o => ∀ s ∈ o, s.Located L := by
  intro c hc
  have hr := h c hc
  unfold attempt
  cases hrc : r c with
  | ok s c' =>
    rw [hrc] at hr
    exact ⟨by simpa using hr.1, hr.2⟩
  | error e c' =>
    rw [hrc] at hr
    have hrest := (rest_recover_suffix c c' e).subset
    refine ⟨nofun, fun t ht => hr.2.rest t (hrest ht), hr.2.last, ?_⟩
    exact List.forall_mem_append.2 ⟨hr.2.reports, List.forall_mem_singleton.2 hr.1⟩

theorem takes_block : ∀ (n : Nat) (ending : Ending), (block n ending).Takes L (Stmt.AllLocated L)
  | 0, _ => .pure trivial
  | n + 1, ending => by
    refine .bind takes_skipNewlines fun _ _ => .bind takes_kind fun _ _ => .ite (.pure trivial) ?_
    refine .bind (takes_attempt (takes_statement fun ending => takes_block n ending)) fun o ho =>
      .bind (takes_block n ending) fun rest hr => .pure ?_
    cases o with
    | none => exact hr
    | some s => exact ⟨ho s rfl, hr⟩

end Reader

/-- A program that is read, and the errors in it, have the places of the tokens. -/
theorem Program.located_parse {tokens : List Token} (hne : tokens ≠ [])
    (h : ∀ t ∈ tokens, L t.span.loc) :
    Stmt.AllLocated L (Program.parse tokens).program ∧
      ∀ r ∈ (Program.parse tokens).reports, L r.loc := by
  have hstart : (Cursor.start tokens).Located L := by
    refine ⟨h, ?_, List.forall_mem_nil _⟩
    rw [Cursor.start, List.getLast?_eq_getLast_of_ne_nil hne]
    exact h _ (List.getLast_mem hne)
  have hblock := Reader.takes_block (tokens.length + 1) .program (.start tokens) hstart
  unfold parse
  cases hread : Reader.block (tokens.length + 1) .program (.start tokens) with
  | ok program c =>
    rw [hread] at hblock
    exact ⟨hblock.1, hblock.2.reports⟩
  | error report c =>
    rw [hread] at hblock
    exact ⟨trivial, List.forall_mem_append.2
      ⟨hblock.2.reports, List.forall_mem_singleton.2 hblock.1⟩⟩

end NumericScript
