import NumericScript.Proofs.Syntax.Plain
import NumericScript.Syntax.Statement

/-! # Trees as they are read

What reading gives has no annotations, and some forms of syntax stand in few places only: what
a counting loop does first and last is an assignment or a call, and so is a statement that is
only an expression.  No array has only array literals as its elements, since these make a matrix.

* `Stmt.AreRead`: trees as they are read, with a condition on the names that they declare.
* `Program.areRead_parse`: what reading tokens gives.
* `Program.areSource_parse`: what reading a source text gives. -/

namespace NumericScript

/-! ### Forms of statements -/

/-- Whether a call or an element stands as a statement. -/
def Expr.standsAlone : Expr → Bool
  | .call _ _ _ | .index _ _ _ _ => true
  | _ => false

/-- Whether an expression is an element of something that is not followed by a second index. -/
def Expr.isSingle : Expr → Bool
  | .index _ _ _ none => true
  | _ => false

/-- Whether an expression is a call or begins with one: what gives the element of a single index
needs parentheses to be a base again. -/
def Expr.isHeaded : Expr → Bool
  | .call _ _ _ => true
  | .index _ base _ _ => base.isHeaded && !base.isSingle
  | _ => false

theorem Expr.standsAlone_of_isHeaded {e : Expr} (h : e.isHeaded = true) :
    e.standsAlone = true := by
  cases e with
  | call => rfl
  | index => rfl
  | _ => cases h

/-- Whether an expression is an array literal. -/
def Expr.isArray : Expr → Bool
  | .array _ _ => true
  | _ => false

/-- Whether elements make a matrix: there are some, and all of them are array literals. -/
def Expr.areRows (es : List Expr) : Bool := !es.isEmpty && es.all isArray

/-- Whether a statement declares a variable. -/
def Stmt.declares : Stmt → Bool
  | .decl _ _ _ _ => true
  | _ => false

/-- Whether a statement declares a function. -/
def Stmt.isFunction : Stmt → Bool
  | .function _ _ _ _ _ => true
  | _ => false

/-- Whether a statement is a declaration, an assignment or a call. -/
def Stmt.isSimple : Stmt → Bool
  | .decl _ _ _ _ | .assign _ _ _ _ | .expr _ _ => true
  | _ => false

/-- Whether the name of a type can be written: element types and shapes cannot. -/
def Ty.isWritten : Ty → Bool
  | .int | .float | .str | .bool | .array .unknown | .matrix none | .void => true
  | _ => false

/-! ### Trees without annotations -/

mutual

/-- An expression as it is read. -/
def Expr.IsSource : Expr → Prop
  | .int m _ => m.ty = none
  | .float m _ => m.ty = none
  | .str m _ => m.ty = none
  | .bool m _ => m.ty = none
  | .name m x => m.ty = none ∧ x.binding = none
  | .binary m _ l r => m.ty = none ∧ l.IsSource ∧ r.IsSource
  | .unary m _ e => m.ty = none ∧ e.IsSource
  | .call m _ args => m.ty = none ∧ Expr.AreSource args
  | .array m items => m.ty = none ∧ Expr.AreSource items ∧ Expr.areRows items = false
  | .matrix m rows =>
    m.ty = none ∧ Expr.AreSourceRows rows ∧ rows ≠ [] ∧ ∀ es ∈ rows, Expr.areRows es = false
  | .index m base row none => m.ty = none ∧ base.IsSource ∧ row.IsSource
  | .index m base row (some col) => m.ty = none ∧ base.IsSource ∧ row.IsSource ∧ col.IsSource

/-- Expressions as they are read. -/
def Expr.AreSource : List Expr → Prop
  | [] => True
  | e :: es => e.IsSource ∧ Expr.AreSource es

/-- Rows of expressions as they are read. -/
def Expr.AreSourceRows : List (List Expr) → Prop
  | [] => True
  | es :: rows => Expr.AreSource es ∧ Expr.AreSourceRows rows

end

/-- An expression that may be missing, as it is read. -/
def Expr.IsSourceOptional : Option Expr → Prop
  | none => True
  | some e => e.IsSource

/-- A subscript as it is read. -/
def Subscript.IsSource (s : Subscript) : Prop :=
  s.row.IsSource ∧ Expr.IsSourceOptional s.col

section

/-! A condition `N` on names, which holds of those that a program declares. -/

variable (N : String → Prop)

/-- A parameter as it is read. -/
def Param.IsRead (p : Param) : Prop :=
  p.name.binding = none ∧ p.ty.isWritten = true ∧ N p.name.text

mutual

/-- A statement as it is read. -/
def Stmt.IsRead : Stmt → Prop
  | .decl _ x declared init =>
    x.binding = none ∧ init.IsSource ∧ declared.isWritten = true ∧ N x.text
  | .assign _ x none value => x.binding = none ∧ value.IsSource
  | .assign _ x (some s) value => x.binding = none ∧ s.IsSource ∧ value.IsSource
  | .function _ _ returns params body =>
    (∀ p ∈ params, p.IsRead N) ∧ Stmt.AreRead body ∧ returns.isWritten = true
  | .cond _ e body none => e.IsSource ∧ Stmt.AreRead body
  | .cond _ e body (some orElse) => e.IsSource ∧ Stmt.AreRead body ∧ Stmt.AreRead orElse
  | .while _ e body => e.IsSource ∧ Stmt.AreRead body
  | .repeat _ count body => count.IsSource ∧ Stmt.AreRead body
  | .for _ init e update body =>
    (init.isSimple = true ∧ init.IsRead) ∧ e.IsSource ∧
      (update.isSimple = true ∧ update.declares = false ∧ update.IsRead) ∧ Stmt.AreRead body
  | .break _ => True
  | .continue _ => True
  | .return _ value => Expr.IsSourceOptional value
  | .print _ values => Expr.AreSource values ∧ values ≠ []
  | .input _ x => x.binding = none
  | .expr _ e => e.isHeaded = true ∧ e.IsSource

/-- Statements as they are read. -/
def Stmt.AreRead : List Stmt → Prop
  | [] => True
  | s :: ss => s.IsRead ∧ Stmt.AreRead ss

end

end

/-- A statement as it is read from a source text, whose names hold no `#`. -/
abbrev Stmt.IsSource (s : Stmt) : Prop := s.IsRead fun x => '#' ∉ x.toList

/-- Statements as they are read from a source text. -/
abbrev Stmt.AreSource (ss : List Stmt) : Prop := Stmt.AreRead (fun x => '#' ∉ x.toList) ss

/-! ### Readers -/

/-- The names of the tokens left satisfy `N`. -/
def Cursor.Names (N : String → Prop) (c : Cursor) : Prop :=
  ∀ t ∈ c.rest, ∀ x, t.kind = .name x → N x

section

variable {N : String → Prop}

theorem Cursor.Names.of_subset {c c' : Cursor} (h : c.Names N) (hs : c'.rest ⊆ c.rest) :
    c'.Names N := fun t ht => h t (hs ht)

theorem Cursor.Names.advance {c : Cursor} (h : c.Names N) : c.advance.Names N :=
  h.of_subset ((List.tail_sublist _).subset)

theorem Cursor.Names.kind {c : Cursor} (h : c.Names N) {x : String} (hk : c.kind = .name x) :
    N x := by
  unfold Cursor.kind at hk
  split at hk
  · rename_i t ts hr
    exact h t (by simp [hr]) x hk
  · cases hk

end

namespace Reader

/-- From a cursor before names that satisfy `N`, a reader goes to another one, and what it gives
has a property. -/
def YieldsAt {α : Type} (N : String → Prop) (r : Reader α) (P : α → Prop) (c : Cursor) : Prop :=
  c.Names N → match r c with
    | .ok a c' => P a ∧ c'.Names N
    | .error _ c' => c'.Names N

/-- What a reader gives has a property. -/
def Yields {α : Type} (N : String → Prop) (r : Reader α) (P : α → Prop) : Prop :=
  ∀ c, YieldsAt N r P c

/-- A reader of which only the effect matters. -/
class Passes {α : Type} (r : Reader α) : Prop where
  yields : ∀ N, Yields N r fun _ => True

variable {N : String → Prop}

section

variable {α β : Type} {P P' : α → Prop} {Q : β → Prop}

theorem Yields.pure {a : α} (h : P a) : Yields N (Pure.pure a) P := fun _ hc => ⟨h, hc⟩

theorem Yields.missing {e : Expected} : Yields N (Reader.missing e) P := fun _ hc => hc

theorem Yields.throw {e : SyntaxReport} : Yields N (MonadExcept.throw e) P := fun _ hc => hc

theorem YieldsAt.bind {r : Reader α} {f : α → Reader β} {c : Cursor} (hr : r.YieldsAt N P c)
    (hf : ∀ a, P a → (f a).Yields N Q) : (r >>= f).YieldsAt N Q c := by
  intro hc
  have h := hr hc
  change match EStateM.bind r f c with
    | .ok b c' => Q b ∧ c'.Names N
    | .error _ c' => c'.Names N
  unfold EStateM.bind
  cases hrc : r c with
  | ok a c₁ =>
    rw [hrc] at h
    exact hf a h.1 c₁ h.2
  | error e c₁ =>
    rw [hrc] at h
    exact h

theorem Yields.bind {r : Reader α} {f : α → Reader β} (hr : r.Yields N P)
    (hf : ∀ a, P a → (f a).Yields N Q) : (r >>= f).Yields N Q := fun c => (hr c).bind hf

theorem Yields.skip {r : Reader α} [h : Passes r] {f : α → Reader β}
    (hf : ∀ a, (f a).Yields N Q) : (r >>= f).Yields N Q := .bind (h.yields N) fun a _ => hf a

theorem Yields.ite {c : Prop} [Decidable c] {r r' : Reader α} (h : r.Yields N P)
    (h' : r'.Yields N P) : (if c then r else r').Yields N P := by
  split
  · exact h
  · exact h'

theorem YieldsAt.mono {r : Reader α} {c : Cursor} (h : r.YieldsAt N P c) (hP : ∀ a, P a → P' a) :
    r.YieldsAt N P' c := by
  intro hc
  have hr := h hc
  cases hrc : r c with
  | ok a c' =>
    rw [hrc] at hr
    exact ⟨hP a hr.1, hr.2⟩
  | error e c' =>
    rw [hrc] at hr
    exact hr

theorem Yields.mono {r : Reader α} (h : r.Yields N P) (hP : ∀ a, P a → P' a) : r.Yields N P' :=
  fun c => (h c).mono hP

theorem YieldsAt.kind {f : TokenKind → Reader α} {c : Cursor} (h : (f c.kind).YieldsAt N P c) :
    (Reader.kind >>= f).YieldsAt N P c := h

theorem YieldsAt.kindAfter {f : TokenKind → Reader α} {c : Cursor}
    (h : (f c.kindAfter).YieldsAt N P c) : (Reader.kindAfter >>= f).YieldsAt N P c := h

theorem YieldsAt.loc {f : Loc → Reader α} {c : Cursor} (h : (f c.loc).YieldsAt N P c) :
    (Reader.loc >>= f).YieldsAt N P c := h

end

instance : Passes kind := ⟨fun _ _ hc => ⟨trivial, hc⟩⟩

instance : Passes kindAfter := ⟨fun _ _ hc => ⟨trivial, hc⟩⟩

instance : Passes Reader.loc := ⟨fun _ _ hc => ⟨trivial, hc⟩⟩

instance : Passes advance := ⟨fun _ _ hc => ⟨trivial, hc.advance⟩⟩

theorem yields_passing {α : Type} {p : Cursor → Prop} [DecidablePred p] {a b : α} :
    Yields N (fun c => if p c then .ok a c.advance else .ok b c) fun _ => True := by
  intro c hc
  dsimp only
  split
  · rename_i h
    split at h <;> cases h
    · exact ⟨trivial, hc.advance⟩
    · exact ⟨trivial, hc⟩
  · rename_i h
    split at h <;> cases h

theorem yields_wanting {p : Cursor → Prop} [DecidablePred p] {e : Expected} :
    Yields N (fun c => if p c then .ok () c.advance else .error (c.missing e) c) fun _ => True := by
  intro c hc
  dsimp only
  split
  · rename_i h
    split at h <;> cases h
    exact ⟨trivial, hc.advance⟩
  · rename_i h
    split at h <;> cases h
    exact hc

instance {k : TokenKind} : Passes (eat k) := ⟨fun _ => yields_passing⟩

instance {p : Punct} : Passes (punct p) := ⟨fun _ => yields_wanting⟩

instance {k : Keyword} : Passes (keyword k) := ⟨fun _ => yields_wanting⟩

instance : Passes skipNewlines :=
  ⟨fun _ _ hc => ⟨trivial, hc.of_subset ((List.dropWhile_sublist _).subset)⟩⟩

instance : Passes atTranspose := ⟨fun _ => .skip fun _ => .skip fun _ => .pure trivial⟩

/-- A name that is read is a name of the tokens. -/
theorem yields_name : name.Yields N fun p => N p.1 := by
  intro c hc
  unfold name
  split
  · rename_i h
    split at h
    · rename_i hk
      cases h
      exact ⟨hc.kind hk, hc.advance⟩
    · cases h
  · rename_i h
    split at h
    · cases h
    · cases h
      exact hc

/-! ### Expressions -/

section

variable {n : Nat} {operand : Reader Expr}

theorem yields_chain {ops : TokenKind → Option BinaryOp} (ho : operand.Yields N Expr.IsSource) :
    ∀ (n : Nat) {left : Expr}, left.IsSource → (chain ops operand n left).Yields N Expr.IsSource
  | 0, left, hl => .pure hl
  | n + 1, left, hl => by
    refine .skip fun k => ?_
    cases ops k with
    | none => exact .pure hl
    | some op =>
      refine .skip fun loc => .bind ho fun right hr => ?_
      exact yields_chain ho n ⟨rfl, hl, hr⟩

theorem yields_climb (ho : operand.Yields N Expr.IsSource) :
    ∀ levels : List (TokenKind → Option BinaryOp), (climb n operand levels).Yields N Expr.IsSource
  | [] => ho
  | _ :: tighter =>
    .bind (yields_climb ho tighter) fun _ hl => yields_chain (yields_climb ho tighter) n hl

theorem yields_powers (ho : operand.Yields N Expr.IsSource) :
    ∀ (n : Nat) {base : Expr}, base.IsSource → (powers operand n base).Yields N Expr.IsSource
  | 0, base, hb => .pure hb
  | n + 1, base, hb => by
    refine .skip fun k => .ite (.skip fun loc => .skip fun t => ?_) (.pure hb)
    cases t with
    | true => exact .skip fun _ => yields_powers ho n ⟨rfl, hb⟩
    | false =>
      refine .bind ho fun next hn => .bind (yields_powers ho n hn) fun exponent he => ?_
      exact .pure ⟨rfl, hb, he⟩

theorem yields_power (ho : operand.Yields N Expr.IsSource) :
    (power n operand).Yields N Expr.IsSource := .bind ho fun _ hb => yields_powers ho n hb

theorem yields_signed (ho : operand.Yields N Expr.IsSource) :
    ∀ n : Nat, (signed operand n).Yields N Expr.IsSource
  | 0 => ho
  | n + 1 => by
    refine .skip fun k => ?_
    cases signOp? k with
    | none => exact ho
    | some op => exact .skip fun _ => .bind (yields_signed ho n) fun e he => .pure ⟨rfl, he⟩

variable {expr : Reader Expr} (h : expr.Yields N Expr.IsSource)
include h

theorem yields_closedIndex : (closedIndex expr).Yields N Expr.IsSource :=
  .bind h fun _ he => .skip fun _ => .pure he

theorem yields_column : (column expr).Yields N Expr.IsSourceOptional := by
  refine .skip fun b => ?_
  cases b with
  | true => exact .bind (yields_closedIndex h) fun e he => .pure he
  | false => exact .pure trivial

omit h in
theorem column_bind {α : Type} {f : Option Expr → Reader α} {c : Cursor}
    (hk : c.kind ≠ .punct .leftBracket) : (column expr >>= f) c = f none c := by
  simp [column, bind, EStateM.bind, eat, hk, pure, EStateM.pure]

omit h in
theorem subscripts_eq_ok {base : Expr} {c : Cursor} (hk : c.kind ≠ .punct .leftBracket) :
    subscripts expr n base c = .ok base c := by
  cases n with
  | zero => rfl
  | succ n => simp [subscripts, bind, EStateM.bind, kind, hk, pure, EStateM.pure]

/-- Where a bracket opens there is a second index. -/
theorem yieldsAt_column {c : Cursor} (hk : c.kind = .punct .leftBracket) :
    (column expr).YieldsAt N (fun o => ∃ e, o = some e ∧ e.IsSource) c := by
  have hcolumn : column expr c =
      (closedIndex expr >>= fun e => pure (some e) : Reader (Option Expr)) c.advance := by
    simp [column, bind, EStateM.bind, eat, hk]
  intro hc
  rw [hcolumn]
  have hindex : (closedIndex expr >>= fun e => pure (some e) : Reader (Option Expr)).Yields N
      fun o => ∃ e, o = some e ∧ e.IsSource :=
    .bind (yields_closedIndex h) fun e he => .pure ⟨e, rfl, he⟩
  exact hindex _ hc.advance

/-- A call with subscripts is headed by the call, as a second index is read wherever a bracket
follows. -/
theorem yields_subscripts : ∀ (n : Nat) {base : Expr}, base.IsSource →
    (subscripts expr n base).Yields N fun e => e.IsSource ∧
      (base.isHeaded = true → base.isSingle = false → e.isHeaded = true)
  | 0, base, hb => .pure ⟨hb, fun h _ => h⟩
  | n + 1, base, hb => by
    refine .skip fun k => .ite (.skip fun loc => .bind (yields_closedIndex h) fun row hr => ?_)
      (.pure ⟨hb, fun h _ => h⟩)
    intro c
    by_cases hk : c.kind = .punct .leftBracket
    · refine (yieldsAt_column h hk).bind fun col hc => ?_
      obtain ⟨col, rfl, hc⟩ := hc
      have hindex : (Expr.index (markAt loc) base row (some col)).IsSource := ⟨rfl, hb, hr, hc⟩
      refine (yields_subscripts n hindex).mono fun e he => ⟨he.1, fun hh hs => ?_⟩
      exact he.2 (by simp [Expr.isHeaded, hh, hs]) rfl
    · intro hc
      rw [column_bind hk, subscripts_eq_ok hk]
      exact ⟨⟨⟨rfl, hb, hr⟩, fun hh hs => by simp [Expr.isHeaded, hh, hs]⟩, hc⟩

theorem yields_separated : ∀ n : Nat, (separated expr n).Yields N Expr.AreSource
  | 0 => .pure trivial
  | n + 1 => by
    refine .bind h fun e he => .skip fun b => ?_
    cases b with
    | true => exact .bind (yields_separated n) fun es hes => .pure ⟨he, hes⟩
    | false => exact .pure ⟨he, trivial⟩

theorem yields_separated_succ :
    (separated expr (n + 1)).Yields N fun es => Expr.AreSource es ∧ es ≠ [] := by
  refine .bind h fun e he => .skip fun b => ?_
  cases b with
  | true => exact .bind (yields_separated h n) fun es hes => .pure ⟨⟨he, hes⟩, by simp⟩
  | false => exact .pure ⟨⟨he, trivial⟩, by simp⟩

theorem yields_arguments : (arguments n expr).Yields N Expr.AreSource := by
  have hend : ∀ args, Expr.AreSource args →
      Yields N (do punct .rightParen; Pure.pure args) Expr.AreSource :=
    fun args ha => .skip fun _ => .pure ha
  exact .skip fun k => .ite (hend _ trivial) (.bind (yields_separated h n) hend)

theorem yields_elements : ∀ n : Nat, (elements expr n).Yields N Expr.AreSource
  | 0 => .pure trivial
  | n + 1 => by
    refine .bind h fun e he => .skip fun _ => .skip fun b => ?_
    cases b with
    | true => exact .skip fun _ => .bind (yields_elements n) fun es hes => .pure ⟨he, hes⟩
    | false => exact .pure ⟨he, trivial⟩

omit h in
theorem mapM_items?_cons {e : Expr} {es : List Expr} :
    (e :: es).mapM items? = (items? e).bind fun row => (es.mapM items?).map (row :: ·) := by
  rw [List.mapM_cons]
  cases items? e with
  | none => rfl
  | some row => cases es.mapM items? <;> rfl

omit h in
/-- Elements that all are array literals give rows that are read as such. -/
theorem isSource_of_mapM_items? {es : List Expr} : ∀ {rows : List (List Expr)},
    Expr.AreSource es → es.mapM items? = some rows →
    Expr.AreSourceRows rows ∧ (∀ es ∈ rows, Expr.areRows es = false) ∧ rows.length = es.length := by
  induction es with
  | nil =>
    rintro rows - ⟨⟩
    exact ⟨trivial, nofun, rfl⟩
  | cons e es ih =>
    rintro rows ⟨he, hes⟩ hr
    rw [mapM_items?_cons] at hr
    obtain ⟨row, hrow, hr⟩ := Option.bind_eq_some_iff.1 hr
    obtain ⟨rest, hrest, rfl⟩ := Option.map_eq_some_iff.1 hr
    cases e with
    | array m items =>
      cases hrow
      obtain ⟨hsource, hshape, hlen⟩ := ih hes hrest
      exact ⟨⟨he.2.1, hsource⟩, List.forall_mem_cons.2 ⟨he.2.2, hshape⟩, by simp [hlen]⟩
    | _ => cases hrow

omit h in
theorem mapM_items?_eq_none_iff {es : List Expr} :
    es.mapM items? = none ↔ es.all Expr.isArray = false := by
  induction es with
  | nil => simp
  | cons e es ih =>
    rw [mapM_items?_cons, List.all_cons]
    cases e with
    | array m items =>
      change (es.mapM items?).map _ = none ↔ _
      rw [Option.map_eq_none_iff, ih, Expr.isArray, Bool.true_and]
    | _ => simp [items?, Expr.isArray]

omit h in
theorem isSource_literal {loc : Loc} {es : List Expr} (hes : Expr.AreSource es) :
    (literal loc es).IsSource := by
  unfold literal
  split
  · rename_i hempty
    exact ⟨rfl, hes, by simp [Expr.areRows, hempty]⟩
  · rename_i hne
    split
    · rename_i rows hr
      obtain ⟨hsource, hshape, hlen⟩ := isSource_of_mapM_items? hes hr
      refine ⟨rfl, hsource, ?_, hshape⟩
      rintro rfl
      exact hne (List.isEmpty_iff_length_eq_zero.2 hlen.symm)
    · rename_i hr
      exact ⟨rfl, hes, by simp [Expr.areRows, mapM_items?_eq_none_iff.1 hr]⟩

theorem yields_bracketed {loc : Loc} : (bracketed n expr loc).Yields N Expr.IsSource := by
  have hend : ∀ es, Expr.AreSource es →
      Yields N (do punct .rightBracket; Pure.pure (literal loc es)) Expr.IsSource :=
    fun es hes => .skip fun _ => .pure (isSource_literal hes)
  exact .skip fun _ => .skip fun k => .ite (hend _ trivial) (.bind (yields_elements h n) hend)

omit h in
theorem yields_textLiteral {loc : Loc} {raw : String} :
    (textLiteral loc raw).Yields N Expr.IsSource := by
  intro c hc
  unfold textLiteral
  cases Text.unescape raw.toList with
  | ok cs => exact ⟨rfl, hc⟩
  | error ch => exact hc

theorem yields_primary : (primary n expr).Yields N Expr.IsSource := by
  refine .skip fun k => ?_
  cases k with
  | int value => exact .skip fun _ => .pure rfl
  | float value => exact .skip fun _ => .pure rfl
  | str raw => exact .skip fun _ => yields_textLiteral
  | keyword word =>
    cases word with
    | true => exact .skip fun _ => .pure rfl
    | false => exact .skip fun _ => .pure rfl
    | _ => exact .missing
  | name x =>
    refine .skip fun loc => .skip fun b => ?_
    cases b with
    | true => exact .bind (yields_arguments h) fun args ha => .pure ⟨rfl, ha⟩
    | false => exact .pure ⟨rfl, rfl⟩
  | punct mark =>
    cases mark with
    | leftParen => exact .skip fun _ => .bind h fun e he => .skip fun _ => .pure he
    | leftBracket => exact .skip fun _ => yields_bracketed h
    | _ => exact .missing
  | _ => exact .missing

theorem yields_postfixed : (postfixed n expr).Yields N Expr.IsSource :=
  .bind (yields_primary h) fun _ hb => (yields_subscripts h n hb).mono fun _ h => h.1

end

theorem yields_expr : ∀ n : Nat, (expr n).Yields N Expr.IsSource
  | 0 => .missing
  | n + 1 =>
    yields_climb (yields_power (yields_signed (yields_postfixed (yields_expr n)) n)) levels

/-! ### Statements -/

/-- What begins with a name and a parenthesis is a call, or an element of what it gives. -/
theorem yieldsAt_postfixed {n : Nat} {c : Cursor} {x : String} (hk : c.kind = .name x)
    (ha : c.kindAfter = .punct .leftParen) :
    (postfixed n (expr n)).YieldsAt N (fun e => e.IsSource ∧ e.isHeaded = true) c := by
  have hadvance : c.advance.kind = .punct .leftParen := by
    unfold Cursor.kindAfter at ha
    split at ha
    · rename_i t ts hr
      rw [Cursor.kind, Cursor.advance, hr]
      exact ha
    · cases ha
  have hprimary : primary n (expr n) c =
      (arguments n (expr n) >>= fun args => Pure.pure (Expr.call (markAt c.loc) x args) :
        Reader Expr) c.advance.advance := by
    simp [primary, bind, EStateM.bind, kind, hk, advance, eat, hadvance]
  have hcall : (primary n (expr n)).YieldsAt N
      (fun e => e.IsSource ∧ e.isHeaded = true ∧ e.isSingle = false) c := by
    intro hc
    rw [hprimary]
    have harguments : (arguments n (expr n) >>= fun args =>
        Pure.pure (Expr.call (markAt c.loc) x args) : Reader Expr).Yields N
          fun e => e.IsSource ∧ e.isHeaded = true ∧ e.isSingle = false :=
      .bind (yields_arguments (yields_expr n)) fun args hargs => .pure ⟨⟨rfl, hargs⟩, rfl, rfl⟩
    exact harguments _ hc.advance.advance
  exact YieldsAt.bind hcall fun base hb =>
    (yields_subscripts (yields_expr n) n hb.1).mono fun e h => ⟨h.1, h.2 hb.2.1 hb.2.2⟩

variable {n : Nat} {loc : Loc}

theorem yields_type : type.Yields N fun t => t.isWritten = true := by
  intro c hc
  unfold type
  dsimp only
  split <;> rename_i h <;> split at h <;> cases h
  all_goals first
    | exact ⟨rfl, hc.advance⟩
    | exact hc

theorem yields_declaration :
    (declaration n loc).Yields N fun s => s.IsRead N ∧ s.isSimple = true := by
  refine .bind yields_type fun declared hw => .bind yields_name fun p hp => .skip fun b => ?_
  cases b with
  | true => exact .bind (yields_expr n) fun init hi => .pure ⟨⟨rfl, hi, hw, hp⟩, rfl⟩
  | false => exact .throw

theorem yields_targetSubscript : (targetSubscript n).Yields N fun s =>
    match s with
    | none => True
    | some s => s.IsSource := by
  refine .skip fun b => ?_
  cases b with
  | true =>
    exact .bind (yields_closedIndex (yields_expr n)) fun row hr =>
      .bind (yields_column (yields_expr n)) fun col hc => .pure ⟨hr, hc⟩
  | false => exact .pure trivial

/-- An assignment or a call. -/
theorem yieldsAt_simple {c : Cursor} {x : String} (hk : c.kind = .name x) :
    (simple n loc).YieldsAt N
      (fun s => s.IsRead N ∧ s.isSimple = true ∧ s.declares = false) c := by
  refine .kindAfter ?_
  by_cases ha : c.kindAfter = .punct .leftParen
  · rw [if_pos ha]
    exact (yieldsAt_postfixed hk ha).bind fun e he => .pure ⟨⟨he.2, he.1⟩, rfl, rfl⟩
  · rw [if_neg ha]
    refine (?_ : Yields N _ fun s : Stmt =>
      s.IsRead N ∧ s.isSimple = true ∧ s.declares = false) c
    refine .bind yields_name fun p _ => .bind yields_targetSubscript fun sub hs =>
      .skip fun _ => .bind (yields_expr n) fun value hv => .pure ?_
    cases sub with
    | none => exact ⟨⟨rfl, hv⟩, rfl, rfl⟩
    | some sub => exact ⟨⟨rfl, hs, hv⟩, rfl, rfl⟩

theorem yields_params : ∀ n : Nat, (params n).Yields N fun ps => ∀ p ∈ ps, p.IsRead N
  | 0 => .pure nofun
  | n + 1 => by
    refine .skip fun loc => .bind yields_type fun ty hw => .bind yields_name fun p hp =>
      .skip fun b => ?_
    cases b with
    | true =>
      exact .bind (yields_params n) fun ps hps =>
        .pure (List.forall_mem_cons.2 ⟨⟨rfl, hw, hp⟩, hps⟩)
    | false => exact .pure (List.forall_mem_singleton.2 ⟨rfl, hw, hp⟩)

theorem exists_of_isName {k : TokenKind} (h : isName k = true) : ∃ x, k = .name x := by
  unfold isName at h
  split at h
  · exact ⟨_, rfl⟩
  · cases h

theorem yields_loopInit : (loopInit n).Yields N fun s => s.isSimple = true ∧ s.IsRead N := by
  intro c
  refine .loc (.kind ?_)
  by_cases ht : isType c.kind = true
  · rw [if_pos ht]
    exact (yields_declaration.mono fun s h => ⟨h.2, h.1⟩) c
  · rw [if_neg ht]
    by_cases hn : isName c.kind = true
    · rw [if_pos hn]
      obtain ⟨x, hx⟩ := exists_of_isName hn
      exact (yieldsAt_simple hx).mono fun s h => ⟨h.2.1, h.1⟩
    · rw [if_neg hn]
      exact Yields.missing c

theorem yields_loopUpdate : (loopUpdate n).Yields N fun s =>
    s.isSimple = true ∧ s.declares = false ∧ s.IsRead N := by
  intro c
  refine .loc (.kind ?_)
  by_cases hn : isName c.kind = true
  · rw [if_pos hn]
    obtain ⟨x, hx⟩ := exists_of_isName hn
    exact (yieldsAt_simple hx).mono fun s h => ⟨h.2.1, h.2.2, h.1⟩
  · rw [if_neg hn]
    exact Yields.missing c

section

variable {block : Block} (hb : ∀ ending, (block ending).Yields N (Stmt.AreRead N))
include hb

theorem yields_body : (body block).Yields N (Stmt.AreRead N) :=
  .skip fun _ => .bind (hb _) fun _ hs => .skip fun _ => .pure hs

theorem yields_alternative : (alternative block).Yields N fun o =>
    match o with
    | none => True
    | some ss => (Stmt.AreRead N) ss := by
  refine .skip fun b => ?_
  cases b with
  | true => exact .skip fun _ => .bind (hb _) fun ss hs => .pure hs
  | false => exact .pure trivial

theorem yields_conditional : (conditional n block loc).Yields N (Stmt.IsRead N) := by
  refine .skip fun _ => .bind (yields_expr n) fun e he => .skip fun _ => .bind (hb _) fun ss hs =>
    .bind (yields_alternative hb) fun o ho => .skip fun _ => .pure ?_
  cases o with
  | none => exact ⟨he, hs⟩
  | some orElse => exact ⟨he, hs, ho⟩

theorem yields_counting : (counting n block loc).Yields N (Stmt.IsRead N) := by
  refine .skip fun _ => .bind yields_loopInit fun init hi => .skip fun _ =>
    .bind (yields_expr n) fun e he => .skip fun _ => .bind yields_loopUpdate fun update hu =>
      .bind (yields_body hb) fun ss hs => .pure ⟨hi, he, hu, hs⟩

theorem yields_function : (function n block loc).Yields N (Stmt.IsRead N) := by
  have hend : ∀ (returns : Ty) (f : String) (ps : List Param), returns.isWritten = true →
      (∀ p ∈ ps, p.IsRead N) →
      Yields N (do
        punct .rightParen
        let ss ← body block
        Pure.pure (Stmt.function loc f returns ps ss)) (Stmt.IsRead N) :=
    fun returns f ps hw hps => .skip fun _ => .bind (yields_body hb) fun ss hs =>
      .pure ⟨hps, hs, hw⟩
  exact .skip fun _ => .bind yields_type fun returns hw => .bind yields_name fun p _ =>
    .skip fun _ => .skip fun k => .ite (hend returns p.1 _ hw nofun)
      (.bind (yields_params n) fun ps hps => hend returns p.1 ps hw hps)

omit hb in
theorem yields_returned : (returned n).Yields N Expr.IsSourceOptional :=
  .skip fun _ => .ite (.pure trivial) (.bind (yields_expr n) fun _ he => .pure he)

theorem yields_unended : (unended (n + 1) block).Yields N (Stmt.IsRead N) := by
  have hbody : ∀ (e : Expr) (f : Expr → List Stmt → Stmt), e.IsSource →
      (∀ ss, (Stmt.AreRead N) ss → (f e ss).IsRead N) →
      (body block >>= fun ss => Pure.pure (f e ss)).Yields N (Stmt.IsRead N) :=
    fun e f _ hf => .bind (yields_body hb) fun ss hs => .pure (hf ss hs)
  intro c
  refine .loc (.kind ?_)
  generalize hk : c.kind = k
  cases k with
  | name x => exact (yieldsAt_simple hk).mono fun s h => h.1
  | keyword word =>
    cases word with
    | function => exact yields_function hb c
    | «if» => exact yields_conditional hb c
    | «while» =>
      refine Yields.skip (fun _ => .bind (yields_expr (n + 1)) fun e he => ?_) c
      exact hbody e (.while c.loc) he fun ss hs => ⟨he, hs⟩
    | «repeat» =>
      refine Yields.skip (fun _ => .bind (yields_expr (n + 1)) fun e he => .skip fun _ => ?_) c
      exact hbody e (.repeat c.loc) he fun ss hs => ⟨he, hs⟩
    | «for» => exact yields_counting hb c
    | «break» =>
      exact (.skip fun _ => .pure (by trivial) : Yields N _ (Stmt.IsRead N)) c
    | «continue» =>
      exact (.skip fun _ => .pure (by trivial) : Yields N _ (Stmt.IsRead N)) c
    | «return» =>
      refine Yields.skip (fun _ => .bind yields_returned fun value hv => ?_) c
      exact Yields.pure (show (Stmt.return c.loc value).IsRead N from hv)
    | print =>
      refine Yields.skip (fun _ => .bind (yields_separated_succ (yields_expr _)) fun vs hv => ?_) c
      exact Yields.pure (show (Stmt.print c.loc vs).IsRead N from hv)
    | input =>
      refine Yields.skip (fun _ => .bind yields_name fun p _ => ?_) c
      exact Yields.pure (show (Stmt.input c.loc (.unbound p.1)).IsRead N from rfl)
    | int | long | float | string | boolean | array | matrix | void =>
      exact (yields_declaration.mono fun s h => h.1) c
    | _ => exact Yields.missing c
  | _ => exact Yields.missing c

instance : Passes statementEnd where
  yields := by
    intro N c hc
    unfold statementEnd
    by_cases hk : c.kind = .newline
    · simp only [hk, if_true]
      exact ⟨trivial, hc.advance⟩
    · simp only [hk, if_false]
      by_cases he : endsStatement c.kind = true
      · simp only [he, if_true]
        exact ⟨trivial, hc⟩
      · simp only [he]
        exact hc

theorem yields_statement : (statement (n + 1) block).Yields N (Stmt.IsRead N) :=
  .bind (yields_unended hb) fun _ hs => .skip fun _ => .pure hs

end

theorem resume_suffix (ts : List Token) : resume ts <:+ ts := by
  induction ts with
  | nil => exact List.suffix_rfl
  | cons t ts ih =>
    unfold resume
    split
    · exact List.suffix_rfl
    · exact List.suffix_rfl
    · exact List.suffix_rfl
    · exact List.suffix_cons t ts
    · split
      · exact List.suffix_rfl
      · exact ih.trans (List.suffix_cons t ts)

theorem rest_recover_suffix (start c : Cursor) (report : SyntaxReport) :
    (recover start c report).rest <:+ c.rest := by
  unfold recover
  dsimp only
  split
  · exact (resume_suffix _).trans (List.tail_suffix _)
  · exact resume_suffix _

theorem yields_attempt {r : Reader Stmt} (h : r.Yields N (Stmt.IsRead N)) :
    (attempt r).Yields N fun o => ∀ s, o = some s → s.IsRead N := by
  intro c hc
  have hr := h c hc
  unfold attempt
  cases hrc : r c with
  | ok s c' =>
    rw [hrc] at hr
    refine ⟨fun t ht => ?_, hr.2⟩
    cases ht
    exact hr.1
  | error e c' =>
    rw [hrc] at hr
    exact ⟨nofun, hr.of_subset (rest_recover_suffix c c' e).subset⟩

theorem yields_block : ∀ (n : Nat) (ending : Ending), (block n ending).Yields N (Stmt.AreRead N)
  | 0, _ => .pure trivial
  | n + 1, ending => by
    refine .skip fun _ => .skip fun k => .ite (.pure trivial) ?_
    refine .bind (yields_attempt (yields_statement fun ending => yields_block n ending)) fun o ho =>
      .bind (yields_block n ending) fun rest hr => .pure ?_
    cases o with
    | none => exact hr
    | some s => exact ⟨ho s rfl, hr⟩

end Reader

/-- What reading tokens gives. -/
theorem Program.areRead_parse {N : String → Prop} {tokens : List Token}
    (h : ∀ t ∈ tokens, ∀ x, t.kind = .name x → N x) :
    Stmt.AreRead N (Program.parse tokens).program := by
  have hblock := Reader.yields_block (tokens.length + 1) .program (.start tokens) h
  unfold parse
  cases hread : Reader.block (tokens.length + 1) .program (.start tokens) with
  | ok program c =>
    rw [hread] at hblock
    exact hblock.1
  | error report c => trivial

/-- What reading a source text gives. -/
theorem Program.areSource_parse (source : String) :
    Stmt.AreSource (Program.parse (Token.scan source).tokens).program :=
  areRead_parse (Token.isPlain_scan source)

end NumericScript
