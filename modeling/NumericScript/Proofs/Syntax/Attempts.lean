import NumericScript.Proofs.Syntax.Recorded
import NumericScript.Proofs.Syntax.Source

/-! # Statements that are attempted

Whatever the tokens, reading them comes to an end: no reader meets its bound, and every statement
attempted passes at least one token, read or not.  A statement that is given up has passed a token
for each error reported inside it and one more, so there are no more errors than tokens.

* `Recorder.followsAt_attempt`: a statement that is read, or reported and skipped.
* `Recorder.follows_block`: reading statements from few enough tokens meets no bound.
* `Program.recorded`: reading a program, with a record. -/

namespace NumericScript

namespace Recorder

/-! ### Statements

Each of these is the reader of the same name, but that it records where its bound is met and each
statement attempted. -/

def declaration (n : Nat) (loc : Loc) : Recorder Stmt := do
  let declared ← Reader.type
  let (x, at_) ← Reader.name
  if (← Reader.eat (.punct .assign)) then
    let init ← expr n
    pure (.decl loc (.unbound x) declared init)
  else throw ⟨.missingInitializer x, at_⟩

def targetSubscript (n : Nat) : Recorder (Option Subscript) := do
  if (← Reader.eat (.punct .leftBracket)) then
    let row ← closedIndex (expr n)
    let col ← column (expr n)
    pure (some ⟨row, col⟩)
  else pure none

def simple (n : Nat) (loc : Loc) : Recorder Stmt := do
  if (← Reader.kindAfter) = .punct .leftParen then
    let e ← postfixed n (expr n)
    pure (.expr loc e)
  else
    let (x, _) ← Reader.name
    let subscript ← targetSubscript n
    Reader.punct .assign
    let value ← expr n
    pure (.assign loc (.unbound x) subscript value)

def params : Nat → Recorder (List Param)
  | 0 => do
    meetBound
    pure []
  | n + 1 => do
    let loc ← Reader.loc
    let ty ← Reader.type
    let (x, _) ← Reader.name
    if (← Reader.eat (.punct .comma)) then
      let ps ← params n
      pure (⟨.unbound x, ty, loc⟩ :: ps)
    else pure [⟨.unbound x, ty, loc⟩]

/-- Readers of lists of statements with a record. -/
abbrev Block := Reader.Ending → Recorder (List Stmt)

def body (block : Block) : Recorder (List Stmt) := do
  Reader.punct .colon
  let statements ← block .body
  Reader.keyword .end
  pure statements

def alternative (block : Block) : Recorder (Option (List Stmt)) := do
  if (← Reader.eat (.keyword .else)) then
    Reader.punct .colon
    let statements ← block .body
    pure (some statements)
  else pure none

def conditional (n : Nat) (block : Block) (loc : Loc) : Recorder Stmt := do
  Reader.keyword .if
  let condition ← expr n
  Reader.punct .colon
  let statements ← block .branch
  let orElse ← alternative block
  Reader.keyword .end
  pure (.cond loc condition statements orElse)

def loopInit (n : Nat) : Recorder Stmt := do
  let loc ← Reader.loc
  let next ← Reader.kind
  if Reader.isType next then declaration n loc
  else if Reader.isName next then simple n loc
  else Reader.missing .loopInit

def loopUpdate (n : Nat) : Recorder Stmt := do
  let loc ← Reader.loc
  if Reader.isName (← Reader.kind) then simple n loc else Reader.missing .loopUpdate

def counting (n : Nat) (block : Block) (loc : Loc) : Recorder Stmt := do
  Reader.keyword .for
  let init ← loopInit n
  Reader.punct .semicolon
  let condition ← expr n
  Reader.punct .semicolon
  let update ← loopUpdate n
  let statements ← body block
  pure (.for loc init condition update statements)

def function (n : Nat) (block : Block) (loc : Loc) : Recorder Stmt := do
  Reader.keyword .function
  let returns ← Reader.type
  let (f, _) ← Reader.name
  Reader.punct .leftParen
  let ps ← if (← Reader.kind) = .punct .rightParen then pure [] else params n
  Reader.punct .rightParen
  let statements ← body block
  pure (.function loc f returns ps statements)

def returned (n : Nat) : Recorder (Option Expr) := do
  if Reader.endsStatement (← Reader.kind) then pure none
  else
    let e ← expr n
    pure (some e)

def unended (n : Nat) (block : Block) : Recorder Stmt := do
  let loc ← Reader.loc
  match (← Reader.kind) with
  | .keyword .function => function n block loc
  | .keyword .if => conditional n block loc
  | .keyword .while =>
    let _ ← Reader.advance
    let condition ← expr n
    let statements ← body block
    pure (.while loc condition statements)
  | .keyword .repeat =>
    let _ ← Reader.advance
    let count ← expr n
    Reader.keyword .times
    let statements ← body block
    pure (.repeat loc count statements)
  | .keyword .for => counting n block loc
  | .keyword .break =>
    let _ ← Reader.advance
    pure (.break loc)
  | .keyword .continue =>
    let _ ← Reader.advance
    pure (.continue loc)
  | .keyword .return =>
    let _ ← Reader.advance
    let value ← returned n
    pure (.return loc value)
  | .keyword .print =>
    let _ ← Reader.advance
    let values ← separated (expr n) n
    pure (.print loc values)
  | .keyword .input =>
    let _ ← Reader.advance
    let (x, _) ← Reader.name
    pure (.input loc (.unbound x))
  | .name _ => simple n loc
  | k => if Reader.isType k then declaration n loc else Reader.missing .statement

def statement (n : Nat) (block : Block) : Recorder Stmt := do
  let s ← unended n block
  Reader.statementEnd
  pure s

/-- An attempt is recorded when reading goes on after it. -/
def attempt (statement : Recorder Stmt) : Recorder (Option Stmt) := fun (c, events) =>
  match statement (c, events) with
  | .ok s (c', events') => .ok (some s) (c', events' ++ [.attempt c.rest c'.rest])
  | .error report (c', events') =>
    let next := Reader.recover c c' report
    .ok none (next, events' ++ [.attempt c.rest next.rest])

def block : Nat → Block
  | 0, _ => do
    meetBound
    pure []
  | n + 1, ending => do
    Reader.skipNewlines
    if ending.stops (← Reader.kind) then pure []
    else
      let s ← attempt (statement (n + 1) (block n))
      let rest ← block n ending
      pure (s.toList ++ rest)

theorem Follows.throw {m : Nat} {α : Type} {e : SyntaxReport} :
    Follows m .strict (throw e : Recorder α) (throw e) :=
  fun _ _ => .of_eq Cursor.Steady.refl fun _ => rfl

theorem follows_type {m : Nat} : Follows m .strict (liftM Reader.type) Reader.type := by
  refine fun c _ => .lift ?_
  have hpasses : c.kind ≠ .eof → c.Passes c.advance := Cursor.passes_advance
  unfold Reader.type
  dsimp only
  cases hk : c.kind with
  | keyword word => cases word <;> first | exact hpasses (by simp [hk]) | exact Cursor.Steady.refl
  | _ => exact Cursor.Steady.refl

theorem follows_keyword {m : Nat} (word : Keyword) :
    Follows m .strict (liftM (Reader.keyword word)) (Reader.keyword word) :=
  follows_expected TokenKind.noConfusion fun _ => rfl

theorem follows_statementEnd {m : Nat} :
    Follows m .steady (liftM Reader.statementEnd) Reader.statementEnd := by
  refine fun c _ => .lift ?_
  unfold Reader.statementEnd
  by_cases hline : c.kind = .newline
  · rw [if_pos hline]
    exact Cursor.steady_advance
  · rw [if_neg hline]
    by_cases hends : Reader.endsStatement c.kind = true
    · rw [if_pos hends]
      exact Cursor.Steady.refl
    · rw [if_neg hends]
      exact Cursor.Steady.refl

section

variable {n m : Nat}

theorem follows_declaration (hm : m < n) (loc : Loc) :
    Follows (m + 1) .strict (declaration n loc) (Reader.declaration n loc) := by
  refine .pass (q := .strict) follows_type fun _ => .bind (q := .strict) follows_name fun _ =>
    .next (follows_eat _) fun assigns => ?_
  cases assigns with
  | true => exact .bind (follows_expr hm) fun _ => .pure
  | false => exact .throw

theorem follows_targetSubscript (hm : m < n) :
    Follows m .steady (targetSubscript n) (Reader.targetSubscript n) := by
  refine .next (follows_eat _) fun opens => ?_
  cases opens with
  | true =>
    exact .steady (.bind (follows_closedIndex (follows_expr hm)) fun _ =>
      .bind (follows_column (follows_expr hm)) fun _ => .pure)
  | false => exact .pure

theorem follows_simple (hm : m < n) (loc : Loc) :
    Follows (m + 1) .strict (simple n loc) (Reader.simple n loc) :=
  .next follows_kindAfter fun _ => .ite
    (.bind (follows_postfixed (Nat.le_of_lt hm) (follows_expr hm)) fun _ => .pure)
    (.pass follows_name fun _ => .bind (follows_targetSubscript hm) fun _ =>
      .bind (follows_punct _) fun _ => .bind (follows_expr hm) fun _ => .pure)

theorem follows_params : ∀ {n m : Nat}, m ≤ n → Follows m .strict (params n) (Reader.params n)
  | _, 0, _ => .zero
  | 0, m + 1, hm => absurd hm (Nat.not_succ_le_zero m)
  | n + 1, m + 1, hm => by
    refine .next follows_loc fun _ => .pass (q := .strict) follows_type fun _ =>
      .bind (q := .steady) follows_name fun _ => .next (follows_eat _) fun more => ?_
    cases more with
    | true => exact .steady (.bind (follows_params (Nat.le_of_succ_le_succ hm)) fun _ => .pure)
    | false => exact .pure

theorem follows_loopInit (hm : m < n) :
    Follows (m + 1) .strict (loopInit n) (Reader.loopInit n) :=
  .next follows_loc fun loc => .next follows_kind fun _ =>
    .ite (follows_declaration hm loc) (.ite (follows_simple hm loc) follows_missing)

theorem follows_loopUpdate (hm : m < n) :
    Follows (m + 1) .strict (loopUpdate n) (Reader.loopUpdate n) :=
  .next follows_loc fun loc => .next follows_kind fun _ =>
    .ite (follows_simple hm loc) follows_missing

theorem follows_returned (hm : m < n) : Follows m .steady (returned n) (Reader.returned n) :=
  .next follows_kind fun _ => .ite .pure (.steady (.bind (follows_expr hm) fun _ => .pure))

end

section

variable {n m : Nat} {t : Block} {r : Reader.Block}

theorem follows_body (h : ∀ ending, Follows m .loose (t ending) (r ending)) :
    Follows m .strict (body t) (Reader.body r) :=
  .bind (follows_punct _) fun _ => .bind (h _) fun _ => .bind (follows_keyword _) fun _ => .pure

theorem follows_alternative (h : ∀ ending, Follows m .loose (t ending) (r ending)) :
    Follows m .steady (alternative t) (Reader.alternative r) := by
  refine .next (follows_eat _) fun begins => ?_
  cases begins with
  | true =>
    exact .steady (.bind (follows_punct _) fun _ => .bind (h _) fun _ => .pure)
  | false => exact .pure

variable (hm : m < n) (h : ∀ ending, Follows m .loose (t ending) (r ending)) (loc : Loc)
include hm h

theorem follows_conditional :
    Follows (m + 1) .strict (conditional n t loc) (Reader.conditional n r loc) :=
  .pass (follows_keyword _) fun _ => .bind (follows_expr hm) fun _ => .bind (follows_punct _)
    fun _ => .bind (h _) fun _ => .bind (follows_alternative h) fun _ =>
      .bind (follows_keyword _) fun _ => .pure

theorem follows_counting :
    Follows (m + 1) .strict (counting n t loc) (Reader.counting n r loc) := by
  have hle := Nat.le_succ m
  exact .pass (follows_keyword _) fun _ => .bind ((follows_loopInit hm).mono hle) fun _ =>
    .bind (follows_punct _) fun _ => .bind (follows_expr hm) fun _ => .bind (follows_punct _)
      fun _ => .bind ((follows_loopUpdate hm).mono hle) fun _ => .bind (follows_body h)
        fun _ => .pure

theorem follows_function :
    Follows (m + 1) .strict (function n t loc) (Reader.function n r loc) :=
  .pass (follows_keyword _) fun _ => .bind follows_type fun _ => .bind follows_name fun _ =>
    .bind (follows_punct _) fun _ => .next follows_kind fun _ => .ite (p := .strict)
      (.bind (follows_punct _) fun _ => .bind (follows_body h) fun _ => .pure)
      (.bind (follows_params (Nat.le_of_lt hm)) fun _ => .bind (follows_punct _) fun _ =>
        .bind (follows_body h) fun _ => .pure)

omit loc in
theorem follows_unended : Follows (m + 1) .strict (unended n t) (Reader.unended n r) := by
  refine .next follows_loc fun loc => .kind fun c hc => ?_
  cases hk : c.kind with
  | name x => exact follows_simple hm loc c hc
  | keyword word =>
    have heof : c.kind ≠ .eof := by simp [hk]
    cases word with
    | function => exact follows_function hm h loc c hc
    | «if» => exact follows_conditional hm h loc c hc
    | «while» =>
      exact .advance heof hc fun _ => .bind (follows_expr hm) fun _ => .bind (follows_body h)
        fun _ => .pure
    | «repeat» =>
      exact .advance heof hc fun _ => .bind (follows_expr hm) fun _ => .bind (follows_keyword _)
        fun _ => .bind (follows_body h) fun _ => .pure
    | «for» => exact follows_counting hm h loc c hc
    | «break» => exact .advance heof hc fun _ => .pure
    | «continue» => exact .advance heof hc fun _ => .pure
    | «return» => exact .advance heof hc fun _ => .bind (follows_returned hm) fun _ => .pure
    | print =>
      exact .advance heof hc fun _ => .bind (follows_separated (Nat.le_of_lt hm) (follows_expr hm))
        fun _ => .pure
    | input => exact .advance heof hc fun _ => .bind follows_name fun _ => .pure
    | int | long | float | string | boolean | array | matrix | void =>
      exact follows_declaration hm loc c hc
    | _ => exact follows_missing c hc
  | _ => exact follows_missing c hc

omit loc in
theorem follows_statement : Follows (m + 1) .strict (statement n t) (Reader.statement n r) :=
  .bind (follows_unended hm h) fun _ => .bind follows_statementEnd fun _ => .pure

end

/-! ### Attempts -/

section

variable {c c' : Cursor} {t : Recorder Stmt} {r : Reader Stmt}

/-- After a failure reading goes on past the beginning of the statement.  The token that begins
it makes up for the error that is reported. -/
theorem recover_of_steady (hk : c.kind ≠ .eof) (h : c.Steady c') (report : SyntaxReport) :
    c.Reaches (Reader.recover c c' report) ∧
      (Reader.recover c c' report).rest.length < c.rest.length := by
  have hsuffix := Reader.rest_recover_suffix c c' report
  have hreports : (Reader.recover c c' report).reports.length = c'.reports.length + 1 :=
    List.length_append
  obtain rfl | h := h
  · have hrest : (Reader.recover c' c' report).rest = Reader.resume c'.rest.tail := by
      rw [Reader.recover, if_pos rfl]
    have hlength : (Reader.recover c' c' report).rest.length < c'.rest.length := by
      rw [hrest]
      exact Nat.lt_of_le_of_lt (Reader.resume_suffix _).length_le (Cursor.passes_advance hk).length
    refine ⟨⟨hsuffix, ?_⟩, hlength⟩
    rw [Cursor.load, Cursor.load, hreports]
    omega
  · have hlength := hsuffix.length_le
    have hload : c'.rest.length + c'.reports.length < c.rest.length + c.reports.length := h.load
    refine ⟨⟨hsuffix.trans h.suffix, ?_⟩, Nat.lt_of_le_of_lt hlength h.length⟩
    rw [Cursor.load, Cursor.load, hreports]
    omega

theorem isProgress_attempt {start stop : List Token} (h : stop <:+ start)
    (hlength : stop.length < start.length) : (Event.attempt start stop).IsProgress := by
  obtain ⟨passed, rfl⟩ := h
  refine ⟨passed, ?_, rfl⟩
  rintro rfl
  exact Nat.lt_irrefl _ hlength

/-- A statement that is attempted is read, or reported and skipped; either way tokens are passed. -/
theorem exists_attempt (hk : c.kind ≠ .eof) (h : FollowsAt .strict t r c) :
    ∃ o c₁, Reader.attempt r c = .ok o c₁ ∧ c.Reaches c₁ ∧ c₁.rest.length < c.rest.length := by
  have hmoves := h.moves
  unfold Reader.attempt
  cases hr : r c with
  | ok s c' =>
    rw [hr] at hmoves
    exact ⟨some s, c', rfl, Cursor.Passes.reaches hmoves, Cursor.Passes.length hmoves⟩
  | error e c' =>
    rw [hr] at hmoves
    exact ⟨none, Reader.recover c c' e, rfl, recover_of_steady hk hmoves e⟩

theorem attempt_eq {events events' : List Event} {o : Option Stmt}
    (h : t (c, events) = withRecord events' (r c)) (ho : Reader.attempt r c = .ok o c') :
    attempt t (c, events) = .ok o (c', events' ++ [.attempt c.rest c'.rest]) := by
  unfold Reader.attempt at ho
  cases hr : r c with
  | ok s c₁ =>
    rw [hr] at h ho
    cases ho
    simp only [attempt, h, withRecord]
  | error e c₁ =>
    rw [hr] at h ho
    cases ho
    simp only [attempt, h, withRecord]

theorem followsAt_attempt (hk : c.kind ≠ .eof) (h : FollowsAt .strict t r c) :
    FollowsAt .loose (attempt t) (Reader.attempt r) c := by
  obtain ⟨o, c₁, ho, hreaches, hlength⟩ := exists_attempt hk h
  refine ⟨by rw [ho]; exact hreaches, fun events => ?_⟩
  obtain ⟨new, ht, hnew⟩ := h.reads events
  refine ⟨new ++ [.attempt c.rest c₁.rest], ?_, List.forall_mem_append.2 ⟨hnew,
    List.forall_mem_singleton.2 (isProgress_attempt hreaches.suffix hlength)⟩⟩
  rw [attempt_eq ht ho, ho, List.append_assoc]
  rfl

end

/-- Every statement passes a token, so reading statements from fewer tokens than allowed meets no
bound. -/
theorem follows_block : ∀ {n m : Nat}, m ≤ n → ∀ ending,
    Follows m .loose (block n ending) (Reader.block n ending)
  | _, 0, _, _ => .zero
  | 0, m + 1, hm, _ => absurd hm (Nat.not_succ_le_zero m)
  | n + 1, m + 1, hm, ending => by
    have hn := Nat.le_of_succ_le_succ hm
    refine .next follows_skipNewlines fun _ => .kind fun c hc => ?_
    cases hstop : ending.stops c.kind with
    | true => exact FollowsAt.loose .pure
    | false =>
      have hk : c.kind ≠ .eof := by
        intro hk
        rw [hk] at hstop
        cases ending <;> cases hstop
      have hstatement := follows_statement hm (fun ending => follows_block hn ending) c hc
      obtain ⟨o, c₁, ho, -, hlength⟩ := exists_attempt hk hstatement
      refine (followsAt_attempt hk hstatement).bind (q := .loose) fun o' c₂ ho' => ?_
      rw [ho] at ho'
      cases ho'
      exact Follows.bind (follows_block hn ending) (fun _ => .pure) c₁ <|
        Nat.lt_of_lt_of_le hlength (Nat.le_of_lt_succ hc)

end Recorder

/-! ### Programs -/

namespace Reader

variable {α β : Type} {r : Reader α} {f : α → Reader β}

theorem exists_bind_eq_ok (h : ∀ c, ∃ a c', r c = .ok a c')
    (hf : ∀ a c, ∃ b c', f a c = .ok b c') (c : Cursor) : ∃ b c', (r >>= f) c = .ok b c' := by
  obtain ⟨a, c₁, hr⟩ := h c
  rw [bind_of_ok hr]
  exact hf a c₁

/-- What reading a list of statements fails at is reported and skipped. -/
theorem exists_block_eq_ok : ∀ (n : Nat) (ending : Ending) (c : Cursor),
    ∃ ss c', block n ending c = .ok ss c'
  | 0, _, c => ⟨[], c, rfl⟩
  | n + 1, ending, c => by
    have hattempt : ∀ (r : Reader Stmt) (c : Cursor), ∃ o c', attempt r c = .ok o c' := by
      intro r c
      unfold attempt
      cases r c with
      | ok s c' => exact ⟨_, _, rfl⟩
      | error e c' => exact ⟨_, _, rfl⟩
    refine exists_bind_eq_ok (fun _ => ⟨_, _, rfl⟩) (fun _ => exists_bind_eq_ok
      (fun _ => ⟨_, _, rfl⟩) fun next c => ?_) c
    cases hstop : ending.stops next with
    | true => exact ⟨[], c, rfl⟩
    | false => exact exists_bind_eq_ok (hattempt _) (fun _ =>
        exists_bind_eq_ok (exists_block_eq_ok n ending) fun _ c => ⟨_, c, rfl⟩) c

end Reader

/-- `Program.parse` with a record. -/
def Program.recorded (tokens : List Token) : Parse × List Event :=
  match Recorder.block (tokens.length + 1) .program (.start tokens, []) with
  | .ok program (c, events) => (⟨program, c.reports⟩, events)
  | .error report (c, events) => (⟨[], c.reports ++ [report]⟩, events)

/-- Reading any tokens whatever comes to an end: no reader meets its bound.  Every statement that
is attempted passes at least one token, read or not, and there are no more errors than tokens. -/
theorem Program.recorded_parse (tokens : List Token) :
    (recorded tokens).1 = parse tokens ∧
      .bound ∉ (recorded tokens).2 ∧
      (∀ start stop, .attempt start stop ∈ (recorded tokens).2 →
        ∃ passed, passed ≠ [] ∧ start = passed ++ stop) ∧
      (parse tokens).reports.length ≤ tokens.length := by
  have h := Recorder.follows_block (Nat.le_refl _) .program (.start tokens)
    (Nat.lt_succ_self tokens.length)
  obtain ⟨program, c, hrun⟩ :=
    Reader.exists_block_eq_ok (tokens.length + 1) .program (.start tokens)
  obtain ⟨events, hrecord, hevents⟩ := h.reads []
  have hmoves := h.moves
  rw [hrun] at hrecord hmoves
  have hparse : parse tokens = ⟨program, c.reports⟩ := by rw [parse, hrun]
  have hrecorded : recorded tokens = (⟨program, c.reports⟩, events) := by
    rw [recorded, hrecord]
    rfl
  rw [hparse, hrecorded]
  refine ⟨rfl, fun hbound => hevents _ hbound, fun start stop hattempt => hevents _ hattempt, ?_⟩
  have hload : c.rest.length + c.reports.length ≤ tokens.length := hmoves.load
  exact Nat.le_trans (Nat.le_add_left _ _) hload

/-- Every stray `end` is an error of its own. -/
example : (Program.parse (List.replicate 3 ⟨.keyword .end, .none⟩)).reports.length = 3 := by decide

end NumericScript
