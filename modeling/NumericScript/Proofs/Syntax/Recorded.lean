import NumericScript.Syntax.Statement

/-! # Readers that keep a record

The readers once more, with a record of what happens on the way: every statement attempted, with
the tokens left before and after it, and every bound met.  A reader follows another if it reads the
same, and if nothing but progress is recorded.

* `Recorder.Follows`: a reader with a record and the reader that it follows.
* `Recorder.Follows.bind`: readers one after the other.
* `Recorder.follows_expr`: reading an expression from few enough tokens meets no bound. -/

namespace NumericScript

/-! ### Progress -/

/-- What a record says of a reading. -/
inductive Event where
  /-- A reader meets its bound. -/
  | bound
  /-- A statement is attempted before the tokens `start`, and reading goes on before `stop`. -/
  | attempt (start stop : List Token)

/-- A statement attempted is progress if at least one token is passed.  A bound met is none. -/
def Event.IsProgress : Event → Prop
  | .bound => False
  | .attempt start stop => ∃ passed, passed ≠ [] ∧ start = passed ++ stop

namespace Cursor

/-- How many tokens are left and how many errors are reported. -/
def load (c : Cursor) : Nat := c.rest.length + c.reports.length

/-- Reading goes on from `c` at `c'`, with at most as many errors reported as tokens passed. -/
structure Reaches (c c' : Cursor) : Prop where
  suffix : c'.rest <:+ c.rest
  load : c'.load ≤ c.load

/-- Reading goes on from `c` past at least one token at `c'`, with fewer errors reported than
tokens passed. -/
structure Passes (c c' : Cursor) : Prop where
  suffix : c'.rest <:+ c.rest
  length : c'.rest.length < c.rest.length
  load : c'.load < c.load

/-- Reading goes on from `c` at `c'`, past tokens or not. -/
def Steady (c c' : Cursor) : Prop := c' = c ∨ c.Passes c'

variable {c c₁ c₂ : Cursor}

theorem Reaches.refl : c.Reaches c := ⟨List.suffix_rfl, Nat.le_refl _⟩

theorem Reaches.trans (h : c.Reaches c₁) (h' : c₁.Reaches c₂) : c.Reaches c₂ :=
  ⟨h'.suffix.trans h.suffix, Nat.le_trans h'.load h.load⟩

theorem Reaches.length_le (h : c.Reaches c₁) : c₁.rest.length ≤ c.rest.length := h.suffix.length_le

theorem Passes.reaches (h : c.Passes c₁) : c.Reaches c₁ := ⟨h.suffix, Nat.le_of_lt h.load⟩

theorem Passes.trans_reaches (h : c.Passes c₁) (h' : c₁.Reaches c₂) : c.Passes c₂ :=
  ⟨h'.suffix.trans h.suffix, Nat.lt_of_le_of_lt h'.length_le h.length,
    Nat.lt_of_le_of_lt h'.load h.load⟩

theorem Passes.steady (h : c.Passes c₁) : c.Steady c₁ := .inr h

theorem Steady.refl : c.Steady c := .inl rfl

theorem Steady.reaches (h : c.Steady c₁) : c.Reaches c₁ := by
  obtain rfl | h := h
  · exact .refl
  · exact h.reaches

theorem Passes.of_rest {ts : List Token} (hts : ts <:+ c.rest) (h : ts.length < c.rest.length) :
    c.Passes { c with rest := ts } := ⟨hts, h, Nat.add_lt_add_right h _⟩

theorem Steady.of_rest {ts : List Token} (hts : ts <:+ c.rest) :
    c.Steady { c with rest := ts } := by
  rcases Nat.lt_or_ge ts.length c.rest.length with h | h
  · exact .inr (.of_rest hts h)
  · exact .inl (by rw [hts.eq_of_length_le h])

theorem passes_advance (h : c.kind ≠ .eof) : c.Passes c.advance := by
  refine .of_rest (List.tail_suffix _) ?_
  unfold kind at h
  cases hrest : c.rest with
  | nil => simp [hrest] at h
  | cons t ts => exact Nat.lt_succ_self _

theorem steady_advance : c.Steady c.advance := .of_rest (List.tail_suffix _)

end Cursor

/-- How a reader moves its cursor. -/
inductive Pace where
  /-- What is read takes at least one token. -/
  | strict
  /-- What is read may take no token. -/
  | steady
  /-- There may be as many errors reported as tokens passed. -/
  | loose

namespace Pace

/-- Where a reader that succeeds may stop. -/
def Succeeds : Pace → Cursor → Cursor → Prop
  | .strict => Cursor.Passes
  | .steady => Cursor.Steady
  | .loose => Cursor.Reaches

/-- Where a reader may fail. -/
def Fails : Pace → Cursor → Cursor → Prop
  | .strict | .steady => Cursor.Steady
  | .loose => Cursor.Reaches

/-- The pace of two readers one after the other. -/
def andThen : Pace → Pace → Pace
  | .strict, _ => .strict
  | .steady, q => q
  | .loose, _ => .loose

/-- What a reader may give that begins at a cursor. -/
def Allows {α : Type} (p : Pace) (c : Cursor) : EStateM.Result SyntaxReport Cursor α → Prop
  | .ok _ c' => p.Succeeds c c'
  | .error _ c' => p.Fails c c'

variable {p q : Pace} {c c₁ c₂ : Cursor}

theorem Succeeds.reaches (h : p.Succeeds c c₁) : c.Reaches c₁ := by
  cases p with
  | strict => exact Cursor.Passes.reaches h
  | steady => exact Cursor.Steady.reaches h
  | loose => exact h

theorem Fails.reaches (h : p.Fails c c₁) : c.Reaches c₁ := by
  cases p with
  | strict | steady => exact Cursor.Steady.reaches h
  | loose => exact h

theorem Succeeds.of_passes (h : c.Passes c₁) : p.Succeeds c c₁ := by
  cases p with
  | strict => exact h
  | steady => exact h.steady
  | loose => exact h.reaches

theorem Fails.of_passes (h : c.Passes c₁) : p.Fails c c₁ := by
  cases p with
  | strict | steady => exact h.steady
  | loose => exact h.reaches

theorem Succeeds.trans (h : p.Succeeds c c₁) (h' : q.Succeeds c₁ c₂) :
    (p.andThen q).Succeeds c c₂ := by
  cases p with
  | strict => exact Cursor.Passes.trans_reaches h h'.reaches
  | steady =>
    obtain rfl | h := h
    · exact h'
    · exact .of_passes (h.trans_reaches h'.reaches)
  | loose => exact Cursor.Reaches.trans h h'.reaches

theorem Succeeds.trans_fails (h : p.Succeeds c c₁) (h' : q.Fails c₁ c₂) :
    (p.andThen q).Fails c c₂ := by
  cases p with
  | strict => exact .of_passes (p := .strict) (Cursor.Passes.trans_reaches h h'.reaches)
  | steady =>
    obtain rfl | h := h
    · exact h'
    · exact .of_passes (h.trans_reaches h'.reaches)
  | loose => exact Cursor.Reaches.trans h h'.reaches

theorem Fails.andThen (h : p.Fails c c₁) : (p.andThen q).Fails c c₁ := by
  cases p with
  | strict => exact h
  | steady =>
    cases q with
    | strict | steady => exact h
    | loose => exact Cursor.Steady.reaches h
  | loose => exact h

theorem Allows.imp {α : Type} {result : EStateM.Result SyntaxReport Cursor α}
    (h : p.Allows c₁ result) (hs : ∀ c', p.Succeeds c₁ c' → q.Succeeds c c')
    (hf : ∀ c', p.Fails c₁ c' → q.Fails c c') : q.Allows c result := by
  cases result with
  | ok a c' => exact hs c' h
  | error e c' => exact hf c' h

end Pace

/-! ### Readers with a record -/

section

variable {σ α β : Type} {r : EStateM SyntaxReport σ α} {f : α → EStateM SyntaxReport σ β} {s s' : σ}

theorem bind_of_ok {a : α} (h : r s = .ok a s') : (r >>= f) s = f a s' := by
  change EStateM.bind r f s = _
  rw [EStateM.bind, h]

theorem bind_of_error {e : SyntaxReport} (h : r s = .error e s') :
    (r >>= f) s = .error e s' := by
  change EStateM.bind r f s = _
  rw [EStateM.bind, h]

end

/-- Readers that keep a record. -/
abbrev Recorder (α : Type) := EStateM SyntaxReport (Cursor × List Event) α

namespace Recorder

variable {α β : Type}

/-- What a reader gives, with a record. -/
def withRecord (events : List Event) :
    EStateM.Result SyntaxReport Cursor α → EStateM.Result SyntaxReport (Cursor × List Event) α
  | .ok a c => .ok a (c, events)
  | .error e c => .error e (c, events)

/-- A reader that records nothing. -/
def ofReader (r : Reader α) : Recorder α := fun (c, events) => withRecord events (r c)

instance : MonadLift Reader Recorder := ⟨ofReader⟩

/-- Records that a bound is met. -/
def meetBound : Recorder Unit := fun (c, events) => .ok () (c, events ++ [.bound])

/-- From the cursor `c` a reader with a record gives what `r` gives, at the pace `p`, and records
progress only. -/
structure FollowsAt (p : Pace) (t : Recorder α) (r : Reader α) (c : Cursor) : Prop where
  moves : p.Allows c (r c)
  reads : ∀ events, ∃ new, t (c, events) = withRecord (events ++ new) (r c) ∧
    ∀ e ∈ new, e.IsProgress

/-- With fewer than `m` tokens left a reader with a record follows `r`. -/
def Follows (m : Nat) (p : Pace) (t : Recorder α) (r : Reader α) : Prop :=
  ∀ c, c.rest.length < m → FollowsAt p t r c

section

variable {m : Nat} {p q : Pace} {c : Cursor} {t : Recorder α} {r : Reader α}
  {g : α → Recorder β} {f : α → Reader β}

/-- A reader that adds nothing to the record. -/
theorem FollowsAt.of_eq (h : p.Allows c (r c))
    (ht : ∀ events, t (c, events) = withRecord events (r c)) : FollowsAt p t r c :=
  ⟨h, fun events => ⟨[], by rw [List.append_nil, ht], List.forall_mem_nil _⟩⟩

theorem FollowsAt.lift (h : p.Allows c (r c)) : FollowsAt p (liftM r) r c := .of_eq h fun _ => rfl

theorem FollowsAt.pure {a : α} : FollowsAt .steady (Pure.pure a) (Pure.pure a) c :=
  .of_eq Cursor.Steady.refl fun _ => rfl

theorem FollowsAt.bind (h : FollowsAt p t r c)
    (hf : ∀ a c₁, r c = .ok a c₁ → FollowsAt q (g a) (f a) c₁) :
    FollowsAt (p.andThen q) (t >>= g) (r >>= f) c := by
  have hmoves := h.moves
  cases hr : r c with
  | ok a c₁ =>
    rw [hr] at hmoves
    refine ⟨?_, fun events => ?_⟩
    · rw [bind_of_ok hr]
      exact (hf a c₁ hr).moves.imp (fun _ => hmoves.trans) fun _ => hmoves.trans_fails
    · obtain ⟨new, ht, hnew⟩ := h.reads events
      obtain ⟨new', hg, hnew'⟩ := (hf a c₁ hr).reads (events ++ new)
      rw [hr] at ht
      refine ⟨new ++ new', ?_, List.forall_mem_append.2 ⟨hnew, hnew'⟩⟩
      rw [bind_of_ok hr, bind_of_ok ht, ← List.append_assoc, hg]
  | error e c₁ =>
    rw [hr] at hmoves
    refine ⟨?_, fun events => ?_⟩
    · rw [bind_of_error hr]
      exact hmoves.andThen
    · obtain ⟨new, ht, hnew⟩ := h.reads events
      rw [hr] at ht
      refine ⟨new, ?_, hnew⟩
      rw [bind_of_error hr, bind_of_error ht]
      rfl

theorem FollowsAt.steady (h : FollowsAt .strict t r c) : FollowsAt .steady t r c :=
  ⟨h.moves.imp (fun _ => Cursor.Passes.steady) fun _ h => h, h.reads⟩

theorem FollowsAt.loose (h : FollowsAt p t r c) : FollowsAt .loose t r c :=
  ⟨h.moves.imp (fun _ => Pace.Succeeds.reaches) fun _ => Pace.Fails.reaches, h.reads⟩

theorem FollowsAt.length_le (h : FollowsAt p t r c) {a : α} {c₁ : Cursor} (hr : r c = .ok a c₁) :
    c₁.rest.length ≤ c.rest.length := by
  have hmoves := h.moves
  rw [hr] at hmoves
  exact hmoves.reaches.length_le

theorem FollowsAt.length_lt (h : FollowsAt .strict t r c) {a : α} {c₁ : Cursor}
    (hr : r c = .ok a c₁) : c₁.rest.length < c.rest.length := by
  have hmoves := h.moves
  rw [hr] at hmoves
  exact Cursor.Passes.length hmoves

theorem Follows.zero : Follows 0 p t r := fun _ hc => absurd hc (Nat.not_lt_zero _)

theorem Follows.mono {n : Nat} (h : Follows n p t r) (hm : m ≤ n) : Follows m p t r :=
  fun c hc => h c (Nat.lt_of_lt_of_le hc hm)

theorem Follows.steady (h : Follows m .strict t r) : Follows m .steady t r :=
  fun c hc => (h c hc).steady

theorem Follows.pure {a : α} : Follows m .steady (Pure.pure a) (Pure.pure a) := fun _ _ => .pure

theorem Follows.ite {b : Prop} [Decidable b] {t' : Recorder α} {r' : Reader α}
    (h : Follows m p t r) (h' : Follows m p t' r') :
    Follows m p (if b then t else t') (if b then r else r') := by
  split
  · exact h
  · exact h'

/-- Readers one after the other. -/
theorem Follows.bind (h : Follows m p t r) (hf : ∀ a, Follows m q (g a) (f a)) :
    Follows m (p.andThen q) (t >>= g) (r >>= f) :=
  fun c hc => (h c hc).bind fun a c₁ hr => hf a c₁ (Nat.lt_of_le_of_lt ((h c hc).length_le hr) hc)

/-- After a reader that may take no token goes on what sets the pace. -/
theorem Follows.next (h : Follows m .steady t r) (hf : ∀ a, Follows m p (g a) (f a)) :
    Follows m p (t >>= g) (r >>= f) := h.bind hf

/-- After a reader that takes a token there are fewer left. -/
theorem Follows.pass (h : Follows (m + 1) .strict t r) (hf : ∀ a, Follows m q (g a) (f a)) :
    Follows (m + 1) .strict (t >>= g) (r >>= f) :=
  fun c hc => (h c hc).bind fun a c₁ hr => hf a c₁ <|
    Nat.lt_of_lt_of_le ((h c hc).length_lt hr) (Nat.le_of_lt_succ hc)

end

/-! ### Single tokens -/

section

variable {m : Nat} {p q : Pace} {c : Cursor}

theorem follows_loc : Follows m .steady (liftM Reader.loc) Reader.loc := fun _ _ => .lift .refl

theorem follows_kind : Follows m .steady (liftM Reader.kind) Reader.kind := fun _ _ => .lift .refl

theorem follows_kindAfter : Follows m .steady (liftM Reader.kindAfter) Reader.kindAfter :=
  fun _ _ => .lift .refl

theorem follows_advance : Follows m .steady (liftM Reader.advance) Reader.advance :=
  fun _ _ => .lift Cursor.steady_advance

theorem follows_skipNewlines : Follows m .steady (liftM Reader.skipNewlines) Reader.skipNewlines :=
  fun _ _ => .lift (.of_rest (List.dropWhile_suffix _))

theorem follows_eat (k : TokenKind) : Follows m .steady (liftM (Reader.eat k)) (Reader.eat k) := by
  refine fun c _ => .lift ?_
  unfold Reader.eat
  by_cases h : c.kind = k
  · rw [if_pos h]
    exact Cursor.steady_advance
  · rw [if_neg h]
    exact Cursor.Steady.refl

/-- Passing a token of the kind that is expected. -/
theorem follows_expected {k : TokenKind} {r : Reader Unit} {expected : Expected} (hk : k ≠ .eof)
    (hr : ∀ c, r c = if c.kind = k then .ok () c.advance else .error (c.missing expected) c) :
    Follows m .strict (liftM r) r := by
  refine fun c _ => .lift ?_
  rw [hr]
  by_cases h : c.kind = k
  · rw [if_pos h]
    exact Cursor.passes_advance (h ▸ hk)
  · rw [if_neg h]
    exact Cursor.Steady.refl

theorem follows_punct (mark : Punct) :
    Follows m .strict (liftM (Reader.punct mark)) (Reader.punct mark) :=
  follows_expected TokenKind.noConfusion fun _ => rfl

theorem follows_name : Follows m .strict (liftM Reader.name) Reader.name := by
  refine fun c _ => .lift ?_
  unfold Reader.name
  cases h : c.kind with
  | name x => exact Cursor.passes_advance (by simp [h])
  | _ => exact .refl

theorem follows_missing {expected : Expected} :
    Follows m .strict (liftM (Reader.missing expected : Reader α)) (Reader.missing expected) :=
  fun _ _ => .lift .refl

theorem follows_atTranspose : Follows m .steady (liftM Reader.atTranspose) Reader.atTranspose :=
  fun _ _ => .lift .refl

/-- Looking at the next token. -/
theorem Follows.kind {g : TokenKind → Recorder β} {f : TokenKind → Reader β}
    (h : ∀ c, c.rest.length < m → FollowsAt p (g c.kind) (f c.kind) c) :
    Follows m p (liftM Reader.kind >>= g) (Reader.kind >>= f) :=
  fun c hc => ⟨(h c hc).moves, (h c hc).reads⟩

/-- Passing a token that is there. -/
theorem FollowsAt.advance {g : Loc → Recorder β} {f : Loc → Reader β} (hk : c.kind ≠ .eof)
    (hc : c.rest.length < m + 1) (hf : ∀ a, Follows m q (g a) (f a)) :
    FollowsAt .strict (liftM Reader.advance >>= g) (Reader.advance >>= f) c := by
  have h : FollowsAt .strict (liftM Reader.advance) Reader.advance c :=
    .lift (Cursor.passes_advance hk)
  exact h.bind fun a c₁ hr => hf a c₁ <|
    Nat.lt_of_lt_of_le (h.length_lt hr) (Nat.le_of_lt_succ hc)

end

/-! ### Expressions

Each of these is the reader of the same name, but that it records where its bound is met. -/

def chain (ops : TokenKind → Option BinaryOp) (operand : Recorder Expr) :
    Nat → Expr → Recorder Expr
  | 0, left => do
    meetBound
    pure left
  | n + 1, left => do
    match ops (← Reader.kind) with
    | none => pure left
    | some op =>
      let loc ← Reader.advance
      let right ← operand
      chain ops operand n (.binary (Reader.markAt loc) op left right)

def climb (n : Nat) (operand : Recorder Expr) :
    List (TokenKind → Option BinaryOp) → Recorder Expr
  | [] => operand
  | ops :: tighter => do
    let left ← climb n operand tighter
    chain ops (climb n operand tighter) n left

def powers (operand : Recorder Expr) : Nat → Expr → Recorder Expr
  | 0, base => do
    meetBound
    pure base
  | n + 1, base => do
    if (← Reader.kind) = .punct .caret then
      let loc ← Reader.advance
      if (← Reader.atTranspose) then
        let _ ← Reader.advance
        powers operand n (.unary (Reader.markAt loc) .transpose base)
      else
        let next ← operand
        let exponent ← powers operand n next
        pure (.binary (Reader.markAt loc) .pow base exponent)
    else pure base

def power (n : Nat) (operand : Recorder Expr) : Recorder Expr := do
  let base ← operand
  powers operand n base

def signed (operand : Recorder Expr) : Nat → Recorder Expr
  | 0 => do
    meetBound
    operand
  | n + 1 => do
    match Reader.signOp? (← Reader.kind) with
    | none => operand
    | some op =>
      let loc ← Reader.advance
      let e ← signed operand n
      pure (.unary (Reader.markAt loc) op e)

def closedIndex (expr : Recorder Expr) : Recorder Expr := do
  let e ← expr
  Reader.punct .rightBracket
  pure e

def column (expr : Recorder Expr) : Recorder (Option Expr) := do
  if (← Reader.eat (.punct .leftBracket)) then
    let e ← closedIndex expr
    pure (some e)
  else pure none

def subscripts (expr : Recorder Expr) : Nat → Expr → Recorder Expr
  | 0, base => do
    meetBound
    pure base
  | n + 1, base => do
    if (← Reader.kind) = .punct .leftBracket then
      let loc ← Reader.advance
      let row ← closedIndex expr
      let col ← column expr
      subscripts expr n (.index (Reader.markAt loc) base row col)
    else pure base

def separated (expr : Recorder Expr) : Nat → Recorder (List Expr)
  | 0 => do
    meetBound
    pure []
  | n + 1 => do
    let e ← expr
    if (← Reader.eat (.punct .comma)) then
      let es ← separated expr n
      pure (e :: es)
    else pure [e]

def arguments (n : Nat) (expr : Recorder Expr) : Recorder (List Expr) := do
  let args ← if (← Reader.kind) = .punct .rightParen then pure [] else separated expr n
  Reader.punct .rightParen
  pure args

def elements (expr : Recorder Expr) : Nat → Recorder (List Expr)
  | 0 => do
    meetBound
    pure []
  | n + 1 => do
    let e ← expr
    Reader.skipNewlines
    if (← Reader.eat (.punct .comma)) then
      Reader.skipNewlines
      let es ← elements expr n
      pure (e :: es)
    else pure [e]

def bracketed (n : Nat) (expr : Recorder Expr) (loc : Loc) : Recorder Expr := do
  Reader.skipNewlines
  let es ← if (← Reader.kind) = .punct .rightBracket then pure [] else elements expr n
  Reader.punct .rightBracket
  pure (Reader.literal loc es)

def primary (n : Nat) (expr : Recorder Expr) : Recorder Expr := do
  match (← Reader.kind) with
  | .int value => return .int (Reader.markAt (← Reader.advance)) value
  | .float value => return .float (Reader.markAt (← Reader.advance)) value
  | .str raw =>
    let loc ← Reader.advance
    Reader.textLiteral loc raw
  | .keyword .true => return .bool (Reader.markAt (← Reader.advance)) true
  | .keyword .false => return .bool (Reader.markAt (← Reader.advance)) false
  | .name x =>
    let loc ← Reader.advance
    if (← Reader.eat (.punct .leftParen)) then
      let args ← arguments n expr
      pure (.call (Reader.markAt loc) x args)
    else pure (.name (Reader.markAt loc) (.unbound x))
  | .punct .leftParen =>
    let _ ← Reader.advance
    let e ← expr
    Reader.punct .rightParen
    pure e
  | .punct .leftBracket =>
    let loc ← Reader.advance
    bracketed n expr loc
  | _ => Reader.missing .expression

def postfixed (n : Nat) (expr : Recorder Expr) : Recorder Expr := do
  let base ← primary n expr
  subscripts expr n base

def expr : Nat → Recorder Expr
  | 0 => do
    meetBound
    Reader.missing .expression
  | n + 1 => climb n (power n (signed (postfixed n (expr n)) n)) Reader.levels

/-! The readers of expressions pass tokens.  A reader with the bound `n` meets it only where `n`
tokens or more are left. -/

section

variable {t : Recorder Expr} {r : Reader Expr}

theorem follows_chain {ops : TokenKind → Option BinaryOp} (hops : ops .eof = none) :
    ∀ {n m : Nat}, m ≤ n → Follows m .strict t r → ∀ left,
      Follows m .steady (chain ops t n left) (Reader.chain ops r n left)
  | _, 0, _, _, _ => .zero
  | 0, m + 1, hm, _, _ => absurd hm (Nat.not_succ_le_zero m)
  | n + 1, m + 1, hm, h, left => by
    have h' := h.mono (Nat.le_succ m)
    refine .kind fun c hc => ?_
    cases hop : ops c.kind with
    | none => exact .pure
    | some op =>
      have hk : c.kind ≠ .eof := fun hk => by simp [hk, hops] at hop
      exact .steady (.advance hk hc fun loc => .bind h' fun right =>
        follows_chain hops (Nat.le_of_succ_le_succ hm) h' _)

theorem follows_climb {n m : Nat} (hm : m ≤ n) (h : Follows m .strict t r) :
    ∀ {levels : List (TokenKind → Option BinaryOp)}, (∀ ops ∈ levels, ops .eof = none) →
      Follows m .strict (climb n t levels) (Reader.climb n r levels)
  | [], _ => h
  | ops :: tighter, hlevels => by
    have htighter := follows_climb hm h fun ops hops => hlevels ops (List.mem_cons_of_mem _ hops)
    exact .bind htighter fun left => follows_chain (hlevels ops List.mem_cons_self) hm htighter left

theorem follows_powers : ∀ {n m : Nat}, m ≤ n → Follows m .strict t r → ∀ base,
    Follows m .steady (powers t n base) (Reader.powers r n base)
  | _, 0, _, _, _ => .zero
  | 0, m + 1, hm, _, _ => absurd hm (Nat.not_succ_le_zero m)
  | n + 1, m + 1, hm, h, base => by
    have h' := h.mono (Nat.le_succ m)
    have hmore := follows_powers (Nat.le_of_succ_le_succ hm) h'
    refine .kind fun c hc => ?_
    by_cases hk : c.kind = .punct .caret
    · rw [if_pos hk, if_pos hk]
      refine .steady (.advance (q := .steady) (by simp [hk]) hc fun loc =>
        .next follows_atTranspose fun transposes => ?_)
      -- The exponent mark is passed already, so nothing depends on the mark of a transpose.
      cases transposes with
      | true => exact .next follows_advance fun _ => hmore _
      | false => exact .steady (.bind h' fun next => .bind (hmore next) fun exponent => .pure)
    · rw [if_neg hk, if_neg hk]
      exact .pure

theorem follows_power {n m : Nat} (hm : m ≤ n) (h : Follows m .strict t r) :
    Follows m .strict (power n t) (Reader.power n r) :=
  .bind h fun base => follows_powers hm h base

theorem follows_signed : ∀ {n m : Nat}, m ≤ n → Follows m .strict t r →
    Follows m .strict (signed t n) (Reader.signed r n)
  | _, 0, _, _ => .zero
  | 0, m + 1, hm, _ => absurd hm (Nat.not_succ_le_zero m)
  | n + 1, m + 1, hm, h => by
    refine .kind fun c hc => ?_
    cases hop : Reader.signOp? c.kind with
    | none => exact h c hc
    | some op =>
      have hk : c.kind ≠ .eof := fun hk => by simp [hk, Reader.signOp?] at hop
      exact .advance hk hc fun loc =>
        .bind (follows_signed (Nat.le_of_succ_le_succ hm) (h.mono (Nat.le_succ m))) fun e => .pure

theorem follows_closedIndex {m : Nat} (h : Follows m .strict t r) :
    Follows m .strict (closedIndex t) (Reader.closedIndex r) :=
  .bind h fun _ => .bind (follows_punct _) fun _ => .pure

theorem follows_column {m : Nat} (h : Follows m .strict t r) :
    Follows m .steady (column t) (Reader.column r) := by
  refine .next (follows_eat _) fun opens => ?_
  cases opens with
  | true => exact .steady (.bind (follows_closedIndex h) fun e => .pure)
  | false => exact .pure

theorem follows_subscripts : ∀ {n m : Nat}, m ≤ n → Follows m .strict t r → ∀ base,
    Follows m .steady (subscripts t n base) (Reader.subscripts r n base)
  | _, 0, _, _, _ => .zero
  | 0, m + 1, hm, _, _ => absurd hm (Nat.not_succ_le_zero m)
  | n + 1, m + 1, hm, h, base => by
    have h' := h.mono (Nat.le_succ m)
    refine .kind fun c hc => ?_
    by_cases hk : c.kind = .punct .leftBracket
    · rw [if_pos hk, if_pos hk]
      exact .steady (.advance (by simp [hk]) hc fun loc => .bind (follows_closedIndex h') fun row =>
        .bind (follows_column h') fun col => follows_subscripts (Nat.le_of_succ_le_succ hm) h' _)
    · rw [if_neg hk, if_neg hk]
      exact .pure

theorem follows_separated : ∀ {n m : Nat}, m ≤ n → Follows m .strict t r →
    Follows m .strict (separated t n) (Reader.separated r n)
  | _, 0, _, _ => .zero
  | 0, m + 1, hm, _ => absurd hm (Nat.not_succ_le_zero m)
  | n + 1, m + 1, hm, h => by
    refine .pass (q := .steady) h fun e => .next (follows_eat _) fun more => ?_
    cases more with
    | true =>
      exact .steady (.bind (follows_separated (Nat.le_of_succ_le_succ hm)
        (h.mono (Nat.le_succ m))) fun es => .pure)
    | false => exact .pure

theorem follows_arguments {n m : Nat} (hm : m ≤ n) (h : Follows m .strict t r) :
    Follows m .strict (arguments n t) (Reader.arguments n r) :=
  .next follows_kind fun _ => .ite
    (.bind (follows_punct _) fun _ => .pure)
    (.bind (follows_separated hm h) fun _ => .bind (follows_punct _) fun _ => .pure)

theorem follows_elements : ∀ {n m : Nat}, m ≤ n → Follows m .strict t r →
    Follows m .strict (elements t n) (Reader.elements r n)
  | _, 0, _, _ => .zero
  | 0, m + 1, hm, _ => absurd hm (Nat.not_succ_le_zero m)
  | n + 1, m + 1, hm, h => by
    refine .pass (q := .steady) h fun e => .next follows_skipNewlines fun _ =>
      .next (follows_eat _) fun more => ?_
    cases more with
    | true =>
      exact .next follows_skipNewlines fun _ => .steady (.bind
        (follows_elements (Nat.le_of_succ_le_succ hm) (h.mono (Nat.le_succ m))) fun es => .pure)
    | false => exact .pure

theorem follows_bracketed {n m : Nat} (hm : m ≤ n) (h : Follows m .strict t r) (loc : Loc) :
    Follows m .strict (bracketed n t loc) (Reader.bracketed n r loc) :=
  .next follows_skipNewlines fun _ => .next follows_kind fun _ => .ite
    (.bind (follows_punct _) fun _ => .pure)
    (.bind (follows_elements hm h) fun _ => .bind (follows_punct _) fun _ => .pure)

theorem follows_textLiteral {m : Nat} (loc : Loc) (raw : String) :
    Follows m .steady (liftM (Reader.textLiteral loc raw)) (Reader.textLiteral loc raw) := by
  refine fun c _ => .lift ?_
  unfold Reader.textLiteral
  cases Text.unescape raw.toList with
  | ok cs => exact .refl
  | error ch => exact .refl

theorem follows_primary {n m : Nat} (hm : m ≤ n) (h : Follows m .strict t r) :
    Follows (m + 1) .strict (primary n t) (Reader.primary n r) := by
  refine .kind fun c hc => ?_
  cases hk : c.kind with
  | int value => exact .advance (by simp [hk]) hc fun loc => .pure
  | float value => exact .advance (by simp [hk]) hc fun loc => .pure
  | str raw => exact .advance (by simp [hk]) hc fun loc => follows_textLiteral loc raw
  | keyword word =>
    cases word with
    | true => exact .advance (by simp [hk]) hc fun loc => .pure
    | false => exact .advance (by simp [hk]) hc fun loc => .pure
    | _ => exact follows_missing c hc
  | name x =>
    refine .advance (q := .steady) (by simp [hk]) hc fun loc =>
      .next (follows_eat _) fun opens => ?_
    cases opens with
    | true => exact .steady (.bind (follows_arguments hm h) fun args => .pure)
    | false => exact .pure
  | punct mark =>
    cases mark with
    | leftParen =>
      exact .advance (by simp [hk]) hc fun _ => .bind h fun e => .bind (follows_punct _) fun _ =>
        .pure
    | leftBracket => exact .advance (by simp [hk]) hc fun loc => follows_bracketed hm h loc
    | _ => exact follows_missing c hc
  | _ => exact follows_missing c hc

theorem follows_postfixed {n m : Nat} (hm : m ≤ n) (h : Follows m .strict t r) :
    Follows (m + 1) .strict (postfixed n t) (Reader.postfixed n r) :=
  .pass (follows_primary hm h) fun base => follows_subscripts hm h base

end

/-- An expression takes tokens, and reading it from fewer tokens than allowed meets no bound. -/
theorem follows_expr : ∀ {n m : Nat}, m < n → Follows m .strict (expr n) (Reader.expr n)
  | _, 0, _ => .zero
  | n + 1, m + 1, hm => by
    have hn : m < n := Nat.lt_of_succ_lt_succ hm
    have hpostfixed := follows_postfixed (Nat.le_of_lt hn) (follows_expr hn)
    have hlevels : ∀ ops ∈ Reader.levels, ops .eof = none := by simp [Reader.levels, Reader.orOp?,
      Reader.andOp?, Reader.equalityOp?, Reader.orderOp?, Reader.sumOp?, Reader.productOp?]
    exact follows_climb hn (follows_power hn (follows_signed hn hpostfixed)) hlevels

end Recorder

end NumericScript
