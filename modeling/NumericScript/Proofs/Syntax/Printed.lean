import NumericScript.Proofs.Syntax.Reads

/-! # Reading printed expressions

Reading the tokens of an expression gives the expression again.  An operator that associates to
the left is read by a loop, so that what is left of it is not read by a reader of its own: for
every loop `ReadsAs` speaks of all that may go on behind an operand.

* `Expr.ReadsAs`: tokens that are read as an expression at a level.
* `Expr.isPrinted_of_isSource`: an expression is read from its tokens. -/

namespace NumericScript

open Reader

/-! ### Operators that may follow -/

/-- The level at which a token goes on with an expression. -/
def bindsAt? : TokenKind → Option Nat
  | .keyword .or => some 0
  | .keyword .and => some 1
  | .punct .equal | .punct .notEqual => some 2
  | .punct .less | .punct .lessEqual | .punct .greater | .punct .greaterEqual => some 3
  | .punct .plus | .punct .minus => some 4
  | .punct .star | .punct .slash | .punct .percent => some 5
  | .punct .caret => some 6
  | .punct .leftBracket | .punct .leftParen => some subscriptLevel
  | _ => none

/-- An expression of level `l` ends before the token. -/
def Stops (l : Nat) (k : TokenKind) : Prop := ∀ m ∈ bindsAt? k, m < l

theorem Stops.mono {l l' : Nat} {k : TokenKind} (h : Stops l k) (hl : l ≤ l') : Stops l' k :=
  fun m hm => Nat.lt_of_lt_of_le (h m hm) hl

theorem stops_of_eq_none {l : Nat} {k : TokenKind} (h : bindsAt? k = none) : Stops l k := by
  simp [Stops, h]

theorem stops_token {op : BinaryOp} {l : Nat} (h : op.level < l) : Stops l op.token := by
  have hbinds : bindsAt? op.token = some op.level := by cases op <;> rfl
  simpa [Stops, hbinds] using h

theorem Stops.ne {l m : Nat} {k k' : TokenKind} (h : Stops l k) (hk : bindsAt? k' = some m)
    (hm : l ≤ m) : k ≠ k' := by
  rintro rfl
  exact absurd (h m hk) (Nat.not_lt.2 hm)

/-- The operators of a level. -/
def opAt? (l : Nat) : TokenKind → Option BinaryOp := levels.getD l fun _ => none

theorem opAt?_token {op : BinaryOp} (h : op ≠ .pow) : opAt? op.level op.token = some op := by
  cases op <;> first | rfl | exact absurd rfl h

theorem bindsAt?_of_opAt? {l : Nat} {k : TokenKind} {op : BinaryOp} (h : opAt? l k = some op) :
    bindsAt? k = some l := by
  match l with
  | 0 | 1 | 2 | 3 | 4 | 5 =>
    cases k with
    | keyword w => cases w <;> first | rfl | cases h
    | punct p => cases p <;> first | rfl | cases h
    | _ => cases h
  | _ + 6 => cases h

theorem Stops.opAt?_eq_none {l : Nat} {k : TokenKind} (h : Stops l k) : opAt? l k = none := by
  cases hop : opAt? l k with
  | none => rfl
  | some op => exact absurd (h l (bindsAt?_of_opAt? hop)) (Nat.lt_irrefl l)

namespace Reader

/-! ### Readers by levels -/

/-- Reads what subscripts give. -/
abbrev atom (n : Nat) : Reader Expr := postfixed n (expr n)

/-- Reads what signs give. -/
abbrev factor (n : Nat) : Reader Expr := signed (atom n) n

/-- Reads an expression from the level `l` on. -/
def stage (n l : Nat) : Reader Expr := climb n (power n (factor n)) (levels.drop l)

theorem stage_eq {n l : Nat} (h : l < 6) :
    stage n l = stage n (l + 1) >>= fun left => chain (opAt? l) (stage n (l + 1)) n left := by
  have hdrop : levels.drop l = opAt? l :: levels.drop (l + 1) := by
    rw [List.drop_eq_getElem_cons h, opAt?, List.getD_eq_getElem?_getD, List.getElem?_eq_getElem h]
    rfl
  rw [stage, hdrop]
  rfl

end Reader

/-! ### Tokens that are read as an expression -/

namespace Expr

/-- Whether a tree is the same up to places. -/
def Alike (e e' : Expr) : Prop := e'.unplaced = e.unplaced

/-- What is read from `ks` by the loop of level `l`, whatever the loop goes on with. -/
def ReadsByChain (l : Nat) (ks : List TokenKind) (e : Expr) : Prop :=
  ∀ ⦃n : Nat⦄ ⦃rest out : List TokenKind⦄ ⦃Q : Expr → Prop⦄, Stops (l + 1) (nextKind rest) →
    (ks ++ rest).length ≤ n →
    (∀ m e', rest.length < m → e.Alike e' →
      (chain (opAt? l) (stage n (l + 1)) m e').Reads rest out Q) →
    (stage n l).Reads (ks ++ rest) out Q

/-- What is read from `ks` as a power. -/
def ReadsByPower (ks : List TokenKind) (e : Expr) : Prop :=
  ∀ ⦃n k : Nat⦄ ⦃rest : List TokenKind⦄, Stops 6 (nextKind rest) → (ks ++ rest).length ≤ n →
    (ks ++ rest).length ≤ k →
    (factor n >>= fun base => powers (factor n) k base).Reads (ks ++ rest) rest e.Alike

/-- What is read from `ks` left of a `^`. -/
def ReadsByPowers (ks : List TokenKind) (e : Expr) : Prop :=
  ∀ ⦃n k : Nat⦄ ⦃rest out : List TokenKind⦄ ⦃Q : Expr → Prop⦄, Stops 7 (nextKind rest) →
    (ks ++ rest).length ≤ n → (ks ++ rest).length ≤ k →
    (∀ m e', rest.length < m → e.Alike e' → (powers (factor n) m e').Reads rest out Q) →
    (factor n >>= fun base => powers (factor n) k base).Reads (ks ++ rest) out Q

/-- What is read from `ks` behind a sign. -/
def ReadsByFactor (ks : List TokenKind) (e : Expr) : Prop :=
  ∀ ⦃n k : Nat⦄ ⦃rest : List TokenKind⦄, Stops 8 (nextKind rest) → (ks ++ rest).length ≤ n →
    (ks ++ rest).length ≤ k → (signed (atom n) k).Reads (ks ++ rest) rest e.Alike

/-- What is read from `ks` before subscripts.  A bracket must not follow if it would be taken for
a second index. -/
def ReadsBySubscripts (single : Bool) (ks : List TokenKind) (e : Expr) : Prop :=
  ∀ ⦃n k : Nat⦄ ⦃rest out : List TokenKind⦄ ⦃Q : Expr → Prop⦄,
    nextKind rest ≠ .punct .leftParen →
    (single = true → nextKind rest ≠ .punct .leftBracket) → (ks ++ rest).length ≤ n →
    (∀ m e', rest.length < m → e.Alike e' → (subscripts (expr n) m e').Reads rest out Q) →
    (signed (atom n) k).Reads (ks ++ rest) out Q

/-- What is read from `ks` at a level. -/
def ReadsAs (ks : List TokenKind) (e : Expr) : Nat → Prop
  | 6 => ReadsByPower ks e
  | 7 => ReadsByPowers ks e
  | 8 => ReadsByFactor ks e
  | 9 => ReadsBySubscripts e.isSingle ks e
  | l => ReadsByChain l ks e

variable {e : Expr} {ks : List TokenKind} {l : Nat}

/-! A level lower, the same tokens are read as the same expression. -/

theorem ReadsBySubscripts.signed {single : Bool} (h : ReadsBySubscripts single ks e) {n k : Nat}
    {rest : List TokenKind} (hstop : Stops 8 (nextKind rest)) (hn : (ks ++ rest).length ≤ n) :
    (signed (atom n) k).Reads (ks ++ rest) rest e.Alike := by
  refine h (hstop.ne rfl (by decide)) (fun _ => hstop.ne rfl (by decide)) hn fun m e' hm he => ?_
  have hbracket : nextKind rest ≠ .punct .leftBracket := hstop.ne rfl (by decide)
  cases m with
  | zero => exact .pure he
  | succ m => exact .kind (by rw [if_neg hbracket]; exact .pure he)

theorem ReadsBySubscripts.byFactor {single : Bool} (h : ReadsBySubscripts single ks e) :
    ReadsByFactor ks e := fun _ _ _ hstop hn _ => h.signed hstop hn

theorem length_rest_lt (hne : ks ≠ []) {rest : List TokenKind} {n : Nat}
    (h : (ks ++ rest).length ≤ n) : rest.length < n := by
  have := List.length_pos_iff.2 hne
  rw [List.length_append] at h
  omega

theorem ReadsByFactor.byPowers (hne : ks ≠ []) (h : ReadsByFactor ks e) : ReadsByPowers ks e := by
  intro n k rest out Q hstop hn hk hloop
  exact (h (hstop.mono (by decide)) hn hn).bind fun e' he =>
    hloop k e' (length_rest_lt hne hk) he

theorem ReadsByPowers.byPower (h : ReadsByPowers ks e) : ReadsByPower ks e := by
  intro n k rest hstop hn hk
  refine h (hstop.mono (by decide)) hn hk fun m e' hm he => ?_
  have hcaret : nextKind rest ≠ .punct .caret := hstop.ne rfl (by decide)
  cases m with
  | zero => exact .pure he
  | succ m => exact .kind (by rw [if_neg hcaret]; exact .pure he)

theorem ReadsByPower.stage (h : ReadsByPower ks e) {n : Nat} {rest : List TokenKind}
    (hstop : Stops 6 (nextKind rest)) (hn : (ks ++ rest).length ≤ n) :
    (stage n 6).Reads (ks ++ rest) rest e.Alike := h hstop hn hn

theorem ReadsByChain.stage (h : ReadsByChain l ks e) {n : Nat}
    {rest : List TokenKind} (hstop : Stops l (nextKind rest)) (hn : (ks ++ rest).length ≤ n) :
    (stage n l).Reads (ks ++ rest) rest e.Alike := by
  refine h (hstop.mono (Nat.le_succ l)) hn fun m e' hm he => ?_
  cases m with
  | zero => exact .pure he
  | succ m => exact .kind (by rw [hstop.opAt?_eq_none]; exact .pure he)

/-- What is read at one of the levels of `Reader.stage` is read by it. -/
theorem ReadsAs.stage (hl : l ≤ 6) (h : ReadsAs ks e l) {n : Nat} {rest : List TokenKind}
    (hstop : Stops l (nextKind rest)) (hn : (ks ++ rest).length ≤ n) :
    (stage n l).Reads (ks ++ rest) rest e.Alike := by
  match l, h with
  | 6, h => exact ReadsByPower.stage h hstop hn
  | 0, h | 1, h | 2, h | 3, h | 4, h | 5, h => exact ReadsByChain.stage h hstop hn

theorem ReadsAs.byChain (hl : l < 6) (hne : ks ≠ []) (h : ReadsAs ks e (l + 1)) :
    ReadsByChain l ks e := by
  intro n rest out Q hstop hn hloop
  rw [stage_eq hl]
  exact (h.stage hl hstop hn).bind fun e' he => hloop n e' (length_rest_lt hne hn) he

theorem ReadsAs.pred (hl : l < 9) (hne : ks ≠ []) (h : ReadsAs ks e (l + 1)) :
    ReadsAs ks e l := by
  match l, h with
  | 8, h => exact ReadsBySubscripts.byFactor h
  | 7, h => exact ReadsByFactor.byPowers hne h
  | 6, h => exact ReadsByPowers.byPower h
  | 0, h | 1, h | 2, h | 3, h | 4, h | 5, h => exact ReadsAs.byChain (by decide) hne h

theorem ReadsAs.of_le {l' : Nat} (hl : l ≤ 9) (hne : ks ≠ []) (hle : l' ≤ l)
    (h : ReadsAs ks e l) : ReadsAs ks e l' := by
  induction hle with
  | refl => exact h
  | step hle ih => exact ih (by omega) (h.pred hl hne)

/-! ### Tokens by levels -/

/-- How tightly an expression binds. -/
def level : Expr → Nat
  | .binary _ op _ _ => op.level
  | .unary _ op _ => op.level
  | _ => subscriptLevel

theorem level_le (e : Expr) : e.level ≤ subscriptLevel := by
  cases e with
  | binary m op l r => exact Nat.le_of_lt op.level_lt
  | unary m op e => exact Nat.le_of_lt op.level_lt
  | _ => exact Nat.le_refl _

theorem tokens_sign {m : Mark} {op : UnaryOp} (h : op ≠ .transpose) (e : Expr) (need : Nat)
    (caret : Bool) : (Expr.unary m op e).tokens need caret =
      enclosed (op.level < need) (op.token :: e.tokens op.level false) := by
  cases op with
  | transpose => exact absurd rfl h
  | _ => rfl

/-- Where an expression binds tightly enough, the position does not matter. -/
theorem tokens_of_le {need : Nat} {caret : Bool} (h : need ≤ e.level) :
    e.tokens need caret = e.tokens e.level caret := by
  cases e with
  | binary m op l r =>
    have hloose : ¬ op.level < need := Nat.not_lt.2 h
    simp [tokens, level, hloose]
  | unary m op e =>
    have hloose : ¬ op.level < need := Nat.not_lt.2 h
    by_cases hop : op = .transpose
    · subst hop
      simp [tokens, level, hloose]
    · simp [tokens_sign hop, level, hloose]
  | bool m b => cases b <;> rfl
  | index m base row col => cases col <;> rfl
  | _ => rfl

/-- Where an expression binds too loosely, it stands in parentheses. -/
theorem tokens_of_lt {need : Nat} {caret : Bool} (h : e.level < need)
    (hneed : need ≤ subscriptLevel) : e.tokens need caret = enclosed true (e.tokens 0 false) := by
  cases e with
  | binary m op l r =>
    have hloose : op.level < need := h
    simp [tokens, hloose, enclosed]
  | unary m op e =>
    have hloose : op.level < need := h
    by_cases hop : op = .transpose
    · subst hop
      simp [tokens, hloose, enclosed]
    · simp [tokens_sign hop, hloose, enclosed]
  | _ => exact absurd hneed (Nat.not_le.2 h)

/-- Whether a token begins an expression. -/
def begins : TokenKind → Bool
  | .int _ | .float _ | .str _ | .name _ => true
  | .keyword .true | .keyword .false | .keyword .not => true
  | .punct .leftParen | .punct .leftBracket | .punct .minus => true
  | _ => false

/-- Tokens that begin as an expression does. -/
def Begins (ks : List TokenKind) : Prop := ∃ k ms, ks = k :: ms ∧ begins k = true

theorem Begins.append {ms : List TokenKind} (h : Begins ks) : Begins (ks ++ ms) := by
  obtain ⟨k, ks', rfl, hk⟩ := h
  exact ⟨k, ks' ++ ms, rfl, hk⟩

theorem Begins.enclosed {b : Bool} (h : Begins ks) : Begins (enclosed b ks) := by
  cases b with
  | true => exact ⟨_, _, rfl, rfl⟩
  | false => exact h

theorem Begins.ne_nil (h : Begins ks) : ks ≠ [] := by
  obtain ⟨k, ms, rfl, -⟩ := h
  simp

theorem begins_tokens (e : Expr) : ∀ (need : Nat) (caret : Bool), Begins (e.tokens need caret) := by
  intro need caret
  cases e with
  | bool m b => cases b <;> exact ⟨_, _, rfl, rfl⟩
  | name m x => exact Begins.enclosed ⟨_, _, rfl, rfl⟩
  | binary m op l r => exact (begins_tokens l _ _).append.enclosed
  | unary m op e =>
    cases op with
    | transpose => exact (begins_tokens e _ _).append.enclosed
    | neg | not => exact Begins.enclosed ⟨_, _, rfl, rfl⟩
  | index m base row col =>
    cases col <;> exact (begins_tokens base _ _).enclosed.append
  | _ => exact ⟨_, _, rfl, rfl⟩
termination_by structural e

/-- A token that begins an expression is not one of another use. -/
theorem Begins.nextKind_ne {k : TokenKind} (h : Begins ks) (hk : begins k = false) :
    nextKind ks ≠ k := by
  obtain ⟨k', ms, rfl, hk'⟩ := h
  rintro rfl
  exact Bool.false_ne_true (hk.symm.trans hk')

/-- Whether tokens after a `^` mark the transpose. -/
def markTranspose (ks : List TokenKind) : Bool :=
  nextKind ks = .name "t" && nextKind ks.tail ≠ .punct .leftParen &&
    nextKind ks.tail ≠ .punct .leftBracket

theorem markTranspose_cons {k : TokenKind} (h : k ≠ .name "t") :
    markTranspose (k :: ks) = false := by
  simp [markTranspose, h]

theorem markTranspose_enclosed {rest : List TokenKind} :
    markTranspose (enclosed true ks ++ rest) = false := markTranspose_cons nofun

/-- Before a bracket, the tokens of a base do not mark the transpose. -/
theorem markTranspose_base (e : Expr) : ∀ (b : Bool) (rest : List TokenKind),
    markTranspose (enclosed b (e.tokens subscriptLevel false) ++ .punct .leftBracket :: rest) =
      false := by
  intro b rest
  cases b with
  | true => exact markTranspose_enclosed
  | false =>
    by_cases hlevel : e.level < subscriptLevel
    · rw [enclosed_false, tokens_of_lt hlevel (Nat.le_refl _)]
      exact markTranspose_enclosed
    cases e with
    | bool m b => cases b <;> rfl
    | name m x => simp [tokens, markTranspose]
    | call m f args => simp [tokens, markTranspose]
    | binary m op l r => exact absurd op.level_lt hlevel
    | unary m op e => exact absurd op.level_lt hlevel
    | index m base row col =>
      cases col <;>
      · simp only [tokens, enclosed_false, List.append_assoc]
        exact markTranspose_base base _ _
    | _ => rfl
termination_by structural e

/-- What is printed behind a `^` does not mark the transpose. -/
theorem markTranspose_tokens (e : Expr) : ∀ (need : Nat) (rest : List TokenKind),
    markTranspose (e.tokens need true ++ rest) = false := by
  intro need rest
  cases e with
  | bool m b => cases b <;> rfl
  | name m x =>
    by_cases hx : x.text = "t"
    · simp only [tokens, hx, decide_true, Bool.and_true]
      exact markTranspose_enclosed
    · simp only [tokens, hx, decide_false, Bool.and_false]
      exact markTranspose_cons (by simpa using hx)
  | call m f args => simp [tokens, markTranspose]
  | binary m op l r =>
    by_cases hloose : op.level < need
    · simp only [tokens, hloose, decide_true]
      exact markTranspose_enclosed
    · simp only [tokens, hloose, decide_false, enclosed_false, List.append_assoc]
      exact markTranspose_tokens l _ _
  | unary m op e =>
    by_cases hop : op = .transpose
    · subst hop
      by_cases hloose : UnaryOp.transpose.level < need
      · simp only [tokens, hloose, decide_true]
        exact markTranspose_enclosed
      · simp only [tokens, hloose, decide_false, enclosed_false, List.append_assoc]
        exact markTranspose_tokens e _ _
    · rw [tokens_sign hop]
      cases decide (op.level < need) with
      | true => exact markTranspose_enclosed
      | false => exact markTranspose_cons (by cases op <;> nofun)
  | index m base row col =>
    cases col <;>
    · simp only [tokens, List.append_assoc]
      exact markTranspose_base base _ _
  | _ => rfl
termination_by structural e

/-! ### Positions -/

/-- In every position an expression is read from its tokens. -/
def IsPrinted (e : Expr) : Prop :=
  ∀ ⦃need : Nat⦄, need ≤ subscriptLevel → ∀ caret, ReadsAs (e.tokens need caret) e need

theorem ReadsAs.expr (h : ReadsAs ks e 0) {n : Nat} {rest : List TokenKind}
    (hstop : bindsAt? (nextKind rest) = none) (hn : (ks ++ rest).length < n) :
    (Reader.expr n).Reads (ks ++ rest) rest e.Alike := by
  cases n with
  | zero => exact absurd hn (Nat.not_lt_zero _)
  | succ n => exact h.stage (Nat.zero_le 6) (stops_of_eq_none hstop) (Nat.le_of_lt_succ hn)

theorem IsPrinted.expr (h : e.IsPrinted) {n : Nat} {rest : List TokenKind} {caret : Bool}
    (hstop : bindsAt? (nextKind rest) = none) (hn : (e.tokens 0 caret ++ rest).length < n) :
    (Reader.expr n).Reads (e.tokens 0 caret ++ rest) rest e.Alike :=
  ReadsAs.expr (h (Nat.zero_le _) caret) hstop hn

theorem reads_signed {n k : Nat} {out : List TokenKind} {Q : Expr → Prop}
    (hsign : signOp? (nextKind ks) = none) (h : (atom n).Reads ks out Q) :
    (signed (atom n) k).Reads ks out Q := by
  cases k with
  | zero => exact h
  | succ k => exact .kind (by rw [hsign]; exact h)

/-- What is read as a primary expression takes subscripts. -/
theorem readsBySubscripts_of_primary {single : Bool} (hb : Begins ks)
    (hsign : signOp? (nextKind ks) = none)
    (h : ∀ ⦃n : Nat⦄ ⦃rest : List TokenKind⦄, nextKind rest ≠ .punct .leftParen →
      (ks ++ rest).length ≤ n → (primary n (Reader.expr n)).Reads (ks ++ rest) rest e.Alike) :
    ReadsBySubscripts single ks e := by
  intro n k rest out Q hparen _ hn hloop
  refine reads_signed ?_ ((h hparen hn).bind fun e' he =>
    hloop n e' (length_rest_lt hb.ne_nil hn) he)
  obtain ⟨k, ms, rfl, -⟩ := hb
  exact hsign

theorem readsBySubscripts_enclosed {single : Bool} (h : ReadsAs ks e 0) :
    ReadsBySubscripts single (enclosed true ks) e := by
  refine readsBySubscripts_of_primary ⟨_, _, rfl, rfl⟩ rfl fun n rest _ hn => ?_
  have hassoc : enclosed true ks ++ rest =
      .punct .leftParen :: (ks ++ .punct .rightParen :: rest) := by
    simp
  rw [hassoc] at hn ⊢
  exact .kind (.advance fun _ => (h.expr rfl hn).bind fun e' he =>
    reads_punct.bind fun _ _ => .pure he)

/-- An expression is read in every position if it is read where its level is required. -/
theorem isPrinted_of_level (h : ∀ caret, ReadsAs (e.tokens e.level caret) e e.level) :
    e.IsPrinted := by
  intro need hneed caret
  by_cases hle : need ≤ e.level
  · rw [tokens_of_le hle]
    exact (h caret).of_le e.level_le (begins_tokens e _ _).ne_nil hle
  · rw [tokens_of_lt (Nat.not_le.1 hle) hneed]
    have hzero : ReadsAs (e.tokens 0 false) e 0 := by
      rw [tokens_of_le (Nat.zero_le _)]
      exact (h false).of_le e.level_le (begins_tokens e _ _).ne_nil (Nat.zero_le _)
    have hparens : ReadsAs (enclosed true (e.tokens 0 false)) e subscriptLevel :=
      readsBySubscripts_enclosed hzero
    exact hparens.of_le (Nat.le_refl _) (by simp) hneed

/-! ### Operators -/

/-- A mark that is read is that of a tree that was read, up to its place. -/
theorem unplaced_markAt {m : Mark} (h : m.ty = none) (p : Loc) :
    (markAt p).unplaced = m.unplaced := by
  simp [Mark.unplaced, markAt, h]

theorem readsAs_iff_byChain (hl : l < 6) : ReadsAs ks e l ↔ ReadsByChain l ks e := by
  match l, hl with
  | 0, _ | 1, _ | 2, _ | 3, _ | 4, _ | 5, _ => exact Iff.rfl

section

variable {m : Mark} (hm : m.ty = none)
include hm

theorem isPrinted_chain {op : BinaryOp} {l r : Expr} (hop : op ≠ .pow) (hl : l.IsPrinted)
    (hr : r.IsPrinted) : (Expr.binary m op l r).IsPrinted := by
  have hsix : op.level < 6 := by cases op <;> first | decide | exact absurd rfl hop
  refine isPrinted_of_level fun caret => (readsAs_iff_byChain hsix).2 ?_
  intro n rest out Q hstop hn hloop
  have htokens : (Expr.binary m op l r).tokens op.level caret ++ rest =
      l.tokens op.level caret ++ op.token :: (r.tokens (op.level + 1) false ++ rest) := by
    simp [tokens, BinaryOp.leftLevel, BinaryOp.rightLevel, hop]
  change ((Expr.binary m op l r).tokens op.level caret ++ rest).length ≤ n at hn
  change Reads _ ((Expr.binary m op l r).tokens op.level caret ++ rest) _ _
  rw [htokens] at hn ⊢
  have hleft := (readsAs_iff_byChain hsix).1 (hl (Nat.le_of_lt op.level_lt) caret)
  refine hleft (stops_token (Nat.lt_succ_self _)) hn fun k l' hk hl' => ?_
  cases k with
  | zero => exact absurd hk (Nat.not_lt_zero _)
  | succ k =>
    rw [List.length_cons] at hk
    refine .kind ?_
    rw [nextKind_cons, opAt?_token hop]
    refine .advance fun p => ?_
    have hright := (hr op.level_lt false).stage hsix hstop (n := n) (by simp at hn ⊢; omega)
    refine hright.bind fun r' hr' => hloop k _ (by simp at hk; omega) ?_
    simp [Alike, unplaced, unplaced_markAt hm, hl'.symm, hr'.symm]

omit hm in
theorem Reads.atTranspose {f : Bool → Reader Expr} {rest : List TokenKind} {Q : Expr → Prop}
    (h : (f (markTranspose ks)).Reads ks rest Q) : (atTranspose >>= f).Reads ks rest Q := by
  intro c hc
  obtain ⟨b, c', hrun, hk⟩ := h c hc
  refine ⟨b, c', ?_, hk⟩
  rw [← hrun, ← hc]
  simp [Reader.atTranspose, bind, EStateM.bind, Reader.kind, Reader.kindAfter, markTranspose,
    Cursor.kind_eq_nextKind, Cursor.kindAfter_eq_nextKind, pure, EStateM.pure]

theorem isPrinted_power {l r : Expr} (hl : l.IsPrinted) (hr : r.IsPrinted) :
    (Expr.binary m .pow l r).IsPrinted := by
  refine isPrinted_of_level fun caret => ?_
  intro n k rest hstop hn hk
  have htokens : (Expr.binary m .pow l r).tokens 6 caret ++ rest =
      l.tokens 7 caret ++ .punct .caret :: (r.tokens 6 true ++ rest) := by
    simp [tokens, BinaryOp.leftLevel, BinaryOp.rightLevel, BinaryOp.level, BinaryOp.token]
  change ((Expr.binary m .pow l r).tokens 6 caret ++ rest).length ≤ n at hn
  change ((Expr.binary m .pow l r).tokens 6 caret ++ rest).length ≤ k at hk
  change Reads _ ((Expr.binary m .pow l r).tokens 6 caret ++ rest) _ _
  rw [htokens] at hn hk ⊢
  have hleft : ReadsByPowers (l.tokens 7 caret) l := hl (show 7 ≤ subscriptLevel by decide) caret
  refine hleft (by simp [Stops, bindsAt?]) hn hk fun j l' hj hl' => ?_
  cases j with
  | zero => exact absurd hj (Nat.not_lt_zero _)
  | succ j =>
    refine .kind ?_
    rw [if_pos (nextKind_cons _ _)]
    refine .advance fun p => Reads.atTranspose ?_
    rw [markTranspose_tokens]
    have hright : ReadsByPower (r.tokens 6 true) r := hr (show 6 ≤ subscriptLevel by decide) true
    have hread := hright (n := n) (k := j) hstop (by simp at hn ⊢; omega)
      (by simp at hj ⊢; omega)
    simp only [Bool.false_eq_true, if_false]
    rw [← bind_assoc]
    refine hread.map fun r' hr' => ?_
    simp [Alike, unplaced, unplaced_markAt hm, hl'.symm, hr'.symm]

theorem isPrinted_transpose {e : Expr} (he : e.IsPrinted) :
    (Expr.unary m .transpose e).IsPrinted := by
  refine isPrinted_of_level fun caret => ?_
  intro n k rest out Q hstop hn hk hloop
  have htokens : (Expr.unary m .transpose e).tokens 7 caret ++ rest =
      e.tokens 7 caret ++ .punct .caret :: .name "t" :: rest := by
    simp [tokens, UnaryOp.level]
  change ((Expr.unary m .transpose e).tokens 7 caret ++ rest).length ≤ n at hn
  change ((Expr.unary m .transpose e).tokens 7 caret ++ rest).length ≤ k at hk
  change Reads _ ((Expr.unary m .transpose e).tokens 7 caret ++ rest) _ _
  rw [htokens] at hn hk ⊢
  have hbase : ReadsByPowers (e.tokens 7 caret) e := he (show 7 ≤ subscriptLevel by decide) caret
  refine hbase (by simp [Stops, bindsAt?]) hn hk fun j e' hj he' => ?_
  cases j with
  | zero => exact absurd hj (Nat.not_lt_zero _)
  | succ j =>
    have hmark : markTranspose (.name "t" :: rest) = true := by
      have hparen : nextKind rest ≠ .punct .leftParen := hstop.ne rfl (by decide)
      have hbracket : nextKind rest ≠ .punct .leftBracket := hstop.ne rfl (by decide)
      simp [markTranspose, hparen, hbracket]
    refine .kind ?_
    rw [if_pos (nextKind_cons _ _)]
    refine .advance fun p => Reads.atTranspose ?_
    rw [hmark, if_pos rfl]
    refine .advance fun _ => hloop j _ (by simp at hj; omega) ?_
    simp [Alike, unplaced, unplaced_markAt hm, he'.symm]

theorem isPrinted_sign {op : UnaryOp} {e : Expr} (hop : op ≠ .transpose) (he : e.IsPrinted) :
    (Expr.unary m op e).IsPrinted := by
  have hlevel : op.level = 8 := by cases op <;> first | rfl | exact absurd rfl hop
  have hsign : signOp? op.token = some op := by cases op <;> first | rfl | exact absurd rfl hop
  refine isPrinted_of_level fun caret => ?_
  have htokens : (Expr.unary m op e).tokens (Expr.unary m op e).level caret =
      op.token :: e.tokens 8 false := by
    simp [tokens_sign hop, level, hlevel]
  have hform : ReadsByFactor (op.token :: e.tokens 8 false) (.unary m op e) := by
    intro n k rest hstop hn hk
    cases k with
    | zero => cases hk
    | succ k =>
      have hoperand : ReadsByFactor (e.tokens 8 false) e :=
        he (show 8 ≤ subscriptLevel by decide) false
      have hread := hoperand (n := n) (k := k) hstop (by simp at hn ⊢; omega)
        (by simp at hk ⊢; omega)
      refine .kind ?_
      rw [List.cons_append, nextKind_cons, hsign]
      refine .advance fun p => hread.map fun e' he' => ?_
      simp [Alike, unplaced, unplaced_markAt hm, he'.symm]
  rw [htokens]
  change ReadsAs _ _ op.level
  rw [hlevel]
  exact hform

end

/-! ### Primary expressions -/

section

variable {m : Mark} (hm : m.ty = none)
include hm

theorem isPrinted_int {v : Int64} : (Expr.int m v).IsPrinted :=
  isPrinted_of_level fun _ => readsBySubscripts_of_primary ⟨_, _, rfl, rfl⟩ rfl fun _ _ _ _ =>
    .kind (.advance fun _ => .pure (by simp [Alike, unplaced, unplaced_markAt hm]))

theorem isPrinted_float {v : Double} : (Expr.float m v).IsPrinted :=
  isPrinted_of_level fun _ => readsBySubscripts_of_primary ⟨_, _, rfl, rfl⟩ rfl fun _ _ _ _ =>
    .kind (.advance fun _ => .pure (by simp [Alike, unplaced, unplaced_markAt hm]))

theorem isPrinted_bool {b : Bool} : (Expr.bool m b).IsPrinted := by
  refine isPrinted_of_level fun _ => ?_
  cases b <;> exact readsBySubscripts_of_primary ⟨_, _, rfl, rfl⟩ rfl fun _ _ _ _ =>
    .kind (.advance fun _ => .pure (by simp [Alike, unplaced, unplaced_markAt hm]))

theorem isPrinted_str {v : String} : (Expr.str m v).IsPrinted := by
  refine isPrinted_of_level fun _ => readsBySubscripts_of_primary ⟨_, _, rfl, rfl⟩ rfl
    fun _ _ _ _ => .kind (.advance fun p c hc => ?_)
  refine ⟨.str (markAt p) v, c, ?_, hc, rfl, by simp [Alike, unplaced, unplaced_markAt hm]⟩
  simp [textLiteral, Text.unescape_escape]

theorem isPrinted_name {x : Name} (hx : x.binding = none) : (Expr.name m x).IsPrinted := by
  have hname : ReadsBySubscripts false [.name x.text] (.name m x) := by
    refine readsBySubscripts_of_primary ⟨_, _, rfl, rfl⟩ rfl fun n rest hparen _ => ?_
    refine .kind (.advance fun p => .not_eat hparen (.pure ?_))
    obtain ⟨text, binding⟩ := x
    subst hx
    simp [Alike, unplaced, unplaced_markAt hm, Name.unbound]
  refine isPrinted_of_level fun caret => ?_
  change ReadsBySubscripts false (enclosed _ _) _
  cases caret && decide (x.text = "t") with
  | true =>
    have hzero : ReadsAs [.name x.text] (.name m x) 0 :=
      ReadsAs.of_le (l := 9) (Nat.le_refl _) (by simp) (Nat.zero_le _) hname
    exact readsBySubscripts_enclosed hzero
  | false => exact hname

end

/-- In parentheses where it needs them, a base takes subscripts. -/
theorem IsPrinted.asBase (h : e.IsPrinted) : ReadsBySubscripts false
    (enclosed e.isSingle (e.tokens subscriptLevel false)) e := by
  cases hs : e.isSingle with
  | false =>
    have hread : ReadsBySubscripts e.isSingle (e.tokens subscriptLevel false) e :=
      h (Nat.le_refl _) false
    rwa [hs] at hread
  | true =>
    have hlevel : e.level = subscriptLevel := by
      cases e with
      | index => rfl
      | _ => cases hs
    have htokens : e.tokens subscriptLevel false = e.tokens 0 false := by
      rw [tokens_of_le (Nat.le_of_eq hlevel.symm), tokens_of_le (Nat.zero_le _)]
    rw [htokens]
    exact readsBySubscripts_enclosed (h (Nat.zero_le _) false)

theorem IsPrinted.closedIndex (h : e.IsPrinted) {n : Nat} {rest : List TokenKind}
    (hn : (e.tokens 0 false ++ .punct .rightBracket :: rest).length < n) :
    (closedIndex (Reader.expr n)).Reads (e.tokens 0 false ++ .punct .rightBracket :: rest) rest
      e.Alike :=
  (h.expr rfl hn).bind fun _ he => reads_punct.bind fun _ _ => .pure he

section

variable {m : Mark} (hm : m.ty = none) {base row : Expr} (hbase : base.IsPrinted)
  (hrow : row.IsPrinted)
include hm hbase hrow

theorem isPrinted_element : (Expr.index m base row none).IsPrinted := by
  refine isPrinted_of_level fun caret => ?_
  intro n k rest out Q hparen hbracket hn hloop
  have htokens : (Expr.index m base row none).tokens subscriptLevel caret ++ rest =
      enclosed base.isSingle (base.tokens subscriptLevel false) ++
        .punct .leftBracket :: (row.tokens 0 false ++ .punct .rightBracket :: rest) := by
    simp [tokens, bracketedTokens]
  change ((Expr.index m base row none).tokens subscriptLevel caret ++ rest).length ≤ n at hn
  change Reads _ ((Expr.index m base row none).tokens subscriptLevel caret ++ rest) _ _
  rw [htokens] at hn ⊢
  refine hbase.asBase (by simp) (by simp) hn fun j base' hj hbase' => ?_
  cases j with
  | zero => exact absurd hj (Nat.not_lt_zero _)
  | succ j =>
    refine .kind ?_
    rw [if_pos (nextKind_cons _ _)]
    refine .advance fun p => (hrow.closedIndex (by simp at hn ⊢; omega)).bind fun row' hrow' => ?_
    refine Reads.bind (P := fun col => col = none) (.not_eat (hbracket rfl) (.pure rfl)) ?_
    rintro _ rfl
    refine hloop j _ (by simp at hj; omega) ?_
    simp [Alike, unplaced, unplaced_markAt hm, hbase'.symm, hrow'.symm]

theorem isPrinted_entry {col : Expr} (hcol : col.IsPrinted) :
    (Expr.index m base row (some col)).IsPrinted := by
  refine isPrinted_of_level fun caret => ?_
  intro n k rest out Q hparen _ hn hloop
  have htokens : (Expr.index m base row (some col)).tokens subscriptLevel caret ++ rest =
      enclosed base.isSingle (base.tokens subscriptLevel false) ++
        .punct .leftBracket :: (row.tokens 0 false ++ .punct .rightBracket ::
          .punct .leftBracket :: (col.tokens 0 false ++ .punct .rightBracket :: rest)) := by
    simp [tokens, bracketedTokens]
  change ((Expr.index m base row (some col)).tokens subscriptLevel caret ++ rest).length ≤ n at hn
  change Reads _ ((Expr.index m base row (some col)).tokens subscriptLevel caret ++ rest) _ _
  rw [htokens] at hn ⊢
  refine hbase.asBase (by simp) (by simp) hn fun j base' hj hbase' => ?_
  cases j with
  | zero => exact absurd hj (Nat.not_lt_zero _)
  | succ j =>
    refine .kind ?_
    rw [if_pos (nextKind_cons _ _)]
    refine .advance fun p => (hrow.closedIndex (by simp at hn ⊢; omega)).bind fun row' hrow' => ?_
    refine Reads.bind (P := fun o => ∃ col', o = some col' ∧ col.Alike col')
      (.eat ((hcol.closedIndex (by simp at hn ⊢; omega)).map fun col' hcol' =>
        ⟨col', rfl, hcol'⟩)) ?_
    rintro _ ⟨col', rfl, hcol'⟩
    refine hloop j _ (by simp at hj; omega) ?_
    simp [Alike, unplaced, unplaced_markAt hm, hbase'.symm, hrow'.symm, hcol'.symm]

end

/-! ### Lists -/

theorem allTokens_cons (e e' : Expr) (es : List Expr) : allTokens (e :: e' :: es) =
    e.tokens 0 false ++ .punct .comma :: allTokens (e' :: es) := rfl

theorem begins_allTokens {es : List Expr} (h : es ≠ []) : Begins (allTokens es) := by
  match es, h with
  | [e], _ => exact begins_tokens e 0 false
  | e :: e' :: es, _ => exact (begins_tokens e 0 false).append

/-- Whether lists of trees are the same up to places. -/
def AllAlike (es es' : List Expr) : Prop := allUnplaced es' = allUnplaced es

theorem AllAlike.cons {e e' : Expr} {es es' : List Expr} (h : e.Alike e') (hs : AllAlike es es') :
    AllAlike (e :: es) (e' :: es') := by
  rw [AllAlike, allUnplaced, allUnplaced, h, hs]

theorem reads_separated {n : Nat} {rest : List TokenKind} (hstop : bindsAt? (nextKind rest) = none)
    (hcomma : nextKind rest ≠ .punct .comma) : ∀ {k : Nat} {es : List Expr},
    (∀ e ∈ es, e.IsPrinted) → es ≠ [] → (allTokens es ++ rest).length < n →
    (allTokens es ++ rest).length < k →
    (separated (Reader.expr n) k).Reads (allTokens es ++ rest) rest (AllAlike es)
  | k + 1, [e], hes, _, hn, _ => by
    refine ((hes e (by simp)).expr hstop hn).bind fun e' he' => .not_eat hcomma (.pure ?_)
    exact AllAlike.cons he' rfl
  | k + 1, e :: e₂ :: es, hes, _, hn, hk => by
    rw [allTokens_cons, List.append_assoc, List.cons_append] at hn hk ⊢
    refine ((hes e (by simp)).expr rfl hn).bind fun e' he' => .eat ?_
    have hrest : (separated (Reader.expr n) k).Reads (allTokens (e₂ :: es) ++ rest) rest
        (AllAlike (e₂ :: es)) :=
      reads_separated hstop hcomma (fun e he => hes e (by simp [he])) (by simp)
        (by simp at hn ⊢; omega) (by simp at hk ⊢; omega)
    exact hrest.map fun es' hes' => AllAlike.cons he' hes'

theorem reads_elements {n : Nat} {rest : List TokenKind} : ∀ {k : Nat} {es : List Expr},
    (∀ e ∈ es, e.IsPrinted) → es ≠ [] →
    (allTokens es ++ .punct .rightBracket :: rest).length < n →
    (allTokens es ++ .punct .rightBracket :: rest).length < k →
    (elements (Reader.expr n) k).Reads (allTokens es ++ .punct .rightBracket :: rest)
      (.punct .rightBracket :: rest) (AllAlike es)
  | k + 1, [e], hes, _, hn, _ => by
    refine ((hes e (by simp)).expr rfl hn).bind fun e' he' =>
      (reads_skipNewlines (by simp)).bind fun _ _ => .not_eat (by simp) (.pure ?_)
    exact AllAlike.cons he' rfl
  | k + 1, e :: e₂ :: es, hes, _, hn, hk => by
    rw [allTokens_cons, List.append_assoc, List.cons_append] at hn hk ⊢
    refine ((hes e (by simp)).expr rfl hn).bind fun e' he' =>
      (reads_skipNewlines (by simp)).bind fun _ _ => .eat ?_
    have hnext : Begins (allTokens (e₂ :: es) ++ .punct .rightBracket :: rest) :=
      (begins_allTokens (by simp)).append
    refine (reads_skipNewlines (hnext.nextKind_ne rfl)).bind fun _ _ => ?_
    have hrest : (elements (Reader.expr n) k).Reads
        (allTokens (e₂ :: es) ++ .punct .rightBracket :: rest) (.punct .rightBracket :: rest)
        (AllAlike (e₂ :: es)) :=
      reads_elements (fun e he => hes e (by simp [he])) (by simp) (by simp at hn ⊢; omega)
        (by simp at hk ⊢; omega)
    exact hrest.map fun es' hes' => AllAlike.cons he' hes'

theorem isArray_unplaced (e : Expr) : e.unplaced.isArray = e.isArray := by
  cases e with
  | index m base row col => cases col <;> rfl
  | _ => rfl

theorem areRows_unplaced (es : List Expr) : areRows (allUnplaced es) = areRows es := by
  have hall : (allUnplaced es).all isArray = es.all isArray := by
    induction es with
    | nil => rfl
    | cons e es ih => rw [allUnplaced, List.all_cons, List.all_cons, isArray_unplaced, ih]
  have hempty : (allUnplaced es).isEmpty = es.isEmpty := by cases es <;> rfl
  rw [areRows, hall, hempty, areRows]

theorem areRows_of_allAlike {es es' : List Expr} (h : AllAlike es es') :
    areRows es' = areRows es := by
  rw [← areRows_unplaced es', h, areRows_unplaced]

theorem allUnplaced_eq_nil {es : List Expr} (h : allUnplaced es = []) : es = [] := by
  cases es with
  | nil => rfl
  | cons e es => cases h

theorem literal_eq_array {es : List Expr} {p : Loc} (h : areRows es = false) :
    literal p es = .array (markAt p) es := by
  unfold literal
  cases hempty : es.isEmpty with
  | true => rfl
  | false =>
    have hall : es.all isArray = false := by simpa [areRows, hempty] using h
    rw [mapM_items?_eq_none_iff.2 hall]
    rfl

theorem literal_eq_matrix {es : List Expr} {p : Loc} {rows : List (List Expr)} (hne : es ≠ [])
    (h : es.mapM items? = some rows) : literal p es = .matrix (markAt p) rows := by
  unfold literal
  rw [h, List.isEmpty_eq_false_iff.2 hne]
  rfl

/-- The tokens of rows are those of array literals. -/
theorem rowTokens_eq (m : Mark) : ∀ rows : List (List Expr),
    rowTokens rows = allTokens (rows.map (.array m))
  | [] => rfl
  | [es] => rfl
  | es :: es' :: rows => by
    have ih := rowTokens_eq m (es' :: rows)
    rw [rowTokens, ih]
    · rfl
    · simp

/-- Array literals that are the same as given rows up to places give these rows. -/
theorem mapM_items?_of_allAlike {m : Mark} {rows : List (List Expr)} : ∀ {es' : List Expr},
    AllAlike (rows.map (.array m)) es' →
    ∃ rows', es'.mapM items? = some rows' ∧ rowsUnplaced rows' = rowsUnplaced rows := by
  induction rows with
  | nil =>
    intro es' h
    cases es' with
    | nil => exact ⟨[], rfl, rfl⟩
    | cons e es' => cases h
  | cons es rows ih =>
    intro es' h
    cases es' with
    | nil => cases h
    | cons e es' =>
      obtain ⟨he, hes⟩ := List.cons.inj h
      obtain ⟨rows', hmap, hrows⟩ := ih hes
      have harray : e.isArray = true := by rw [← isArray_unplaced, he]; rfl
      cases e with
      | array m' es' =>
        have hitems : allUnplaced es' = allUnplaced es := (Expr.array.inj he).2
        exact ⟨es' :: rows', by rw [mapM_items?_cons, hmap]; rfl, by
          rw [rowsUnplaced, rowsUnplaced, hitems, hrows]⟩
      | _ => cases harray

/-- Reads what a bracket opens, which gives the literal of its elements. -/
theorem reads_bracketed {p : Loc} {n : Nat} {rest : List TokenKind} {es : List Expr}
    (hes : ∀ e ∈ es, e.IsPrinted) (hn : (allTokens es ++ .punct .rightBracket :: rest).length < n) :
    (bracketed n (Reader.expr n) p).Reads (allTokens es ++ .punct .rightBracket :: rest) rest
      fun e => ∃ es', e = literal p es' ∧ AllAlike es es' := by
  cases es with
  | nil =>
    refine (reads_skipNewlines (by simp [allTokens])).bind fun _ _ => .kind ?_
    exact reads_punct.bind fun _ _ => .pure ⟨[], rfl, rfl⟩
  | cons e es =>
    have hbegins : Begins (allTokens (e :: es) ++ .punct .rightBracket :: rest) :=
      (begins_allTokens (by simp)).append
    refine (reads_skipNewlines (hbegins.nextKind_ne rfl)).bind fun _ _ => .kind ?_
    rw [if_neg (hbegins.nextKind_ne rfl)]
    refine (reads_elements hes (by simp) hn hn).bind fun es' hes' => ?_
    exact reads_punct.bind fun _ _ => .pure ⟨es', rfl, hes'⟩

theorem reads_arguments {n : Nat} {rest : List TokenKind} {es : List Expr}
    (hes : ∀ e ∈ es, e.IsPrinted) (hn : (allTokens es ++ .punct .rightParen :: rest).length < n) :
    (arguments n (Reader.expr n)).Reads (allTokens es ++ .punct .rightParen :: rest) rest
      (AllAlike es) := by
  cases es with
  | nil => exact .kind (reads_punct.bind fun _ _ => .pure rfl)
  | cons e es =>
    have hbegins : Begins (allTokens (e :: es) ++ .punct .rightParen :: rest) :=
      (begins_allTokens (by simp)).append
    refine .kind ?_
    rw [if_neg (hbegins.nextKind_ne rfl)]
    refine (reads_separated rfl (by simp) hes (by simp) hn hn).bind fun es' hes' => ?_
    exact reads_punct.bind fun _ _ => .pure hes'

section

variable {m : Mark} (hm : m.ty = none)
include hm

theorem isPrinted_call {f : String} {args : List Expr} (h : ∀ e ∈ args, e.IsPrinted) :
    (Expr.call m f args).IsPrinted := by
  refine isPrinted_of_level fun _ => readsBySubscripts_of_primary ⟨_, _, rfl, rfl⟩ rfl
    fun n rest _ hn => ?_
  have htokens : (Expr.call m f args).tokens subscriptLevel false ++ rest =
      .name f :: .punct .leftParen :: (allTokens args ++ .punct .rightParen :: rest) := by
    simp [tokens]
  change ((Expr.call m f args).tokens subscriptLevel false ++ rest).length ≤ n at hn
  change Reads _ ((Expr.call m f args).tokens subscriptLevel false ++ rest) _ _
  rw [htokens] at hn ⊢
  refine .kind (.advance fun p => .eat ?_)
  have hread : (arguments n (Reader.expr n)).Reads (allTokens args ++ .punct .rightParen :: rest)
      rest (AllAlike args) := reads_arguments h (by simp at hn ⊢; omega)
  refine hread.map fun args' hargs => ?_
  simp [Alike, unplaced, unplaced_markAt hm, hargs.symm]

theorem isPrinted_array {items : List Expr} (h : ∀ e ∈ items, e.IsPrinted)
    (hrows : areRows items = false) : (Expr.array m items).IsPrinted := by
  refine isPrinted_of_level fun _ => readsBySubscripts_of_primary ⟨_, _, rfl, rfl⟩ rfl
    fun n rest _ hn => ?_
  have htokens : (Expr.array m items).tokens subscriptLevel false ++ rest =
      .punct .leftBracket :: (allTokens items ++ .punct .rightBracket :: rest) := by
    simp [tokens, bracketedTokens]
  change ((Expr.array m items).tokens subscriptLevel false ++ rest).length ≤ n at hn
  change Reads _ ((Expr.array m items).tokens subscriptLevel false ++ rest) _ _
  rw [htokens] at hn ⊢
  refine .kind (.advance fun p => ?_)
  refine (reads_bracketed h (by simp at hn ⊢; omega)).mono ?_
  rintro _ ⟨items', rfl, hitems⟩
  rw [literal_eq_array ((areRows_of_allAlike hitems).trans hrows)]
  simp [Alike, unplaced, unplaced_markAt hm, hitems.symm]

theorem isPrinted_matrix {rows : List (List Expr)} (h : ∀ es ∈ rows, ∀ e ∈ es, e.IsPrinted)
    (hne : rows ≠ []) (hrows : ∀ es ∈ rows, areRows es = false) :
    (Expr.matrix m rows).IsPrinted := by
  refine isPrinted_of_level fun _ => readsBySubscripts_of_primary ⟨_, _, rfl, rfl⟩ rfl
    fun n rest _ hn => ?_
  have htokens : (Expr.matrix m rows).tokens subscriptLevel false ++ rest =
      .punct .leftBracket :: (allTokens (rows.map (.array m)) ++ .punct .rightBracket :: rest) := by
    simp [tokens, bracketedTokens, rowTokens_eq m]
  change ((Expr.matrix m rows).tokens subscriptLevel false ++ rest).length ≤ n at hn
  change Reads _ ((Expr.matrix m rows).tokens subscriptLevel false ++ rest) _ _
  rw [htokens] at hn ⊢
  have hes : ∀ e ∈ rows.map (Expr.array m), e.IsPrinted := by
    intro e he
    obtain ⟨es, hmem, rfl⟩ := List.mem_map.1 he
    exact isPrinted_array hm (h es hmem) (hrows es hmem)
  refine .kind (.advance fun p => ?_)
  refine (reads_bracketed hes (by simp at hn ⊢; omega)).mono ?_
  rintro _ ⟨es', rfl, hes'⟩
  obtain ⟨rows', hmap, hrows'⟩ := mapM_items?_of_allAlike hes'
  have hne' : es' ≠ [] := by
    rintro rfl
    exact hne (List.map_eq_nil_iff.1 (allUnplaced_eq_nil hes'.symm))
  rw [literal_eq_matrix hne' hmap]
  simp [Alike, unplaced, unplaced_markAt hm, hrows']

end

mutual

/-- An expression is read from its tokens. -/
theorem isPrinted_of_isSource (e : Expr) : e.IsSource → e.IsPrinted := by
  intro h
  cases e with
  | int m v => exact isPrinted_int h
  | float m v => exact isPrinted_float h
  | str m v => exact isPrinted_str h
  | bool m b => exact isPrinted_bool h
  | name m x => exact isPrinted_name h.1 h.2
  | binary m op l r =>
    have hl := isPrinted_of_isSource l h.2.1
    have hr := isPrinted_of_isSource r h.2.2
    by_cases hop : op = .pow
    · subst hop
      exact isPrinted_power h.1 hl hr
    · exact isPrinted_chain h.1 hop hl hr
  | unary m op e =>
    have he := isPrinted_of_isSource e h.2
    by_cases hop : op = .transpose
    · subst hop
      exact isPrinted_transpose h.1 he
    · exact isPrinted_sign h.1 hop he
  | call m f args => exact isPrinted_call h.1 (isPrinted_of_areSource args h.2)
  | array m items => exact isPrinted_array h.1 (isPrinted_of_areSource items h.2.1) h.2.2
  | matrix m rows =>
    exact isPrinted_matrix h.1 (isPrinted_of_areSourceRows rows h.2.1) h.2.2.1 h.2.2.2
  | index m base row col =>
    cases col with
    | none =>
      exact isPrinted_element h.1 (isPrinted_of_isSource base h.2.1)
        (isPrinted_of_isSource row h.2.2)
    | some col =>
      exact isPrinted_entry h.1 (isPrinted_of_isSource base h.2.1)
        (isPrinted_of_isSource row h.2.2.1) (isPrinted_of_isSource col h.2.2.2)
termination_by structural e

theorem isPrinted_of_areSource (es : List Expr) : AreSource es → ∀ e ∈ es, e.IsPrinted := by
  intro h
  cases es with
  | nil => nofun
  | cons e es =>
    exact List.forall_mem_cons.2 ⟨isPrinted_of_isSource e h.1, isPrinted_of_areSource es h.2⟩
termination_by structural es

theorem isPrinted_of_areSourceRows (rows : List (List Expr)) : AreSourceRows rows →
    ∀ es ∈ rows, ∀ e ∈ es, e.IsPrinted := by
  intro h
  cases rows with
  | nil => nofun
  | cons es rows =>
    exact List.forall_mem_cons.2
      ⟨isPrinted_of_areSource es h.1, isPrinted_of_areSourceRows rows h.2⟩
termination_by structural rows

end

end Expr

end NumericScript
