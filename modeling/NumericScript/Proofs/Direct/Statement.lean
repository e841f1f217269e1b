import NumericScript.Proofs.Direct.Expression

/-! # The code of statements

The code of a statement does what the statement does when it is carried out directly.  Where the
statement goes on elsewhere the machine does too: at the label behind the innermost loop or before
its next turn, or at an instruction that returns.

* `Leaves`: where the machine is after a statement.
* `StmtCode.tracks`: statements. -/

namespace NumericScript

open Direct Lowering Machine

/-! ### Ways to leave -/

/-- Where the machine is after a statement that was begun at `p` and whose code ends at `k`. -/
inductive Leaves (code : List Instr) (image : Image) (c : Context) (bound : Nat) (p : Point)
    (k : Nat) : Exit → Point → Prop where
  | normal {q : Point} (h : Went bound p k p.machine.args q) :
      Leaves code image c bound p k .normal q
  | broke {q : Point} {labels : LoopLabels} {j : Nat} (hl : c.loop = some labels)
      (hj : image.position labels.after = .ok j) (h : Went bound p j p.machine.args q) :
      Leaves code image c bound p k .broke q
  | continued {q : Point} {labels : LoopLabels} {j : Nat} (hl : c.loop = some labels)
      (hj : image.position labels.again = .ok j) (h : Went bound p j p.machine.args q) :
      Leaves code image c bound p k .continued q
  | returned {q : Point} {j line : Nat} {o : Option Operand} {v : Option Value}
      (hat : code[j]? = some ⟨.return o, line⟩) (hv : q.machine.givesBack o = .ok v)
      (hsome : ∀ f fs, q.machine.calls = f :: fs → f.returnsValue = true → v.isSome)
      (h : Went bound p j p.machine.args q) : Leaves code image c bound p k (.returned v) q

section

variable {code : List Instr} {image : Image} {c : Context} {bound bound' k k' : Nat}
  {p q r : Point} {exit : Exit}

namespace Leaves

theorem after (h : Leaves code image c bound' q k exit r)
    (hq : Went bound p k' p.machine.args q) (hb : bound ≤ bound') :
    Leaves code image c bound p k exit r := by
  cases h with
  | normal h => exact .normal (hq.seq h hb)
  | broke hl hj h => exact .broke hl hj (hq.seq h hb)
  | continued hl hj h => exact .continued hl hj (hq.seq h hb)
  | returned hat hv hsome h => exact .returned hat hv hsome (hq.seq h hb)

theorem went (h : Leaves code image c bound p k .normal q) : Went bound p k p.machine.args q := by
  cases h with
  | normal h => exact h

/-- Where the code of a statement ends does not matter if it goes on elsewhere. -/
theorem elsewhere (h : Leaves code image c bound p k exit q) (hexit : exit ≠ .normal) (k' : Nat) :
    Leaves code image c bound p k' exit q := by
  cases h with
  | normal h => exact absurd rfl hexit
  | broke hl hj h => exact .broke hl hj h
  | continued hl hj h => exact .continued hl hj h
  | returned hat hv hsome h => exact .returned hat hv hsome h

/-- Where the end of the code of a statement leads. -/
theorem goOn (h : Leaves code image c bound p k exit q)
    (hk : Went bound p k p.machine.args q → ∃ r, image.advance q = .next r ∧ r.world = q.world ∧
      Went bound p k' p.machine.args r) :
    ∃ r, image.Reaches q r ∧ r.world = q.world ∧ Leaves code image c bound p k' exit r := by
  cases exit with
  | normal =>
    obtain ⟨r, hadv, hw, hwent⟩ := hk h.went
    exact ⟨r, .tail .refl hadv, hw, .normal hwent⟩
  | broke | continued | returned => exact ⟨q, .refl, rfl, h.elsewhere (by simp) k'⟩

/-- A label behind a statement is passed. -/
theorem label (hr : Ready code image) {l : Label} {line : Nat}
    (h : Leaves code image c bound p k exit q) (hat : code[k]? = some ⟨.label l, line⟩) :
    ∃ r, image.Reaches q r ∧ r.world = q.world ∧ Leaves code image c bound p (k + 1) exit r :=
  h.goOn fun hq => hq.label hr hat

/-- A jump behind a statement is taken. -/
theorem jump (hr : Ready code image) {l : Label} {line j : Nat}
    (h : Leaves code image c bound p k exit q) (hat : code[k]? = some ⟨.jump l, line⟩)
    (hl : image.position l = .ok j) :
    ∃ r, image.Reaches q r ∧ r.world = q.world ∧ Leaves code image c bound p j exit r :=
  h.goOn fun hq => hq.jump hr hat hl

/-- Where the machine is after the body of a loop: where the next turn is prepared, or behind the
loop, or where the body returns. -/
theorem of_inLoop {again after : Label} {ja jb : Nat}
    (h : Leaves code image (c.inLoop again after) bound p ja exit q)
    (hagain : image.position again = .ok ja) (hafter : image.position after = .ok jb) :
    match exit with
    | .normal | .continued => Went bound p ja p.machine.args q
    | .broke => Went bound p jb p.machine.args q
    | .returned v => Leaves code image c bound p jb (.returned v) q := by
  cases h with
  | normal h => exact h
  | broke hl hj h =>
    cases hl
    obtain rfl := Except.ok.inj (hafter.symm.trans hj)
    exact h
  | continued hl hj h =>
    cases hl
    obtain rfl := Except.ok.inj (hagain.symm.trans hj)
    exact h
  | returned hat hv hsome h => exact .returned hat hv hsome h

end Leaves

/-! ### Parts of statements -/

theorem Plays.inLoop {n depth : Nat} {σ : Scene} (h : Plays code image n depth c σ)
    (again after : Label) : Plays code image n depth (c.inLoop again after) σ :=
  ⟨h.ready, h.returns, h.bound, h.params, h.call⟩

/-- What is put into a place is what the operand gives. -/
theorem effect_put (m : Machine) (d : Place) (a : Operand) :
    m.effect (put d a) = some (d, m.eval a) := by
  cases a <;> rfl

variable {n depth line : Nat} {σ : Scene} {s s' : State}

theorem Lowering.WidenedCode.tracks (hσ : Plays code image n depth c σ) {e : Expr}
    {expected : Ty} {piece : List Instr} {a : Operand} (h : WidenedCode c s e expected piece a s')
    (hline : s.line = line) (hat : CodeAt code k piece) (hp : Stands σ.function depth k p) :
    Tracks image n p (Evaluated s (calls e) a s' p (k + piece.length))
      (Direct.widened σ line e expected p.world) := by
  cases h with
  | mk he hw =>
    simp only [codeAt_append, List.length_append, ← Nat.add_assoc] at hat ⊢
    exact hw.tracks_after hσ.ready he.supplied.temps (he.supplied.line.trans hline) hat.2
      (ExprCode.tracks hσ e he hline hat.1 hp)

/-- A condition is evaluated, and if it does not hold the machine jumps. -/
theorem tracks_test (hσ : Plays code image n depth c σ) {e : Expr} {piece : List Instr}
    {a : Operand} {l : Label} {j : Nat} (h : ExprCode c s e piece a s') (hline : s.line = line)
    (hat : CodeAt code k piece)
    (hati : code[k + piece.length]? = some (s'.instr (.jumpIfFalse a l)))
    (hl : image.position l = .ok j) (hp : Stands σ.function depth k p) :
    Tracks image n p (fun b q =>
      Went s.temps p (if b then k + piece.length + 1 else j) p.machine.args q)
      (Direct.test σ line e p.world) := by
  refine (ExprCode.tracks hσ e h hline hat hp).bind fun v q hq => ?_
  rw [State.instr, h.supplied.line.trans hline] at hati
  exact (tracks_jumpIfFalse hσ.ready s.temps hq.went.pc hati hq.captures.eval hl).mono
    fun b r hr => hq.went.seq hr (Nat.le_refl _)

theorem Lowering.VariableCode.tracks (hσ : Plays code image n depth c σ) {x : Name} {e : Expr}
    {piece : List Instr} (h : VariableCode c s x e piece s') (hline : s.line = line)
    (hat : CodeAt code k piece) (hp : Stands σ.function depth k p) :
    Tracks image n p (fun _ => Went s.temps p (k + piece.length) p.machine.args)
      (Direct.setVariable σ line x e p.world) := by
  cases h with
  | @mk _ _ b _ piece a hb he =>
    simp only [codeAt_append, codeAt_singleton, List.length_append, List.length_singleton,
      ← Nat.add_assoc] at hat ⊢
    unfold Direct.setVariable
    rw [hb]
    refine (he.tracks hσ hline hat.1 hp).bind fun v q hq => ?_
    have hati := hat.2
    rw [State.instr, he.supplied.line.trans hline] at hati
    have heffect := effect_put q.machine (.var b.variable) a
    rw [hq.captures.eval] at heffect
    exact (tracks_variable hσ.ready s.temps hq.went.pc hati heffect).mono
      fun _ r hr => hq.went.seq hr (Nat.le_refl _)

/-- An element is replaced in the container that a variable holds. -/
theorem tracks_replace (hr : Ready code image) (bound : Nat) {b : Binding} {row a : Operand}
    {col : Option Operand} {ci cv : Captured} (cj : Option Captured)
    (hat : code[k]? = some ⟨.store (.var b.variable) row col a, line⟩) (hk : q.machine.pc = k)
    (hi : q.machine.eval row = ci)
    (hj : q.machine.evalIndex col = Direct.index? cj) (hv : q.machine.eval a = cv) :
    Tracks image n q (fun _ => Went bound q (k + 1) q.machine.args)
      (Direct.replace line b ci cj cv q.world) := by
  have he : q.machine.effect (.store (.var b.variable) row col a) =
      some (.var b.variable, Direct.store (q.world.value b) ci cj cv) := by
    rw [effect, evalInt, hi, hj, hv, read_variable]
    rfl
  exact tracks_variable hr bound hk hat he

theorem Lowering.ElementCode.tracks (hσ : Plays code image n depth c σ) {x : Name}
    {sub : Subscript} {e : Expr} {piece : List Instr} (h : ElementCode c s x sub e piece s')
    (hline : s.line = line) (hat : CodeAt code k piece) (hp : Stands σ.function depth k p) :
    Tracks image n p (fun _ => Went s.temps p (k + piece.length) p.machine.args)
      (Direct.setElement σ line x sub e p.world) := by
  cases h with
  | @element _ s₁ s₂ _ b row _ first keep piece i i' a hb hr hk he =>
    simp only [codeAt_append, codeAt_singleton, List.length_append, List.length_singleton,
      ← Nat.add_assoc] at hat ⊢
    obtain ⟨⟨⟨hatr, hatk⟩, hate⟩, hati⟩ := hat
    have hs₁ := hr.supplied
    have hs₂ := hs₁.append hk.supplied
    have hs₃ := hs₂.append he.supplied
    unfold Direct.setElement
    rw [hb]
    refine (hk.tracks hσ.ready (hs₁.line.trans hline) hatk hs₁.temps
      (ExprCode.tracks hσ row hr hline hatr hp)).bind fun ci q₁ hrow => ?_
    obtain ⟨hq₁, hkeep⟩ := hrow
    refine (he.tracks hσ (hs₂.line.trans hline) hate (hp.went hq₁.went)).bind fun cv q₂ hq₂ => ?_
    have hrow := hq₁.captures.carry hkeep hq₂.world hq₂.went.temps he.supplied.temps
    rw [State.instr, hs₃.line.trans hline] at hati
    exact (tracks_replace hσ.ready s.temps none hati hq₂.went.pc hrow.eval rfl
      hq₂.captures.eval).mono fun _ r hr =>
        (hq₁.went.seq hq₂.went hs₂.temps).seq hr (Nat.le_refl _)
  | @entry _ s₁ s₂ s₃ s₄ _ b row col _ first keep second keepCol piece i i' j j' a hb hr hk hc hkc
      he =>
    simp only [codeAt_append, codeAt_singleton, List.length_append, List.length_singleton,
      ← Nat.add_assoc] at hat ⊢
    obtain ⟨⟨⟨⟨hatr, hatk⟩, hatc, hatkc⟩, hate⟩, hati⟩ := hat
    have hs₁ := hr.supplied
    have hs₂ := hs₁.append hk.supplied
    have hcol := hc.supplied.append hkc.supplied
    have hs₄ := hs₂.append hcol
    have hs₅ := hs₄.append he.supplied
    unfold Direct.setElement
    rw [hb]
    refine (hk.tracks hσ.ready (hs₁.line.trans hline) hatk hs₁.temps
      (ExprCode.tracks hσ row hr hline hatr hp)).bind fun ci q₁ hrow => ?_
    obtain ⟨hq₁, hkeep⟩ := hrow
    have hp₁ := hp.went hq₁.went
    refine (hkc.tracks hσ.ready ((hs₂.append hc.supplied).line.trans hline) hatkc hc.supplied.temps
      (ExprCode.tracks hσ col hc (hs₂.line.trans hline) hatc hp₁)).bind fun cj q₂ hcol => ?_
    obtain ⟨hq₂, hkeepCol⟩ := hcol
    refine (he.tracks hσ (hs₄.line.trans hline) hate (hp₁.went hq₂.went)).bind fun cv q₃ hq₃ => ?_
    have hrow := (hq₁.captures.carry hkeep (fun h => hq₂.world (Bool.or_eq_false_iff.1 h).2)
      hq₂.went.temps hcol.temps).carry hkeep (fun h => hq₃.world (Bool.or_eq_false_iff.1 h).1)
      hq₃.went.temps he.supplied.temps
    have hentry := hq₂.captures.carry hkeepCol hq₃.world hq₃.went.temps he.supplied.temps
    rw [State.instr, hs₅.line.trans hline] at hati
    refine (tracks_replace hσ.ready s.temps (some cj) hati hq₃.went.pc hrow.eval ?_
      hq₃.captures.eval).mono fun _ r hr => ?_
    · rw [evalIndex, evalInt, hentry.eval]
      rfl
    exact ((hq₁.went.seq hq₂.went hs₂.temps).seq hq₃.went hs₄.temps).seq hr (Nat.le_refl _)

theorem Lowering.PrintsCode.tracks (hσ : Plays code image n depth c σ) {es : List Expr}
    {piece : List Instr} (h : PrintsCode c s es piece s') : ∀ {k : Nat} {p : Point},
    s.line = line → CodeAt code k piece → Stands σ.function depth k p →
    Tracks image n p (fun _ => Went s.temps p (k + piece.length) p.machine.args)
      (Direct.prints σ line es p.world) := by
  induction h with
  | nil =>
    intro k p _ _ hp
    exact .pure (.refl _ hp.pc)
  | @cons s₀ s₁ _ e es piece rest a he hes ih =>
    intro k p hline hat hp
    simp only [codeAt_append, codeAt_singleton, List.length_append, List.length_singleton,
      ← Nat.add_assoc] at hat ⊢
    obtain ⟨⟨hate, hati⟩, hatr⟩ := hat
    have hs₁ := he.supplied
    rw [Direct.prints]
    refine (ExprCode.tracks hσ e he hline hate hp).bind fun v q₁ hq₁ => ?_
    rw [State.instr, hs₁.line.trans hline] at hati
    rw [← bind_assoc]
    refine (tracks_print hσ.ready s₀.temps hq₁.went.pc hati hq₁.captures.eval).bind
      fun _ q₂ hq₂ => ?_
    have hwent := hq₁.went.seq hq₂ (Nat.le_refl _)
    exact (ih (hs₁.line.trans hline) hatr (hp.went hwent)).mono
      fun _ q₃ hq₃ => hwent.seq hq₃ hs₁.temps

/-- Returning with a value. -/
theorem tracks_return (hσ : Plays code image n depth c σ) {a : Operand} {v : Captured}
    (hat : code[k]? = some ⟨.return (some a), line⟩) (hk : q.machine.pc = k)
    (hv : q.machine.eval a = v) :
    Tracks image n q (Leaves code image c bound q k')
      ((do let v ← check line v; return .returned (some v) : Act Exit) q.world) := by
  subst hk
  cases v with
  | error f =>
    refine .done (hσ.ready.advance_of_error hat rfl ?_)
    rw [execute, eval_noted, hv]
    rfl
  | ok v =>
    refine ⟨q, .refl, rfl, .returned (o := some a) hat ?_ (fun _ _ _ _ => rfl) (.refl _ rfl)⟩
    rw [givesBack, hv]
    rfl

/-- Returning without a value. -/
theorem tracks_leave (hσ : Plays code image n depth c σ)
    (hat : code[k]? = some ⟨.return none, line⟩) (hp : Stands σ.function depth k p) :
    Tracks image n p (fun v => Leaves code image c bound p k' (.returned v))
      (Direct.leave line σ.function p.world) := by
  have hpc := hp.pc
  subst hpc
  have hcalls := hp.resident.function
  have hnoted := (hp.resident.of_home (home_noted p.machine line)).function
  unfold Direct.leave
  cases hf : σ.function with
  | none =>
    rw [hf] at hcalls
    refine .pure (.returned (o := none) hat rfl (fun f fs hc => ?_) (.refl _ rfl))
    dsimp only at hcalls
    rw [hcalls] at hc
    cases hc
  | some fn =>
    rw [hf] at hcalls hnoted
    dsimp only at hcalls hnoted ⊢
    by_cases hv : fn.returns = .void
    · rw [if_pos hv]
      obtain ⟨f, fs, hc, -, hvalue⟩ := hcalls
      refine .pure (.returned (o := none) hat rfl (fun f' fs' hc' h => ?_) (.refl _ rfl))
      rw [hc] at hc'
      cases hc'
      rw [hvalue] at h
      exact absurd hv (of_decide_eq_true h)
    · rw [if_neg hv]
      obtain ⟨f, fs, hc, hname, hvalue⟩ := hnoted
      refine .done (hσ.ready.advance_of_error hat rfl ?_)
      have hreturns : f.returnsValue = true := hvalue.trans (decide_eq_true hv)
      rw [execute, Machine.leave, hc]
      dsimp only
      rw [hreturns, hname]
      rfl

/-! ### Loops -/

/-- The turns of a loop with a condition, from the label at `kl` before the condition on.  The next
turn is prepared at `ja`, and `jb` is behind the loop. -/
theorem tracks_turns (hσ : Plays code image n depth c σ) (bound : Nat)
    {start again after : Label} {e : Expr} {piece : List Instr} {a : Operand}
    {kl ja jb lineStart : Nat} {body : Act Exit}
    (next : Unit → Act (Except Exit Unit)) (hs : bound ≤ s.temps)
    (hp : Stands σ.function depth k p)
    (hatl : code[kl]? = some ⟨.label start, lineStart⟩) (he : ExprCode c s e piece a s')
    (hline : s.line = line) (hat : CodeAt code (kl + 1) piece)
    (hati : code[kl + 1 + piece.length]? = some (s'.instr (.jumpIfFalse a after)))
    (hagain : image.position again = .ok ja) (hafter : image.position after = .ok jb)
    (hbody : ∀ q, Stands σ.function depth (kl + 1 + piece.length + 1) q →
      Tracks image n q (Leaves code image (c.inLoop again after) s'.temps q ja) (body q.world))
    (hnext : ∀ q, Went bound p ja p.machine.args q →
      Tracks image n q (Tracks.AfterTurn (fun _ => Went bound p kl p.machine.args)
        (Leaves code image c bound p jb)) (next () q.world))
    (hq : Went bound p kl p.machine.args q) :
    Tracks image n q (Leaves code image c bound p jb)
      (Direct.loop (Direct.turn (fun _ => Direct.test σ line e) body next) σ.bound () q.world) := by
  have hs' := Nat.le_trans hs he.supplied.temps
  rw [hσ.bound]
  refine Tracks.loop (I := fun _ => Went bound p kl p.machine.args) (fun _ q₁ hq₁ => ?_) n
    (Nat.le_refl n) () q hq
  obtain ⟨q₂, hadv, hw, hq₂⟩ := hq₁.label hσ.ready hatl
  refine ⟨q₂, hadv, hw, Tracks.turn
    (B := Went bound p (kl + 1 + piece.length + 1) p.machine.args)
    (N := Went bound p ja p.machine.args) ?_ (fun q₃ hq₃ => ?_) hnext⟩
  · refine (tracks_test hσ he hline hat hati hafter (hp.went hq₂)).mono fun b q₃ hq₃ => ?_
    have hq₃ := hq₂.seq hq₃ hs
    cases b with
    | false => exact .normal hq₃
    | true => exact hq₃
  · refine (hbody q₃ (hp.went hq₃)).mono fun exit q₄ hq₄ => ?_
    have hq₄ := hq₄.of_inLoop hagain hafter
    cases exit with
    | normal => exact hq₃.seq hq₄ hs'
    | continued => exact hq₃.seq hq₄ hs'
    | broke => exact .normal (hq₃.seq hq₄ hs')
    | returned v => exact hq₄.after hq₃ hs'

/-- The turns of a loop that counts in the temporary `t + 1` up to the limit in `t`, from the label
at `kl` on, where its counter is first compared with the limit. -/
theorem tracks_counting (hσ : Plays code image n depth c σ) {start again after : Label}
    {kl kb ja jb t : Nat} {limit v : Value} {body : Act Exit} {l₁ l₂ l₃ : Nat}
    (hp : Stands σ.function depth k p)
    (hlimit : p.machine.frame.temps.get? t = some limit)
    (hatl : code[kl]? = some ⟨.label start, l₁⟩)
    (hatc : code[kl + 1]? = some
      ⟨.binary (.temp (t + 2)) .lt (.place (.temp (t + 1))) (.place (.temp t)), line⟩)
    (hati : code[kl + 2]? = some ⟨.jumpIfFalse (.place (.temp (t + 2))) after, line⟩)
    (hatn : code[ja]? = some ⟨.label again, l₂⟩)
    (hata : code[ja + 1]? = some
      ⟨.binary (.temp (t + 1)) .add (.place (.temp (t + 1))) (indexConst 1), line⟩)
    (hatj : code[ja + 2]? = some ⟨.jump start, l₃⟩)
    (hafter : image.position after = .ok jb) (hk : kb = kl + 3)
    (hbody : ∀ q, Stands σ.function depth kb q →
      Tracks image n q (Leaves code image (c.inLoop again after) (t + 3) q ja) (body q.world))
    (hq : Kept (t + 1) true p kl v q) :
    Tracks image n q (Leaves code image c (t + 1) p jb)
      (Direct.loop (Direct.turn (Direct.below line limit) body (Direct.advance line)) σ.bound v
        q.world) := by
  subst hk
  have hstart := hσ.ready.labels hatl rfl
  have hagain := hσ.ready.labels hatn rfl
  rw [hσ.bound]
  refine Tracks.loop (I := Kept (t + 1) true p kl) (fun v q₁ hq₁ => ?_) n (Nat.le_refl n) v q hq
  obtain ⟨q₂, hadv, hw, hwent⟩ := passes_label hσ.ready (t + 2) hq₁.went.pc hatl
  have hq₂ := hq₁.further hwent (Nat.lt_succ_self _)
  refine ⟨q₂, hadv, hw, Tracks.turn (B := Kept (t + 1) true p (kl + 3) v)
    (N := Kept (t + 1) true p ja v) ?_ (fun q₃ hq₃ => ?_) fun q₃ hq₃ => ?_⟩
  · have he : q₂.machine.effect
        (.binary (.temp (t + 2)) .lt (.place (.temp (t + 1))) (.place (.temp t))) =
          some (.temp (t + 2), BinaryOp.lt.apply v limit) := by
      rw [effect, Machine.eval, read_temp hq₂.value, Machine.eval,
        read_temp ((hq₂.went.temps t (Nat.lt_succ_self t)).trans hlimit)]
      rfl
    refine (tracks_temp hσ.ready hq₂.went.pc hatc he (Nat.le_refl _)).bind
      fun x q₃ ⟨hwent, hx, _⟩ => ?_
    have hq₃ := hq₂.further hwent (Nat.lt_succ_self _)
    refine (tracks_jumpIfFalse (c := .ok x) hσ.ready (t + 2) hq₃.went.pc hati (read_temp hx)
      hafter).mono fun b q₄ hwent => ?_
    have hq₄ := hq₃.further hwent (Nat.lt_succ_self _)
    cases b with
    | false => exact .normal hq₄.went
    | true => exact hq₄
  · refine (hbody q₃ (hp.went hq₃.went)).mono fun exit q₄ hq₄ => ?_
    have hlt : t + 1 < t + 3 := by omega
    have hq₄ := hq₄.of_inLoop hagain hafter
    cases exit with
    | normal => exact hq₃.further hq₄ hlt
    | continued => exact hq₃.further hq₄ hlt
    | broke => exact .normal (hq₃.further hq₄ hlt).went
    | returned v => exact hq₄.after hq₃.went (Nat.le_of_lt hlt)
  · obtain ⟨q₄, hadv, hw, hwent⟩ := passes_label hσ.ready (t + 2) hq₃.went.pc hatn
    have hq₄ := hq₃.further hwent (Nat.lt_succ_self _)
    rw [← hw]
    refine .of_reaches (.tail .refl hadv) ?_
    have he : q₄.machine.effect
        (.binary (.temp (t + 1)) .add (.place (.temp (t + 1))) (indexConst 1)) =
          some (.temp (t + 1), BinaryOp.add.apply v (.int 1)) := by
      rw [effect, Machine.eval, read_temp hq₄.value]
      rfl
    refine (tracks_temp hσ.ready hq₄.went.pc hata he (Nat.le_refl _)).bind
      fun v' q₅ ⟨hwent, hv, _⟩ => ?_
    have hq₅ : Kept (t + 1) true p (ja + 2) v' q₅ :=
      ⟨hq₄.went.seq hwent (Nat.le_refl _), hv, by simp⟩
    obtain ⟨q₆, hadv, hw, hjump⟩ := takes_jump hσ.ready (t + 2) hq₅.went.pc hatj hstart
    rw [← hw]
    exact .of_reaches (.tail .refl hadv) (Tracks.pure (hq₅.further hjump (Nat.lt_succ_self _)))

end

/-! ### Statements -/

namespace Lowering

section

variable {code : List Instr} {image : Image} {n depth : Nat} {σ : Scene}

mutual

theorem StmtCode.tracks (st : Stmt) : ∀ {c : Context} {s s' : State} {piece : List Instr} {k : Nat}
    {p : Point}, Plays code image n depth c σ → StmtCode c s st piece s' → CodeAt code k piece →
    Stands σ.function depth k p →
    Tracks image n p (Leaves code image c s.temps p (k + piece.length))
      (Direct.stmt σ st p.world) := by
  intro c s s' piece k p hσ h hat hp
  cases h with
  | @decl _ _ _ loc x ty init _ h =>
    rw [Direct.stmt]
    exact (h.tracks hσ rfl hat hp).bind fun _ q hq => .pure (.normal hq)
  | @assign _ _ _ loc x value _ h =>
    rw [Direct.stmt]
    exact (h.tracks hσ rfl hat hp).bind fun _ q hq => .pure (.normal hq)
  | @store _ _ _ loc x sub value _ h =>
    rw [Direct.stmt]
    exact (h.tracks hσ rfl hat hp).bind fun _ q hq => .pure (.normal hq)
  | @function _ _ loc f returns params body =>
    rw [Direct.stmt]
    exact .pure (.normal (.refl _ hp.pc))
  | @cond _ _ s₁ s₂ loc e body test piece a he hb =>
    simp only [codeAt_append, codeAt_singleton, List.length_append, List.length_singleton,
      ← Nat.add_assoc] at hat ⊢
    obtain ⟨⟨⟨hatt, hati⟩, hatb⟩, hatl⟩ := hat
    have hafter := hσ.ready.labels hatl rfl
    rw [Direct.stmt]
    refine ((tracks_test hσ he rfl hatt hati hafter hp).bind fun b q₁ hq₁ => ?_ :
      Tracks image n p (Leaves code image c s.temps p _) _).extend
        fun exit q hq => hq.label hσ.ready hatl
    cases b with
    | false => exact .pure (.normal hq₁)
    | true =>
      exact (BlockCode.tracks body hσ hb hatb (hp.went hq₁)).mono
        fun exit q hq => hq.after hq₁ he.supplied.temps
  | @branch _ _ s₁ s₂ _ loc e body orElse test piece pieceElse a he hb ho =>
    simp only [codeAt_append, codeAt_singleton, List.length_append, List.length_singleton,
      ← Nat.add_assoc] at hat ⊢
    obtain ⟨⟨⟨⟨⟨⟨hatt, hati⟩, hatb⟩, hatj⟩, hate⟩, hato⟩, hatl⟩ := hat
    have hafter := hσ.ready.labels hatl rfl
    have helse := hσ.ready.labels hate rfl
    rw [Direct.stmt]
    refine ((tracks_test hσ he rfl hatt hati helse hp).bind fun b q₁ hq₁ => ?_ :
      Tracks image n p (Leaves code image c s.temps p _) _).extend
        fun exit q hq => hq.label hσ.ready hatl
    cases b with
    | true =>
      exact (BlockCode.tracks body hσ hb hatb (hp.went hq₁)).extend fun exit q hq =>
        (hq.after hq₁ he.supplied.temps).jump hσ.ready hatj hafter
    | false =>
      have hq₁ : Went s.temps p (k + test.length + 1 + piece.length + 1) p.machine.args q₁ := hq₁
      obtain ⟨q₂, hadv, hw, hwent⟩ := hq₁.label hσ.ready hate
      rw [if_neg (by decide), ← hw]
      refine .of_reaches (.tail .refl hadv) ?_
      exact (BlockCode.tracks orElse hσ ho hato (hp.went hwent)).mono
        fun exit q hq => hq.after hwent
          (Nat.le_trans he.supplied.temps (BlockCode.labelled _ hb).temps)
  | @«while» _ _ s₀ s₁ s₂ loc e body test piece a h₀ he hb =>
    subst h₀
    simp only [codeAt_append, codeAt_singleton, List.length_append, List.length_singleton,
      ← Nat.add_assoc] at hat ⊢
    obtain ⟨⟨⟨⟨⟨hats, hatt⟩, hati⟩, hatb⟩, hatj⟩, hatl⟩ := hat
    have hagain := hσ.ready.labels hats rfl
    rw [Direct.stmt]
    have hturns := tracks_turns (s := (s.inLine loc.line).nextLabel.nextLabel) hσ s.temps
      (fun _ => return .ok ()) (Nat.le_refl _) hp hats he rfl hatt hati hagain
      (hσ.ready.labels hatl rfl)
      (fun q hq => (BlockCode.tracks body (hσ.inLoop _ _) hb hatb hq).extend
        fun exit r hr => hr.jump hσ.ready hatj hagain)
      (fun q hq => Tracks.pure hq) (.refl _ hp.pc)
    exact hturns.extend fun exit q hq => hq.label hσ.ready hatl
  | @«for» _ _ s₁ s₂ s₃ s₄ s₅ s₆ loc init update e body first test piece last a hi h₂ he hb h₅
      hu =>
    subst h₂ h₅
    simp only [codeAt_append, codeAt_singleton, List.length_append, List.length_singleton,
      ← Nat.add_assoc] at hat ⊢
    obtain ⟨⟨⟨⟨⟨⟨⟨⟨hatf, hats⟩, hatt⟩, hati⟩, hatb⟩, hata⟩, hatu⟩, hatj⟩, hatl⟩ := hat
    have hstart := hσ.ready.labels hats rfl
    have hs₁ := (StmtCode.labelled _ hi).temps
    have hs₃ := Nat.le_trans hs₁ he.supplied.temps
    rw [Direct.stmt]
    refine ((StmtCode.tracks init hσ hi hatf hp).bind fun exit q₁ hq₁ => ?_ :
      Tracks image n p (Leaves code image c s.temps p _) _).extend
        fun exit q hq => hq.label hσ.ready hatl
    cases exit with
    | broke | continued | returned => exact .pure (hq₁.elsewhere (by simp) _)
    | normal =>
      refine tracks_turns (s := (s₁.inLine loc.line).nextLabel.nextLabel.nextLabel) hσ s.temps _
        hs₁ hp hats he rfl hatt hati (hσ.ready.labels hata rfl) (hσ.ready.labels hatl rfl)
        (fun q hq => BlockCode.tracks body (hσ.inLoop _ _) hb hatb hq) (fun q hq => ?_) hq₁.went
      obtain ⟨q₂, hadv, hw, hwent⟩ := hq.label hσ.ready hata
      rw [← hw]
      refine .of_reaches (.tail .refl hadv) ?_
      refine (((StmtCode.tracks update hσ hu hatu (hp.went hwent)).extend
        fun exit r hr => hr.jump hσ.ready hatj hstart)).bind fun exit r hr => ?_
      have hr := hr.after hwent (Nat.le_trans hs₃ (BlockCode.labelled _ hb).temps)
      cases exit with
      | normal => exact .pure hr.went
      | broke | continued | returned => exact .pure (hr.elsewhere (by simp) _)
  | @«repeat» _ _ s₁ s₂ s₃ loc count body counting piece a he hb h₃ =>
    subst h₃
    simp only [codeAt_append, codeAt_singleton, List.length_append, List.length_singleton,
      ← Nat.add_assoc] at hat ⊢
    obtain ⟨⟨⟨⟨⟨⟨⟨⟨⟨⟨hate, hatp⟩, hatz⟩, hatl⟩, hatc⟩, hati⟩, hatb⟩, hatn⟩, hata⟩, hatj⟩,
      hatl'⟩ := hat
    have hs₁ := he.supplied
    rw [Direct.stmt]
    refine ((ExprCode.tracks hσ count he rfl hate hp).bind fun v q₁ hq₁ => ?_ :
      Tracks image n p (Leaves code image c s.temps p _) _).extend
        fun exit q hq => hq.label hσ.ready hatl'
    have hlimit := effect_put q₁.machine s₁.temp a
    rw [hq₁.captures.eval] at hlimit
    rw [State.instr, hs₁.line] at hatp
    refine (tracks_temp hσ.ready hq₁.went.pc hatp hlimit (Nat.le_refl _)).bind
      fun limit q₂ ⟨hwent₂, hlimit₂, _⟩ => ?_
    have hq₂ := hq₁.went.seq hwent₂ hs₁.temps
    have hp₂ := hp.went hq₂
    obtain ⟨q₃, h₃, hw, hwent₃, hzero⟩ :=
      reaches_temp (s := s₁.nextTemp) (v := .int 0) hσ.ready hp₂ hatz rfl
    have hq₃ := hq₂.seq hwent₃ (Nat.le_trans hs₁.temps (Nat.le_succ _))
    have hp₃ := hp.went hq₃
    rw [← hw]
    refine .of_reaches h₃ ?_
    have hlimit₃ := (hwent₃.temps _ (Nat.lt_succ_self _)).trans hlimit₂
    have hstart : Kept (s₁.temps + 1) true q₃ _ (.int 0) q₃ := ⟨.refl _ hq₃.pc, hzero, by simp⟩
    rw [State.instr, hs₁.line] at hatc hati
    refine (tracks_counting hσ hp₃ hlimit₃ hatl hatc hati hatn hata hatj
      (hσ.ready.labels hatl' rfl) rfl (fun q hq => BlockCode.tracks body (hσ.inLoop _ _) hb hatb hq)
      hstart).mono fun exit q hq => hq.after hq₃ (Nat.le_trans hs₁.temps (Nat.le_succ _))
  | @«break» _ _ loc labels hl =>
    rw [Direct.stmt]
    rw [codeAt_singleton] at hat
    obtain ⟨j, hj⟩ := hσ.ready.targets hat rfl
    obtain ⟨q, hadv, hw, hq⟩ := takes_jump hσ.ready s.temps hp.pc hat hj
    rw [← hw]
    exact .of_reaches (.tail .refl hadv) (Tracks.pure (.broke hl hj hq))
  | @«continue» _ _ loc labels hl =>
    rw [Direct.stmt]
    rw [codeAt_singleton] at hat
    obtain ⟨j, hj⟩ := hσ.ready.targets hat rfl
    obtain ⟨q, hadv, hw, hq⟩ := takes_jump hσ.ready s.temps hp.pc hat hj
    rw [← hw]
    exact .of_reaches (.tail .refl hadv) (Tracks.pure (.continued hl hj hq))
  | @leave _ _ loc =>
    rw [Direct.stmt]
    exact (tracks_leave hσ (codeAt_singleton.1 hat) hp).bind fun v q hq => .pure hq
  | @«return» _ _ s₁ loc e piece a he =>
    simp only [codeAt_append, codeAt_singleton, List.length_append, List.length_singleton,
      ← Nat.add_assoc] at hat ⊢
    obtain ⟨hate, hati⟩ := hat
    rw [hσ.returns] at he
    rw [Direct.stmt]
    refine (he.tracks hσ rfl hate hp).bind fun v q₁ hq₁ => ?_
    rw [State.instr, he.supplied.line] at hati
    exact (tracks_return hσ hati hq₁.went.pc hq₁.captures.eval).mono
      fun exit q hq => hq.after hq₁.went (Nat.le_refl _)
  | @print _ _ s₁ loc values piece h =>
    rw [Direct.stmt]
    exact (h.tracks hσ rfl hat hp).bind fun _ q hq => .pure (.normal hq)
  | @input _ _ loc x b hb =>
    rw [Direct.stmt]
    exact (tracks_input hσ.ready s.temps hp.pc (codeAt_singleton.1 hat) hb).bind
      fun _ q hq => .pure (.normal hq)
  | @call _ _ s₁ loc m f args target params returns passing hf ha =>
    simp only [codeAt_append, codeAt_singleton, List.length_append, List.length_singleton,
      ← Nat.add_assoc] at hat ⊢
    obtain ⟨hata, hatc⟩ := hat
    rw [Direct.stmt, hσ.params hf]
    refine (ArgumentsCode.tracks hσ args ha rfl hata hp).bind fun vs q₁ hq₁ => ?_
    rw [← hq₁.length, State.instr, ha.supplied.line] at hatc
    refine (hσ.call hf s.temps _ _ vs _ q₁ hatc hq₁.went.args (hp.went hq₁.went)).bind
      fun given q₂ ⟨hwent, _⟩ => .pure (.normal (hq₁.went.trans hwent (Nat.le_refl _)))
  | @expr _ _ s₁ loc e piece a hc he =>
    rw [Direct.stmt]
    · exact (ExprCode.tracks hσ e he rfl hat hp).bind fun _ q hq => .pure (.normal hq.went)
    · exact fun m f args h => hc m f args h
termination_by structural st

theorem BlockCode.tracks (ss : List Stmt) : ∀ {c : Context} {s s' : State} {piece : List Instr}
    {k : Nat} {p : Point}, Plays code image n depth c σ → BlockCode c s ss piece s' →
    CodeAt code k piece → Stands σ.function depth k p →
    Tracks image n p (Leaves code image c s.temps p (k + piece.length))
      (Direct.block σ ss p.world) := by
  intro c s s' piece k p hσ h hat hp
  cases h with
  | nil =>
    rw [Direct.block]
    exact .pure (.normal (.refl _ hp.pc))
  | @cons _ _ s₁ _ st ss piece rest hs hss =>
    simp only [codeAt_append, List.length_append, ← Nat.add_assoc] at hat ⊢
    rw [Direct.block]
    refine (StmtCode.tracks st hσ hs hat.1 hp).bind fun exit q hq => ?_
    cases exit with
    | normal =>
      exact (BlockCode.tracks ss hσ hss hat.2 (hp.went hq.went)).mono
        fun exit r hr => hr.after hq.went (StmtCode.labelled _ hs).temps
    | broke | continued | returned => exact .pure (hq.elsewhere (by simp) _)
termination_by structural ss

end

end

end Lowering

end NumericScript
