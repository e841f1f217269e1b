import NumericScript.Proofs.Direct
import NumericScript.Proofs.Run

/-! # The machine beside the world

A machine shows a world: the variables that the code at hand can see, the unit of angles, what was
printed and what was not read.  A run of the machine tracks an act on that world if it comes to a
point that shows what the act leaves, ends as the act ends, and goes on for as many steps as the
bound says where the act does not come to its end.

* `Tracks.bind`: acts one after the other.
* `Tracks.loop`, `Tracks.turn`: loops. -/

namespace NumericScript

open Direct Lowering Machine

/-- The world that a point of a run shows. -/
def Point.world (p : Point) : World :=
  ⟨p.machine.globals, p.machine.frame.locals, p.machine.angle, p.machine.output, p.unread⟩

namespace Image

variable {image : Image} {p q r : Point}

theorem Reaches.trans (hpq : image.Reaches p q) (hqr : image.Reaches q r) : image.Reaches p r := by
  induction hqr with
  | refl => exact hpq
  | tail _ h ih => exact ih.tail h

/-- The run from `p` goes on for `n` steps. -/
inductive Lasts (image : Image) : Nat → Point → Prop where
  | zero {p : Point} : Lasts image 0 p
  | succ {n : Nat} {p q : Point} (h : image.advance p = .next q) (hq : Lasts image n q) :
      Lasts image (n + 1) p

theorem Lasts.of_le {n n' : Nat} (h : image.Lasts n p) (hle : n' ≤ n) : image.Lasts n' p := by
  induction h generalizing n' with
  | zero =>
    obtain rfl := Nat.le_zero.1 hle
    exact .zero
  | succ h _ ih =>
    cases n' with
    | zero => exact .zero
    | succ n' => exact .succ h (ih (Nat.le_of_succ_le_succ hle))

theorem Lasts.of_reaches {n : Nat} (hpq : image.Reaches p q) (h : image.Lasts n q) :
    image.Lasts n p := by
  induction hpq with
  | refl => exact h
  | tail _ hadv ih => exact ih ((Lasts.succ hadv h).of_le (Nat.le_succ n))

/-- A run that comes to an end does not go on for ever. -/
theorem Halts.exists_not_lasts {o : RunOutcome} (h : image.Halts p o) :
    ∃ n, ¬ image.Lasts n p := by
  induction h with
  | done h =>
    refine ⟨1, fun hlasts => ?_⟩
    cases hlasts with
    | succ h' => rw [h] at h'; cases h'
  | next h _ ih =>
    obtain ⟨n, hn⟩ := ih
    refine ⟨n + 1, fun hlasts => ?_⟩
    cases hlasts with
    | succ h' hq => rw [h] at h'; cases h'; exact hn hq

end Image

/-! ### Acts -/

section

variable {α β : Type} {image : Image} {n : Nat} {p q : Point}

theorem run_bind (x : Act α) (f : α → Act β) (w : World) :
    (x >>= f) w = match x w with
      | none => none
      | some (.error o) => some (.error o)
      | some (.ok (a, w')) => f a w' := by
  change ExceptT.bind (x w) _ = _
  unfold ExceptT.bind ExceptT.mk
  change Option.bind (x w) _ = _
  rcases x w with - | (o | ⟨a, w'⟩) <;> rfl

/-- The run from `p` tracks an act with some result; where the act is done, `Q` holds. -/
def Tracks (image : Image) (n : Nat) (p : Point) (Q : α → Point → Prop) :
    Option (Except RunOutcome (α × World)) → Prop
  | none => image.Lasts n p
  | some (.error o) => image.Halts p o
  | some (.ok (a, w)) => ∃ q, image.Reaches p q ∧ q.world = w ∧ Q a q

namespace Tracks

variable {Q : α → Point → Prop} {Q' : β → Point → Prop}

theorem pure {a : α} (h : Q a p) : Tracks image n p Q ((pure a : Act α) p.world) :=
  ⟨p, .refl, rfl, h⟩

/-- What is tracked later is tracked. -/
theorem of_reaches {x : Option (Except RunOutcome (α × World))} (hpq : image.Reaches p q)
    (h : Tracks image n q Q x) : Tracks image n p Q x := by
  rcases x with - | (o | ⟨a, w⟩)
  · exact Image.Lasts.of_reaches hpq h
  · exact Image.Halts.of_reaches hpq h
  · obtain ⟨r, hqr, hw, hr⟩ := h
    exact ⟨r, hpq.trans hqr, hw, hr⟩

/-- What is tracked from the next step on is tracked for one step more. -/
theorem of_advance {x : Option (Except RunOutcome (α × World))}
    (hadv : image.advance p = .next q) (h : Tracks image n q Q x) :
    Tracks image (n + 1) p Q x := by
  rcases x with - | (o | ⟨a, w⟩)
  · exact .succ hadv h
  · exact .next hadv h
  · obtain ⟨r, hqr, hw, hr⟩ := h
    exact ⟨r, hqr.head hadv, hw, hr⟩

theorem of_le {n' : Nat} {x : Option (Except RunOutcome (α × World))}
    (h : Tracks image n p Q x) (hle : n' ≤ n) : Tracks image n' p Q x := by
  rcases x with - | (o | ⟨a, w⟩)
  · exact Image.Lasts.of_le h hle
  · exact h
  · exact h

/-- Acts one after the other. -/
theorem bind {x : Act α} {f : α → Act β} (hx : Tracks image n p Q (x p.world))
    (hf : ∀ a q, Q a q → Tracks image n q Q' (f a q.world)) :
    Tracks image n p Q' ((x >>= f) p.world) := by
  rw [run_bind]
  rcases hr : x p.world with - | (o | ⟨a, w⟩) <;> rw [hr] at hx
  · exact hx
  · exact hx
  · obtain ⟨q, hpq, rfl, hq⟩ := hx
    exact (hf a q hq).of_reaches hpq

/-- The machine goes on to a point that shows the same world. -/
theorem extend {Q' : α → Point → Prop} {x : Option (Except RunOutcome (α × World))}
    (h : Tracks image n p Q x)
    (hQ : ∀ a q, Q a q → ∃ r, image.Reaches q r ∧ r.world = q.world ∧ Q' a r) :
    Tracks image n p Q' x := by
  rcases x with - | (o | ⟨a, w⟩)
  · exact h
  · exact h
  · obtain ⟨q, hpq, hw, hq⟩ := h
    obtain ⟨r, hqr, hr, hQ'⟩ := hQ a q hq
    exact ⟨r, hpq.trans hqr, hr.trans hw, hQ'⟩

theorem mono {Q' : α → Point → Prop} {x : Option (Except RunOutcome (α × World))}
    (h : Tracks image n p Q x) (hQ : ∀ a q, Q a q → Q' a q) : Tracks image n p Q' x :=
  h.extend fun a q hq => ⟨q, .refl, rfl, hQ a q hq⟩

/-! ### Loops -/

variable {σ : Type}

/-- What holds after a turn of a loop. -/
def AfterTurn (I : σ → Point → Prop) (E : Exit → Point → Prop) : Except Exit σ → Point → Prop
  | .ok s, q => I s q
  | .error exit, q => E exit q

/-- A loop is tracked if every turn is that takes a step at its beginning. -/
theorem loop {I : σ → Point → Prop} {E : Exit → Point → Prop} {turn : σ → Act (Except Exit σ)}
    (hturn : ∀ s q, I s q → ∃ r, image.advance q = .next r ∧ r.world = q.world ∧
      Tracks image n r (AfterTurn I E) (turn s r.world)) :
    ∀ bound ≤ n, ∀ s q, I s q → Tracks image bound q E (Direct.loop turn bound s q.world) := by
  intro bound
  induction bound with
  | zero => exact fun _ s q _ => .zero
  | succ bound ih =>
    intro hle s q hI
    obtain ⟨r, hadv, hw, hr⟩ := hturn s q hI
    -- The step at the beginning of the turn pays for the turn.
    rw [← hw]
    refine of_advance hadv ?_
    refine (hr.of_le (Nat.le_of_succ_le hle)).bind fun result q' hafter => ?_
    cases result with
    | ok s' => exact ih (Nat.le_of_succ_le hle) s' q' hafter
    | error exit => exact .pure hafter

/-- A turn of a loop is tracked if its parts are. -/
theorem turn {I : σ → Point → Prop} {E : Exit → Point → Prop} {N : Point → Prop}
    {B : Point → Prop} {test : σ → Act Bool} {body : Act Exit}
    {next : σ → Act (Except Exit σ)} {s : σ}
    (htest : Tracks image n p (fun b q => if b then B q else E .normal q) (test s p.world))
    (hbody : ∀ q, B q → Tracks image n q (fun exit r =>
      match exit with
      | .normal | .continued => N r
      | .broke => E .normal r
      | .returned v => E (.returned v) r) (body q.world))
    (hnext : ∀ q, N q → Tracks image n q (AfterTurn I E) (next s q.world)) :
    Tracks image n p (AfterTurn I E) (Direct.turn test body next s p.world) := by
  refine htest.bind fun b q hb => ?_
  cases b with
  | false => exact Tracks.pure hb
  | true =>
    refine (hbody q hb).bind fun exit r hr => ?_
    cases exit with
    | normal => exact hnext r hr
    | continued => exact hnext r hr
    | broke => exact Tracks.pure hr
    | returned v => exact Tracks.pure hr

end Tracks

end

end NumericScript
