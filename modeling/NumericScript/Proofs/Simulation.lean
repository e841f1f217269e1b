import NumericScript.Proofs.Run

/-! # Simulation of runs

Two pieces of code run alike if their steps can be matched.  Each of the two may take steps of
its own in between, as long as a rank excludes that it does so for ever.

* `Simulates.halts_iff`: runs from related points have the same outcomes.
* `Simulates.always`: what the relation says of the second run holds all along it. -/

namespace NumericScript

namespace Image

/-- Something holds all along the run from `p`. -/
def Always (image : Image) (P : Point → Prop) (p : Point) : Prop :=
  ∀ q, image.Reaches p q → P q

variable {image : Image} {P : Point → Prop} {p q : Point}

theorem Always.here (h : image.Always P p) : P p := h p .refl

theorem Always.next (h : image.Always P p) (hq : image.advance p = .next q) :
    image.Always P q :=
  fun r hr => h r (hr.head hq)

/-- A run is where it starts, or comes there after its first step. -/
theorem Reaches.eq_or_next (h : image.Reaches p q) :
    q = p ∨ ∃ p', image.advance p = .next p' ∧ image.Reaches p' q := by
  induction h with
  | refl => exact .inl rfl
  | @tail q r _ h ih =>
    rcases ih with rfl | ⟨p', hp', hq⟩
    · exact .inr ⟨r, h, .refl⟩
    · exact .inr ⟨p', hp', hq.tail h⟩

theorem Always.of_done {o : RunOutcome} (hp : P p) (h : image.advance p = .done o) :
    image.Always P p := by
  intro q hq
  rcases hq.eq_or_next with rfl | ⟨p', hp', -⟩
  · exact hp
  · rw [h] at hp'
    cases hp'

theorem Always.of_next (hp : P p) (h : image.advance p = .next q) (hq : image.Always P q) :
    image.Always P p := by
  intro r hr
  rcases hr.eq_or_next with rfl | ⟨p', hp', hr⟩
  · exact hp
  · rw [h] at hp'
    cases hp'
    exact hq r hr

/-- A property that every step keeps holds all along a run on which it holds at first. -/
theorem always_of_step {Q : Point → Prop} (hp : P p) (hQ : image.Always Q p)
    (hstep : ∀ q r, P q → Q q → image.advance q = .next r → P r) : image.Always P p := by
  intro q hq
  induction hq with
  | refl => exact hp
  | tail hq h ih => exact hstep _ _ ih (hQ _ hq) h

theorem Always.mono {Q : Point → Prop} (h : image.Always P p) (hPQ : ∀ q, P q → Q q) :
    image.Always Q p :=
  fun q hq => hPQ q (h q hq)

theorem Always.and {Q : Point → Prop} (h : image.Always P p) (h' : image.Always Q p) :
    image.Always (fun q => P q ∧ Q q) p :=
  fun q hq => ⟨h q hq, h' q hq⟩

end Image

/-- How the runs from `a` and `b` go on: the first takes a step of its own, the second does,
both take a step, or both come to an end. -/
inductive Matches (A B : Image) (R : Point → Point → Prop) (rank : Point → Point → Nat)
    (Q : Point → Prop) (a b : Point) : Prop where
  | left {a' : Point} (h : A.advance a = .next a') (hr : R a' b) (hlt : rank a' b < rank a b)
  | right {b' : Point} (hQ : Q b) (h : B.advance b = .next b') (hr : R a b')
      (hlt : rank a b' < rank a b)
  | both {a' b' : Point} (hQ : Q b) (ha : A.advance a = .next a')
      (hb : B.advance b = .next b') (hr : R a' b')
  | done {o : RunOutcome} (hQ : Q b) (ha : A.advance a = .done o) (hb : B.advance b = .done o)

/-- Points that are related, of which the first has the property `P`, go on alike, and the
second has the property `Q` unless the first goes on alone. -/
def Simulates (A B : Image) (R : Point → Point → Prop) (rank : Point → Point → Nat)
    (P Q : Point → Prop) : Prop :=
  ∀ a b, R a b → P a → Matches A B R rank Q a b

namespace Simulates

variable {A B : Image} {R : Point → Point → Prop} {rank : Point → Point → Nat}
  {P Q : Point → Prop}

/-- If the first run comes to an end, so does the second. -/
theorem halts {a b : Point} {o : RunOutcome} (h : Simulates A B R rank P Q) (hr : R a b)
    (hP : A.Always P a) (ho : A.Halts a o) : B.Halts b o := by
  induction ho generalizing b with
  | @done a o ha =>
    induction hn : rank a b using Nat.strongRecOn generalizing b with
    | ind n ih =>
      subst hn
      cases h a b hr hP.here with
      | left ha' => rw [ha] at ha'; cases ha'
      | right _ hb hr hlt => exact .next hb (ih _ hlt hr rfl)
      | both _ ha' => rw [ha] at ha'; cases ha'
      | done _ ha' hb => rw [ha] at ha'; cases ha'; exact .done hb
  | @next a a₁ o ha _ ih =>
    induction hn : rank a b using Nat.strongRecOn generalizing b with
    | ind n ihr =>
      subst hn
      cases h a b hr hP.here with
      | left ha' hr => rw [ha] at ha'; cases ha'; exact ih hr (hP.next ha)
      | right _ hb hr hlt => exact .next hb (ihr _ hlt hr rfl)
      | both _ ha' hb hr => rw [ha] at ha'; cases ha'; exact .next hb (ih hr (hP.next ha))
      | done _ ha' => rw [ha] at ha'; cases ha'

/-- If the second run comes to an end, so does the first. -/
theorem halts_of_halts {a b : Point} {o : RunOutcome} (h : Simulates A B R rank P Q)
    (hr : R a b) (hP : A.Always P a) (ho : B.Halts b o) : A.Halts a o := by
  induction ho generalizing a with
  | @done b o hb =>
    induction hn : rank a b using Nat.strongRecOn generalizing a with
    | ind n ih =>
      subst hn
      cases h a b hr hP.here with
      | left ha hr hlt => exact .next ha (ih _ hlt hr (hP.next ha) rfl)
      | right _ hb' => rw [hb] at hb'; cases hb'
      | both _ _ hb' => rw [hb] at hb'; cases hb'
      | done _ ha hb' => rw [hb] at hb'; cases hb'; exact .done ha
  | @next b b₁ o hb _ ih =>
    induction hn : rank a b using Nat.strongRecOn generalizing a with
    | ind n ihr =>
      subst hn
      cases h a b hr hP.here with
      | left ha hr hlt => exact .next ha (ihr _ hlt hr (hP.next ha) rfl)
      | right _ hb' hr => rw [hb] at hb'; cases hb'; exact ih hr hP
      | both _ ha hb' hr => rw [hb] at hb'; cases hb'; exact .next ha (ih hr (hP.next ha))
      | done _ _ hb' => rw [hb] at hb'; cases hb'

/-- Runs from related points have the same outcomes. -/
theorem halts_iff {a b : Point} {o : RunOutcome} (h : Simulates A B R rank P Q) (hr : R a b)
    (hP : A.Always P a) : A.Halts a o ↔ B.Halts b o :=
  ⟨h.halts hr hP, h.halts_of_halts hr hP⟩

/-- Whatever the second run comes to is related to something that the first comes to. -/
theorem exists_reaches {a b b' : Point} (h : Simulates A B R rank P Q) (hr : R a b)
    (hP : A.Always P a) (hb : B.Reaches b b') : ∃ a', A.Reaches a a' ∧ R a' b' := by
  induction hb with
  | refl => exact ⟨a, .refl, hr⟩
  | @tail b₁ b₂ _ hb ih =>
    obtain ⟨a₁, ha₁, hr₁⟩ := ih
    induction hn : rank a₁ b₁ using Nat.strongRecOn generalizing a₁ with
    | ind n ih =>
      subst hn
      cases h a₁ b₁ hr₁ (hP a₁ ha₁) with
      | left ha hr hlt => exact ih _ hlt _ (ha₁.tail ha) hr rfl
      | right _ hb' hr => rw [hb] at hb'; cases hb'; exact ⟨a₁, ha₁, hr⟩
      | both _ ha hb' hr => rw [hb] at hb'; cases hb'; exact ⟨_, ha₁.tail ha, hr⟩
      | done _ _ hb' => rw [hb] at hb'; cases hb'

/-- The property `Q` holds all along the second run. -/
theorem always {a b : Point} (h : Simulates A B R rank P Q) (hr : R a b)
    (hP : A.Always P a) : B.Always Q b := by
  intro b' hb
  obtain ⟨a', ha, hr'⟩ := h.exists_reaches hr hP hb
  induction hn : rank a' b' using Nat.strongRecOn generalizing a' with
  | ind n ih =>
    subst hn
    cases h a' b' hr' (hP a' ha) with
    | left ha' hr hlt => exact ih _ hlt _ (ha.tail ha') hr rfl
    | right hQ => exact hQ
    | both hQ => exact hQ
    | done hQ => exact hQ

end Simulates

end NumericScript
