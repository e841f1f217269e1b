import NumericScript.Proofs.Step

/-! # What builtins give

* `Builtin.gives_of_call`: a builtin gives a value of the type that it promises. -/

namespace NumericScript.Builtin

open Machine (bind_eq_ok)

/-- A value is of the type that a builtin promises. -/
def Gives (f : Builtin) (v : Value) : Prop :=
  match f.returns with
  | .int => ∃ n, v = .int n
  | .float => ∃ x, v = .float x
  | .matrix _ => ∃ m, v = .matrix m
  | _ => v = .void

theorem gives_of_callOne {mode : AngleMode} {f : Builtin} {v w : Value}
    (h : callOne mode f v = .ok w) : f.Gives w := by
  cases f
  case sqrt =>
    obtain ⟨x, -, h⟩ := bind_eq_ok.1 h
    split at h
    · cases h
    · cases h
      exact ⟨_, rfl⟩
  case factorial =>
    obtain ⟨n, -, h⟩ := bind_eq_ok.1 h
    split at h
    · cases h
      exact ⟨_, rfl⟩
    · cases h
  case det | trace | max | min | mean | median | stdev | variance | inverse =>
    obtain ⟨a, -, h⟩ := bind_eq_ok.1 h
    obtain ⟨b, -, h⟩ := bind_eq_ok.1 h
    cases h
    exact ⟨_, rfl⟩
  case gcd | lcm | pi | e | degrees | radians => cases h
  all_goals
    obtain ⟨a, -, h⟩ := bind_eq_ok.1 h
    cases h
    exact ⟨_, rfl⟩

theorem gives_of_callTwo {f : Builtin} {v w r : Value} (h : callTwo f v w = .ok r) :
    f.Gives r := by
  unfold callTwo at h
  split at h
  · obtain ⟨a, -, h⟩ := bind_eq_ok.1 h
    obtain ⟨b, -, h⟩ := bind_eq_ok.1 h
    cases h
    exact ⟨_, rfl⟩
  · obtain ⟨a, -, h⟩ := bind_eq_ok.1 h
    obtain ⟨b, -, h⟩ := bind_eq_ok.1 h
    obtain ⟨c, -, h⟩ := bind_eq_ok.1 h
    cases h
    exact ⟨_, rfl⟩
  · obtain ⟨a, -, h⟩ := bind_eq_ok.1 h
    obtain ⟨b, -, h⟩ := bind_eq_ok.1 h
    split at h
    · cases h
    · cases h
      exact ⟨_, rfl⟩
  · cases h

theorem gives_of_callNone {f : Builtin} {mode mode' : AngleMode} {v : Value}
    (h : callNone mode f = .ok (v, mode')) : f.Gives v := by
  unfold callNone at h
  split at h
  · cases h
    exact ⟨_, rfl⟩
  · cases h
    exact ⟨_, rfl⟩
  · cases h
    rfl
  · cases h
    rfl
  · cases h

/-- A builtin gives a value of the type that it promises. -/
theorem gives_of_call {f : Builtin} {args : List Value} {mode mode' : AngleMode} {v : Value}
    (h : f.call args mode = .ok (v, mode')) : f.Gives v := by
  unfold call at h
  split at h
  · split at h
    · exact gives_of_callNone h
    · obtain ⟨w, hw, h⟩ := bind_eq_ok.1 h
      cases h
      exact gives_of_callOne hw
    · obtain ⟨w, hw, h⟩ := bind_eq_ok.1 h
      cases h
      exact gives_of_callTwo hw
    · cases h
  · cases h

end NumericScript.Builtin
