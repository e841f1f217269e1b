import Mathlib.Order.Bounds.Basic
import Mathlib.Order.MinMax
import NumericScript.Spelling

/-! # Edits

An edit inserts, deletes or replaces one character, anywhere in a text.  The least number of edits
that lead from one text to another obeys a recursion over the first characters of both.

* `Edit`, `Edits`: one edit, and a number of them.
* `distance`: the recursion.
* `isLeast_distance`: no fewer edits lead from one text to another, and as many do. -/

namespace NumericScript.Spelling

/-- One character is inserted, deleted or replaced. -/
inductive Edit : List Char → List Char → Prop
  | insert (l r : List Char) (y : Char) : Edit (l ++ r) (l ++ y :: r)
  | delete (l r : List Char) (x : Char) : Edit (l ++ x :: r) (l ++ r)
  | replace (l r : List Char) (x y : Char) : Edit (l ++ x :: r) (l ++ y :: r)

/-- So many edits lead from one text to another. -/
inductive Edits : Nat → List Char → List Char → Prop
  | refl (a : List Char) : Edits 0 a a
  | tail {n : Nat} {a b c : List Char} : Edits n a b → Edit b c → Edits (n + 1) a c

/-- The number of edits that lead from one text to another.  The first characters are kept or
replaced, or one of them is deleted or inserted. -/
def distance : List Char → List Char → Nat
  | [], b => b.length
  | _ :: a, [] => a.length + 1
  | x :: a, y :: b =>
    min (min (distance a b + if x = y then 0 else 1) (distance a (y :: b) + 1))
      (distance (x :: a) b + 1)
termination_by a b => a.length + b.length

variable {n : Nat} {a b c s t : List Char} {x y : Char}

/-! ### As many edits as the recursion says -/

theorem Edit.cons (h : Edit a b) (x : Char) : Edit (x :: a) (x :: b) := by
  cases h with
  | insert l r y => exact .insert (x :: l) r y
  | delete l r y => exact .delete (x :: l) r y
  | replace l r y z => exact .replace (x :: l) r y z

theorem Edits.cons (h : Edits n a b) (x : Char) : Edits n (x :: a) (x :: b) := by
  induction h with
  | refl a => exact .refl (x :: a)
  | tail _ hstep ih => exact ih.tail (hstep.cons x)

theorem Edits.head (h : Edit a b) (hs : Edits n b c) : Edits (n + 1) a c := by
  induction hs with
  | refl b => exact (Edits.refl a).tail h
  | tail _ hstep ih => exact (ih h).tail hstep

theorem edits_of_nil (b : List Char) : Edits b.length [] b := by
  induction b with
  | nil => exact .refl []
  | cons y b ih => exact ih.tail (.insert [] b y)

theorem edits_nil (a : List Char) : Edits a.length a [] := by
  induction a with
  | nil => exact .refl []
  | cons x a ih => exact ih.head (.delete [] a x)

/-- The first characters kept or replaced. -/
theorem Edits.cons_cons (h : Edits n a b) (x y : Char) :
    Edits (n + if x = y then 0 else 1) (x :: a) (y :: b) := by
  split
  · subst y
    exact h.cons x
  · exact (h.cons x).tail (.replace [] b x y)

theorem edits_distance (a b : List Char) : Edits (distance a b) a b := by
  induction a, b using distance.induct with
  | case1 b =>
    rw [distance]
    exact edits_of_nil b
  | case2 x a =>
    rw [distance]
    exact edits_nil (x :: a)
  | case3 x a y b hkeep hdelete hinsert =>
    rw [distance]
    -- The least of the three is one of them, and each has edits of its own.
    obtain h | h := min_choice (min (distance a b + if x = y then 0 else 1)
      (distance a (y :: b) + 1)) (distance (x :: a) b + 1)
    · rw [h]
      obtain h | h := min_choice (distance a b + if x = y then 0 else 1) (distance a (y :: b) + 1)
      · rw [h]
        exact hkeep.cons_cons x y
      · rw [h]
        exact hdelete.head (.delete [] a x)
    · rw [h]
      exact hinsert.tail (.insert [] b y)

/-! ### No fewer edits -/

theorem distance_nil (a : List Char) : distance a [] = a.length := by
  cases a with
  | nil => rw [distance]
  | cons x a => rw [distance, List.length_cons]

theorem distance_self (a : List Char) : distance a a = 0 := by
  induction a with
  | nil => rw [distance, List.length_nil]
  | cons x a ih => simp [distance, ih]

theorem distance_cons_left_le (x : Char) (a b : List Char) :
    distance (x :: a) b ≤ distance a b + 1 := by
  cases b with
  | nil => rw [distance_nil, distance_nil, List.length_cons]
  | cons y b =>
    rw [distance]
    omega

theorem distance_cons_le (a : List Char) (y : Char) (b : List Char) :
    distance a (y :: b) ≤ distance a b + 1 := by
  cases a with
  | nil => simp [distance]
  | cons x a =>
    rw [distance]
    omega

theorem distance_le_cons (a : List Char) (y : Char) (b : List Char) :
    distance a b ≤ distance a (y :: b) + 1 := by
  induction a with
  | nil => simp [distance]; omega
  | cons x a ih =>
    have hleft := distance_cons_left_le x a b
    rw [distance]
    omega

theorem distance_cons_le_cons (a : List Char) (y z : Char) (b : List Char) :
    distance a (z :: b) ≤ distance a (y :: b) + 1 := by
  induction a with
  | nil => simp [distance]
  | cons x a ih =>
    rw [distance, distance]
    split <;> split <;> omega

/-- What is no farther from any text than one edit allows stays so behind one character more. -/
theorem distance_cons_mono (h : ∀ a, distance a t ≤ distance a s + 1) (y : Char)
    (a : List Char) : distance a (y :: t) ≤ distance a (y :: s) + 1 := by
  induction a with
  | nil => simpa [distance] using h []
  | cons x a ih =>
    -- The three distances that are compared grow by one at most: the second by the induction
    -- hypothesis, the others because `h` is about all texts.
    have hkeep := h a
    have hinsert := h (x :: a)
    rw [distance, distance]
    omega

theorem distance_append_mono (h : ∀ a, distance a t ≤ distance a s + 1) (l : List Char) :
    ∀ a, distance a (l ++ t) ≤ distance a (l ++ s) + 1 := by
  induction l with
  | nil => exact h
  | cons y l ih => exact distance_cons_mono ih y

/-- An edit changes the distance from any text by one at most. -/
theorem Edit.distance_le (h : Edit b c) (a : List Char) : distance a c ≤ distance a b + 1 := by
  cases h with
  | insert l r y => exact distance_append_mono (fun a => distance_cons_le a y r) l a
  | delete l r x => exact distance_append_mono (fun a => distance_le_cons a x r) l a
  | replace l r x y => exact distance_append_mono (fun a => distance_cons_le_cons a x y r) l a

theorem Edits.distance_le (h : Edits n a b) : distance a b ≤ n := by
  induction h with
  | refl a => exact (distance_self a).le
  | tail _ hstep ih => exact (hstep.distance_le _).trans (Nat.succ_le_succ ih)

theorem isLeast_distance (a b : List Char) : IsLeast {n | Edits n a b} (distance a b) :=
  ⟨edits_distance a b, fun _ h => h.distance_le⟩

/-! ### Texts backwards -/

theorem Edit.reverse (h : Edit a b) : Edit a.reverse b.reverse := by
  cases h with
  | insert l r y => simpa using Edit.insert r.reverse l.reverse y
  | delete l r x => simpa using Edit.delete r.reverse l.reverse x
  | replace l r x y => simpa using Edit.replace r.reverse l.reverse x y

theorem Edits.reverse (h : Edits n a b) : Edits n a.reverse b.reverse := by
  induction h with
  | refl a => exact .refl a.reverse
  | tail _ hstep ih => exact ih.tail hstep.reverse

/-- Reading both texts backwards changes nothing. -/
theorem distance_reverse (a b : List Char) : distance a.reverse b.reverse = distance a b := by
  refine Nat.le_antisymm (edits_distance a b).reverse.distance_le ?_
  have h := (edits_distance a.reverse b.reverse).reverse
  rw [List.reverse_reverse, List.reverse_reverse] at h
  exact h.distance_le

end NumericScript.Spelling
