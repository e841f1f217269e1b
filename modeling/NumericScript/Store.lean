/-! # Stores

Finite maps from keys to contents, kept as lists of pairs in the order in which the keys first
came.

* `Store.get?_set_self`, `Store.get?_set_of_ne`: what is set is found, and nothing else
  changes.
* `Store.forall_get?_set`: what holds of all contents.
* `Store.get?_erase_self`, `Store.get?_erase_of_ne`: the same for taking a key away.
* `Store.get?_restrict`: keeping the keys of one kind. -/

namespace NumericScript

/-- Finite maps from keys to contents. -/
abbrev Store (κ α : Type) := List (κ × α)

namespace Store

variable {κ α : Type} [DecidableEq κ]

/-- What is stored under `k`. -/
def get? (s : Store κ α) (k : κ) : Option α :=
  match s with
  | [] => none
  | (k', a) :: s => if k' = k then some a else get? s k

/-- Stores `a` under `k`, in the place of what was there. -/
def set (s : Store κ α) (k : κ) (a : α) : Store κ α :=
  match s with
  | [] => [(k, a)]
  | (k', b) :: s => if k' = k then (k, a) :: s else (k', b) :: set s k a

/-- Takes away what is stored under `k`. -/
def erase (s : Store κ α) (k : κ) : Store κ α := s.filter fun p => p.1 ≠ k

/-- Keeps what is stored under keys with the property `p`. -/
def restrict (s : Store κ α) (p : κ → Bool) : Store κ α := s.filter fun q => p q.1

@[simp] theorem get?_nil (k : κ) : get? ([] : Store κ α) k = none := rfl

theorem get?_set (s : Store κ α) (k k' : κ) (a : α) :
    get? (set s k a) k' = if k = k' then some a else get? s k' := by
  induction s with
  | nil => simp [set, get?]
  | cons p s ih =>
    rcases p with ⟨k₀, b⟩
    by_cases h : k₀ = k
    · subst h
      by_cases h' : k₀ = k' <;> simp [set, get?, h']
    · by_cases h' : k₀ = k'
      · subst h'
        simp [set, get?, h, Ne.symm h]
      · simp [set, get?, h, h', ih]

@[simp] theorem get?_set_self (s : Store κ α) (k : κ) (a : α) :
    get? (set s k a) k = some a := by
  simp [get?_set]

theorem get?_set_of_ne (s : Store κ α) {k k' : κ} (a : α) (h : k ≠ k') :
    get? (set s k a) k' = get? s k' := by
  simp [get?_set, h]

/-- What holds of a new entry and of those before it holds of all. -/
theorem forall_get?_set {P : κ → α → Prop} {s : Store κ α} {k : κ} {a : α}
    (hs : ∀ k a, get? s k = some a → P k a) (ha : P k a) :
    ∀ k' a', get? (set s k a) k' = some a' → P k' a' := by
  intro k' a' h
  rw [get?_set] at h
  split at h
  · rename_i hk
    cases h
    exact hk ▸ ha
  · exact hs k' a' h

theorem forall_get?_foldl_set {β : Type} {P : κ → α → Prop} {key : β → κ} {content : β → α}
    {bs : List β} {s : Store κ α} (hs : ∀ k a, get? s k = some a → P k a)
    (hbs : ∀ b ∈ bs, P (key b) (content b)) :
    ∀ k a, get? (bs.foldl (fun s b => set s (key b) (content b)) s) k = some a → P k a := by
  induction bs generalizing s with
  | nil => exact hs
  | cons b bs ih =>
    obtain ⟨hb, hrest⟩ := List.forall_mem_cons.1 hbs
    exact ih (forall_get?_set hs hb) hrest

theorem get?_restrict (s : Store κ α) (p : κ → Bool) (k : κ) :
    get? (restrict s p) k = if p k then get? s k else none := by
  induction s with
  | nil => simp [restrict]
  | cons q s ih =>
    rcases q with ⟨k₀, b⟩
    have ih' : get? (List.filter (fun q => p q.1) s) k = if p k then get? s k else none := ih
    by_cases h : k₀ = k
    · subst h
      by_cases hp : p k₀ <;> simp [restrict, get?, hp, ih']
    · by_cases hp : p k₀ <;> simp [restrict, get?, hp, h, ih']

theorem get?_erase (s : Store κ α) (k k' : κ) :
    get? (erase s k) k' = if k = k' then none else get? s k' := by
  have h : erase s k = restrict s fun k₀ => decide (k₀ ≠ k) := rfl
  rw [h, get?_restrict]
  by_cases hk : k = k'
  · simp [hk]
  · simp [hk, Ne.symm hk]

@[simp] theorem get?_erase_self (s : Store κ α) (k : κ) : get? (erase s k) k = none := by
  simp [get?_erase]

theorem get?_erase_of_ne (s : Store κ α) {k k' : κ} (h : k ≠ k') :
    get? (erase s k) k' = get? s k' := by
  simp [get?_erase, h]

end Store

end NumericScript
