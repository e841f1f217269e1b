import NumericScript.Proofs.Syntax.Print

/-! # What readers do with given tokens

`Reads r ks rest P` says that `r`, before tokens of the kinds `ks`, succeeds with a value that has
the property `P` and stops before `rest`.  It speaks of kinds only: the places of tokens decide
nothing but the places of what is read.

* `Reads.bind`: readers one after the other. -/

namespace NumericScript

/-- The kinds of the tokens left. -/
def Cursor.kinds (c : Cursor) : List TokenKind := c.rest.map (·.kind)

/-- The kind of the next one of some tokens; past the last one, the end of the input. -/
def nextKind (ks : List TokenKind) : TokenKind := ks.headD .eof

@[simp] theorem nextKind_cons (k : TokenKind) (ks : List TokenKind) : nextKind (k :: ks) = k := rfl

theorem Cursor.kind_eq_nextKind (c : Cursor) : c.kind = nextKind c.kinds := by
  unfold Cursor.kind kinds
  cases c.rest <;> rfl

theorem Cursor.kindAfter_eq_nextKind (c : Cursor) : c.kindAfter = nextKind c.kinds.tail := by
  unfold Cursor.kindAfter kinds
  rcases c.rest with _ | ⟨t, _ | ⟨u, ts⟩⟩ <;> rfl

theorem Cursor.kinds_advance (c : Cursor) : c.advance.kinds = c.kinds.tail := by
  simp [kinds, advance]

namespace Reader

/-- Before tokens of the kinds `ks` a reader gives a value with a property and stops before
`rest`. -/
def Reads {α : Type} (r : Reader α) (ks rest : List TokenKind) (P : α → Prop) : Prop :=
  ∀ c : Cursor, c.kinds = ks →
    ∃ a c', r c = .ok a c' ∧ c'.kinds = rest ∧ c'.reports = c.reports ∧ P a

section

variable {α β : Type} {P P' : α → Prop} {Q : β → Prop} {ks ms rest : List TokenKind}
  {k : TokenKind}

theorem Reads.pure {a : α} (h : P a) : Reads (Pure.pure a) ks ks P :=
  fun c hc => ⟨a, c, rfl, hc, rfl, h⟩

theorem Reads.mono {r : Reader α} (h : r.Reads ks rest P) (hP : ∀ a, P a → P' a) :
    r.Reads ks rest P' := by
  intro c hc
  obtain ⟨a, c', hr, hk, hd, ha⟩ := h c hc
  exact ⟨a, c', hr, hk, hd, hP a ha⟩

theorem Reads.bind {r : Reader α} {f : α → Reader β} (hr : r.Reads ks ms P)
    (hf : ∀ a, P a → (f a).Reads ms rest Q) : (r >>= f).Reads ks rest Q := by
  intro c hc
  obtain ⟨a, c₁, hrun, hk, hd, ha⟩ := hr c hc
  obtain ⟨b, c₂, hrun₂, hk₂, hd₂, hb⟩ := hf a ha c₁ hk
  refine ⟨b, c₂, ?_, hk₂, hd₂.trans hd, hb⟩
  change EStateM.bind r f c = _
  rw [EStateM.bind, hrun]
  exact hrun₂

theorem Reads.map {r : Reader α} {f : α → β} (hr : r.Reads ks rest P) (hf : ∀ a, P a → Q (f a)) :
    (r >>= fun a => Pure.pure (f a)).Reads ks rest Q :=
  hr.bind fun a ha => .pure (hf a ha)

/-! Readers of single tokens. -/

theorem Reads.kind {f : TokenKind → Reader β} (h : (f (nextKind ks)).Reads ks rest Q) :
    (Reader.kind >>= f).Reads ks rest Q := by
  intro c hc
  subst hc
  rw [← Cursor.kind_eq_nextKind] at h
  exact h c rfl

theorem Reads.kindAfter {f : TokenKind → Reader β} (h : (f (nextKind ks.tail)).Reads ks rest Q) :
    (Reader.kindAfter >>= f).Reads ks rest Q := by
  intro c hc
  subst hc
  rw [← Cursor.kindAfter_eq_nextKind] at h
  exact h c rfl

theorem Reads.loc {f : Loc → Reader β} (h : ∀ p, (f p).Reads ks rest Q) :
    (Reader.loc >>= f).Reads ks rest Q := fun c hc => h c.loc c hc

theorem Reads.advance {f : Loc → Reader β} (h : ∀ p, (f p).Reads ks rest Q) :
    (Reader.advance >>= f).Reads (k :: ks) rest Q := by
  intro c hc
  obtain ⟨b, c', hrun, hk, hd, hb⟩ := h c.loc c.advance (by rw [c.kinds_advance, hc]; rfl)
  exact ⟨b, c', hrun, hk, hd, hb⟩

theorem Reads.eat {f : Bool → Reader β} (h : (f true).Reads ks rest Q) :
    (Reader.eat k >>= f).Reads (k :: ks) rest Q := by
  intro c hc
  obtain ⟨b, c', hrun, hk, hd, hb⟩ := h c.advance (by rw [c.kinds_advance, hc]; rfl)
  refine ⟨b, c', ?_, hk, hd, hb⟩
  have hkind : c.kind = k := by rw [c.kind_eq_nextKind, hc, nextKind_cons]
  change EStateM.bind (Reader.eat k) f c = _
  rw [EStateM.bind, Reader.eat, if_pos hkind]
  exact hrun

theorem Reads.not_eat {f : Bool → Reader β} (hk : nextKind ks ≠ k) (h : (f false).Reads ks rest Q) :
    (Reader.eat k >>= f).Reads ks rest Q := by
  intro c hc
  obtain ⟨b, c', hrun, hk', hd, hb⟩ := h c hc
  refine ⟨b, c', ?_, hk', hd, hb⟩
  have hkind : c.kind ≠ k := by rwa [c.kind_eq_nextKind, hc]
  change EStateM.bind (Reader.eat k) f c = _
  rw [EStateM.bind, Reader.eat, if_neg hkind]
  exact hrun

theorem reads_punct {p : Punct} : (Reader.punct p).Reads (.punct p :: ks) ks fun _ => True := by
  intro c hc
  have hkind : c.kind = .punct p := by rw [c.kind_eq_nextKind, hc, nextKind_cons]
  exact ⟨(), c.advance, by rw [Reader.punct, if_pos hkind], by rw [c.kinds_advance, hc]; rfl, rfl,
    trivial⟩

theorem reads_keyword {w : Keyword} :
    (Reader.keyword w).Reads (.keyword w :: ks) ks fun _ => True := by
  intro c hc
  have hkind : c.kind = .keyword w := by rw [c.kind_eq_nextKind, hc, nextKind_cons]
  exact ⟨(), c.advance, by rw [Reader.keyword, if_pos hkind], by rw [c.kinds_advance, hc]; rfl,
    rfl, trivial⟩

theorem reads_name {x : String} : Reader.name.Reads (.name x :: ks) ks fun p => p.1 = x := by
  intro c hc
  have hkind : c.kind = .name x := by rw [c.kind_eq_nextKind, hc, nextKind_cons]
  exact ⟨(x, c.loc), c.advance, by rw [Reader.name, hkind], by rw [c.kinds_advance, hc]; rfl, rfl,
    rfl⟩

theorem reads_skipNewlines (h : nextKind ks ≠ .newline) :
    Reader.skipNewlines.Reads ks ks fun _ => True := by
  intro c hc
  refine ⟨(), c, ?_, hc, rfl, trivial⟩
  rw [← hc, ← c.kind_eq_nextKind] at h
  have hdrop : c.rest.dropWhile (·.kind = .newline) = c.rest := by
    unfold Cursor.kind at h
    cases hrest : c.rest with
    | nil => rfl
    | cons t ts =>
      rw [hrest] at h
      exact List.dropWhile_cons_of_neg (by simpa using h)
  rw [Reader.skipNewlines, hdrop]

end

end Reader

end NumericScript
