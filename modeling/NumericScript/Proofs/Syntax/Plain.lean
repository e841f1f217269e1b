import NumericScript.Syntax
import NumericScript.Token.Scan

/-! # Names as they can be written

A name of a source text holds no `#`, which begins a comment.  Analysis makes slots with it that
are different from every name.

* `Token.isPlain_scan`: names of a source text hold no `#`. -/

namespace NumericScript

/-- A name as it can be written. -/
def Name.IsPlain (x : Name) : Prop := '#' ∉ x.text.toList

/-- A token that is a name holds no `#`. -/
def Token.IsPlain (t : Token) : Prop := ∀ x, t.kind = .name x → '#' ∉ x.toList

/-- `#` does not go on with a name. -/
theorem not_mem_word {c : Char} {cs : List Char} (hc : startsName c = true) :
    '#' ∉ c :: cs.takeWhile continuesName := by
  intro h
  rcases List.mem_cons.1 h with rfl | h
  · have hstart : startsName '#' = false := by decide +kernel
    rw [hstart] at hc
    cases hc
  · have hcontinue : continuesName '#' = false := by decide +kernel
    rw [List.all_eq_true.1 List.all_takeWhile _ h] at hcontinue
    cases hcontinue

theorem isPlain_next {c : Char} {cs : List Char} {k : TokenKind} {x : String}
    (h : (Lexeme.next c cs).kind = .ok k) (hk : k = .name x) : '#' ∉ x.toList := by
  subst hk
  unfold Lexeme.next at h
  split at h
  · cases h
  · split at h
    · cases h
    · split at h
      · have hcomparison : ∀ b, comparison c b ≠ .ok (.name x) := by
          intro b hb
          unfold comparison at hb
          split at hb <;> cases hb
        split at h
        · exact absurd h (hcomparison _)
        · exact absurd h (hcomparison _)
      · split at h
        · dsimp only at h
          split at h <;> cases h
        · split at h
          · rename_i hstart
            have hword : wordKind (String.ofList (c :: cs.takeWhile continuesName)) = .name x :=
              Except.ok.inj h
            unfold wordKind at hword
            split at hword <;> cases hword
            rw [String.toList_ofList]
            exact not_mem_word hstart
          · split at h
            · have hnumber : ∀ whole places, numberKind whole places ≠ .ok (.name x) := by
                intro whole places hn
                unfold numberKind at hn
                split at hn
                · split at hn <;> cases hn
                · cases hn
              exact absurd h (hnumber _ _)
            · cases h

theorem Scan.isPlain_cons {p : Position} {c : Char} {cs : List Char} {s : Scan}
    (hs : ∀ t ∈ s.tokens, t.IsPlain) : ∀ t ∈ (s.cons p (Lexeme.next c cs)).tokens, t.IsPlain := by
  unfold cons
  split
  · rename_i k hk
    exact List.forall_mem_cons.2 ⟨fun x hx => isPlain_next hk hx, hs⟩
  · exact hs

theorem Scan.isPlain_ofChars (p : Position) (cs : List Char) :
    ∀ t ∈ (Scan.ofChars p cs).tokens, t.IsPlain := by
  induction hn : cs.length using Nat.strongRecOn generalizing p cs with
  | ind n ih =>
    rw [Scan.ofChars]
    dsimp only
    split
    · exact List.forall_mem_singleton.2 fun x hx => by cases hx
    · rename_i c rest hgap
      have happend := congrArg List.length (splitGap_append cs)
      have hrest := Lexeme.rest_length_lt c rest
      rw [List.length_append, hgap] at happend
      exact isPlain_cons (ih _ (by omega) _ _ rfl)

/-- Names of a source text hold no `#`. -/
theorem Token.isPlain_scan (source : String) : ∀ t ∈ (Token.scan source).tokens, t.IsPlain :=
  Scan.isPlain_ofChars _ _

end NumericScript
