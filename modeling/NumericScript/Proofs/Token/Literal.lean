import Mathlib.Data.List.TakeWhile
import NumericScript.Proofs.Syntax.Printed
import NumericScript.Proofs.Token.Lines

/-! # Text literals

Every text has a literal: between quotes, with a backslash before each quote and each backslash,
and line feeds and tabs written by letters.  Scanning passes a backslash together with the
character behind it and reading replaces the two, so they agree on where an escape begins.

* `Literal.read_escape`: an escaped text ends at the quote behind it.
* `Reader.expr_of_primary`: an expression that nothing goes on with. -/

namespace NumericScript

/-! ### Scanning a literal -/

theorem Literal.read_escapeChar_append (c : Char) (rest : List Char) :
    Literal.read (Text.escapeChar c ++ rest) =
      ⟨Text.escapeChar c ++ (Literal.read rest).raw, (Literal.read rest).closed,
        (Literal.read rest).rest⟩ := by
  unfold Text.escapeChar
  split
  · exact read_backslash (by decide) rest
  · split
    · exact read_backslash (by decide) rest
    · split
      · exact read_backslash (by decide) rest
      · split
        · exact read_backslash (by decide) rest
        · exact read_cons ‹_› ‹_› ‹_› rest

theorem Literal.read_escape (cs more : List Char) :
    Literal.read (Text.escape cs ++ '"' :: more) = ⟨Text.escape cs, true, more⟩ := by
  induction cs with
  | nil => rfl
  | cons c cs ih =>
    have hcons : Text.escape (c :: cs) = Text.escapeChar c ++ Text.escape cs := rfl
    rw [hcons, List.append_assoc, read_escapeChar_append, ih]

theorem not_mem_escape (cs : List Char) : '\n' ∉ Text.escape cs := by
  have h := (Literal.read_runsOut (Text.escape cs ++ ['"'])).1
  rwa [Literal.read_escape] at h

/-- The lexeme of an escaped text between quotes. -/
theorem Lexeme.next_escape (cs more : List Char) :
    Lexeme.next '"' (Text.escape cs ++ '"' :: more) =
      ⟨'"' :: (Text.escape cs ++ ['"']), .ok (.str (String.ofList (Text.escape cs))), more⟩ := by
  have hpunct : punct? '"' = none := rfl
  simp [Lexeme.next, hpunct, isComparison, Literal.read_escape, Literal.quote]

/-! ### Reading a literal -/

namespace Reader

section

variable {operand : Reader Expr} {c c' : Cursor} {e : Expr}

theorem chain_eq_ok {ops : TokenKind → Option BinaryOp} (h : ops c.kind = none) (n : Nat) :
    chain ops operand n e c = .ok e c := by
  cases n with
  | zero => rfl
  | succ n => simp [chain, bind, EStateM.bind, kind, h, pure, EStateM.pure]

theorem climb_eq_ok (n : Nat) (h : operand c = .ok e c') :
    ∀ {levels : List (TokenKind → Option BinaryOp)}, (∀ ops ∈ levels, ops c'.kind = none) →
      climb n operand levels c = .ok e c'
  | [], _ => h
  | ops :: tighter, hlevels => by
    have hleft := climb_eq_ok n h fun ops hops => hlevels ops (List.mem_cons_of_mem _ hops)
    simp [climb, bind, EStateM.bind, hleft, chain_eq_ok (hlevels ops List.mem_cons_self)]

theorem powers_eq_ok (h : c.kind ≠ .punct .caret) (n : Nat) :
    powers operand n e c = .ok e c := by
  cases n with
  | zero => rfl
  | succ n => simp [powers, bind, EStateM.bind, kind, h, pure, EStateM.pure]

theorem signed_eq (h : signOp? c.kind = none) (n : Nat) : signed operand n c = operand c := by
  cases n with
  | zero => rfl
  | succ n => simp [signed, bind, EStateM.bind, kind, h]

end

variable {n : Nat} {c c' : Cursor} {e : Expr}

/-- A primary expression is an expression where no sign stands before it and nothing goes on
with it. -/
theorem expr_of_primary (hc : signOp? c.kind = none) (h : primary n (expr n) c = .ok e c')
    (hstop : bindsAt? c'.kind = none) : expr (n + 1) c = .ok e c' := by
  have hpostfixed : postfixed n (expr n) c = .ok e c' := by
    have hbracket : c'.kind ≠ .punct .leftBracket :=
      (stops_of_eq_none hstop).ne rfl (Nat.zero_le _)
    simp [postfixed, bind, EStateM.bind, h, subscripts_eq_ok hbracket]
  have hpower : power n (signed (postfixed n (expr n)) n) c = .ok e c' := by
    have hcaret : c'.kind ≠ .punct .caret := (stops_of_eq_none hstop).ne rfl (Nat.zero_le _)
    simp [power, bind, EStateM.bind, signed_eq hc, hpostfixed, powers_eq_ok hcaret]
  refine climb_eq_ok n hpower fun ops hops => ?_
  obtain ⟨l, hl, rfl⟩ := List.getElem_of_mem hops
  have hop := (stops_of_eq_none hstop : Stops l c'.kind).opAt?_eq_none
  rwa [opAt?, List.getD_eq_getElem?_getD, List.getElem?_eq_getElem hl] at hop

/-- The value of a text literal is the text of which the characters between its quotes are the
escapes. -/
theorem primary_escape {expr : Reader Expr} {s : String}
    (h : c.kind = .str (String.ofList (Text.escape s.toList))) :
    primary n expr c = .ok (.str (markAt c.loc) s) c.advance := by
  simp [primary, bind, EStateM.bind, kind, h, advance, textLiteral, Text.unescape_escape]

end Reader

/-! ### Every text has a literal -/

/-- The literal of a text. -/
def Text.literal (s : String) : String := "\"" ++ String.ofList (Text.escape s.toList) ++ "\""

/-- The place behind the literal of a text at the beginning of a source text. -/
def Position.behindLiteral (s : String) : Position :=
  ⟨(Text.literal s).utf8ByteSize, 1, 1 + (Text.literal s).length⟩

/-- The literal of a text at the beginning of a source text, as a token. -/
def Token.literal (s : String) : Token :=
  ⟨.str (String.ofList (Text.escape s.toList)), .between .start (.behindLiteral s)⟩

theorem Text.toList_literal (s : String) :
    (Text.literal s).toList = '"' :: (Text.escape s.toList ++ ['"']) := by
  simp [Text.literal]

theorem Position.advanceAll_literal (s : String) :
    start.advanceAll (Text.literal s).toList = behindLiteral s := by
  have hline : '\n' ∉ (Text.literal s).toList := by simp [Text.toList_literal, not_mem_escape]
  have hcolumn : (Text.literal s).toList.reverse.takeWhile (· ≠ '\n') =
      (Text.literal s).toList.reverse := by
    refine List.takeWhile_eq_self_iff.2 fun c hc => ?_
    have hne : c ≠ '\n' := fun h => hline (h ▸ List.mem_reverse.1 hc)
    simpa using hne
  rw [advanceAll_toList, ofIndex, List.take_length, hcolumn, List.count_eq_zero.2 hline]
  simp [behindLiteral, String.length_toList]

theorem splitGap_literal_append (s more : String) : splitGap (Text.literal s ++ more).toList =
    ([], '"' :: (Text.escape s.toList ++ '"' :: more.toList)) := by
  have hquote : isGap '"' = false := by decide
  simp [Text.toList_literal, splitGap, hquote]

/-- Every text has a literal.  Whatever stands behind the literal, it is one token, without an
error, and read as an expression the token gives the text. -/
theorem Token.scan_literal (s more : String) :
    Token.scan (Text.literal s ++ more) =
        ⟨Token.literal s :: (Scan.ofChars (.behindLiteral s) more.toList).tokens,
          (Scan.ofChars (.behindLiteral s) more.toList).errors⟩ ∧
      ∀ n (c : Cursor),
        (∀ expr, Reader.primary n expr ⟨Token.literal s :: c.rest, c.last, c.reports⟩ =
          .ok (.str ⟨⟨1, 1⟩, none⟩ s) c) ∧
        (bindsAt? c.kind = none →
          Reader.expr (n + 1) ⟨Token.literal s :: c.rest, c.last, c.reports⟩ =
            .ok (.str ⟨⟨1, 1⟩, none⟩ s) c) := by
  refine ⟨?_, fun n c => ?_⟩
  · have hgap := splitGap_literal_append s more
    rw [Token.scan, Scan.ofChars_of_cons (congrArg Prod.snd hgap), hgap, Lexeme.next_escape,
      ← Text.toList_literal]
    change Scan.cons .start _ (Scan.ofChars (Position.start.advanceAll _) _) = _
    simp only [Scan.cons, Position.advanceAll_literal, Token.literal]
  · have hprimary : ∀ {n : Nat} {expr : Reader Expr},
        Reader.primary n expr ⟨Token.literal s :: c.rest, c.last, c.reports⟩ =
          .ok (.str ⟨⟨1, 1⟩, none⟩ s) c := Reader.primary_escape rfl
    exact ⟨fun _ => hprimary, fun hstop => Reader.expr_of_primary rfl hprimary hstop⟩

/-- A quote and a backslash in a text, and marks right behind its literal. -/
example : Token.scan "\"a\\\"\\\\\"+" =
    ⟨[⟨.str "a\\\"\\\\", ⟨0, 7, 1, 1⟩⟩, ⟨.punct .plus, ⟨7, 8, 1, 8⟩⟩, ⟨.eof, ⟨8, 8, 1, 9⟩⟩],
      []⟩ := by
  decide +kernel

end NumericScript
