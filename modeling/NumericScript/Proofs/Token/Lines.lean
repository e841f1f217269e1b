import NumericScript.Proofs.Location.Scan
import NumericScript.Proofs.Token.Stretches

/-! # Scanning line by line

No lexeme goes past the end of its line and none looks further: a line feed ends a literal, a
comment, a word and a number, and it is no part of a mark.  So behind a line feed scanning goes on
as at the beginning of a text.

* `Lexeme.next_append_newline`: a lexeme does not depend on what stands behind its line.
* `Scan.ofChars_append_newline`: a text is scanned up to the end of a line, and then from there.
* `Scan.ofChars_shift`: a text is scanned in the same way wherever it stands. -/

namespace NumericScript

/-! ### Lexemes before the end of a line -/

section

variable {p : Char → Bool} (cs more : List Char)

theorem takeWhile_append_newline (h : p '\n' = false) :
    (cs ++ '\n' :: more).takeWhile p = cs.takeWhile p := by
  induction cs with
  | nil => simp [h]
  | cons c cs ih => simp only [List.cons_append, List.takeWhile_cons, ih]

theorem dropWhile_append_newline (h : p '\n' = false) :
    (cs ++ '\n' :: more).dropWhile p = cs.dropWhile p ++ '\n' :: more := by
  induction cs with
  | nil => simp [h]
  | cons c cs ih =>
    simp only [List.cons_append, List.dropWhile_cons, ih]
    split <;> rfl

end

theorem splitGap_append_newline (cs more : List Char) :
    splitGap (cs ++ '\n' :: more) = ((splitGap cs).1, (splitGap cs).2 ++ '\n' :: more) := by
  have hgap : isGap '\n' = false := by decide
  unfold splitGap
  rw [dropWhile_append_newline cs more hgap, takeWhile_append_newline cs more hgap]
  cases cs.dropWhile isGap with
  | nil => simp
  | cons c rest =>
    by_cases hc : c = '#'
    · subst hc
      have htake := takeWhile_append_newline (p := (· ≠ '\n')) rest more (by decide)
      have hdrop := dropWhile_append_newline (p := (· ≠ '\n')) rest more (by decide)
      simp only [List.cons_append, htake, hdrop]
    · simp [hc]

theorem splitPlaces_append_newline (cs more : List Char) :
    splitPlaces (cs ++ '\n' :: more) =
      ((splitPlaces cs).1, (splitPlaces cs).2 ++ '\n' :: more) := by
  have hdigit : Char.isDigit '\n' = false := by decide
  rcases cs with _ | ⟨c, _ | ⟨d, cs⟩⟩
  · simp [splitPlaces]
  · by_cases hc : c = '.' <;> simp [splitPlaces, hc, hdigit]
  · by_cases hc : c = '.'
    · subst hc
      simp only [List.cons_append, splitPlaces, takeWhile_append_newline cs more hdigit,
        dropWhile_append_newline cs more hdigit]
      split <;> rfl
    · simp [splitPlaces, hc]

/-- A text literal with more text behind it. -/
def Literal.before (l : Literal) (more : List Char) : Literal := { l with rest := l.rest ++ more }

theorem Literal.read_append_newline (cs more : List Char) :
    Literal.read (cs ++ '\n' :: more) = (Literal.read cs).before ('\n' :: more) := by
  fun_induction Literal.read cs with
  | case1 | case2 | case3 | case4 | case5 => rfl
  | case6 c rest hc l ih =>
    rw [List.cons_append, List.cons_append, read_backslash (fun h => hc h), ih]
    rfl
  | case7 c rest hquote hline hnil _ hcons l ih =>
    have hslash : c ≠ '\\' := by
      rintro rfl
      cases rest with
      | nil => exact hnil rfl rfl
      | cons d rest => exact hcons d rest rfl rfl
    rw [List.cons_append, read_cons hquote hline hslash, ih]
    rfl

/-- A lexeme with more text behind it. -/
def Lexeme.before (l : Lexeme) (more : List Char) : Lexeme := { l with rest := l.rest ++ more }

theorem Lexeme.next_append_newline (c : Char) (cs more : List Char) :
    Lexeme.next c (cs ++ '\n' :: more) = (Lexeme.next c cs).before ('\n' :: more) := by
  have hname : continuesName '\n' = false := by decide +kernel
  have hdigit : Char.isDigit '\n' = false := by decide
  unfold Lexeme.next
  split
  · rfl
  · split
    · rfl
    · split
      · cases cs with
        | nil => rfl
        | cons d cs =>
          by_cases hd : d = '='
          · subst hd
            rfl
          · simp [hd, before]
      · split
        · rw [Literal.read_append_newline]
          rfl
        · split
          · rw [takeWhile_append_newline cs more hname, dropWhile_append_newline cs more hname]
            rfl
          · split
            · rw [takeWhile_append_newline cs more hdigit, dropWhile_append_newline cs more hdigit,
                splitPlaces_append_newline]
              rfl
            · rfl

/-! ### Scans one after the other -/

namespace Scan

/-- A scan up to the end of a line and one from there on, without the end of the text between
them. -/
def append (s t : Scan) : Scan := ⟨s.tokens.dropLast ++ t.tokens, s.errors ++ t.errors⟩

theorem cons_append {s t : Scan} (hs : s.tokens ≠ []) (p : Position) (l : Lexeme) :
    (s.append t).cons p l = (s.cons p l).append t := by
  obtain ⟨_ | ⟨u, us⟩, es⟩ := s
  · exact absurd rfl hs
  · unfold cons append
    split <;> rfl

theorem ofChars_nil (p : Position) : ofChars p [] = ⟨[⟨.eof, .between p p⟩], []⟩ :=
  ofChars_of_nil rfl p

section

variable {cs : List Char} (p : Position) (more : List Char)

/-- Behind blanks and a comment a line feed is the next lexeme. -/
theorem ofChars_append_of_nil (h : (splitGap cs).2 = []) :
    ofChars p (cs ++ '\n' :: more) =
      (ofChars ((p.advanceAll cs).advance '\n') more).cons (p.advanceAll cs)
        (Lexeme.next '\n' more) := by
  have hsplit := splitGap_append cs
  have hgap := splitGap_append_newline cs more
  rw [h, List.append_nil] at hsplit
  rw [h, List.nil_append, hsplit] at hgap
  have hcons : (splitGap (cs ++ '\n' :: more)).2 = '\n' :: more := congrArg Prod.snd hgap
  rw [ofChars_of_cons hcons, hgap]
  rfl

/-- Before the end of a line a lexeme is cut off as at the end of the text. -/
theorem ofChars_append_of_cons {c : Char} {rest : List Char} (h : (splitGap cs).2 = c :: rest) :
    ofChars p (cs ++ '\n' :: more) =
      (ofChars ((p.advanceAll (splitGap cs).1).advanceAll (Lexeme.next c rest).text)
        ((Lexeme.next c rest).rest ++ '\n' :: more)).cons (p.advanceAll (splitGap cs).1)
          (Lexeme.next c rest) := by
  have hgap := splitGap_append_newline cs more
  rw [h] at hgap
  have hcons : (splitGap (cs ++ '\n' :: more)).2 = c :: (rest ++ '\n' :: more) :=
    congrArg Prod.snd hgap
  rw [ofChars_of_cons hcons, hgap, Lexeme.next_append_newline]
  rfl

end

/-- A text is scanned up to the end of a line, and then from there on. -/
theorem ofChars_append_newline (p : Position) (cs more : List Char) :
    ofChars p (cs ++ '\n' :: more) = (ofChars p (cs ++ ['\n'])).append
      (ofChars (p.advanceAll (cs ++ ['\n'])) more) := by
  induction hn : cs.length using Nat.strongRecOn generalizing p cs with
  | ind n ih =>
    cases hrest : (splitGap cs).2 with
    | nil =>
      rw [ofChars_append_of_nil p more hrest, ofChars_append_of_nil p [] hrest,
        Position.advanceAll_append, ofChars_nil]
      rfl
    | cons c rest =>
      have hsplit := splitGap_append cs
      rw [hrest, ← Lexeme.text_append_rest c rest] at hsplit
      have hne := List.length_pos_iff.2 (Lexeme.text_ne_nil c rest)
      have hlength := congrArg List.length hsplit
      simp only [List.length_append] at hlength
      have hline : cs ++ ['\n'] = (splitGap cs).1 ++
          ((Lexeme.next c rest).text ++ ((Lexeme.next c rest).rest ++ ['\n'])) := by
        simpa only [List.append_assoc] using congrArg (· ++ ['\n']) hsplit.symm
      have hplace : ((p.advanceAll (splitGap cs).1).advanceAll (Lexeme.next c rest).text).advanceAll
          ((Lexeme.next c rest).rest ++ ['\n']) = p.advanceAll (cs ++ ['\n']) := by
        simp only [hline, Position.advanceAll_append]
      rw [ofChars_append_of_cons p more hrest, ofChars_append_of_cons p [] hrest,
        ih _ (by omega) _ _ rfl, cons_append (tokens_ofChars_ne_nil _ _), hplace]

end Scan

/-! ### Scans in other places -/

/-- A place so many bytes and lines further. -/
def Position.shift (p : Position) (bytes lines : Nat) : Position :=
  ⟨p.offset + bytes, p.line + lines, p.column⟩

/-- A span so many bytes and lines further. -/
def Span.shift (s : Span) (bytes lines : Nat) : Span :=
  ⟨s.start + bytes, s.stop + bytes, s.line + lines, s.column⟩

/-- A token so many bytes and lines further. -/
def Token.shift (t : Token) (bytes lines : Nat) : Token := ⟨t.kind, t.span.shift bytes lines⟩

/-- A report so many lines further. -/
def LexicalReport.shift (r : LexicalReport) (lines : Nat) : LexicalReport :=
  ⟨r.cause, r.line + lines, r.column⟩

section

variable (bytes lines : Nat)

theorem Position.advance_shift (p : Position) (c : Char) :
    (p.shift bytes lines).advance c = (p.advance c).shift bytes lines := by
  unfold advance shift
  split <;> simp [Nat.add_right_comm]

theorem Position.advanceAll_shift (p : Position) (cs : List Char) :
    (p.shift bytes lines).advanceAll cs = (p.advanceAll cs).shift bytes lines := by
  induction cs generalizing p with
  | nil => rfl
  | cons c cs ih => rw [advanceAll_cons, advanceAll_cons, advance_shift, ih]

namespace Scan

/-- A scan so many bytes and lines further. -/
def shift (s : Scan) : Scan :=
  ⟨s.tokens.map (·.shift bytes lines), s.errors.map (·.shift lines)⟩

theorem cons_shift (s : Scan) (p : Position) (l : Lexeme) :
    (s.shift bytes lines).cons (p.shift bytes lines) l = (s.cons p l).shift bytes lines := by
  unfold cons shift
  rw [Position.advanceAll_shift]
  split <;> rfl

/-- A text is scanned in the same way wherever it stands. -/
theorem ofChars_shift (p : Position) (cs : List Char) :
    ofChars (p.shift bytes lines) cs = (ofChars p cs).shift bytes lines := by
  induction hn : cs.length using Nat.strongRecOn generalizing p cs with
  | ind n ih =>
    cases hrest : (splitGap cs).2 with
    | nil =>
      rw [ofChars_of_nil hrest, ofChars_of_nil hrest, Position.advanceAll_shift]
      rfl
    | cons c rest =>
      have hlength := congrArg List.length (splitGap_append cs)
      rw [hrest, List.length_append] at hlength
      have hlt := Lexeme.rest_length_lt c rest
      rw [ofChars_of_cons hrest, ofChars_of_cons hrest, Position.advanceAll_shift,
        Position.advanceAll_shift, ih _ (by omega) _ _ rfl, cons_shift]

end Scan

end

/-! ### Lines -/

/-- How many lines `a` takes together with a line feed behind it. -/
def lineCount (a : String) : Nat := 1 + a.toList.count '\n'

namespace Position

theorem advanceAll_toList (source : String) :
    start.advanceAll source.toList = ofIndex source source.toList.length := by
  have hdrop : source.toList.drop 0 = source.toList ++ [] := (List.append_nil _).symm
  have h := ofIndex_add hdrop
  rwa [ofIndex_zero, Nat.zero_add, eq_comm] at h

/-- Behind the end of a line places are counted as from the beginning of a text. -/
theorem advanceAll_line (a : String) : start.advanceAll (a ++ "\n").toList =
    start.shift (a ++ "\n").utf8ByteSize (lineCount a) := by
  rw [advanceAll_toList, ofIndex, List.take_length]
  simp [start, shift, lineCount, Nat.add_comm]

/-- The characters of the line that a line feed ends stand no further down than it does. -/
theorem line_ofIndex_le {a : String} {i : Nat} (hi : i < (a ++ "\n").toList.length) :
    (ofIndex (a ++ "\n") i).line ≤ lineCount a := by
  have hlength : (a ++ "\n").toList.length = a.toList.length + 1 := by simp
  have htake : (a ++ "\n").toList.take i = a.toList.take i := by
    rw [String.toList_append, List.take_append_of_le_length (by omega)]
  rw [ofIndex, htake]
  exact Nat.add_le_add_left ((List.take_sublist i _).count_le _) 1

end Position

/-- Tokens and reports count lines from one. -/
theorem Scan.Cuts.one_le_line {source : String} {i : Nat} {s : Scan} (h : Cuts source i s) :
    (∀ t ∈ s.tokens, 1 ≤ t.span.line) ∧ ∀ r ∈ s.errors, 1 ≤ r.line := by
  refine ⟨fun t ht => ?_, fun r hr => ?_⟩
  · obtain ⟨x, hx⟩ := h.exists_span_eq t ht
    rw [hx]
    exact Nat.le_add_right 1 _
  · obtain ⟨x, hx⟩ := h.exists_reports r hr
    rw [hx.line]
    exact Nat.le_add_right 1 _

/-- A line feed ends all that stands before it.  A text up to a line feed has the tokens and the
reports that it has alone, on its own lines, and what follows has those that it has alone, on the
lines behind. -/
theorem Token.scan_append_line (a b : String) :
    ∃ front last, (Token.scan (a ++ "\n")).tokens = front ++ [last] ∧ last.kind = .eof ∧
      (Token.scan (a ++ "\n" ++ b)).tokens = front ++
        (Token.scan b).tokens.map (·.shift (a ++ "\n").utf8ByteSize (lineCount a)) ∧
      (Token.scan (a ++ "\n" ++ b)).errors = (Token.scan (a ++ "\n")).errors ++
        (Token.scan b).errors.map (·.shift (lineCount a)) ∧
      ((∀ t ∈ front, t.span.line ≤ lineCount a) ∧
        ∀ r ∈ (Token.scan (a ++ "\n")).errors, r.line ≤ lineCount a) ∧
      (∀ t ∈ (Token.scan b).tokens,
        lineCount a < (t.shift (a ++ "\n").utf8ByteSize (lineCount a)).span.line) ∧
      ∀ r ∈ (Token.scan b).errors, lineCount a < (r.shift (lineCount a)).line := by
  have hcuts := Token.cuts_scan (a ++ "\n")
  obtain ⟨front, hfront, hall⟩ := hcuts.exists_tokens_eq_append
  have hscan : Token.scan (a ++ "\n" ++ b) =
      (Token.scan (a ++ "\n")).append
        ((Token.scan b).shift (a ++ "\n").utf8ByteSize (lineCount a)) := by
    have htext : (a ++ "\n" ++ b).toList = a.toList ++ '\n' :: b.toList := by simp
    have hline : (a ++ "\n").toList = a.toList ++ ['\n'] := by simp
    have hplace := Position.advanceAll_line a
    rw [hline] at hplace
    rw [Token.scan, htext, Scan.ofChars_append_newline, hplace, Scan.ofChars_shift, Token.scan,
      hline, Token.scan]
  obtain ⟨htokens, herrors⟩ := (Token.cuts_scan b).one_le_line
  refine ⟨front, _, hfront, rfl, ?_, by rw [hscan]; rfl, ⟨fun t ht => ?_, fun r hr => ?_⟩,
    fun t ht => Nat.lt_add_of_pos_left (htokens t ht),
    fun r hr => Nat.lt_add_of_pos_left (herrors r hr)⟩
  · rw [hscan, Scan.append, hfront, List.dropLast_concat]
    rfl
  · obtain ⟨x, hx⟩ := hcuts.exists_span_eq t (hfront ▸ List.mem_append_left _ ht)
    have hlt := (hall t ht).2
    rw [hx] at hlt ⊢
    exact Position.line_ofIndex_le (Nat.lt_of_lt_of_le (Stretch.start_lt_of_span hlt) x.stop_le)
  · obtain ⟨x, hx⟩ := hcuts.exists_reports r hr
    rw [hx.line]
    exact Position.line_ofIndex_le (Nat.lt_of_lt_of_le hx.start_lt x.stop_le)

end NumericScript
