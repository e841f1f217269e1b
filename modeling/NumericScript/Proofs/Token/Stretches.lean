import NumericScript.Token.Scan
import Mathlib.Data.List.Basic

/-! # Stretches of a source text

Scanning cuts a source text into stretches: tokens, lexemes that are reported, comments and
blanks.  They follow each other without gaps, so the places of tokens are exact.

* `Position.ofIndex`: the place of a character, counted from the beginning of the text.
* `Scan.Cuts`: stretches from a character to the end of the text, and what they make of it.
* `Scan.cuts_ofChars`: scanning cuts the text. -/

namespace NumericScript

/-! ### Places of characters -/

section

variable {i : Nat} {cs text rest : List Char}

theorem getElem?_of_drop_eq_cons {c : Char} (h : cs.drop i = c :: rest) : cs[i]? = some c := by
  rw [← List.head?_drop, h, List.head?_cons]

theorem drop_succ_of_drop_eq_cons {c : Char} (h : cs.drop i = c :: rest) :
    cs.drop (i + 1) = rest := by
  rw [← List.tail_drop, h, List.tail_cons]

theorem drop_add (h : cs.drop i = text ++ rest) : cs.drop (i + text.length) = rest := by
  rw [← List.drop_drop, h, List.drop_left]

theorem add_length_le (h : cs.drop i = text ++ rest)
    (hi : i ≤ cs.length) : i + text.length ≤ cs.length := by
  have hlength := congrArg List.length h
  rw [List.length_drop, List.length_append] at hlength
  omega

end

/-- The place of the character number `i` of a source text, or behind the last one the end of the
text: the bytes of the characters before it, one more than the line feeds among them, and one
more than the characters behind the last line feed. -/
def Position.ofIndex (source : String) (i : Nat) : Position where
  offset := (String.ofList (source.toList.take i)).utf8ByteSize
  line := 1 + (source.toList.take i).count '\n'
  column := 1 + ((source.toList.take i).reverse.takeWhile (· ≠ '\n')).length

namespace Position

variable {source : String} {i j : Nat}

theorem ofIndex_zero : ofIndex source 0 = start := by
  simp [ofIndex, start]

theorem ofIndex_succ {c : Char} (h : source.toList[i]? = some c) :
    ofIndex source (i + 1) = (ofIndex source i).advance c := by
  have htake : source.toList.take (i + 1) = source.toList.take i ++ [c] := by
    rw [List.take_add_one, h, Option.toList_some]
  unfold ofIndex advance
  rw [htake]
  split
  · rename_i hc
    simp [hc, Nat.add_assoc]
    rfl
  · rename_i hc
    simp [hc, Nat.add_assoc, Nat.add_comm 1]

theorem ofIndex_add {text rest : List Char} (h : source.toList.drop i = text ++ rest) :
    ofIndex source (i + text.length) = (ofIndex source i).advanceAll text := by
  induction text generalizing i with
  | nil => rfl
  | cons c text ih =>
    rw [advanceAll_cons, ← ofIndex_succ (getElem?_of_drop_eq_cons h),
      ← ih (drop_succ_of_drop_eq_cons h), List.length_cons, Nat.add_assoc, Nat.add_comm 1]

theorem offset_ofIndex_mono (h : i ≤ j) :
    (ofIndex source i).offset ≤ (ofIndex source j).offset := by
  obtain ⟨k, rfl⟩ := Nat.exists_eq_add_of_le h
  simp only [ofIndex, List.take_add, String.ofList_append, String.utf8ByteSize_append]
  exact Nat.le_add_right _ _

theorem offset_ofIndex_lt (h : i < j) (hj : j ≤ source.toList.length) :
    (ofIndex source i).offset < (ofIndex source j).offset := by
  refine Nat.lt_of_lt_of_le ?_ (offset_ofIndex_mono h)
  have hc : source.toList[i]? = some source.toList[i] :=
    List.getElem?_eq_getElem (Nat.lt_of_lt_of_le h hj)
  rw [ofIndex_succ hc, advance]
  split <;> exact Nat.lt_add_of_pos_right (Char.utf8Size_pos _)

theorem offset_ofIndex_length : (ofIndex source source.toList.length).offset =
    source.utf8ByteSize := by
  simp [ofIndex]

end Position

/-! ### Stretches -/

/-- Whether characters begin with `c` and reach to the end of the line, behind which `rest`
stands. -/
def RunsOut (c : Char) (cs rest : List Char) : Prop :=
  (∃ body, cs = c :: body ∧ '\n' ∉ body) ∧ ∀ d ∈ rest.head?, d = '\n'

/-- Whether the characters `cs`, behind which `rest` stands, are no token for the reason given. -/
def LexicalError.Describes (cs rest : List Char) : LexicalError → Prop
  | .unexpectedCharacter c => cs = [c]
  | .invalidNumber literal => cs = literal.toList ∧ cs ≠ [] ∧ ∀ c ∈ cs, c.isDigit = true
  | .unterminatedString => RunsOut '"' cs rest

theorem LexicalError.Describes.ne_nil {cs rest : List Char} {e : LexicalError}
    (h : e.Describes cs rest) : cs ≠ [] := by
  cases e with
  | unexpectedCharacter c => exact h ▸ List.cons_ne_nil _ _
  | invalidNumber literal => exact h.2.1
  | unterminatedString =>
    obtain ⟨⟨body, rfl, -⟩, -⟩ := h
    exact List.cons_ne_nil _ _

/-- A stretch of a source text, from the character number `start` up to the character number
`stop`. -/
structure Stretch (source : String) where
  start : Nat
  stop : Nat
  start_le : start ≤ stop
  stop_le : stop ≤ source.toList.length

namespace Stretch

variable {source : String}

/-- The characters of a stretch. -/
def text (x : Stretch source) : List Char := (source.toList.drop x.start).take (x.stop - x.start)

/-- The characters behind a stretch. -/
def rest (x : Stretch source) : List Char := source.toList.drop x.stop

/-- The place where a stretch begins. -/
def place (x : Stretch source) : Position := .ofIndex source x.start

/-- The span of a stretch. -/
def span (x : Stretch source) : Span := .between x.place (.ofIndex source x.stop)

/-- Whether the character number `i` lies in a stretch. -/
def Holds (x : Stretch source) (i : Nat) : Prop := x.start ≤ i ∧ i < x.stop

/-- Whether a stretch is a comment. -/
def IsComment (x : Stretch source) : Prop := RunsOut '#' x.text x.rest

/-- Whether no token of a list meets a stretch. -/
def IsApart (x : Stretch source) (ts : List Token) : Prop :=
  ∀ t ∈ ts, t.span.stop ≤ x.span.start ∨ x.span.stop ≤ t.span.start

/-- Whether a stretch is the lexeme that a report is about.  The report stands where the lexeme
begins. -/
structure Reports (x : Stretch source) (r : LexicalReport) : Prop where
  line : r.line = x.place.line
  column : r.column = x.place.column
  describes : r.cause.Describes x.text x.rest

theorem Reports.start_lt {x : Stretch source} {r : LexicalReport} (h : x.Reports r) :
    x.start < x.stop := by
  by_contra hle
  refine h.describes.ne_nil ?_
  rw [text, Nat.sub_eq_zero_of_le (Nat.not_lt.1 hle), List.take_zero]

theorem start_lt_of_span {x : Stretch source} (h : x.span.start < x.span.stop) :
    x.start < x.stop := by
  by_contra hle
  exact absurd (Position.offset_ofIndex_mono (Nat.not_lt.1 hle)) (Nat.not_le.2 h)

/-- The stretch of the characters `cs` behind the first `i` of a text. -/
def ofChars {i : Nat} {cs rest : List Char} (h : source.toList.drop i = cs ++ rest)
    (hi : i ≤ source.toList.length) : Stretch source where
  start := i
  stop := i + cs.length
  start_le := Nat.le_add_right i _
  stop_le := add_length_le h hi

section

variable {i : Nat} {cs rest : List Char} (h : source.toList.drop i = cs ++ rest)
  (hi : i ≤ source.toList.length)

theorem text_ofChars : (ofChars h hi).text = cs := by
  rw [text, ofChars, Nat.add_sub_cancel_left, h, List.take_left]

theorem rest_ofChars : (ofChars h hi).rest = rest := drop_add h

theorem span_ofChars : (ofChars h hi).span =
    .between (.ofIndex source i) ((Position.ofIndex source i).advanceAll cs) := by
  rw [span, place, ofChars, Position.ofIndex_add h]

end

end Stretch

/-! ### Lexemes -/

theorem head?_dropWhile_ne_newline (cs : List Char) :
    ∀ d ∈ (cs.dropWhile (· ≠ '\n')).head?, d = '\n' := by
  intro d hd
  have hnot := List.head?_dropWhile_not (· ≠ '\n') cs
  rw [Option.mem_def.1 hd] at hnot
  simpa using hnot

/-- The blanks and the comment in front of a text. -/
theorem exists_splitGap (cs : List Char) : ∃ blanks comment,
    (splitGap cs).1 = blanks ++ comment ∧ (∀ c ∈ blanks, isGap c = true) ∧
      (comment = [] ∨ RunsOut '#' comment (splitGap cs).2) := by
  have hblanks : ∀ c ∈ cs.takeWhile isGap, isGap c = true :=
    List.all_eq_true.1 List.all_takeWhile
  unfold splitGap
  split
  · rename_i rest hrest
    refine ⟨_, _, rfl, hblanks, .inr ⟨⟨_, rfl, fun h => ?_⟩, head?_dropWhile_ne_newline rest⟩⟩
    simpa using List.all_eq_true.1 List.all_takeWhile _ h
  · exact ⟨_, [], (List.append_nil _).symm, hblanks, .inl rfl⟩

/-- A text literal stays on its line, and without a closing quote it reaches to the end of it. -/
theorem Literal.read_runsOut (cs : List Char) :
    '\n' ∉ (Literal.read cs).raw ∧
      ((Literal.read cs).closed = false → ∀ d ∈ (Literal.read cs).rest.head?, d = '\n') := by
  fun_induction Literal.read cs with
  | case1 | case2 | case3 | case4 | case5 => simp
  | case6 c rest hc l ih => simp_all [l, Ne.symm]
  | case7 c rest _ hn _ _ _ l ih => simp_all [l, Ne.symm]

theorem Literal.read_cons {c : Char} (hquote : c ≠ '"') (hline : c ≠ '\n') (hslash : c ≠ '\\')
    (rest : List Char) : Literal.read (c :: rest) =
      ⟨c :: (Literal.read rest).raw, (Literal.read rest).closed, (Literal.read rest).rest⟩ := by
  rw [Literal.read] <;> simp [hquote, hline, hslash]

theorem Literal.read_backslash {c : Char} (hline : c ≠ '\n') (rest : List Char) :
    Literal.read ('\\' :: c :: rest) =
      ⟨'\\' :: c :: (Literal.read rest).raw, (Literal.read rest).closed,
        (Literal.read rest).rest⟩ := by
  rw [Literal.read]
  simp [hline]

theorem comparison_cases {c : Char} (h : isComparison c = true) (b : Bool) :
    (∃ p, comparison c b = .ok (.punct p)) ∨
      b = false ∧ comparison c b = .error (.unexpectedCharacter c) := by
  have hc : ((c = '=' ∨ c = '<') ∨ c = '>') ∨ c = '!' := by simpa [isComparison] using h
  obtain ((rfl | rfl) | rfl) | rfl := hc <;> cases b
  all_goals first | exact .inl ⟨_, rfl⟩ | exact .inr ⟨rfl, rfl⟩

/-- A number that is none has digits only. -/
theorem describes_of_numberKind_eq_error {whole places rest : List Char} {e : LexicalError}
    (h : numberKind whole places = .error e) (hne : whole ≠ [])
    (hdigits : ∀ c ∈ whole, c.isDigit = true) : e.Describes (whole ++ places) rest := by
  unfold numberKind at h
  split at h
  · rename_i hplaces
    split at h
    · cases h
    · cases h
      rw [List.isEmpty_iff.1 hplaces, List.append_nil]
      exact ⟨(String.toList_ofList).symm, hne, hdigits⟩
  · cases h

theorem numberKind_ne_eof (whole places : List Char) : numberKind whole places ≠ .ok .eof := by
  unfold numberKind
  split
  · split <;> exact nofun
  · exact nofun

theorem wordKind_ne_eof (word : String) : wordKind word ≠ .eof := by
  unfold wordKind
  split <;> exact nofun

/-- Whether a lexeme is a token that is not the end of the text, or else is none for the reason
that it gives. -/
def Lexeme.IsSound (l : Lexeme) : Prop :=
  l.kind ≠ .ok .eof ∧ ∀ cause, l.kind = .error cause → cause.Describes l.text l.rest

theorem Lexeme.isSound_of_ok {l : Lexeme} {kind : TokenKind} (h : l.kind = .ok kind)
    (hkind : kind ≠ .eof) : l.IsSound := by
  refine ⟨fun heof => hkind (Except.ok.inj (h.symm.trans heof)), fun cause herror => ?_⟩
  rw [h] at herror
  cases herror

theorem Lexeme.isSound_of_error {l : Lexeme} {cause : LexicalError} (h : l.kind = .error cause)
    (hcause : cause.Describes l.text l.rest) : l.IsSound := by
  refine ⟨fun heof => ?_, fun cause' herror => ?_⟩
  · rw [h] at heof
    cases heof
  · rw [h] at herror
    cases herror
    exact hcause

theorem Lexeme.isSound_next (c : Char) (cs : List Char) : (Lexeme.next c cs).IsSound := by
  unfold Lexeme.next
  split
  · exact isSound_of_ok rfl TokenKind.noConfusion
  · split
    · exact isSound_of_ok rfl TokenKind.noConfusion
    · split
      · rename_i hc
        split
        · obtain ⟨p, hp⟩ | ⟨hb, -⟩ := comparison_cases hc true
          · exact isSound_of_ok hp TokenKind.noConfusion
          · cases hb
        · obtain ⟨p, hp⟩ | ⟨-, he⟩ := comparison_cases hc false
          · exact isSound_of_ok hp TokenKind.noConfusion
          · exact isSound_of_error he rfl
      · split
        · rename_i hc
          obtain ⟨hraw, hends⟩ := Literal.read_runsOut cs
          dsimp only
          cases hclosed : (Literal.read cs).closed with
          | true => exact isSound_of_ok rfl TokenKind.noConfusion
          | false =>
            refine isSound_of_error rfl ⟨⟨_, congrArg (· :: _) hc, ?_⟩, hends hclosed⟩
            simpa [Literal.quote, hclosed] using hraw
        · split
          · exact isSound_of_ok rfl (wordKind_ne_eof _)
          · split
            · rename_i hdigit
              refine ⟨numberKind_ne_eof _ _, fun cause h => ?_⟩
              refine describes_of_numberKind_eq_error h (List.cons_ne_nil _ _) ?_
              exact List.forall_mem_cons.2 ⟨hdigit, List.all_eq_true.1 List.all_takeWhile⟩
            · exact isSound_of_error rfl rfl

/-! ### Cutting a text -/

namespace Scan

theorem ofChars_of_nil {cs : List Char} (h : (splitGap cs).2 = []) (p : Position) :
    ofChars p cs = ⟨[⟨.eof, .between (p.advanceAll (splitGap cs).1)
      (p.advanceAll (splitGap cs).1)⟩], []⟩ := by
  rw [ofChars]
  dsimp only
  split
  · rfl
  · rename_i hcons
    rw [h] at hcons
    cases hcons

theorem ofChars_of_cons {c : Char} {cs rest : List Char} (h : (splitGap cs).2 = c :: rest)
    (p : Position) : ofChars p cs =
      (ofChars ((p.advanceAll (splitGap cs).1).advanceAll (Lexeme.next c rest).text)
        (Lexeme.next c rest).rest).cons (p.advanceAll (splitGap cs).1) (Lexeme.next c rest) := by
  rw [ofChars]
  dsimp only
  split
  · rename_i hnil
    rw [h] at hnil
    cases hnil
  · rename_i d rest' hcons
    rw [h] at hcons
    cases hcons
    rfl

variable {source : String}

/-- What is made of a source text from the character number `i` on, stretch by stretch. -/
inductive Cuts (source : String) : Nat → Scan → Prop
  | done : Cuts source source.toList.length
      ⟨[⟨.eof, .between (.ofIndex source source.toList.length)
        (.ofIndex source source.toList.length)⟩], []⟩
  | blank {i : Nat} {c : Char} {s : Scan} : source.toList[i]? = some c → isGap c = true →
      Cuts source (i + 1) s → Cuts source i s
  | comment {s : Scan} (x : Stretch source) : x.IsComment → Cuts source x.stop s →
      Cuts source x.start s
  | token {s : Scan} {kind : TokenKind} (x : Stretch source) : x.start < x.stop → kind ≠ .eof →
      Cuts source x.stop s → Cuts source x.start { s with tokens := ⟨kind, x.span⟩ :: s.tokens }
  | report {s : Scan} {r : LexicalReport} (x : Stretch source) : x.Reports r →
      Cuts source x.stop s → Cuts source x.start { s with errors := r :: s.errors }

namespace Cuts

variable {i k : Nat} {s : Scan}

/-- Tokens stand where the text that is cut begins, or behind. -/
theorem le_start (h : Cuts source i s) :
    ∀ t ∈ s.tokens, (Position.ofIndex source i).offset ≤ t.span.start := by
  induction h with
  | done => exact List.forall_mem_singleton.2 (Nat.le_refl _)
  | blank _ _ _ ih =>
    exact fun t ht => Nat.le_trans (Position.offset_ofIndex_mono (Nat.le_succ _)) (ih t ht)
  | comment x _ _ ih | report x _ _ ih =>
    exact fun t ht => Nat.le_trans (Position.offset_ofIndex_mono x.start_le) (ih t ht)
  | token x _ _ _ ih =>
    refine List.forall_mem_cons.2 ⟨Nat.le_refl _, fun t ht => ?_⟩
    exact Nat.le_trans (Position.offset_ofIndex_mono x.start_le) (ih t ht)

theorem pairwise_tokens (h : Cuts source i s) :
    s.tokens.Pairwise fun t u => t.span.stop ≤ u.span.start := by
  induction h with
  | done => exact List.pairwise_singleton _ _
  | blank _ _ _ ih | comment _ _ _ ih | report _ _ _ ih => exact ih
  | token x _ _ h ih => exact List.pairwise_cons.2 ⟨h.le_start, ih⟩

theorem exists_tokens_eq_append (h : Cuts source i s) :
    ∃ ts, s.tokens = ts ++ [⟨.eof, .between (.ofIndex source source.toList.length)
        (.ofIndex source source.toList.length)⟩] ∧
      ∀ t ∈ ts, t.kind ≠ .eof ∧ t.span.start < t.span.stop := by
  induction h with
  | done => exact ⟨[], rfl, List.forall_mem_nil _⟩
  | blank _ _ _ ih | comment _ _ _ ih | report _ _ _ ih => exact ih
  | @token s kind x hx hkind _ ih =>
    obtain ⟨ts, hs, hts⟩ := ih
    have hx : x.span.start < x.span.stop := Position.offset_ofIndex_lt hx x.stop_le
    exact ⟨⟨kind, x.span⟩ :: ts, by rw [hs, List.cons_append],
      List.forall_mem_cons.2 ⟨⟨hkind, hx⟩, hts⟩⟩

theorem exists_span_eq (h : Cuts source i s) :
    ∀ t ∈ s.tokens, ∃ x : Stretch source, t.span = x.span := by
  induction h with
  | done =>
    exact List.forall_mem_singleton.2 ⟨⟨_, _, Nat.le_refl _, Nat.le_refl _⟩, rfl⟩
  | blank _ _ _ ih | comment _ _ _ ih | report _ _ _ ih => exact ih
  | token x _ _ _ ih => exact List.forall_mem_cons.2 ⟨⟨x, rfl⟩, ih⟩

theorem exists_reports (h : Cuts source i s) :
    ∀ r ∈ s.errors, ∃ x : Stretch source, x.Reports r := by
  induction h with
  | done => exact List.forall_mem_nil _
  | blank _ _ _ ih | comment _ _ _ ih | token _ _ _ _ ih => exact ih
  | report x hx _ ih => exact List.forall_mem_cons.2 ⟨⟨x, hx⟩, ih⟩

/-- Every character of the text that is cut lies in a token, is a blank, or lies in a comment or
in a lexeme that is reported, which no token meets. -/
theorem accounts (h : Cuts source i s) (hik : i ≤ k) (hk : k < source.toList.length) :
    (∃ t ∈ s.tokens, ∃ x : Stretch source, t.span = x.span ∧ x.Holds k) ∨
      (∃ c, source.toList[k]? = some c ∧ isGap c = true) ∨
      ∃ x : Stretch source, i ≤ x.start ∧ x.Holds k ∧ x.IsApart s.tokens ∧
        (x.IsComment ∨ ∃ r ∈ s.errors, x.Reports r) := by
  induction h with
  | done => exact absurd hk (Nat.not_lt.2 hik)
  | @blank i c s hc hgap h ih =>
    obtain rfl | hlt := Nat.eq_or_lt_of_le hik
    · exact .inr (.inl ⟨c, hc, hgap⟩)
    · obtain hx | hx | ⟨x, hx, hrest⟩ := ih hlt
      · exact .inl hx
      · exact .inr (.inl hx)
      · exact .inr (.inr ⟨x, Nat.le_of_succ_le hx, hrest⟩)
  | @comment s x hx h ih =>
    by_cases hlt : k < x.stop
    · exact .inr (.inr ⟨x, Nat.le_refl _, ⟨hik, hlt⟩, fun t ht => .inr (h.le_start t ht), .inl hx⟩)
    · obtain hy | hy | ⟨y, hy, hrest⟩ := ih (Nat.not_lt.1 hlt)
      · exact .inl hy
      · exact .inr (.inl hy)
      · exact .inr (.inr ⟨y, Nat.le_trans x.start_le hy, hrest⟩)
  | @token s kind x hx hkind h ih =>
    by_cases hlt : k < x.stop
    · exact .inl ⟨_, List.mem_cons_self, x, rfl, hik, hlt⟩
    · obtain ⟨t, ht, hy⟩ | hy | ⟨y, hy, hholds, hapart, hrest⟩ := ih (Nat.not_lt.1 hlt)
      · exact .inl ⟨t, List.mem_cons_of_mem _ ht, hy⟩
      · exact .inr (.inl hy)
      · refine .inr (.inr ⟨y, Nat.le_trans x.start_le hy, hholds, ?_, hrest⟩)
        exact List.forall_mem_cons.2 ⟨.inl (Position.offset_ofIndex_mono hy), hapart⟩
  | @report s r x hx h ih =>
    by_cases hlt : k < x.stop
    · exact .inr (.inr ⟨x, Nat.le_refl _, ⟨hik, hlt⟩, fun t ht => .inr (h.le_start t ht),
        .inr ⟨r, List.mem_cons_self, hx⟩⟩)
    · obtain hy | hy | ⟨y, hy, hholds, hapart, hrest⟩ := ih (Nat.not_lt.1 hlt)
      · exact .inl hy
      · exact .inr (.inl hy)
      · refine .inr (.inr ⟨y, Nat.le_trans x.start_le hy, hholds, hapart, ?_⟩)
        exact hrest.imp_right fun ⟨r, hr, hy⟩ => ⟨r, List.mem_cons_of_mem _ hr, hy⟩

/-! Scanning finds such stretches one after the other. -/

theorem blanks {cs rest : List Char} (hdrop : source.toList.drop i = cs ++ rest)
    (hcs : ∀ c ∈ cs, isGap c = true) (h : Cuts source (i + cs.length) s) : Cuts source i s := by
  induction cs generalizing i with
  | nil => exact h
  | cons c cs ih =>
    obtain ⟨hc, hcs⟩ := List.forall_mem_cons.1 hcs
    refine .blank (getElem?_of_drop_eq_cons hdrop) hc
      (ih (drop_succ_of_drop_eq_cons hdrop) hcs ?_)
    rwa [Nat.add_assoc, Nat.add_comm 1]

theorem gap (hi : i ≤ source.toList.length)
    (h : Cuts source (i + (splitGap (source.toList.drop i)).1.length) s) : Cuts source i s := by
  obtain ⟨blanks, comment, happend, hblanks, hcomment⟩ := exists_splitGap (source.toList.drop i)
  have hdrop := (splitGap_append (source.toList.drop i)).symm
  rw [happend, List.append_assoc] at hdrop
  rw [happend, List.length_append, ← Nat.add_assoc] at h
  refine .blanks hdrop hblanks ?_
  obtain rfl | hcomment := hcomment
  · exact h
  · refine .comment (.ofChars (drop_add hdrop) (add_length_le hdrop hi)) ?_ h
    rwa [Stretch.IsComment, Stretch.text_ofChars, Stretch.rest_ofChars]

theorem lexeme {c : Char} {cs : List Char} (hdrop : source.toList.drop i = c :: cs)
    (hi : i ≤ source.toList.length)
    (h : Cuts source (i + (Lexeme.next c cs).text.length) s) :
    Cuts source i (s.cons (.ofIndex source i) (Lexeme.next c cs)) := by
  rw [← Lexeme.text_append_rest c cs] at hdrop
  obtain ⟨hkind, hdescribes⟩ := Lexeme.isSound_next c cs
  unfold Scan.cons
  split
  · rename_i kind hok
    rw [hok] at hkind
    rw [← Stretch.span_ofChars hdrop hi]
    refine .token (.ofChars hdrop hi) ?_ (fun heof => hkind (congrArg Except.ok heof)) h
    exact Nat.lt_add_of_pos_right (List.length_pos_iff.2 (Lexeme.text_ne_nil c cs))
  · rename_i cause herror
    refine .report (.ofChars hdrop hi) ⟨rfl, rfl, ?_⟩ h
    rw [Stretch.text_ofChars, Stretch.rest_ofChars]
    exact hdescribes cause herror

end Cuts

/-- Scanning cuts a text. -/
theorem cuts_ofChars {i : Nat} (hi : i ≤ source.toList.length) :
    Cuts source i (ofChars (.ofIndex source i) (source.toList.drop i)) := by
  induction hn : source.toList.length - i using Nat.strongRecOn generalizing i with
  | ind n ih =>
    have hgap := (splitGap_append (source.toList.drop i)).symm
    have hdrop := drop_add hgap
    have hle := add_length_le hgap hi
    cases hrest : (splitGap (source.toList.drop i)).2 with
    | nil =>
      rw [hrest] at hdrop
      rw [ofChars_of_nil hrest, ← Position.ofIndex_add hgap]
      refine .gap hi ?_
      rw [Nat.le_antisymm hle (List.drop_eq_nil_iff.1 hdrop)]
      exact .done
    | cons c cs =>
      rw [hrest] at hdrop
      have hlexeme := hdrop
      rw [← Lexeme.text_append_rest c cs] at hlexeme
      have hlt := List.length_pos_iff.2 (Lexeme.text_ne_nil c cs)
      have hle' := add_length_le hlexeme hle
      rw [ofChars_of_cons hrest, ← Position.ofIndex_add hgap, ← Position.ofIndex_add hlexeme]
      conv_rhs => rw [← drop_add hlexeme]
      exact .gap hi (.lexeme hdrop hle (ih _ (by omega) hle' rfl))

end Scan

/-! ### Exact places -/

/-- A scan of a source text whose tokens and reports stand exactly where the text has them, and
that leaves no character out. -/
structure Scan.IsExact (source : String) (s : Scan) : Prop where
  /-- The spans follow each other and have nothing in common. -/
  ordered : s.tokens.Pairwise fun t u => t.span.stop ≤ u.span.start
  /-- The last token is the end of the text; every other one is something else, and not empty. -/
  ended : ∃ ts last, s.tokens = ts ++ [last] ∧ last.kind = .eof ∧
    last.span.start = source.utf8ByteSize ∧ last.span.stop = source.utf8ByteSize ∧
    ∀ t ∈ ts, t.kind ≠ .eof ∧ t.span.start < t.span.stop
  /-- Every span is that of a stretch of characters, with the line and the column of its first. -/
  placed : ∀ t ∈ s.tokens, ∃ x : Stretch source, t.span = x.span
  /-- Every report is about a stretch of characters, at the line and the column of its first. -/
  reported : ∀ r ∈ s.errors, ∃ x : Stretch source, x.Reports r
  /-- A character that lies in no token is a blank, or lies in a comment or in a lexeme that is
  reported. -/
  covered : ∀ k < source.toList.length,
    (∃ t ∈ s.tokens, ∃ x : Stretch source, t.span = x.span ∧ x.Holds k) ∨
      (∃ c, source.toList[k]? = some c ∧ isGap c = true) ∨
      ∃ x : Stretch source, x.Holds k ∧ x.IsApart s.tokens ∧
        (x.IsComment ∨ ∃ r ∈ s.errors, x.Reports r)

theorem Token.cuts_scan (source : String) : Scan.Cuts source 0 (Token.scan source) := by
  have hstart : Position.ofIndex source 0 = .start := Position.ofIndex_zero
  rw [Token.scan, ← hstart, ← List.drop_zero (l := source.toList)]
  exact Scan.cuts_ofChars (Nat.zero_le _)

/-- Tokens and reports stand exactly where the text has them. -/
theorem Token.isExact_scan (source : String) : (Token.scan source).IsExact source := by
  have hcuts := Token.cuts_scan source
  refine ⟨hcuts.pairwise_tokens, ?_, hcuts.exists_span_eq, hcuts.exists_reports, fun k hk => ?_⟩
  · obtain ⟨ts, hts, hall⟩ := hcuts.exists_tokens_eq_append
    exact ⟨ts, _, hts, rfl, Position.offset_ofIndex_length, Position.offset_ofIndex_length, hall⟩
  · obtain h | h | ⟨x, -, hx⟩ := hcuts.accounts (Nat.zero_le k) hk
    · exact .inl h
    · exact .inr (.inl h)
    · exact .inr (.inr ⟨x, hx⟩)

/-- A letter of two bytes takes one column. -/
example : Token.scan "é # é\n@" =
    ⟨[⟨.name "é", ⟨0, 2, 1, 1⟩⟩, ⟨.newline, ⟨7, 8, 1, 6⟩⟩, ⟨.eof, ⟨9, 9, 2, 2⟩⟩],
      [⟨.unexpectedCharacter '@', 2, 1⟩]⟩ := by
  decide +kernel

end NumericScript
