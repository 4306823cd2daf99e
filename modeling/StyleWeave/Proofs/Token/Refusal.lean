import StyleWeave.Proofs.Token.Nesting
import StyleWeave.Proofs.Token.Standing

/-!
# Where a text is refused

A text without a token stream has a lexeme that cannot be placed, behind lexemes that can, or its
brackets are still open at its end (`refused_of_tokenize`). The error has the line of that lexeme,
with one exception: for a string or a comment without end, the line breaks of the comments right in
front of it do not count.
-/

namespace StyleWeave

open Text (bytes bytes_append)
open Lexeme (ofText)

/-- The fault is a string or a comment without end. -/
def ParseError.isOpen : ParseError → Bool
  | .unterminatedString _ | .unterminatedComment _ => true
  | _ => false

namespace Layout

variable {s s' : State} {l : Lexeme} {lexemes : List Lexeme} {front before : List Char}
variable {e : ParseError}

/-- Why a lexeme cannot be placed behind the text `front`. -/
inductive Refuses (s : State) (l : Lexeme) (front : List Char) : ParseError → Prop where
  | string {line : Nat} (kind : l.kind = .openString) : Refuses s l front (.unterminatedString line)
  | comment {line : Nat} (kind : l.kind = .openComment) :
      Refuses s l front (.unterminatedComment line)
  /-- The first token of a line stands less far in than the innermost block, and no block further
  out starts in its column. -/
  | indentation {t : Token} {line : Nat} {above within : List Char} (kind : l.kind = .token t)
      (newline : t ≠ .newline) (first : s.fresh = true ∨ '\n' ∈ l.gap) (braces : s.braces = 0)
      (parens : s.parens = 0) (split : front = above ++ within) (feed : '\n' ∉ within)
      (starts : above = [] ∨ above.getLast? = some '\n') (shallow : bytes within < column s.columns)
      (between : bytes within ≠ column (outdent (bytes within) s.columns)) :
      Refuses s l front (.indentation line)
  | brace {line : Nat} (kind : l.kind = .token .closeBrace) (none_ : s.braces = 0) :
      Refuses s l front (.unbalanced line)
  | paren {line : Nat} (kind : l.kind = .token .closeParen) (none_ : s.parens = 0) :
      Refuses s l front (.unbalanced line)

/-- A lexeme that cannot be placed has its line in the error, unless it is open to the end of the
text: then its gap is not looked at. -/
theorem refuses_of_place (h : s.OnLine before) (hoffset : s.offset = bytes before)
    (hplace : place s l = .error e) :
    Refuses s l (before ++ l.gap) e ∧
      e.line = 1 + (if e.isOpen then before else before ++ l.gap).count '\n' := by
  have hgap := passGap_onLine h hoffset l.gap
  obtain ⟨-, hfresh, hcolumns, hbraces, hparens⟩ := passGap_state s l.gap
  obtain ⟨gap, kind, text⟩ := l
  cases kind with
  | openString =>
    obtain rfl := Except.error.inj hplace
    refine ⟨.string rfl, ?_⟩
    show s.line + 1 = 1 + before.count '\n'
    rw [h.line, Nat.add_comm]
  | openComment =>
    obtain rfl := Except.error.inj hplace
    refine ⟨.comment rfl, ?_⟩
    show s.line + 1 = 1 + before.count '\n'
    rw [h.line, Nat.add_comm]
  | token t =>
    dsimp only at hgap hfresh hcolumns hbraces hparens
    have hput : put (passGap s gap).2 (s.offset + bytes gap) (s.offset + bytes gap + bytes text) t =
        .error e := by
      rw [place_token] at hplace
      cases hput : put (passGap s gap).2 (s.offset + bytes gap)
          (s.offset + bytes gap + bytes text) t with
      | error e' =>
        rw [hput] at hplace
        exact congrArg _ (Except.error.inj hplace)
      | ok placed =>
        rw [hput] at hplace
        cases hplace
    have hline : 1 + (before ++ gap).count '\n' = (passGap s gap).2.line + 1 := by
      rw [hgap.line, Nat.add_comm]
    obtain ⟨hnewline, hlayout | ⟨layout, s₁, hlaid, hbracket⟩⟩ := put_error hput
    · obtain ⟨hfirst, hnone, hnone', hle, hcolumn, rfl⟩ := indentation_error hlayout
      obtain ⟨above, within, hsplit, hwithin, hstart, habove⟩ := hgap.lineStart
      have hwidth : s.offset + bytes gap - (passGap s gap).2.lineStart = bytes within := by
        have hbytes := congrArg bytes hsplit
        rw [bytes_append, bytes_append] at hbytes
        omega
      rw [hwidth, hcolumns] at hle hcolumn
      have hshallow : bytes within < column s.columns := by
        refine Nat.lt_of_le_of_ne hle fun heq => hcolumn ?_
        -- No block would have to end.
        cases hs : s.columns with
        | nil => simpa [column, outdent, hs] using heq
        | cons inner outer =>
          rw [hs] at heq
          have hinner : bytes within = inner := heq
          simp [column, outdent, hinner]
      refine ⟨.indentation rfl hnewline ?_ (hbraces ▸ hnone) (hparens ▸ hnone') hsplit hwithin
        habove hshallow hcolumn, hline.symm⟩
      rw [hfresh, Bool.or_eq_true] at hfirst
      exact hfirst.imp id fun hmem => by simpa using hmem
    · obtain ⟨rfl, hclosing⟩ := bracket_error hbracket
      obtain ⟨-, -, hs₁, -, hbraces₁, hparens₁⟩ := hlaid.frame
      refine ⟨?_, ?_⟩
      · rcases hclosing with ⟨rfl, hnone⟩ | ⟨rfl, hnone⟩
        · exact .brace rfl ((hbraces₁.trans hbraces).symm.trans hnone)
        · exact .paren rfl ((hparens₁.trans hparens).symm.trans hnone)
      · show s₁.line + 1 = 1 + (before ++ gap).count '\n'
        rw [hs₁, hline]

/-- A pass that fails stops at a lexeme, or it is behind the last one. -/
theorem run_error {size : Nat} (h : run size s lexemes = .error e) :
    (∃ s', advance s lexemes = .ok s' ∧ finish s' size = .error e) ∨
      ∃ done l rest s', lexemes = done ++ l :: rest ∧ advance s done = .ok s' ∧
        place s' l = .error e := by
  induction lexemes generalizing s with
  | nil => exact Or.inl ⟨s, rfl, h⟩
  | cons l lexemes ih =>
    cases hplace : place s l with
    | error e' =>
      unfold run at h
      rw [hplace] at h
      obtain rfl := Except.error.inj h
      exact Or.inr ⟨[], l, lexemes, s, rfl, rfl, hplace⟩
    | ok placed =>
      obtain ⟨items, s₁⟩ := placed
      have hstep : ∀ ls, advance s (l :: ls) = advance s₁ ls := by
        intro ls
        rw [advance, hplace]
        rfl
      have hrun : run size s₁ lexemes = .error e := by
        unfold run at h
        rw [hplace] at h
        simp only [bind, Except.bind] at h
        cases hrest : run size s₁ lexemes with
        | error e' =>
          rw [hrest] at h
          exact congrArg _ (Except.error.inj h)
        | ok others =>
          rw [hrest] at h
          cases h
      rcases ih hrun with ⟨s', hadvance, hfinish⟩ | ⟨done, l', rest, s', hsplit, hadvance, hfail⟩
      · exact Or.inl ⟨s', (hstep _).trans hadvance, hfinish⟩
      · refine Or.inr ⟨l :: done, l', rest, s', ?_, (hstep _).trans hadvance, hfail⟩
        rw [hsplit, List.cons_append]

end Layout

open Layout (advance Refuses)

/-- Why a text has no token stream, and where. The line breaks in front of the lexeme that cannot be
placed are counted in full unless that is open to the end of the text and has line breaks in the
comments of its gap. -/
theorem refused_of_tokenize {source : List Char} {e : ParseError} (h : tokenize source = .error e) :
    (∃ s, advance {} (ofText source) = .ok s ∧ (s.braces ≠ 0 ∨ s.parens ≠ 0) ∧
      e = .unbalanced (1 + (textOf (ofText source)).count '\n')) ∨
    ∃ done l rest s, ofText source = done ++ l :: rest ∧ advance {} done = .ok s ∧
      textOf done ++ l.gap ++ l.text <+: source ∧ Refuses s l (textOf done ++ l.gap) e ∧
      e.line = 1 + (if e.isOpen then textOf done else textOf done ++ l.gap).count '\n' ∧
      (e.line = 1 + (textOf done ++ l.gap).count '\n' ↔ ¬ (e.isOpen = true ∧ '\n' ∈ l.gap)) := by
  have hshaped : ∀ l ∈ ofText source, l.Shaped := fun l hl => Lexeme.shaped_of_mem_ofText hl
  rcases Layout.run_error h with
    ⟨s, hadvance, hfinish⟩ | ⟨done, l, rest, s, hsplit, hadvance, hfail⟩
  · left
    obtain ⟨hline, -⟩ := Layout.onLine_of_advance Layout.onLine_start rfl hshaped hadvance
    rw [List.nil_append] at hline
    obtain ⟨hopen, rfl⟩ := Layout.finish_error hfinish
    refine ⟨s, hadvance, hopen, ?_⟩
    rw [hline.line, Nat.add_comm]
  · right
    have hdone : ∀ l ∈ done, l.Shaped := fun l' hl' =>
      hshaped l' (by rw [hsplit]; exact List.mem_append_left _ hl')
    obtain ⟨hline, hoffset⟩ := Layout.onLine_of_advance Layout.onLine_start rfl hdone hadvance
    rw [List.nil_append] at hline hoffset
    obtain ⟨hrefuses, hcount⟩ := Layout.refuses_of_place hline hoffset hfail
    have hprefix : textOf done ++ l.gap ++ l.text <+: source := by
      obtain ⟨⟨tail, htail⟩, -⟩ := Lexeme.flatMap_ofText source
      refine ⟨textOf rest ++ tail, ?_⟩
      have hcut : source = textOf (ofText source) ++ tail := htail
      rw [hsplit] at hcut
      rw [hcut]
      simp
    refine ⟨done, l, rest, s, hsplit, hadvance, hprefix, hrefuses, hcount, ?_⟩
    rw [hcount, List.count_append]
    cases hopen : e.isOpen with
    | false =>
      rw [if_neg (by simp), List.count_append]
      simp
    | true =>
      rw [if_pos rfl]
      by_cases hfeed : '\n' ∈ l.gap
      · have hpos := List.count_pos_iff.2 hfeed
        constructor
        · intro heq
          omega
        · intro hnot
          exact absurd ⟨rfl, hfeed⟩ hnot
      · have hzero := List.count_eq_zero.2 hfeed
        constructor
        · rintro - ⟨-, hmem⟩
          exact hfeed hmem
        · intro _
          omega

/-- The comment in front of the string ends on the second line. -/
theorem line_of_open_string :
    ∃ l rest, ofText "/*\n*/'a\n".toList = l :: rest ∧ l.kind = .openString ∧
      1 + l.gap.count '\n' = 2 ∧
      tokenize "/*\n*/'a\n".toList = .error (.unterminatedString 1) := by
  have htext : "/*\n*/'a\n".toList = ['/', '*', '\n', '*', '/', '\'', 'a', '\n'] := by decide
  have hcomment : Lexeme.commentRest ['/', '*', '\n', '*', '/', '\'', 'a', '\n'] = some 4 := by
    decide
  have hlexemes := Lexeme.ofText_comment (by decide) hcomment
  have hstring : ofText ['\'', 'a', '\n'] = ⟨[], .openString, ['\'']⟩ :: ofText ['a', '\n'] :=
    Lexeme.ofText_lexeme (by decide) (by decide)
  rw [← htext, List.drop_succ_cons, List.drop_succ_cons, List.drop_succ_cons, List.drop_succ_cons,
    List.drop_zero, hstring] at hlexemes
  exact ⟨_, _, hlexemes, rfl, by decide, by decide +kernel⟩

/-- A line between two blocks, behind a comment that ends on it. -/
theorem refused_of_tokenize_between :
    ∃ done l rest s, ofText "a\n    b\n  /*\n*/ c".toList = done ++ l :: rest ∧
      advance {} done = .ok s ∧ Refuses s l (textOf done ++ l.gap) (.indentation 4) ∧
      4 = 1 + (textOf done ++ l.gap).count '\n' := by
  have herror : tokenize "a\n    b\n  /*\n*/ c".toList = .error (.indentation 4) := by
    decide +kernel
  rcases refused_of_tokenize herror with ⟨s, -, -, hopen⟩ |
    ⟨done, l, rest, s, hsplit, hadvance, -, hrefuses, hcount, -⟩
  · cases hopen
  · exact ⟨done, l, rest, s, hsplit, hadvance, hrefuses, hcount⟩

end StyleWeave
